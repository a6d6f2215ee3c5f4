import Autodiff.Proofs.Rebuilding

namespace Autodiff

variable {α : Type} [Scalar α]

namespace Build

omit [Scalar α] in
theorem mapM_ofExcept {β γ : Type} {r : β → Except (Failure α) γ} {f : β → γ} {xs : List β}
    (h : ∀ x ∈ xs, r x = .ok (f x)) :
    (xs.mapM fun x => ofExcept (r x)) = (pure (xs.map f) : Build α (List γ)) := by
  induction xs with
  | nil => rfl
  | cons x xs ih =>
    rw [List.mapM_cons, ih fun y hy => h y (by simp [hy]), h x (by simp)]
    rfl

/-- Rebuilding a node builds it on the images of its operands, if one of them is not its own. -/
theorem rebuild_eq {slots : Graph.Slots} {values : Array α} {image : Array Expr} {i : Nat}
    {node : Node α} {f : Expr → Expr} (hvar : ∀ id, node ≠ .variable id)
    (hf : ∀ a ∈ node.operands, fetch (α := α) image a.index = .ok (f a)) :
    ((∀ a ∈ node.operands, f a = a) ∧ rebuild slots values image i node = pure none) ∨
    ((∃ a ∈ node.operands, f a ≠ a) ∧ rebuild slots values image i node =
      do return some (← ofNode (node.relocate f))) := by
  cases node with
  | constant c => exact .inl ⟨by simp [Node.operands], rfl⟩
  | «variable» id => exact absurd rfl (hvar id)
  | unary op arg =>
    have harg := hf arg (by simp [Node.operands])
    simp only [Node.operands, List.mem_singleton, forall_eq, exists_eq_left, rebuild, harg,
      ofExcept, pure_bind]
    by_cases ha : f arg = arg
    · exact .inl ⟨ha, if_pos ha⟩
    · refine .inr ⟨ha, ?_⟩
      rw [if_neg ha]
      cases op with
      | _ => rfl
  | binary op lhs rhs =>
    have hl := hf lhs (by simp [Node.operands])
    have hr := hf rhs (by simp [Node.operands])
    have hmem : ∀ q : Expr → Prop, (∀ a ∈ (Node.binary op lhs rhs : Node α).operands, q a) ↔
        q lhs ∧ q rhs := by simp [Node.operands]
    simp only [rebuild, hl, hr, ofExcept, pure_bind]
    by_cases hab : f lhs = lhs ∧ f rhs = rhs
    · exact .inl ⟨(hmem _).mpr hab, if_pos hab⟩
    · refine .inr ⟨?_, ?_⟩
      · by_contra hall
        push Not at hall
        exact hab ((hmem _).mp hall)
      · rw [if_neg hab]
        cases op with
        | _ => rfl
  | power base n =>
    have hb := hf base (by simp [Node.operands])
    simp only [Node.operands, List.mem_singleton, forall_eq, exists_eq_left, rebuild, hb,
      ofExcept, pure_bind]
    by_cases ha : f base = base
    · exact .inl ⟨ha, if_pos ha⟩
    · exact .inr ⟨ha, if_neg ha⟩
  | sum terms =>
    have hsame : terms.map f = terms ↔ ∀ t ∈ terms, f t = t := by
      simpa using (List.map_inj_left : terms.map f = terms.map id ↔ _)
    have hmapped : (terms.mapM fun t => ofExcept (fetch image t.index)) =
        (pure (terms.map f) : Build α (List Expr)) := mapM_ofExcept hf
    simp only [rebuild, hmapped, pure_bind]
    by_cases hterms : terms.map f = terms
    · exact .inl ⟨hsame.mp hterms, if_pos hterms⟩
    · refine .inr ⟨?_, if_neg hterms⟩
      by_contra hall
      push Not at hall
      exact hterms (hsame.mpr hall)

/-- A variable without a slot stays, and one with a slot becomes a constant. -/
theorem rebuild_variable {slots : Graph.Slots} (values : Array α) (image : Array Expr) {i : Nat}
    {id : VarId} (hi : i < slots.size) :
    (slots.at i = none → rebuild slots values image i (.variable id) = pure none) ∧
    ∀ k c, slots.at i = some k → values[k]? = some c →
      rebuild slots values image i (.variable id) = do return some (← constant c) := by
  have hfetch : fetch (α := α) slots i = .ok (slots.at i) := by
    rw [Graph.Slots.at, Array.getElem?_eq_getElem hi]
    exact fetch_eq_ok (Array.getElem?_eq_getElem hi)
  refine ⟨fun hat => ?_, fun k c hat hc => ?_⟩
  · simp only [rebuild, hfetch, hat, ofExcept, pure_bind]
  · simp only [rebuild, hfetch, hat, ofExcept, pure_bind, fetch_eq_ok hc]

/-- The images of the nodes below a root when the listed variables are replaced by constants. The
other nodes are their own images. -/
def images (root : Expr) (vars : List Var) (values : List α) : Build α (Array Expr) :=
  if vars.length ≠ values.length then
    throw (.refused (.lengthMismatch vars.length values.length))
  else do
    let g ← get
    let order ← ofExcept (g.reachable root)
    let slots ← ofExcept (g.bind vars g.unbound 0)
    let unchanged := ((List.range (root.index + 1)).map Expr.mk).toArray
    order.foldlM (substituteStep slots values.toArray) unchanged

theorem substitute_eq (root : Expr) (vars : List Var) (values : List α) :
    substitute root vars values =
      images root vars values >>= fun image => ofExcept (fetch image root.index) := by
  unfold substitute images
  split
  next => rfl
  next => simp only [bind_assoc]

end Build

/-- A relation between the nodes of a graph and what they become in later graphs under a
substitution. It is kept by later graphs, it holds of constants in place of variables, of a node in
its own place if it holds of its operands, and of what is built for a node on the images of its
operands, if one of these is not its own. -/
structure Translation (g : Graph α) (vars : List Var) (values : List α)
    (rel : Nat → Graph α → Expr → Prop) : Prop where
  owned : ∀ {i h e}, rel i h e → e.index < h.size
  extend : ∀ {i h h' e}, rel i h e → h.Extends h' → rel i h' e
  replaced : ∀ {i id k c h e}, g.nodes[i]? = some (.variable id) → position vars i = some k →
    values[k]? = some c → h.nodes[e.index]? = some (.constant c) → rel i h e
  kept : ∀ {i node h}, g.nodes[i]? = some node → g.Extends h → position vars i = none →
    (∀ a ∈ node.operands, a.index < i ∧ rel a.index h a) → rel i h ⟨i⟩
  rebuilt : ∀ {i node h h' e} {f : Expr → Expr}, g.nodes[i]? = some node →
    (∀ id, node ≠ .variable id) → (∀ a ∈ node.operands, a.index < i ∧ rel a.index h (f a)) →
    (∃ a ∈ node.operands, f a ≠ a) → Build.ofNode (node.relocate f) h = .ok e h' → rel i h' e

namespace Translation

variable {g : Graph α} {vars : List Var} {values : List α} {rel : Nat → Graph α → Expr → Prop}

/-- The images found so far: those of the listed nodes are related to them, and all others are the nodes
themselves. -/
structure Found (g : Graph α) (rel : Nat → Graph α → Expr → Prop) (root : Nat) (done : List Nat)
    (image : Array Expr) (h : Graph α) : Prop where
  extension : g.Extends h
  size : image.size = root + 1
  translated : ∀ i ∈ done, ∃ e, image[i]? = some e ∧ rel i h e
  rest : ∀ i ≤ root, i ∉ done → image[i]? = some ⟨i⟩

/-- One more node gets an image, which may be the node itself. -/
theorem Found.replace (hm : Translation g vars values rel) {root i : Nat} {done : List Nat}
    {image : Array Expr} {h h' : Graph α} {e : Expr} (hf : Found g rel root done image h)
    (hi : i ≤ root) (hext : h.Extends h') (hrel : rel i h' e) :
    Found g rel root (done ++ [i]) (image.setIfInBounds i e) h' := by
  have hsize : i < image.size := by
    rw [hf.size]
    omega
  refine ⟨hf.extension.trans hext, by simpa using hf.size, fun j hj => ?_, fun j hj hnot => ?_⟩
  · rw [Array.getElem?_setIfInBounds]
    split
    next heq => exact heq ▸ ⟨e, rfl, hrel⟩
    next hne =>
      have hmem : j ∈ done := by simpa [Ne.symm hne] using hj
      obtain ⟨e', he', hrel'⟩ := hf.translated j hmem
      exact ⟨e', he', hm.extend hrel' hext⟩
  · obtain ⟨hj', hne⟩ : j ∉ done ∧ j ≠ i := by simpa using hnot
    rw [Array.getElem?_setIfInBounds, if_neg (Ne.symm hne)]
    exact hf.rest j hj hj'

/-- Rebuilding a node whose operands have images gives an image of its own. -/
theorem rebuild_spec (hm : Translation g vars values rel) (hb : g.Binds vars)
    (hlen : vars.length = values.length) {slots : Graph.Slots} (hsize : slots.size = g.size)
    (hat : ∀ j, slots.at j = position vars j) {root i : Nat} {done : List Nat}
    {image : Array Expr} {h : Graph α} {node : Node α} (hf : Found g rel root done image h)
    (hn : g.nodes[i]? = some node) (hops : ∀ a ∈ node.operands, a.index < i ∧ a.index ∈ done) :
    ∃ r h', Build.rebuild slots values.toArray image i node h = .ok r h' ∧ h.Extends h' ∧
      rel i h' (r.getD ⟨i⟩) := by
  by_cases hvar : ∃ id, node = .variable id
  · obtain ⟨id, rfl⟩ := hvar
    have hi : i < slots.size := hsize ▸ Graph.size_of_node hn
    obtain ⟨hfree, hbound⟩ := Build.rebuild_variable values.toArray image hi
    cases hp : position vars i with
    | none =>
      refine ⟨none, h, ?_, .refl h, hm.kept hn hf.extension hp (by simp [Node.operands])⟩
      rw [hfree ((hat i).trans hp)]
      rfl
    | some k =>
      have hk : k < values.length := hlen ▸ position_lt hp
      have hc : values[k]? = some values[k] := List.getElem?_eq_getElem hk
      obtain ⟨e, h', he⟩ : Build.Succeeds (Build.constant values[k]) h := Build.succeeds_push _
      refine ⟨some e, h', ?_, Build.extends_of_push he, hm.replaced hn hp hc (Build.node_of_push he)⟩
      rw [hbound k values[k] ((hat i).trans hp) (by simp)]
      exact Build.bind_eq_ok.mpr ⟨e, h', he, rfl⟩
  · have hvar : ∀ id, node ≠ .variable id := fun id h => hvar ⟨id, h⟩
    have hp : position vars i = none := by
      rw [position_eq_none_iff]
      rintro x hx rfl
      exact hvar x.id (Option.some.inj (hn.symm.trans (hb.node_eq x hx)))
    let f : Expr → Expr := fun a => image[a.index]?.getD a
    have himage : ∀ a ∈ node.operands, image[a.index]? = some (f a) ∧ rel a.index h (f a) := by
      intro a ha
      obtain ⟨e, he, hrel⟩ := hf.translated a.index (hops a ha).2
      have hfa : f a = e := by simp [f, he]
      exact ⟨hfa ▸ he, hfa ▸ hrel⟩
    rcases Build.rebuild_eq hvar fun a ha => fetch_eq_ok (himage a ha).1 with
      ⟨hsame, hr⟩ | ⟨hother, hr⟩
    · refine ⟨none, h, by rw [hr]; rfl, .refl h, hm.kept hn hf.extension hp fun a ha => ?_⟩
      have hrel := (himage a ha).2
      rw [hsame a ha] at hrel
      exact ⟨(hops a ha).1, hrel⟩
    · have howned : ∀ a ∈ (node.relocate f).operands, a.index < h.size := by
        intro a ha
        rw [Node.operands_relocate] at ha
        obtain ⟨b, hb, rfl⟩ := List.mem_map.mp ha
        exact hm.owned (himage b hb).2
      obtain ⟨e, h', he⟩ := Build.succeeds_ofNode howned
      refine ⟨some e, h', ?_, (Build.ofNode_spec he).1, hm.rebuilt hn hvar (fun a ha => ?_) hother he⟩
      · rw [hr]
        exact Build.bind_eq_ok.mpr ⟨e, h', he, rfl⟩
      · exact ⟨(hops a ha).1, (himage a ha).2⟩

/-- One step finds the image of one more node. -/
theorem substituteStep_spec (hm : Translation g vars values rel) (hb : g.Binds vars)
    (hlen : vars.length = values.length) {slots : Graph.Slots} (hsize : slots.size = g.size)
    (hat : ∀ j, slots.at j = position vars j) {root i : Nat} {done : List Nat}
    {image : Array Expr} {h : Graph α} {node : Node α} (hf : Found g rel root done image h)
    (hi : i ≤ root) (hnew : i ∉ done) (hn : g.nodes[i]? = some node)
    (hops : ∀ a ∈ node.operands, a.index < i ∧ a.index ∈ done) :
    ∃ image' h', Build.substituteStep slots values.toArray image i h = .ok image' h' ∧
      Found g rel root (done ++ [i]) image' h' := by
  obtain ⟨r, h', hr, hext, hrel⟩ := hm.rebuild_spec hb hlen hsize hat hf hn hops
  have hfetch : Build.ofExcept (fetch h.nodes i) h = .ok node h := by
    rw [fetch_eq_ok (hf.extension.node hn)]
    rfl
  have hlt : i < image.size := by
    rw [hf.size]
    omega
  refine ⟨image.setIfInBounds i (r.getD ⟨i⟩), h', ?_, hf.replace hm hi hext hrel⟩
  refine Build.bind_eq_ok.mpr ⟨h, h, rfl, Build.bind_eq_ok.mpr ⟨node, h, hfetch, ?_⟩⟩
  refine Build.bind_eq_ok.mpr ⟨r, h', hr, ?_⟩
  cases r with
  | none =>
    have hsame : image.setIfInBounds i ⟨i⟩ = image := by
      obtain ⟨_, hget⟩ := Array.getElem?_eq_some_iff.mp (hf.rest i hi hnew)
      rw [← hget, Array.setIfInBounds, dif_pos hlt, Array.set_getElem_self]
    exact Build.pure_eq_ok.mpr ⟨hsame.symm, rfl⟩
  | some e =>
    change Build.ofExcept (store image i e) h' = _
    rw [store_eq_ok hlt]
    rfl

/-- The steps for the nodes in order find the images of all of them. -/
theorem foldlM_spec (hm : Translation g vars values rel) (hb : g.Binds vars)
    (hlen : vars.length = values.length) {slots : Graph.Slots} (hsize : slots.size = g.size)
    (hat : ∀ j, slots.at j = position vars j) {root : Nat} {order : List Nat}
    (ho : g.Ordered root order) (todo done : List Nat) (hsplit : done ++ todo = order)
    {image : Array Expr} {h : Graph α} (hf : Found g rel root done image h) :
    ∃ image' h', todo.foldlM (Build.substituteStep slots values.toArray) image h = .ok image' h' ∧
      Found g rel root order image' h' := by
  induction todo generalizing done image h with
  | nil =>
    rw [List.append_nil] at hsplit
    exact ⟨image, h, rfl, hsplit ▸ hf⟩
  | cons i todo ih =>
    have hmem : i ∈ order := by simp [← hsplit]
    obtain ⟨node, hn⟩ := ho.node_exists hmem
    have hnew : i ∉ done := fun hi => Nat.lt_irrefl i (ho.lt_of_before hsplit hi)
    obtain ⟨image₁, h₁, hstep, hf₁⟩ := hm.substituteStep_spec hb hlen hsize hat hf
      (ho.le_root hmem) hnew hn fun a ha => ⟨ho.operand_lt hmem hn ha, ho.operand_before hsplit hn ha⟩
    obtain ⟨image₂, h₂, hrest, hf₂⟩ := ih (done ++ [i]) (by simpa using hsplit) hf₁
    rw [List.foldlM_cons]
    exact ⟨image₂, h₂, Build.bind_eq_ok.mpr ⟨image₁, h₁, hstep, hrest⟩, hf₂⟩

/-- Different variables of the graph can be replaced in an expression whose nodes come after their
operands, and every node below gets an image that is related to it. -/
theorem images_spec (hm : Translation g vars values rel) {root : Expr} (hb : g.Binds vars)
    (hlen : vars.length = values.length) (hroot : root.index < g.size)
    (hc : g.Closed root.index) :
    ∃ image e g', Build.images root vars values g = .ok image g' ∧
      Build.substitute root vars values g = .ok e g' ∧ image[root.index]? = some e ∧
      g.Extends g' ∧ ∀ i, g.Reaches root.index i → ∃ e, image[i]? = some e ∧ rel i g' e := by
  obtain ⟨order, horder⟩ := Graph.reachable_of_closed hroot hc
  obtain ⟨slots, hslots, hsize, hat⟩ := Graph.bind_unbound_of_binds hb
  have ho := Graph.reachable_ordered horder
  have hstart : Found g rel root.index [] ((List.range (root.index + 1)).map Expr.mk).toArray g := by
    refine ⟨.refl g, by simp, by simp, fun i hi _ => ?_⟩
    have hlt : i < root.index + 1 := Nat.lt_succ_of_le hi
    simp [hlt]
  obtain ⟨image, g', hfold, hf⟩ := hm.foldlM_spec hb hlen hsize hat ho order [] rfl hstart
  have himages : Build.images root vars values g = .ok image g' := by
    have hneq : ¬vars.length ≠ values.length := not_not.mpr hlen
    rw [Build.images, if_neg hneq]
    refine Build.bind_eq_ok.mpr ⟨g, g, rfl, Build.bind_eq_ok.mpr ⟨order, g, ?_, ?_⟩⟩
    · rw [horder]
      rfl
    · refine Build.bind_eq_ok.mpr ⟨slots, g, ?_, hfold⟩
      rw [hslots]
      rfl
  obtain ⟨e, he, -⟩ := hf.translated root.index ho.root_mem
  refine ⟨image, e, g', himages, ?_, he, hf.extension, fun i hi => ?_⟩
  · rw [Build.substitute_eq]
    refine Build.bind_eq_ok.mpr ⟨image, g', himages, ?_⟩
    rw [fetch_eq_ok he]
    rfl
  · exact hf.translated i ((ho.mem_iff i).mpr hi)

/-- The image of a node depends on what the node depends on, apart from the replaced variables, and
a node that depends on none of these is its own image. -/
structure Located (g : Graph α) (vars : List Var) (i : Nat) (h : Graph α) (e : Expr) : Prop where
  confined : h.Confined (fun j => g.Reaches i j ∧ position vars j = none) e
  same : (∀ j, g.Reaches i j → position vars j = none) → e = ⟨i⟩

theorem located (g : Graph α) (vars : List Var) (values : List α) :
    Translation g vars values (Located g vars) where
  owned h := h.confined.lt
  extend h hext := ⟨h.confined.extend hext, h.same⟩
  replaced := by
    intro i id k c h e hn hp hc he
    refine ⟨.of_constant he, fun hnone => ?_⟩
    cases hp.symm.trans (hnone i (.refl i))
  kept := by
    intro i node h hn hext hp hops
    have hlt : ∀ a ∈ node.operands, a.index < i := fun a ha => (hops a ha).1
    refine ⟨.of_node (hext.node hn) hlt (fun _ _ => ⟨.refl i, hp⟩) fun a ha => ?_, fun _ => rfl⟩
    exact (hops a ha).2.confined.mono fun j hj => ⟨.step hn ha (hlt a ha) hj.1, hj.2⟩
  rebuilt := by
    intro i node h h' e f hn hvar hops hother he
    obtain ⟨hext, hstands⟩ := Build.ofNode_spec he
    have hbelow : ∀ a ∈ node.operands, ∀ j, g.Reaches a.index j → g.Reaches i j := fun a ha j hj =>
      .step hn ha (hops a ha).1 hj
    refine ⟨hstands.confined (Node.relocate_ne_variable hvar f) ?_, fun hnone => ?_⟩
    · rw [Node.operands_relocate]
      intro b hb
      obtain ⟨a, ha, rfl⟩ := List.mem_map.mp hb
      exact ((hops a ha).2.confined.extend hext).mono fun j hj => ⟨hbelow a ha j hj.1, hj.2⟩
    · obtain ⟨a, ha, hne⟩ := hother
      exact absurd ((hops a ha).2.same fun j hj => hnone j (hbelow a ha j hj)) hne

end Translation

/-- A substitution that fails is refused before anything is built. -/
theorem Build.substitute_eq_error {g g' : Graph α} {root : Expr} {vars : List Var}
    {values : List α} {e : Failure α} (h : substitute root vars values g = .error e g') :
    g' = g ∧ ∃ cause, e = .refused cause := by
  have hrefused : ∀ {β : Type} {f : β → Build α Expr} (r : Except (Failure α) β),
      (∃ cause, r = .error (.refused cause)) → (ofExcept r >>= f) g = .error e g' →
      g' = g ∧ ∃ cause, e = .refused cause := by
    rintro β f _ ⟨cause, rfl⟩ h
    cases h
    exact ⟨rfl, cause, rfl⟩
  have hrun := h
  unfold substitute at h
  split at h
  next =>
    cases h
    exact ⟨rfl, _, rfl⟩
  next hlen =>
    change (ofExcept (g.reachable root) >>= _) g = _ at h
    rcases g.reachable_spec root with ⟨order, horder, ho⟩ | ⟨k, hk, -⟩
    · rw [horder] at h
      change (ofExcept (g.bind vars g.unbound 0) >>= _) g = _ at h
      rcases g.bind_spec vars g.unbound (by simp [Graph.unbound]) 0 with ⟨hb, -⟩ | ⟨-, cause, hr, -⟩
      · -- With an order and slots at hand the substitution succeeds.
        obtain ⟨_, e', g'', -, hok, -⟩ := (Translation.located g vars values).images_spec hb
          (not_not.mp hlen) ho.root_lt ho.closed
        cases hrun.symm.trans hok
      · exact hrefused _ ⟨cause, hr⟩ h
    · exact hrefused _ ⟨_, hk⟩ h

end Autodiff
