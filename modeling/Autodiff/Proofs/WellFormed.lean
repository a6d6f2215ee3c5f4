import Autodiff.Proofs.Building
import Autodiff.Proofs.Keeping
import Autodiff.Proofs.Reachability
import Autodiff.Substitution

namespace Autodiff

variable {α β γ : Type}

/-- The identity of the variable that a node introduces. -/
def Node.varId? : Node α → Option VarId
  | .variable id => some id
  | _ => none

theorem Node.constant?_eq_none {node : Node α} (h : ∀ x, node = .constant x → False) :
    node.constant? = none := by
  cases node with
  | constant x => exact (h x rfl).elim
  | _ => rfl

namespace Graph

/-- The handle belongs to the graph. -/
def Owns (g : Graph α) (e : Expr) : Prop := e.index < g.size

theorem Owns.extend {g g' : Graph α} {e : Expr} (hg : g.Extends g') (h : g.Owns e) : g'.Owns e :=
  Nat.lt_of_lt_of_le h hg.size_le

/-- Every entry of an image is an expression of the graph. -/
def OwnsAll (g : Graph α) (image : Array Expr) : Prop :=
  ∀ (i : Nat) (e : Expr), image[i]? = some e → g.Owns e

theorem OwnsAll.extend {g g' : Graph α} {image : Array Expr} (hg : g.Extends g')
    (h : g.OwnsAll image) : g'.OwnsAll image := fun i e he => (h i e he).extend hg

theorem OwnsAll.store {g : Graph α} {image image' : Array Expr} {i : Nat} {e : Expr}
    (h : g.OwnsAll image) (he : g.Owns e) (hs : store (α := α) image i e = .ok image') :
    g.OwnsAll image' := by
  unfold Autodiff.store at hs
  split at hs
  next hi =>
    obtain rfl := Except.ok.inj hs
    intro j e' he'
    rw [Array.getElem?_set] at he'
    split at he'
    next =>
      obtain rfl := Option.some.inj he'
      exact he
    next => exact h j e' he'
  next => cases hs

theorem OwnsAll.fetch {g : Graph α} {image : Array Expr} {i : Nat} {e : Expr}
    (h : g.OwnsAll image) (hf : fetch (α := α) image i = .ok e) : g.Owns e := by
  unfold Autodiff.fetch at hf
  split at hf
  next hi =>
    obtain rfl := Except.ok.inj hf
    exact h i _ hi
  next => cases hf

variable [Scalar α]

/-- A node is no operation on constants that could have been worked out at once. In a sum only the
last operand can be a constant. -/
def Folded (g : Graph α) : Node α → Prop
  | .constant _ | .variable _ | .unary .log _ => True
  | .unary .negate arg | .unary .exp arg => g.constantAt? arg.index = none
  | .binary _ lhs rhs => g.constantAt? lhs.index = none ∨ g.constantAt? rhs.index = none
  | .power _ n => (n == 0) = false ∧ (n == 1) = false
  | .sum terms => 2 ≤ terms.length ∧ (∀ t ∈ terms.dropLast, g.constantAt? t.index = none) ∧
      ∀ t c, terms.getLast? = some t → g.constantAt? t.index = some c → (c == 0) = false

/-- Operands precede their nodes, nothing is left to fold, and the variables are numbered in the
order of their nodes. -/
structure WellFormed (g : Graph α) : Prop where
  operand_lt : ∀ (i : Nat) (node : Node α), g.nodes[i]? = some node →
    ∀ e ∈ node.operands, e.index < i
  folded : ∀ (i : Nat) (node : Node α), g.nodes[i]? = some node → g.Folded node
  ids : g.nodes.toList.filterMap Node.varId? = (List.range g.nextVar).map VarId.mk

theorem wellFormed_empty : (empty : Graph α).WellFormed :=
  ⟨by simp [empty], by simp [empty], rfl⟩

/-- Whether a node is folded is settled by its operands. -/
theorem Folded.extend {g g' : Graph α} (hg : g.Extends g') {node : Node α}
    (hlt : ∀ e ∈ node.operands, e.index < g.size) (h : g.Folded node) : g'.Folded node := by
  have hconst : ∀ e ∈ node.operands, g'.constantAt? e.index = g.constantAt? e.index := fun e he =>
    hg.constantAt? (hlt e he)
  cases node with
  | constant c => trivial
  | «variable» id => trivial
  | unary op arg =>
    have harg := hconst arg (by simp [Node.operands])
    cases op with
    | log => trivial
    | negate => exact harg.trans h
    | exp => exact harg.trans h
  | binary op lhs rhs =>
    have hl := hconst lhs (by simp [Node.operands])
    have hr := hconst rhs (by simp [Node.operands])
    exact h.imp hl.trans hr.trans
  | power base n => exact h
  | sum terms =>
    obtain ⟨hlen, hinit, hlast⟩ := h
    refine ⟨hlen, fun t ht => ?_, fun t c ht hc => ?_⟩
    · exact (hconst t (List.dropLast_subset terms ht)).trans (hinit t ht)
    · rw [hconst t (List.mem_of_getLast? ht)] at hc
      exact hlast t c ht hc

/-- A new node goes well with the others when its operands exist, when it is folded, and when it is
the next variable if it is one at all. -/
theorem WellFormed.pushed {g : Graph α} (h : g.WellFormed) {node : Node α} {next : Nat}
    (hlt : ∀ e ∈ node.operands, e.index < g.size) (hf : g.Folded node)
    (hid : (List.range g.nextVar).map VarId.mk ++ node.varId?.toList =
      (List.range next).map VarId.mk) : WellFormed ⟨g.nodes.push node, next⟩ := by
  have hext := extends_push g node next
  have hcases : ∀ (i : Nat) (node' : Node α), (g.nodes.push node)[i]? = some node' →
      g.nodes[i]? = some node' ∨ (i = g.size ∧ node' = node) := by
    intro i node' hn
    rw [Array.getElem?_push] at hn
    split at hn
    next hi => exact Or.inr ⟨hi, (Option.some.inj hn).symm⟩
    next => exact Or.inl hn
  refine ⟨fun i node' hn e he => ?_, fun i node' hn => ?_, ?_⟩
  · rcases hcases i node' hn with hn | ⟨rfl, rfl⟩
    · exact h.operand_lt i node' hn e he
    · exact hlt e he
  · rcases hcases i node' hn with hn | ⟨rfl, rfl⟩
    · refine (h.folded i node' hn).extend hext fun e he => ?_
      exact Nat.lt_trans (h.operand_lt i node' hn e he) (size_of_node hn)
    · exact hf.extend hext hlt
  · rw [Array.toList_push, List.filterMap_append, h.ids, ← hid]
    cases node <;> rfl

instance : Lasting (Graph α) where
  Sound := WellFormed
  Extends := Extends
  refl := .refl
  trans := .trans

end Graph

namespace Build

variable [Scalar α] {g : Graph α}

/-- Looking up a node changes nothing, not even when there is none. -/
theorem lookup_keeps (hg : g.WellFormed) (e : Expr) :
    Keeps (lookup e) g fun g' node => g' = g ∧ g.nodes[e.index]? = some node := by
  unfold lookup
  refine Keeps.get_bind ?_
  split
  next node hn => exact Keeps.pure hg ⟨rfl, hn⟩
  next => exact Keeps.throw hg _

/-- What follows a lookup may use the node in the graph as it was. -/
theorem lookup_bind_keeps {post : Graph α → β → Prop} {f : Node α → Build α β}
    (hg : g.WellFormed) (e : Expr)
    (hf : ∀ node, g.nodes[e.index]? = some node → Keeps (f node) g post) :
    Keeps (lookup e >>= f) g post := by
  refine (lookup_keeps hg e).bind fun node g' _ _ hnode => ?_
  obtain ⟨rfl, hn⟩ := hnode
  exact hf node hn

theorem push_node_keeps (hg : g.WellFormed) {node : Node α}
    (hlt : ∀ e ∈ node.operands, g.Owns e) (hf : g.Folded node) (hid : node.varId? = none) :
    Keeps (push node) g fun g' e => g'.nodes[e.index]? = some node := by
  have hwf : Graph.WellFormed ⟨g.nodes.push node, g.nextVar⟩ :=
    hg.pushed hlt hf (by simp [hid])
  exact ⟨hwf, Graph.extends_push g node _, Array.getElem?_push_size⟩

theorem push_keeps (hg : g.WellFormed) {node : Node α} (hlt : ∀ e ∈ node.operands, g.Owns e)
    (hf : g.Folded node) (hid : node.varId? = none) : Keeps (push node) g Graph.Owns :=
  (push_node_keeps hg hlt hf hid).mono fun _ _ _ hn => Graph.size_of_node hn

theorem constant_node_keeps (hg : g.WellFormed) (c : α) :
    Keeps (constant c) g fun g' e => g'.nodes[e.index]? = some (.constant c) :=
  push_node_keeps hg (by simp [Node.operands]) (by trivial) rfl

theorem constant_keeps (hg : g.WellFormed) (c : α) : Keeps (constant c) g Graph.Owns :=
  (constant_node_keeps hg c).mono fun _ _ _ hn => Graph.size_of_node hn

theorem newVar_keeps (hg : g.WellFormed) :
    Keeps newVar g fun g' (x : Var) => g'.Owns x.expr := by
  have hwf : Graph.WellFormed ⟨g.nodes.push (.variable ⟨g.nextVar⟩), g.nextVar + 1⟩ :=
    hg.pushed (by simp [Node.operands]) (by trivial) (by simp [Node.varId?, List.range_succ])
  exact ⟨hwf, Graph.extends_push g _ _, by simp [Graph.Owns, Graph.size]⟩

theorem newVars_keeps (hg : g.WellFormed) (n : Nat) :
    Keeps (newVars n) g fun g' (xs : List Var) => ∀ x ∈ xs, g'.Owns x.expr := by
  induction n generalizing g with
  | zero => exact .pure hg (by simp)
  | succ n ih =>
    refine (newVar_keeps hg).bind fun x g₁ hg₁ _ hx => (ih hg₁).bind fun xs g₂ hg₂ hext hxs => ?_
    refine .pure hg₂ fun y hy => ?_
    rcases List.mem_cons.mp hy with rfl | hy
    · exact hx.extend hext
    · exact hxs y hy

theorem join_keeps (hg : g.WellFormed) (op : BinaryOp) (a b : Expr) :
    Keeps (join op a b) g Graph.Owns := by
  refine lookup_bind_keeps hg a fun na ha => lookup_bind_keeps hg b fun nb hb => ?_
  have hown : ∀ e, e = a ∨ e = b → g.Owns e := by
    rintro e (rfl | rfl)
    · exact Graph.size_of_node ha
    · exact Graph.size_of_node hb
  have hpush : na.constant? = none ∨ nb.constant? = none →
      Keeps (push (.binary op a b)) g Graph.Owns := by
    intro hc
    refine push_keeps hg (fun e he => hown e (by simpa [Node.operands] using he)) ?_ rfl
    rwa [Graph.Folded, Graph.constantAt?, Graph.constantAt?, ha, hb, Option.bind_some,
      Option.bind_some]
  split
  next x y => exact constant_keeps hg _
  next x hy =>
    split
    next => exact .pure hg (hown b (.inr rfl))
    next => exact hpush (.inr (Node.constant?_eq_none hy))
  next y hx =>
    split
    next => exact .pure hg (hown a (.inl rfl))
    next => exact hpush (.inl (Node.constant?_eq_none hx))
  next hx _ _ => exact hpush (.inl (Node.constant?_eq_none hx))

theorem add_keeps (hg : g.WellFormed) (a b : Expr) : Keeps (add a b) g Graph.Owns := by
  rw [add_eq_join]
  exact join_keeps hg .add a b

theorem mul_keeps (hg : g.WellFormed) (a b : Expr) : Keeps (mul a b) g Graph.Owns := by
  rw [mul_eq_join]
  exact join_keeps hg .multiply a b

/-- A node with a single operand that is no constant. -/
theorem push_unary_keeps (hg : g.WellFormed) (op : UnaryOp) {a : Expr} {node : Node α}
    (ha : g.nodes[a.index]? = some node) (hc : op = .log ∨ ∀ x, node = .constant x → False) :
    Keeps (push (.unary op a)) g Graph.Owns := by
  have hlt : ∀ e ∈ (Node.unary op a : Node α).operands, g.Owns e := by
    intro e he
    obtain rfl : e = a := by simpa [Node.operands] using he
    exact Graph.size_of_node ha
  refine push_keeps hg hlt ?_ rfl
  rcases hc with rfl | hc
  · trivial
  · have hnone : g.constantAt? a.index = none := by
      rw [Graph.constantAt?, ha, Option.bind_some, Node.constant?_eq_none hc]
    cases op with
    | log => trivial
    | negate => exact hnone
    | exp => exact hnone

theorem neg_keeps (hg : g.WellFormed) (a : Expr) : Keeps (neg a) g Graph.Owns := by
  refine lookup_bind_keeps hg a fun node ha => ?_
  split
  next x => exact constant_keeps hg _
  next arg =>
    -- The operand of a negation precedes it, so it belongs to the graph as well.
    have hlt := hg.operand_lt a.index _ ha arg (by simp [Node.operands])
    exact .pure hg (Nat.lt_trans hlt (Graph.size_of_node ha))
  next hc _ => exact push_unary_keeps hg .negate ha (.inr hc)

theorem sub_keeps (hg : g.WellFormed) (a b : Expr) : Keeps (sub a b) g Graph.Owns :=
  (neg_keeps hg b).bind fun negative _ hg' _ _ => add_keeps hg' a negative

theorem pow_keeps (hg : g.WellFormed) (base : Expr) (n : α) :
    Keeps (pow base n) g Graph.Owns := by
  refine lookup_bind_keeps hg base fun node hbase => ?_
  have hown : g.Owns base := Graph.size_of_node hbase
  split
  next => exact .pure hg hown
  next h₁ =>
    split
    next => exact constant_keeps hg 1
    next h₀ =>
      split
      next => exact constant_keeps hg _
      next =>
        refine push_keeps hg (fun e he => ?_) ⟨by simpa using h₀, by simpa using h₁⟩ rfl
        obtain rfl : e = base := by simpa [Node.operands] using he
        exact hown

theorem div_keeps (hg : g.WellFormed) (a b : Expr) : Keeps (div a b) g Graph.Owns :=
  (pow_keeps hg b (-1)).bind fun reciprocal _ hg' _ _ => mul_keeps hg' a reciprocal

theorem exp_keeps (hg : g.WellFormed) (a : Expr) : Keeps (exp a) g Graph.Owns := by
  refine lookup_bind_keeps hg a fun node ha => ?_
  split
  next x => exact constant_keeps hg _
  next hc => exact push_unary_keeps hg .exp ha (.inr hc)

theorem log_keeps (hg : g.WellFormed) (a : Expr) : Keeps (log a) g Graph.Owns := by
  refine lookup_bind_keeps hg a fun node ha => ?_
  split
  next x =>
    split
    next => exact constant_keeps hg _
    next => exact push_unary_keeps hg .log ha (.inl rfl)
  next => exact push_unary_keeps hg .log ha (.inl rfl)

/-- Looking up every node of a list changes nothing. -/
theorem mapM_lookup_keeps (hg : g.WellFormed) (terms : List Expr) :
    Keeps (terms.mapM lookup) g fun g' nodes => g' = g ∧ terms.mapM lookup g = .ok nodes g := by
  induction terms with
  | nil => exact .pure hg ⟨rfl, rfl⟩
  | cons t terms ih =>
    rw [List.mapM_cons]
    refine lookup_bind_keeps hg t fun node ht => ih.bind fun nodes g' hg' _ h => ?_
    obtain ⟨rfl, hrest⟩ := h
    refine .pure hg' ⟨rfl, ?_⟩
    exact bind_eq_ok.mpr ⟨node, g', lookup_eq_ok.mpr ⟨rfl, ht⟩,
      bind_eq_ok.mpr ⟨nodes, g', hrest, rfl⟩⟩

/-- The terms of a sum: there is one at least, and only the last can be a constant, which is then
not zero. -/
structure Summands (g : Graph α) (terms : List Expr) : Prop where
  nonempty : terms ≠ []
  owned : ∀ t ∈ terms, g.Owns t
  init : ∀ t ∈ terms.dropLast, g.constantAt? t.index = none
  last : ∀ t c, terms.getLast? = some t → g.constantAt? t.index = some c → (c == 0) = false

theorem Summands.snoc {g' : Graph α} {terms : List Expr} {c : α} {e : Expr}
    (hext : g.Extends g') (hterms : ∀ t ∈ terms, g.Owns t ∧ g.constantAt? t.index = none)
    (he : g'.nodes[e.index]? = some (.constant c)) (hc : (c == 0) = false) :
    Summands g' (terms ++ [e]) where
  nonempty := by simp
  owned t ht := by
    rcases List.mem_append.mp ht with ht | ht
    · exact (hterms t ht).1.extend hext
    · obtain rfl := List.mem_singleton.mp ht
      exact Graph.size_of_node he
  init t ht := by
    rw [List.dropLast_concat] at ht
    rw [hext.constantAt? (hterms t ht).1, (hterms t ht).2]
  last t d ht hd := by
    obtain rfl : e = t := by simpa using ht
    rw [Graph.constantAt?_eq_some, he] at hd
    obtain rfl : c = d := by simpa using hd
    exact hc

theorem Summands.of_variables {terms : List Expr} (hne : terms ≠ [])
    (hterms : ∀ t ∈ terms, g.Owns t ∧ g.constantAt? t.index = none) : Summands g terms where
  nonempty := hne
  owned t ht := (hterms t ht).1
  init t ht := (hterms t (List.dropLast_subset terms ht)).2
  last t c ht hc := by
    rw [(hterms t (List.mem_of_getLast? ht)).2] at hc
    cases hc

/-- A single term stands for itself, and several terms get a sum. -/
theorem Summands.keeps (hg : g.WellFormed) {terms : List Expr} (h : Summands g terms) :
    Keeps (match terms with
      | [single] => pure single
      | _ => push (.sum terms)) g Graph.Owns := by
  obtain ⟨hne, hown, hinit, hlast⟩ := h
  split
  next single => exact .pure hg (hown single (by simp))
  next hmany =>
    refine push_keeps hg hown ⟨?_, hinit, hlast⟩ rfl
    match terms, hne, hmany with
    | [t], _, hmany => exact (hmany t rfl).elim
    | _ :: _ :: _, _, _ => simp

theorem sum_keeps (hg : g.WellFormed) (terms : List Expr) : Keeps (sum terms) g Graph.Owns := by
  refine (mapM_lookup_keeps hg terms).bind fun nodes g' _ _ h => ?_
  obtain ⟨rfl, hnodes⟩ := h
  obtain ⟨-, hlt, -, hkept⟩ := nodes_of_mapM_lookup hnodes
  simp only [hkept]
  have hterms : ∀ t ∈ g'.variablePart terms, g'.Owns t ∧ g'.constantAt? t.index = none := by
    intro t ht
    obtain ⟨ht, hnone⟩ := List.mem_filter.mp ht
    exact ⟨hlt t ht, Option.isNone_iff_eq_none.mp hnone⟩
  split
  next => exact constant_keeps hg _
  next hne =>
    split
    next hadd =>
      refine (constant_node_keeps hg _).bind fun e g₁ hg₁ hext he => ?_
      refine Summands.keeps hg₁ (.snoc hext hterms he ?_)
      simp only [Bool.and_eq_true, bne, Bool.not_eq_true'] at hadd
      exact hadd.2
    next => exact Summands.keeps hg (.of_variables (by simpa using hne) hterms)

theorem ofExcept_keeps {post : Graph α → β → Prop} {r : Except (Failure α) β}
    (hg : g.WellFormed) (h : ∀ x, r = .ok x → post g x) : Keeps (ofExcept r) g post := by
  cases r with
  | ok x => exact .pure hg (h x rfl)
  | error e => exact .throw hg e

theorem ofExcept_bind_keeps {post : Graph α → γ → Prop} {r : Except (Failure α) β}
    {f : β → Build α γ} (hg : g.WellFormed) (hf : ∀ x, r = .ok x → Keeps (f x) g post) :
    Keeps (ofExcept r >>= f) g post := by
  cases r with
  | ok x => exact hf x rfl
  | error e => exact ⟨hg, .refl g⟩

theorem some_keeps {act : Build α Expr} (h : Keeps act g Graph.Owns) :
    Keeps (do return some (← act)) g fun g' (r : Option Expr) => ∀ e, r = some e → g'.Owns e := by
  refine Keeps.bind h fun e g' hg' _ he => .pure hg' ?_
  rintro e' ⟨⟩
  exact he

theorem none_keeps (hg : g.WellFormed) :
    Keeps (pure none : Build α (Option Expr)) g fun g' r => ∀ e, r = some e → g'.Owns e :=
  .pure hg (by simp)

theorem rebuild_keeps (hg : g.WellFormed) (slots : Graph.Slots) (values : Array α)
    (image : Array Expr) (i : Nat) (node : Node α) :
    Keeps (rebuild slots values image i node) g
      fun g' r => ∀ e, r = some e → g'.Owns e := by
  cases node with
  | constant c => exact none_keeps hg
  | «variable» id =>
    refine ofExcept_bind_keeps hg fun slot _ => ?_
    cases slot with
    | none => exact none_keeps hg
    | some slot => exact ofExcept_bind_keeps hg fun c _ => some_keeps (constant_keeps hg c)
  | unary op arg =>
    refine ofExcept_bind_keeps hg fun a _ => ?_
    split
    next => exact none_keeps hg
    next =>
      cases op with
      | negate => exact some_keeps (neg_keeps hg a)
      | exp => exact some_keeps (exp_keeps hg a)
      | log => exact some_keeps (log_keeps hg a)
  | binary op lhs rhs =>
    refine ofExcept_bind_keeps hg fun a _ => ofExcept_bind_keeps hg fun b _ => ?_
    split
    next => exact none_keeps hg
    next =>
      cases op with
      | add => exact some_keeps (add_keeps hg a b)
      | multiply => exact some_keeps (mul_keeps hg a b)
  | power base n =>
    refine ofExcept_bind_keeps hg fun b _ => ?_
    split
    next => exact none_keeps hg
    next => exact some_keeps (pow_keeps hg b n)
  | sum terms =>
    have hfetch : ∀ (t : Expr) (g' : Graph α), g'.WellFormed →
        Keeps (ofExcept (fetch image t.index)) g' fun _ _ => True :=
      fun t g' hg' => ofExcept_keeps hg' fun _ _ => trivial
    have hmapped := Keeps.mapM hg (fun _ _ _ _ _ h => h) terms fun t _ g' hg' _ => hfetch t g' hg'
    refine hmapped.bind fun mapped g' hg' _ _ => ?_
    split
    next => exact none_keeps hg'
    next => exact some_keeps (sum_keeps hg' mapped)

theorem substituteStep_keeps (hg : g.WellFormed) (slots : Graph.Slots) (values : Array α)
    {image : Array Expr} (himage : g.OwnsAll image) (i : Nat) :
    Keeps (substituteStep slots values image i) g Graph.OwnsAll := by
  refine .get_bind (ofExcept_bind_keeps hg fun node _ => ?_)
  refine (rebuild_keeps hg slots values image i node).bind fun r g' hg' hext hr => ?_
  cases r with
  | none => exact .pure hg' (himage.extend hext)
  | some e => exact ofExcept_keeps hg' fun _ hs => (himage.extend hext).store (hr e rfl) hs

theorem substitute_keeps (hg : g.WellFormed) (root : Expr) (vars : List Var) (values : List α) :
    Keeps (substitute root vars values) g Graph.Owns := by
  unfold substitute
  split
  next => exact .throw hg _
  next =>
    refine .get_bind (ofExcept_bind_keeps hg fun order horder => ?_)
    refine ofExcept_bind_keeps hg fun slots _ => ?_
    have hstart : g.OwnsAll ((List.range (root.index + 1)).map Expr.mk).toArray := by
      have hroot := (Graph.reachable_ordered horder).root_lt
      intro i e he
      obtain ⟨j, hj, rfl⟩ : ∃ j ≤ root.index, Expr.mk j = e := by
        simpa [Nat.lt_succ_iff] using Array.mem_of_getElem? he
      exact Nat.lt_of_le_of_lt hj hroot
    have hfold := Keeps.foldlM hg order hstart fun i _ g' image hg' himage =>
      substituteStep_keeps hg' slots values.toArray himage i
    exact hfold.bind fun image g' hg' _ himage => ofExcept_keeps hg' fun _ hf => himage.fetch hf

end Build
end Autodiff
