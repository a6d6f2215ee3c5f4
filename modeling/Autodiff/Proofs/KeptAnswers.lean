import Autodiff.Proofs.GrownValues
import Autodiff.Proofs.Outcomes
import Autodiff.Proofs.RecordedInvariants

namespace Autodiff

variable {α β γ δ ε : Type}

/-- Two computations fail with the same error, or they succeed with related answers. -/
def InStep (rel : β → γ → Prop) : Except ε β → Except ε γ → Prop
  | .error e, .error e' => e' = e
  | .ok x, .ok y => rel x y
  | _, _ => False

theorem InStep.of_eq {r r' : Except ε β} (h : r' = r) : InStep Eq r r' := by
  subst h
  cases r' with
  | error e => rfl
  | ok x => rfl

theorem InStep.eq {r r' : Except ε β} (h : InStep Eq r r') : r' = r := by
  cases r with
  | error e =>
    cases r' with
    | error e' => exact congrArg Except.error h
    | ok y => exact h.elim
  | ok x =>
    cases r' with
    | error e' => exact h.elim
    | ok y => exact congrArg Except.ok h.symm

theorem InStep.bind {rel : β → γ → Prop} {β' γ' : Type} {rel' : β' → γ' → Prop} {r : Except ε β}
    {r' : Except ε γ} {f : β → Except ε β'} {f' : γ → Except ε γ'} (h : InStep rel r r')
    (hf : ∀ x y, rel x y → InStep rel' (f x) (f' y)) : InStep rel' (r >>= f) (r' >>= f') := by
  cases r with
  | error e =>
    cases r' with
    | error e' => exact h
    | ok y => exact h.elim
  | ok x =>
    cases r' with
    | error e' => exact h.elim
    | ok y => exact hf x y h

/-- What one step of two folds preserves, the folds preserve. -/
theorem InStep.foldlM (rel : β → γ → Prop) {f : β → δ → Except ε β} {f' : γ → δ → Except ε γ}
    {xs : List δ} (hf : ∀ d ∈ xs, ∀ x y, rel x y → InStep rel (f x d) (f' y d)) {x : β} {y : γ}
    (h : rel x y) : InStep rel (xs.foldlM f x) (xs.foldlM f' y) := by
  induction xs generalizing x y with
  | nil => exact h
  | cons d xs ih =>
    rw [List.foldlM_cons, List.foldlM_cons]
    refine (hf d (by simp) x y h).bind fun x' y' h' => ?_
    exact ih (fun d' hd' => hf d' (by simp [hd'])) h'

/-- The second outcome is the first, unless that refuses a node which its graph does not have. -/
def Persists (r r' : Except (Failure α) β) : Prop :=
  r' = r ∨ ∃ index size, r = .error (.refused (.foreignNode index size))

theorem persists_inSize (r : Except (Failure α) β) (size : Nat) :
    Persists r (r.mapError (.inSize size)) := by
  cases r with
  | ok x => exact Or.inl rfl
  | error e =>
    cases e with
    | fault cause => exact Or.inl rfl
    | refused cause =>
      cases cause with
      | foreignNode index size' => exact Or.inr ⟨index, size', rfl⟩
      | _ => exact Or.inl rfl

theorem Persists.ok {r r' : Except (Failure α) β} (h : Persists r r') {x : β} (hr : r = .ok x) :
    r' = .ok x := by
  rcases h with h | ⟨index, size, h⟩
  · rw [h, hr]
  · cases hr.symm.trans h

namespace Graph

variable {g g' : Graph α} {root : Expr} {vars : List Var} {order : List Nat}

theorem Extends.below (hg : g.Extends g') {root i : Nat} (hroot : root < g.size)
    (hr : g.Reaches root i) : g'.nodes[i]? = g.nodes[i]? :=
  hg.kept i (Nat.lt_of_le_of_lt hr.le hroot)

theorem Extends.reachable (hg : g.Extends g') (h : g.reachable root = .ok order) :
    g'.reachable root = .ok order := by
  have hroot := (reachable_ordered h).root_lt
  rw [reachable_congr fun i hr => hg.below hroot hr, h]
  rfl

theorem Extends.alike (hg : g.Extends g') (hroot : root.index < g.size) (hb : g.Binds vars) :
    g.Alike g' root.index vars where
  nodes _ hr := hg.below hroot hr
  listed x hx := by rw [hg.kept _ (size_of_node (hb.node_eq x hx))]

/-- Where the nodes below a root can be listed, they are the same in an extended graph, and variables
can be bound in both graphs or are refused alike, unless the first graph refuses a foreign node. -/
theorem Extends.root_cases (hg : g.Extends g') (root : Expr) (vars : List Var) :
    (∃ order, g.reachable root = .ok order ∧ g'.reachable root = .ok order ∧
      (g.Binds vars ∨ ∃ e, g.bind vars g.unbound 0 = .error e ∧
        (g'.bind vars g'.unbound 0 = .error e ∨
          ∃ index size, e = .refused (.foreignNode index size)))) ∨
    ∃ index, g.reachable root = .error (.refused (.foreignNode index g.size)) := by
  rcases g.reachable_spec root with ⟨order, horder, -⟩ | ⟨index, hforeign, -⟩
  · refine Or.inl ⟨order, horder, hg.reachable horder, ?_⟩
    rcases g.binds_or_objection vars with hb | ⟨before, x, after, e, rfl, hb, ho⟩
    · exact Or.inl hb
    · refine Or.inr ⟨_, ho.bind hb, ?_⟩
      cases ho with
      | foreign => exact Or.inr ⟨_, _, rfl⟩
      | repeated hn hm =>
        have ho' : g'.Objection before x (.duplicateVariable x.id) := .repeated (hg.node hn) hm
        exact Or.inl (ho'.bind (hb.extend hg))
  · exact Or.inr ⟨index, hforeign⟩

theorem Extends.variablesOf_persists (hg : g.Extends g') (root : Expr) :
    Persists (g.variablesOf root) (g'.variablesOf root) := by
  unfold variablesOf
  rcases hg.root_cases root [] with ⟨order, horder, horder', -⟩ | ⟨index, hforeign⟩
  · have ho := reachable_ordered horder
    have hnode : ∀ i ∈ order, g'.varAt? i = g.varAt? i := fun i hi => by
      rw [varAt?, hg.below ho.root_lt ((ho.mem_iff i).mp hi), varAt?]
    rw [horder, horder', ok_bind, ok_bind, List.filterMap_congr hnode]
    exact Or.inl rfl
  · exact Or.inr ⟨index, g.size, by rw [hforeign, error_bind]⟩

section

variable [Scalar α] {point : List α}

/-- What is computed from a sweep persists when the graph is extended, if it is no more than the sweep
determines. -/
theorem Extends.sweep_persists (hg : g.Extends g')
    {f : Graph α → Sweep α → Except (Failure α) β}
    (hf : ∀ s s', Sweep.Matches g g' s s' → s.Complete g vars point →
      ∃ r, f g s = .ok r ∧ f g' s' = .ok r) :
    Persists (Sweep.forward g root vars point >>= f g)
      (Sweep.forward g' root vars point >>= f g') := by
  by_cases hl : vars.length = point.length
  · rcases hg.root_cases root vars with
      ⟨order, horder, horder', hb | ⟨e, he, he'⟩⟩ | ⟨index, hforeign⟩
    · have halike := hg.alike (reachable_ordered horder).root_lt hb
      rw [halike.sweep_congr point hf]
      exact persists_inSize _ _
    · rw [Sweep.forward_eq hl, Sweep.forward_eq hl, horder, horder', ok_bind, ok_bind, he,
        error_bind, error_bind]
      rcases he' with he' | ⟨index, size, rfl⟩
      · rw [he', error_bind, error_bind]
        exact Or.inl rfl
      · exact Or.inr ⟨index, size, rfl⟩
    · exact Or.inr ⟨index, g.size, by rw [Sweep.forward_eq hl, hforeign, error_bind, error_bind]⟩
  · rw [Sweep.forward, Sweep.forward, if_pos hl, if_pos hl]
    exact Or.inl rfl

theorem Extends.evaluate_persists (hg : g.Extends g') (root : Expr) (vars : List Var)
    (point : List α) : Persists (g.evaluate root vars point) (g'.evaluate root vars point) :=
  hg.sweep_persists (f := fun _ s => s.value) fun _ _ hm hc =>
    ⟨_, hc.value_eq, hm.value_eq.trans hc.value_eq⟩

theorem Extends.differentiate_persists (hg : g.Extends g') (root : Expr) (vars : List Var)
    (point : List α) :
    Persists (g.differentiate root vars point) (g'.differentiate root vars point) :=
  hg.sweep_persists (f := fun g s => s.gradient g vars.length) fun s s' hm hc => by
    obtain ⟨partials, hpartials⟩ := hc.gradient_exists
    exact ⟨partials, hpartials, (hm.gradient_eq hc.ordered _).trans hpartials⟩

theorem Extends.valueAndGradient_persists (hg : g.Extends g') (root : Expr) (vars : List Var)
    (point : List α) :
    Persists (g.valueAndGradient root vars point) (g'.valueAndGradient root vars point) :=
  hg.sweep_persists (f := fun g s => do return (← s.value, ← s.gradient g vars.length))
    fun s s' hm hc => by
      obtain ⟨r, hr⟩ := hc.pair_exists
      exact ⟨r, hr, by rw [hm.value_eq, hm.gradient_eq hc.ordered, hr]⟩

end

end Graph

namespace Layout

variable {g g' : Graph α} {l l' : Layout α}

/-- Two layouts with the same code, in which all nodes have the same slots. -/
structure Agrees (g g' : Graph α) (l l' : Layout α) : Prop where
  code_eq : l'.code = l.code
  operands_eq : l'.operands = l.operands
  slots : g.SameSlots g' l.slots l'.slots

namespace Agrees

theorem slotOf_eq (h : Agrees g g' l l') (hg : g.Extends g') {i : Nat} (hi : i < g.size) :
    l'.slotOf i = l.slotOf i := by
  rw [slotOf, slotOf, h.slots.fetch_eq hi (Nat.lt_of_lt_of_le hi hg.size_le)]

theorem emit (h : Agrees g g' l l') (hg : g.Extends g') {i : Nat} (hi : i < g.size)
    (instruction : Instruction α) :
    InStep (Agrees g g') (l.emit i instruction) (l'.emit i instruction) := by
  have hl : i < l.slots.size := h.slots.size ▸ hi
  have hl' : i < l'.slots.size := h.slots.size' ▸ Nat.lt_of_lt_of_le hi hg.size_le
  rw [emit_eq hl, emit_eq hl', h.code_eq, h.operands_eq]
  refine ⟨rfl, rfl, by simpa using h.slots.size, by simpa using h.slots.size', fun j => ?_⟩
  rw [Graph.Slots.at_setIfInBounds hl, Graph.Slots.at_setIfInBounds hl', h.slots.at_eq]

/-- Laying out an old node does the same in an extended graph. -/
theorem place (h : Agrees g g' l l') (hg : g.Extends g') {i : Nat} {node : Node α}
    (hn : g.nodes[i]? = some node) (hlt : ∀ e ∈ node.operands, e.index < i) :
    InStep (Agrees g g') (l.place g i) (l'.place g' i) := by
  have hi := Graph.size_of_node hn
  have hslot : ∀ e ∈ node.operands, InStep Eq (l.slotOf e.index) (l'.slotOf e.index) :=
    fun e he => .of_eq (h.slotOf_eq hg (Nat.lt_trans (hlt e he) hi))
  unfold Layout.place
  rw [fetch_eq_ok hn, fetch_eq_ok (hg.node hn), ok_bind, ok_bind]
  cases node with
  | «variable» id =>
    refine (InStep.of_eq (h.slots.fetch_eq hi (Nat.lt_of_lt_of_le hi hg.size_le))).bind ?_
    rintro slot _ rfl
    cases slot with
    | none => rfl
    | some k => exact h
  | constant value => exact h.emit hg hi _
  | unary op arg =>
    refine (hslot arg (by simp [Node.operands])).bind ?_
    rintro a _ rfl
    exact h.emit hg hi _
  | binary op lhs rhs =>
    refine (hslot lhs (by simp [Node.operands])).bind ?_
    rintro a _ rfl
    refine (hslot rhs (by simp [Node.operands])).bind ?_
    rintro b _ rfl
    exact h.emit hg hi _
  | power base exponent =>
    refine (hslot base (by simp [Node.operands])).bind ?_
    rintro b _ rfl
    dsimp only
    rw [h.code_eq]
    refine Agrees.emit ?_ hg hi _
    exact ⟨rfl, h.operands_eq, h.slots⟩
  | sum terms =>
    have hterms : terms.mapM (fun t => l'.slotOf t.index) = terms.mapM fun t => l.slotOf t.index :=
      mapM_congr_mem fun t ht => (hslot t ht).eq
    refine (InStep.of_eq hterms).bind ?_
    rintro slots _ rfl
    dsimp only
    rw [h.operands_eq]
    refine Agrees.emit ?_ hg hi _
    exact ⟨h.code_eq, rfl, h.slots⟩

end Agrees

end Layout

namespace Graph

variable {g g' : Graph α}

/-- An extended graph compiles an old expression to the identical tape. -/
theorem Extends.compileParametric_persists (hg : g.Extends g') (root : Expr)
    (vars params : List Var) :
    Persists (g.compileParametric root vars params) (g'.compileParametric root vars params) := by
  rw [compileParametric_eq, compileParametric_eq]
  rcases hg.root_cases root (vars ++ params) with
    ⟨order, horder, horder', hb | ⟨e, he, he'⟩⟩ | ⟨index, hforeign⟩
  · obtain ⟨slots, hslots, hsize, hat⟩ := bind_unbound_of_binds hb
    obtain ⟨slots', hslots', hsize', hat'⟩ := bind_unbound_of_binds (hb.extend hg)
    have ho := reachable_ordered horder
    rw [horder, horder', ok_bind, ok_bind, hslots, hslots', ok_bind, ok_bind]
    refine Or.inl (InStep.eq ?_)
    refine (InStep.foldlM (Layout.Agrees g g') (fun i hi l l' h => ?_) ?_).bind ?_
    · obtain ⟨node, hn⟩ := ho.node_exists hi
      exact h.place hg hn fun e he => ho.operand_lt hi hn he
    · exact ⟨rfl, rfl, hsize, hsize', fun i => by rw [hat, hat']⟩
    · intro l l' h
      refine (InStep.of_eq (h.slotOf_eq hg ho.root_lt)).bind ?_
      rintro output _ rfl
      rw [h.code_eq, h.operands_eq]
      exact InStep.of_eq rfl
  · rw [horder, horder', ok_bind, ok_bind, he, error_bind]
    rcases he' with he' | ⟨index, size, rfl⟩
    · rw [he', error_bind]
      exact Or.inl rfl
    · exact Or.inr ⟨index, size, rfl⟩
  · exact Or.inr ⟨index, g.size, by rw [hforeign, error_bind]⟩

/-- The second graph makes of an expression what the first one makes of it, error or answer, except
where the first one refuses a foreign node. -/
structure AnswersAlike [Scalar α] (g g' : Graph α) (root : Expr) : Prop where
  evaluate : ∀ vars point, Persists (g.evaluate root vars point) (g'.evaluate root vars point)
  differentiate : ∀ vars point,
    Persists (g.differentiate root vars point) (g'.differentiate root vars point)
  valueAndGradient : ∀ vars point,
    Persists (g.valueAndGradient root vars point) (g'.valueAndGradient root vars point)
  variablesOf : Persists (g.variablesOf root) (g'.variablesOf root)
  compileParametric : ∀ vars params,
    Persists (g.compileParametric root vars params) (g'.compileParametric root vars params)

variable [Scalar α]

theorem Extends.answersAlike (hg : g.Extends g') (root : Expr) : g.AnswersAlike g' root where
  evaluate := hg.evaluate_persists root
  differentiate := hg.differentiate_persists root
  valueAndGradient := hg.valueAndGradient_persists root
  variablesOf := hg.variablesOf_persists root
  compileParametric := hg.compileParametric_persists root

instance (g : Graph α) (p : Prop) : Recorded fun g' => p → g.Extends g' where
  pushed g' node h _ _ hp := (h hp).trans (extends_push g' node g'.nextVar)
  newVar g' h hp := (h hp).trans (extends_push g' _ _)

end Graph

namespace Workspace

variable [Scalar α]

/-- Whatever is recorded next, in one graph or several, and whether it succeeds or fails, a graph that
is not cleared keeps its nodes, and whatever it had to say of an expression it goes on to say: every
answer stays the same, and so does every error that is not about a foreign node. The graph may be
malformed. -/
theorem recording_keeps_answers (w : Workspace α) (name : String) (steps : List (Step α))
    (hclear : .clear name ∉ steps) :
    (w.graphAt name).Extends ((steps.foldl next w).graphAt name) ∧
      ∀ root, (w.graphAt name).AnswersAlike ((steps.foldl next w).graphAt name) root := by
  have hkept : (steps.foldl next w).Each fun other g => other = name → (w.graphAt name).Extends g := by
    refine each_foldl (fun other hmem heq => ?_) fun other heq => ?_
    · exact absurd (heq ▸ hmem) hclear
    · exact heq ▸ .refl (w.graphAt other)
  have hext := hkept name rfl
  exact ⟨hext, hext.answersAlike⟩

/-- The product of two variables. -/
def recordedProduct : Workspace ℚ :=
  ⟨[("main", ⟨#[.variable ⟨0⟩, .variable ⟨1⟩, .binary .multiply ⟨0⟩ ⟨1⟩], 2⟩)], none⟩

/-- A call that fails, a substitution, a recording that fills a second graph, a cross product of
vectors in one dimension, and that second graph cleared. -/
def laterSteps : List (Step ℚ) :=
  [.call "main" (.binary .add ⟨2⟩ ⟨9⟩), .call "main" (.substitute ⟨2⟩ [⟨⟨1⟩, ⟨1⟩⟩] [3]),
    .scope "main" [.binary .sub (.expr ⟨2⟩) (.within "other" (.number 1))],
    .call "main" (.cross ⟨[⟨0⟩]⟩ ⟨[⟨1⟩]⟩), .clear "other"]

theorem recording_keeps_answers_product :
    .clear "main" ∉ laterSteps ∧
    ((laterSteps.foldl next recordedProduct).graphAt "main").evaluate ⟨2⟩
      [⟨⟨0⟩, ⟨0⟩⟩, ⟨⟨1⟩, ⟨1⟩⟩] [2, 3] = .ok 6 ∧
    ((laterSteps.foldl next recordedProduct).graphAt "main").valueAndGradient ⟨2⟩
      [⟨⟨1⟩, ⟨1⟩⟩] [3] = .error (.refused (.unboundVariable ⟨0⟩)) := by
  have hclear : .clear "main" ∉ laterSteps := by simp [laterSteps]
  obtain ⟨-, h⟩ := recording_keeps_answers recordedProduct "main" laterSteps hclear
  refine ⟨hclear, ((h ⟨2⟩).evaluate _ _).ok ?_, ?_⟩
  · exact toOption_eq_some.mp (by decide +kernel)
  · have hrefused : (recordedProduct.graphAt "main").valueAndGradient ⟨2⟩ [⟨⟨1⟩, ⟨1⟩⟩] [3] =
        .error (.refused (.unboundVariable ⟨0⟩)) := by rfl
    rcases (h ⟨2⟩).valueAndGradient [⟨⟨1⟩, ⟨1⟩⟩] [3] with heq | ⟨index, size, hforeign⟩
    · rw [heq, hrefused]
    · cases hrefused.symm.trans hforeign

end Workspace

end Autodiff
