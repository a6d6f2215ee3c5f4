import Autodiff.Proofs.ExactArithmetic
import Autodiff.Proofs.TapeReverse

namespace Autodiff

variable {α : Type}

namespace Tape

variable {g : Graph α} {root : Expr} {order : List Nat} {vars params : List Var} {l : Layout α}
  {x p : List α}

/-- The tape of an expression, with the layout that it was made from. -/
structure Renders (t : Tape α) (g : Graph α) (root : Expr) (order : List Nat)
    (vars params : List Var) (l : Layout α) : Prop where
  ordered : g.Ordered root.index order
  binds : g.Binds (vars ++ params)
  covers : l.Covers g (vars.length + params.length) (position (vars ++ params)) order
  code : t.code = l.code
  operands : t.operands = l.operands
  inputs : t.inputs = vars.length
  params : t.params = params.length
  output : t.output = l.slot root.index

theorem Renders.take_adjoints {t : Tape α} (h : t.Renders g root order vars params l)
    {adjoints : Array α} {f : Nat → α} (ht : Tracks l t.size adjoints f) :
    adjoints.toList.take t.inputs = vars.map fun v => f v.expr.index := by
  obtain ⟨hsize, F, hm, hF⟩ := ht
  have hle := h.covers.leaves_le
  rw [size, h.code] at hsize
  rw [h.inputs]
  apply List.ext_getElem
  · simp only [List.length_take, Array.length_toList, List.length_map]
    omega
  · intro k hk hk'
    have hkv : k < vars.length := by simpa using hk'
    have hget : (vars ++ params)[k]? = some vars[k] := by
      rw [List.getElem?_append_left hkv, List.getElem?_eq_getElem hkv]
    have hpos := position_of_nodup h.binds.nodup hget
    have hat := h.covers.variables_at _ _ (h.binds.node_eq _ (List.mem_of_getElem? hget))
    have hread := hm k (by omega)
    rw [hF _ k (hat.trans hpos), Array.getElem?_eq_getElem (by omega)] at hread
    rw [List.getElem_take, Array.getElem_toList, List.getElem_map, Option.some.inj hread]

variable [Scalar α]

theorem onValues_forward_eq (t : Tape α) (point params : List α) (scratch : Scratch α) :
    Evaluating.onValues (t.forward point params) scratch =
      match t.forward point params scratch.values with
      | .ok u values => .ok u ⟨values, scratch.adjoints⟩
      | .error e values => .error e ⟨values, scratch.adjoints⟩ := by
  simp only [Evaluating.onValues]
  cases t.forward point params scratch.values with
  | ok u values => rfl
  | error e values => rfl

/-- What a tape answers for values of its variables and parameters, in any buffers. -/
theorem Renders.evaluateWith_spec {t : Tape α} (h : t.Renders g root order vars params l)
    (hx : x.length = vars.length) (hp : p.length = params.length) (scratch : Scratch α) :
    let env := assignment (vars ++ params) (x ++ p)
    ∃ scratch', t.evaluateWith x p scratch =
      match g.answer env order (g.valueAt env root.index,
        vars.map fun v => g.adjoints env root.index order v.expr.index) with
      | .ok r => .ok r scratch'
      | .error e => .error e scratch' := by
  intro env
  have hlen : (x ++ p).length = vars.length + params.length := by
    rw [List.length_append, hx, hp]
  have hc := h.covers
  rw [← hlen] at hc
  have henv : ∀ i, env i = (position (vars ++ params) i).bind ((x ++ p)[·]?) := fun i => rfl
  rw [Graph.answer]
  rcases forward_spec h.ordered hc h.code h.operands (hx.trans h.inputs.symm)
    (hp.trans h.params.symm) henv scratch.values with
    ⟨e, values, he, hf⟩ | ⟨hnone, values, hf, hseed, hhold⟩
  · rw [he]
    simp only [evaluateWith, bind, EStateM.bind, onValues_forward_eq, hf]
    exact ⟨_, rfl⟩
  · obtain ⟨adjoints, hrev, htracks⟩ :=
      reverse_spec h.ordered hc h.code h.operands h.output hseed hhold scratch.adjoints
    have hroot : fetch (α := α) values t.output = .ok (g.valueAt env root.index) := by
      rw [h.output]
      exact fetch_eq_ok (hhold _ h.ordered.root_mem)
    rw [hnone, ← h.take_adjoints htracks]
    simp only [evaluateWith, bind, EStateM.bind, onValues_forward_eq, hf, hroot, hrev]
    exact ⟨_, rfl⟩

theorem Renders.valueWith_spec {t : Tape α} (h : t.Renders g root order vars params l)
    (hx : x.length = vars.length) (hp : p.length = params.length) (scratch : Scratch α) :
    let env := assignment (vars ++ params) (x ++ p)
    ∃ scratch', t.valueWith x p scratch =
      match g.answer env order (g.valueAt env root.index) with
      | .ok r => .ok r scratch'
      | .error e => .error e scratch' := by
  intro env
  have hlen : (x ++ p).length = vars.length + params.length := by
    rw [List.length_append, hx, hp]
  have hc := h.covers
  rw [← hlen] at hc
  have henv : ∀ i, env i = (position (vars ++ params) i).bind ((x ++ p)[·]?) := fun i => rfl
  rw [Graph.answer]
  rcases forward_spec h.ordered hc h.code h.operands (hx.trans h.inputs.symm)
    (hp.trans h.params.symm) henv scratch.values with
    ⟨e, values, he, hf⟩ | ⟨hnone, values, hf, hseed, hhold⟩
  · rw [he]
    simp only [valueWith, bind, EStateM.bind, onValues_forward_eq, hf]
    exact ⟨_, rfl⟩
  · have hroot : fetch (α := α) values t.output = .ok (g.valueAt env root.index) := by
      rw [h.output]
      exact fetch_eq_ok (hhold _ h.ordered.root_mem)
    rw [hnone]
    simp only [valueWith, bind, EStateM.bind, onValues_forward_eq, hf, hroot]
    exact ⟨_, rfl⟩

theorem Renders.evaluateParametric_eq {t : Tape α} (h : t.Renders g root order vars params l)
    (hx : x.length = vars.length) (hp : p.length = params.length) :
    let env := assignment (vars ++ params) (x ++ p)
    t.evaluateParametric x p = g.answer env order (g.valueAt env root.index,
      vars.map fun v => g.adjoints env root.index order v.expr.index) := by
  intro env
  obtain ⟨scratch, hrun⟩ := h.evaluateWith_spec hx hp {}
  simp only [evaluateParametric, Evaluating.fresh, EStateM.run, hrun]
  cases g.answer env order (g.valueAt env root.index,
    vars.map fun v => g.adjoints env root.index order v.expr.index) with
  | ok r => rfl
  | error e => rfl

theorem Renders.valueParametric_eq {t : Tape α} (h : t.Renders g root order vars params l)
    (hx : x.length = vars.length) (hp : p.length = params.length) :
    let env := assignment (vars ++ params) (x ++ p)
    t.valueParametric x p = g.answer env order (g.valueAt env root.index) := by
  intro env
  obtain ⟨scratch, hrun⟩ := h.valueWith_spec hx hp {}
  simp only [valueParametric, Evaluating.fresh, EStateM.run, hrun]
  cases g.answer env order (g.valueAt env root.index) with
  | ok r => rfl
  | error e => rfl

end Tape

namespace Graph

variable [Scalar α] {g : Graph α} {root : Expr} {vars params : List Var} {t : Tape α}

/-- Compiling gives a tape that renders the expression, or it fails where a sweep would fail. -/
theorem compileParametric_cases (g : Graph α) (root : Expr) (vars params : List Var) :
    (∃ t order l, g.compileParametric root vars params = .ok t ∧ g.reachable root = .ok order ∧
      t.Renders g root order vars params l) ∨
    (∃ id order, g.compileParametric root vars params = .error (.refused (.unboundVariable id)) ∧
      g.reachable root = .ok order ∧ g.Binds (vars ++ params) ∧
      order.findSome? (g.free? (position (vars ++ params))) = some id) ∨
    (∃ e, g.compileParametric root vars params = .error (.refused e) ∧
      ((∃ i, e = .foreignNode i g.size) ∨ ∃ id, e = .duplicateVariable id) ∧
      ∀ point : List α, (vars ++ params).length = point.length →
        Sweep.forward g root (vars ++ params) point = .error (.refused e)) := by
  have hfit : ∀ point : List α, (vars ++ params).length = point.length →
      Sweep.forward g root (vars ++ params) point = (do
        let order ← g.reachable root
        let slots ← g.bind (vars ++ params) g.unbound 0
        let zeros := Array.replicate (root.index + 1) 0
        let values ← order.foldlM (Sweep.forwardStep g slots point.toArray) zeros
        return ⟨root, order, slots, values⟩) := by
    intro point hl
    simp only [Sweep.forward, hl, ne_eq, not_true_eq_false, ↓reduceIte]
  rcases g.reachable_spec root with ⟨order, ho, hord⟩ | ⟨k, ho, -⟩
  · rcases g.bind_spec (vars ++ params) g.unbound (by simp [unbound]) 0 with
      ⟨hb, -⟩ | ⟨-, e, hbind, he⟩
    · rcases compileParametric_spec ho hb with ⟨id, hfree, hcompile⟩ | ⟨-, l, hl, hcompile⟩
      · exact Or.inr (Or.inl ⟨id, order, hcompile, ho, hb, hfree⟩)
      · exact Or.inl ⟨_, order, l, hcompile, ho, hord, hb, hl, rfl, rfl, rfl, rfl, rfl⟩
    · refine Or.inr (Or.inr ⟨e, ?_, ?_, fun point hl => ?_⟩)
      · simp only [compileParametric_eq, ho, ok_bind, hbind, error_bind]
      · exact he
      · simp only [hfit point hl, ho, ok_bind, hbind, error_bind]
  · refine Or.inr (Or.inr ⟨_, ?_, Or.inl ⟨k, rfl⟩, fun point hl => ?_⟩)
    · simp only [compileParametric_eq, ho, error_bind]
    · simp only [hfit point hl, ho, error_bind]

/-- A node without a value is a variable that is not bound, or its operand is outside the domain. -/
theorem errorAt?_cases {env : Nat → Option α} {i : Nat} {e : Error α}
    (h : g.errorAt? env i = some e) :
    (∃ id, g.nodes[i]? = some (.variable id) ∧ env i = none ∧ e = .unboundVariable id) ∨
      (∃ b n, e = .powerDomain b n) ∨ ∃ a, e = .logDomain a := by
  cases hn : g.nodes[i]? with
  | none => simp [errorAt?, hn] at h
  | some node =>
    rw [errorAt?_node hn] at h
    cases node with
    | «variable» id =>
      simp only [Node.refusal?] at h
      split at h
      next => cases h
      next hnone =>
        cases h
        exact Or.inl ⟨id, rfl, by simpa using hnone, rfl⟩
    | unary op arg =>
      cases op with
      | log =>
        simp only [Node.refusal?] at h
        split at h
        next => exact Or.inr (Or.inr ⟨_, (Option.some.inj h).symm⟩)
        next => cases h
      | _ => cases h
    | power base exponent =>
      simp only [Node.refusal?] at h
      split at h
      next => exact Or.inr (Or.inl ⟨_, _, (Option.some.inj h).symm⟩)
      next => cases h
    | _ => cases h

/-- Where a variable below the root has no slot, no point gives every node a value: the first node
without one is the first free variable, or an operation outside its domain. -/
theorem findSome?_errorAt?_of_free {env : Nat → Option α} {bound : Nat → Option Nat} {id : VarId}
    (henv : ∀ i, (env i).isSome = (bound i).isSome) (order : List Nat)
    (h : order.findSome? (g.free? bound) = some id) :
    ∃ e, order.findSome? (g.errorAt? env) = some e ∧
      (e = .unboundVariable id ∨ (∃ b n, e = .powerDomain b n) ∨ ∃ a, e = .logDomain a) := by
  induction order with
  | nil => simp at h
  | cons i order ih =>
    rw [List.findSome?_cons] at h ⊢
    cases he : g.errorAt? env i with
    | some e =>
      refine ⟨e, rfl, ?_⟩
      rcases errorAt?_cases he with ⟨id', hn, hnone, rfl⟩ | hdomain
      · have hfree : g.free? bound i = some id' := by
          have := henv i
          simp only [hnone, Option.isSome_none] at this
          simp [free?, hn, ← this]
        rw [hfree] at h
        exact Or.inl (by rw [Option.some.inj h])
      · exact Or.inr hdomain
    | none =>
      have hfree : g.free? bound i = none := by
        cases hn : g.nodes[i]? with
        | none => simp only [free?, hn]
        | some node =>
          rw [errorAt?_node hn] at he
          cases node with
          | «variable» id' =>
            simp only [Node.refusal?] at he
            split at he
            next hsome =>
              rw [henv i] at hsome
              simp only [free?, hn, if_pos hsome]
            next => cases he
          | _ => simp only [free?, hn]
      rw [hfree] at h
      exact ih h

end Graph

end Autodiff
