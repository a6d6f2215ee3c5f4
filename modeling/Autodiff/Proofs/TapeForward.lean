import Autodiff.TapeEvaluation
import Autodiff.Proofs.Adjoints
import Autodiff.Proofs.TapeLayout

namespace Autodiff

variable {α : Type}

namespace Tape

variable {t : Tape α}

/-- A buffer for the tape that holds the inputs and the constants in their slots. -/
structure Seeded (t : Tape α) (inputs : List α) (values : Array α) : Prop where
  size : values.size = t.code.size
  inputs : ∀ k < inputs.length, t.code[k]? = some .input ∧ values[k]? = inputs[k]?
  constants : ∀ (k : Nat) (c : α), t.code[k]? = some (.constant c) → values[k]? = some c

theorem Seeded.write {inputs : List α} {values : Array α} (h : t.Seeded inputs values) {s : Nat}
    {x : Instruction α} (hx : t.code[s]? = some x) (hin : x ≠ .input)
    (hconst : ∀ c, x ≠ .constant c) (y : α) : t.Seeded inputs (values.setIfInBounds s y) := by
  refine ⟨by simpa using h.size, fun k hk => ?_, fun k c hk => ?_⟩
  · have hne : s ≠ k := by
      rintro rfl
      exact hin (Option.some.inj (hx.symm.trans (h.inputs s hk).1))
    rw [Array.getElem?_setIfInBounds_ne hne]
    exact h.inputs k hk
  · have hne : s ≠ k := by
      rintro rfl
      exact hconst c (Option.some.inj (hx.symm.trans hk))
    rw [Array.getElem?_setIfInBounds_ne hne]
    exact h.constants k c hk

/-- The slots of a sum that is laid out are those of its operands. -/
theorem summands_eq {offset count : Nat} {slots : List Nat}
    (hle : offset + count ≤ t.operands.size)
    (hslots : (t.operands.extract offset (offset + count)).toList = slots) :
    t.summands offset count = .ok slots := by
  rw [summands, if_pos hle, hslots]

variable [Scalar α]

theorem toList_load (t : Tape α) (point params : List α) (buffer : Array α) :
    (t.load point params buffer).toList =
      point ++ params ++ (t.code.toList.drop (point.length + params.length)).map seed := by
  simp [load, List.take_of_length_le]

/-- Loading fills the leaves, whatever the buffer held. -/
theorem seeded_load {point params : List α} (buffer : Array α)
    (hle : point.length + params.length ≤ t.code.size)
    (hin : ∀ k < point.length + params.length, t.code[k]? = some .input) :
    t.Seeded (point ++ params) (t.load point params buffer) := by
  have hsize : (t.load point params buffer).size = t.code.size := by
    rw [← Array.length_toList, toList_load]
    simp only [List.length_append, List.length_map, List.length_drop, Array.length_toList]
    omega
  refine ⟨hsize, fun k hk => ?_, fun k c hk => ?_⟩
  · refine ⟨hin k (by simpa using hk), ?_⟩
    rw [← Array.getElem?_toList, toList_load, List.getElem?_append_left hk]
  · have hlow : point.length + params.length ≤ k := by
      apply Nat.le_of_not_lt
      intro hlt
      cases (hin k hlt).symm.trans hk
    have hsum : point.length + params.length + (k - (point.length + params.length)) = k := by omega
    rw [← Array.getElem?_toList, toList_load,
      List.getElem?_append_right (by simpa using hlow), List.length_append, List.getElem?_map,
      List.getElem?_drop, hsum, Array.getElem?_toList, hk]
    rfl

/-- Evaluating the slot of an operation is evaluating its node. -/
theorem result?_eq {node : Node α} {σ : Nat → Nat} {s : Nat} {v : Nat → α} {values : Array α}
    (hl : node.LaidAt t.code t.operands σ s) (hnv : ∀ id, node ≠ .variable id)
    (hnc : ∀ c, node ≠ .constant c)
    (hconst : ∀ (k : Nat) (c : α), t.code[k]? = some (.constant c) → values[k]? = some c)
    (hv : ∀ e ∈ node.operands, values[σ e.index]? = some (v e.index)) (x : Option α) (y : α) :
    (fetch t.code s >>= t.result? values) =
      match node.refusal? x v with
      | some e => .error (.refused e)
      | none => .ok (some (node.result y v)) := by
  cases node with
  | constant c => exact absurd rfl (hnc c)
  | «variable» id => exact absurd rfl (hnv id)
  | unary op arg =>
    have ha := fetch_eq_ok (α := α) (hv arg (by simp [Node.operands]))
    simp only [fetch_eq_ok hl, ok_bind, result?, ha, op.value_eq]
    cases op with
    | log =>
      by_cases hd : v arg.index ≤ 0
      · simp [Node.refusal?, hd, Except.mapError]
      · simp [Node.refusal?, Node.result, hd, Except.mapError]
    | _ => rfl
  | binary op lhs rhs =>
    have ha := fetch_eq_ok (α := α) (hv lhs (by simp [Node.operands]))
    have hb := fetch_eq_ok (α := α) (hv rhs (by simp [Node.operands]))
    simp only [fetch_eq_ok hl, ok_bind, result?, ha, hb]
    rfl
  | power base exponent =>
    obtain ⟨k, -, hexp, hpow⟩ := hl
    have ha := fetch_eq_ok (α := α) (hv base (by simp [Node.operands]))
    have hb := fetch_eq_ok (α := α) (hconst k exponent hexp)
    simp only [fetch_eq_ok hpow, ok_bind, result?, ha, hb, powerValue, Node.refusal?]
    by_cases hd : (!Scalar.isInteger exponent && decide (v base.index ≤ 0)) = true
    · rw [if_pos hd, if_pos hd]
      rfl
    · rw [if_neg hd, if_neg hd]
      rfl
  | sum terms =>
    obtain ⟨offset, hsum, hle, hslots⟩ := hl
    have hm : (terms.map fun t => σ t.index).mapM (fetch (α := α) values) =
        .ok (terms.map fun t => v t.index) := by
      rw [List.mapM_map]
      exact mapM_eq_ok terms fun e he => fetch_eq_ok (hv e he)
    simp only [fetch_eq_ok hsum, ok_bind, result?, summands_eq hle hslots, hm]
    rfl

theorem forwardStep_leaf {s : Nat} {x : Instruction α} (hx : t.code[s]? = some x)
    (hleaf : x = .input ∨ ∃ c, x = .constant c) (values : Array α) :
    t.forwardStep s values = .ok () values := by
  rcases hleaf with rfl | ⟨c, rfl⟩ <;> simp [forwardStep, fetch_eq_ok hx, result?]

theorem forwardStep_operation {node : Node α} {σ : Nat → Nat} {s : Nat} {v : Nat → α}
    {values : Array α} (hl : node.LaidAt t.code t.operands σ s) (hnv : ∀ id, node ≠ .variable id)
    (hnc : ∀ c, node ≠ .constant c)
    (hconst : ∀ (k : Nat) (c : α), t.code[k]? = some (.constant c) → values[k]? = some c)
    (hv : ∀ e ∈ node.operands, values[σ e.index]? = some (v e.index)) (x : Option α) (y : α) :
    t.forwardStep s values =
      match node.refusal? x v with
      | some e => .error (.refused e) values
      | none => .ok () (values.setIfInBounds s (node.result y v)) := by
  rw [forwardStep, result?_eq hl hnv hnc hconst hv x y]
  cases node.refusal? x v with
  | some e => rfl
  | none => rfl

theorem forM_cons (s : Nat) (slots : List Nat) (values : Array α) :
    (s :: slots).forM t.forwardStep values =
      match t.forwardStep s values with
      | .ok _ values' => slots.forM t.forwardStep values'
      | .error e values' => .error e values' := by
  show (t.forwardStep s >>= fun _ => slots.forM t.forwardStep) values = _
  simp only [bind, EStateM.bind]
  cases t.forwardStep s values with
  | ok u values' => rfl
  | error e values' => rfl

theorem forM_singleton (s : Nat) (values : Array α) :
    [s].forM t.forwardStep values = t.forwardStep s values := by
  rw [forM_cons]
  cases t.forwardStep s values with
  | ok u values' => rfl
  | error e values' => rfl

theorem forM_append (slots slots' : List Nat) (values : Array α) :
    (slots ++ slots').forM t.forwardStep values =
      match slots.forM t.forwardStep values with
      | .ok _ values' => slots'.forM t.forwardStep values'
      | .error e values' => .error e values' := by
  induction slots generalizing values with
  | nil => rfl
  | cons s slots ih =>
    rw [List.cons_append, forM_cons, forM_cons]
    cases t.forwardStep s values with
    | ok u values' => exact ih values'
    | error e values' => rfl

/-- Going through some slots fails for the given reason, or it leaves the given value in slot `s`
and everything else as it was. -/
def Passes (t : Tape α) (inputs : List α) (values : Array α) (slots : List Nat) (s : Nat)
    (refusal : Option (Error α)) (result : α) : Prop :=
  (∃ e values', refusal = some e ∧
    slots.forM t.forwardStep values = .error (.refused e) values') ∨
  (refusal = none ∧ ∃ values', slots.forM t.forwardStep values = .ok () values' ∧
    t.Seeded inputs values' ∧ values'[s]? = some result ∧
    ∀ k, k ≠ s → values'[k]? = values[k]?)

theorem passes_operation {node : Node α} {σ : Nat → Nat} {s : Nat} {v : Nat → α}
    {x : Option α} {inputs : List α} {values : Array α} (hseed : t.Seeded inputs values)
    (hl : node.LaidAt t.code t.operands σ s) (hnv : ∀ id, node ≠ .variable id)
    (hnc : ∀ c, node ≠ .constant c)
    (hv : ∀ e ∈ node.operands, values[σ e.index]? = some (v e.index))
    (ins : Instruction α) (hs : t.code[s]? = some ins) (hin : ins ≠ .input)
    (hcs : ∀ c, ins ≠ .constant c) :
    t.Passes inputs values [s] s (node.refusal? x v) (node.result (x.getD 0) v) := by
  have hlt : s < values.size := hseed.size ▸ (Array.getElem?_eq_some_iff.mp hs).1
  rw [Passes, forM_singleton,
    forwardStep_operation hl hnv hnc hseed.constants hv x (x.getD 0)]
  cases node.refusal? x v with
  | some e => exact Or.inl ⟨e, values, rfl, rfl⟩
  | none =>
    refine Or.inr ⟨rfl, _, rfl, hseed.write hs hin hcs _, ?_, fun k hk => ?_⟩
    · rw [Array.getElem?_setIfInBounds, if_pos rfl, if_pos hlt]
    · rw [Array.getElem?_setIfInBounds_ne fun he => hk he.symm]

/-- Going through the slots of one node evaluates the node. -/
theorem passes_block {node : Node α} {σ : Nat → Nat} {s : Nat} {v : Nat → α} {x : Option α}
    {inputs : List α} {values : Array α} (hseed : t.Seeded inputs values)
    (hl : node.LaidAt t.code t.operands σ s)
    (hx : ∀ id, node = .variable id → inputs[s]? = x ∧ s < inputs.length)
    (hv : ∀ e ∈ node.operands, values[σ e.index]? = some (v e.index)) :
    t.Passes inputs values (node.block s) s (node.refusal? x v) (node.result (x.getD 0) v) := by
  cases node with
  | constant c =>
    refine Or.inr ⟨rfl, values, ?_, hseed, hseed.constants s c hl, fun k _ => rfl⟩
    rw [Node.block, forM_singleton, forwardStep_leaf hl (Or.inr ⟨c, rfl⟩)]
  | «variable» id =>
    obtain ⟨hin, hlt⟩ := hx id rfl
    have hread := (hseed.inputs s hlt).2
    rw [List.getElem?_eq_getElem hlt] at hin hread
    subst hin
    exact Or.inr ⟨rfl, values, rfl, hseed, hread, fun k _ => rfl⟩
  | unary op arg => exact passes_operation hseed hl (by simp) (by simp) hv _ hl (by simp) (by simp)
  | binary op lhs rhs =>
    exact passes_operation hseed hl (by simp) (by simp) hv _ hl (by simp) (by simp)
  | power base exponent =>
    have hpass := passes_operation (x := x) hseed hl (by simp) (by simp) hv
    obtain ⟨k, rfl, hexp, hpow⟩ := hl
    have hskip : (Node.power base exponent).block (k + 1) = [k] ++ [k + 1] := rfl
    rw [hskip, Passes, forM_append, forM_singleton, forwardStep_leaf hexp (Or.inr ⟨_, rfl⟩)]
    exact hpass _ hpow (by simp) (by simp)
  | sum terms =>
    have hpass := passes_operation (x := x) hseed hl (by simp) (by simp) hv
    obtain ⟨offset, hsum, -⟩ := hl
    exact hpass _ hsum (by simp) (by simp)

variable {g : Graph α} {env : Nat → Option α} {root : Nat} {order : List Nat} {l : Layout α}
  {inputs : List α} {bound : Nat → Option Nat}

/-- A run through the slots of the nodes in order evaluates the nodes, up to the first that has no
value. -/
theorem forM_blocks (ho : g.Ordered root order) (hc : l.Covers g inputs.length bound order)
    (hcode : t.code = l.code) (htable : t.operands = l.operands)
    (henv : ∀ i, env i = (bound i).bind (inputs[·]?)) (todo done : List Nat)
    {values : Array α} (hsplit : done ++ todo = order) (hseed : t.Seeded inputs values)
    (hold : ∀ i ∈ done, values[l.slot i]? = some (g.valueAt env i)) :
    (∃ e values', todo.findSome? (g.errorAt? env) = some e ∧
      (todo.flatMap (l.blockAt g)).forM t.forwardStep values = .error (.refused e) values') ∨
    (todo.findSome? (g.errorAt? env) = none ∧ ∃ values',
      (todo.flatMap (l.blockAt g)).forM t.forwardStep values = .ok () values' ∧
      t.Seeded inputs values' ∧ ∀ i ∈ order, values'[l.slot i]? = some (g.valueAt env i)) := by
  induction todo generalizing done values with
  | nil =>
    rw [List.append_nil] at hsplit
    exact Or.inr ⟨rfl, values, rfl, hseed, hsplit ▸ hold⟩
  | cons i todo ih =>
    have hmem : i ∈ order := by simp [← hsplit]
    obtain ⟨node, s, hn, -, hs, hl⟩ := hc.laid i hmem
    have hslot : l.slot i = s := Layout.slot_eq hs
    have hblock : l.blockAt g i = node.block s := by simp only [Layout.blockAt, hn, hslot]
    have hx : ∀ id, node = .variable id → inputs[s]? = env i ∧ s < inputs.length := by
      rintro id rfl
      have hk : bound i = some s := (hc.variables_at i id hn).symm.trans hs
      exact ⟨by rw [henv, hk, Option.bind_some], hc.bound_lt i s hk⟩
    have hv : ∀ e ∈ node.operands, values[l.slot e.index]? = some (g.valueAt env e.index) :=
      fun e he => hold _ (ho.operand_before hsplit hn he)
    have hpass := passes_block (v := g.valueAt env) hseed (by rwa [hcode, htable]) hx hv
    rw [← Graph.errorAt?_node hn,
      ← Graph.valueAt_node hn fun e he => ho.operand_lt hmem hn he, ← hblock] at hpass
    rw [List.flatMap_cons, forM_append, List.findSome?_cons]
    rcases hpass with ⟨e, values', he, hrun⟩ | ⟨he, values', hrun, hseed', hi, hkeep⟩
    · rw [he, hrun]
      exact Or.inl ⟨e, values', rfl, rfl⟩
    · rw [he, hrun]
      refine ih (done ++ [i]) (by simpa using hsplit) hseed' fun j hj => ?_
      rcases List.mem_append.mp hj with hj | hj
      · have hlt := ho.lt_of_before hsplit hj
        have hne : l.slot j ≠ s := by
          intro he
          have hj' := hc.at_eq (show j ∈ order by simp [← hsplit, hj])
          rw [he] at hj'
          have := hc.at_inj j i s hj' hs
          omega
        rw [hkeep _ hne]
        exact hold j hj
      · obtain rfl : j = i := by simpa using hj
        rw [hslot]
        exact hi

/-- A sweep over what fits the tape evaluates the slots behind the inputs. -/
theorem forward_of_lengths {point params : List α} (hpoint : point.length = t.inputs)
    (hparams : params.length = t.params) (buffer : Array α) :
    t.forward point params buffer =
      (List.range' (point.length + params.length) (t.size - (point.length + params.length))).forM
        t.forwardStep (t.load point params buffer) := by
  have hcheck : t.checkLengths point params = .ok () := by simp [checkLengths, hpoint, hparams]
  simp only [forward, hcheck]
  rfl

theorem forward_spec {point params : List α} (ho : g.Ordered root order)
    (hc : l.Covers g (point ++ params).length bound order) (hcode : t.code = l.code)
    (htable : t.operands = l.operands) (hpoint : point.length = t.inputs)
    (hparams : params.length = t.params)
    (henv : ∀ i, env i = (bound i).bind ((point ++ params)[·]?)) (buffer : Array α) :
    (∃ e values', order.findSome? (g.errorAt? env) = some e ∧
      t.forward point params buffer = .error (.refused e) values') ∨
    (order.findSome? (g.errorAt? env) = none ∧ ∃ values',
      t.forward point params buffer = .ok () values' ∧
      t.Seeded (point ++ params) values' ∧
      ∀ i ∈ order, values'[l.slot i]? = some (g.valueAt env i)) := by
  have hle := hc.leaves_le
  have hin := hc.inputs
  rw [List.length_append, ← hcode] at hle hin
  have hseed := seeded_load buffer hle hin
  have hslots : List.range' (point.length + params.length)
      (t.size - (point.length + params.length)) = order.flatMap (l.blockAt g) := by
    rw [hc.blocks, List.length_append, size, hcode]
  rw [forward_of_lengths hpoint hparams, hslots]
  exact forM_blocks ho hc hcode htable henv order [] rfl hseed (by simp)

end Tape

end Autodiff
