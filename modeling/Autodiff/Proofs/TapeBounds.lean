import Autodiff.Proofs.Refusals
import Autodiff.Proofs.TapeShape

namespace Autodiff

variable {α : Type}

/-- The mark for an operand field that no slot stands in. -/
def unused : Nat := 2 ^ 32 - 1

def UnaryOp.opcode : UnaryOp → Opcode
  | .negate => .negate
  | .exp => .exp
  | .log => .log

def BinaryOp.opcode : BinaryOp → Opcode
  | .add => .add
  | .multiply => .multiply

theorem UnaryOp.opcode_value [Scalar α] (op : UnaryOp) (a b : α) :
    op.opcode.value a b = (op.value a).mapError .refused := by
  cases op <;> rfl

theorem BinaryOp.opcode_value [Scalar α] (op : BinaryOp) (a b : α) :
    op.opcode.value a b = .ok (op.value a b) := by
  cases op <;> rfl

namespace Instruction

def opcode : Instruction α → Opcode
  | .input => .input
  | .constant _ => .constant
  | .unary op _ => op.opcode
  | .binary op _ _ => op.opcode
  | .power _ _ => .power
  | .sum _ _ => .sum

/-- The two operand fields of an operation on one or two operands. -/
def fields? : Instruction α → Option (Nat × Nat)
  | .unary _ arg => some (arg, unused)
  | .binary _ lhs rhs => some (lhs, rhs)
  | .power base exponent => some (base, exponent)
  | .input | .constant _ | .sum _ _ => none

end Instruction

namespace Tape

variable [Scalar α] {t : Tape α}

/-- An operation on one or two operands evaluated through its opcode, where a field without a slot
counts as zero. -/
def dispatch (values : Array α) (opcode : Opcode) (a b : Nat) : Except (Failure α) α := do
  let lhs ← fetch values a
  let rhs ← (if b = unused then .ok 0 else fetch values b)
  opcode.value lhs rhs

/-- The mark stands in the second field of unary operations and nowhere else, and every operation on one
or two operands does what its opcode does with the fields. -/
structure Marked (t : Tape α) : Prop where
  fields : ∀ (s : Nat) (instruction : Instruction α) (a b : Nat),
    t.code[s]? = some instruction → instruction.fields? = some (a, b) →
      a ≠ unused ∧ (b = unused ↔ ∃ op arg, instruction = .unary op arg) ∧
        ∀ values, t.result? values instruction = (dispatch values instruction.opcode a b).map some
  operands : unused ∉ t.operands

theorem WellShaped.marked (h : t.WellShaped) (hsize : t.size ≤ unused) : t.Marked where
  fields s instruction a b hs hf := by
    have hslot : ∀ r ∈ t.reads instruction, r ≠ unused := by
      intro r hr
      have hlt := h.reads_lt s instruction hs r hr
      have hs := (Array.getElem?_eq_some_iff.mp hs).1
      rw [size] at hsize
      omega
    cases instruction with
    | unary op arg =>
      obtain ⟨rfl, rfl⟩ := Prod.mk.inj (Option.some.inj hf)
      refine ⟨hslot _ (by simp [reads]), iff_of_true rfl ⟨op, arg, rfl⟩, fun values => ?_⟩
      rw [dispatch, result?, if_pos rfl]
      cases fetch (α := α) values arg with
      | error e => rfl
      | ok x =>
        rw [ok_bind, ok_bind, ok_bind, Instruction.opcode, op.opcode_value]
        cases (op.value x).mapError Failure.refused <;> rfl
    | binary op lhs rhs =>
      obtain ⟨rfl, rfl⟩ := Prod.mk.inj (Option.some.inj hf)
      have hrhs := hslot rhs (by simp [reads])
      refine ⟨hslot _ (by simp [reads]), iff_of_false hrhs (by simp), fun values => ?_⟩
      rw [dispatch, result?, if_neg hrhs]
      cases fetch (α := α) values lhs with
      | error e => rfl
      | ok x =>
        cases fetch (α := α) values rhs with
        | error e => rfl
        | ok y =>
          rw [ok_bind, ok_bind, ok_bind, ok_bind, Instruction.opcode, op.opcode_value]
          rfl
    | power base exponent =>
      obtain ⟨rfl, rfl⟩ := Prod.mk.inj (Option.some.inj hf)
      have hexp := hslot exponent (by simp [reads])
      refine ⟨hslot _ (by simp [reads]), iff_of_false hexp (by simp), fun values => ?_⟩
      rw [dispatch, result?, if_neg hexp]
      cases fetch (α := α) values base with
      | error e => rfl
      | ok x =>
        cases fetch (α := α) values exponent with
        | error e => rfl
        | ok y =>
          rw [ok_bind, ok_bind, ok_bind, ok_bind, Instruction.opcode, Opcode.value]
          cases (powerValue x y).mapError Failure.refused <;> rfl
    | _ => cases hf
  operands hmem := Nat.lt_irrefl _ (Nat.lt_of_lt_of_le (h.operand_lt hmem) hsize)

namespace WellShaped

end WellShaped

end Tape

namespace Graph

variable [Scalar α]

end Graph

end Autodiff
