import Autodiff.Proofs.GraphHistory
import Autodiff.Proofs.Preserving
import Autodiff.Proofs.Scripts

namespace Autodiff

variable {α β : Type} [Scalar α]

/-- An invariant of graphs that minds neither new variables nor the other nodes which builder
operations add. -/
class Graph.Recorded (inv : Graph α → Prop) : Prop extends Graph.Admitting inv where
  newVar (g : Graph α) : inv g → inv ⟨g.nodes.push (.variable ⟨g.nextVar⟩), g.nextVar + 1⟩

section

variable {inv : Graph α → Prop} [Graph.Recorded inv]

theorem Build.newVar_preserves : Preserves inv (newVar : Build α Var) :=
  fun g hg => Graph.Recorded.newVar g hg

theorem Build.newVars_preserves (n : Nat) : Preserves inv (newVars n : Build α (List Var)) := by
  induction n with
  | zero => exact .pure []
  | succ n ih => exact newVar_preserves.bind fun x => ih.returning (x :: ·)

/-- A call of a builder operation keeps up the invariant, also when it fails. -/
theorem BuilderCall.perform_preserves (c : BuilderCall α) : Preserves inv c.perform := by
  cases c with
  | constant value => exact (Build.constant_preserves value).returning _
  | newVar => exact Build.newVar_preserves.returning _
  | newVars n => exact (Build.newVars_preserves n).returning _
  | binary op a b => exact (op.build_preserves a b).returning _
  | unary op a => exact (op.build_preserves a).returning _
  | pow base exponent => exact (Build.pow_preserves base exponent).returning _
  | powInt base exponent => exact (Build.pow_preserves base _).returning _
  | sum terms => exact (Build.sum_preserves terms).returning _
  | substitute root vars values => exact (Build.substitute_preserves root vars values).returning _
  | constants values =>
    exact ((Preserves.mapM Build.constant_preserves values).returning _).returning _
  | addVectors a b => exact (a.zipWith_preserves Build.add_preserves b).returning _
  | subVectors a b => exact (a.zipWith_preserves Build.sub_preserves b).returning _
  | scale a factor =>
    exact ((Preserves.mapM (Build.mul_preserves factor) _).returning _).returning _
  | negVector a => exact ((Preserves.mapM Build.neg_preserves _).returning _).returning _
  | dot a b => exact (a.dot_preserves b).returning _
  | normSquared a => exact a.normSquared_preserves.returning _
  | cross a b => exact (a.cross_preserves b).returning _

end

namespace Workspace

omit [Scalar α]

/-- The graph of every name meets the condition for that name. -/
def Each (inv : String → Graph α → Prop) (w : Workspace α) : Prop :=
  ∀ name, inv name (w.graphAt name)

variable {inv : String → Graph α → Prop}

theorem build_preserves (name : String) {act : Build α β} (h : Preserves (inv name) act) :
    Preserves (Each inv) (build name act) := by
  rintro ⟨graphs, active⟩ hw
  have hgraphs := (update_spec (rfl : update name (outcome act) graphs = _)).2
  have hend : inv name (outcome act (graphIn graphs name)).2 := by
    have hact := h _ (hw name)
    unfold outcome
    split
    next hrun => exact (hrun ▸ hact : EndsIn (inv name) (.ok _ _))
    next hrun => exact (hrun ▸ hact : EndsIn (inv name) (.error _ _))
  have hall : ∀ other, inv other (graphIn (update name (outcome act) graphs).2 other) := by
    intro other
    rw [hgraphs]
    split
    next heq => exact heq ▸ hend
    next => exact hw other
  rw [build_eq]
  rcases hupdate : update name (outcome act) graphs with ⟨r, graphs'⟩
  rw [hupdate] at hall
  cases r with
  | ok x => exact hall
  | error e => exact hall

theorem record_preserves {act : Build α β} (h : ∀ name, Preserves (inv name) act) :
    Preserves (Each inv) (record act) := by
  refine Preserves.get.bind fun w => ?_
  split
  next name _ => exact build_preserves name (h name)
  next => exact .throw _

theorem scope_preserves (name : String) {act : EStateM (Failure α) (Workspace α) β}
    (h : Preserves (Each inv) act) : Preserves (Each inv) (scope name act) := by
  intro w hw
  have hact : EndsIn (Each inv) (act.run { w with active := some name }) := h _ hw
  unfold scope
  split
  next hrun => exact (hrun ▸ hact : EndsIn (Each inv) (.ok _ _))
  next hrun => exact (hrun ▸ hact : EndsIn (Each inv) (.error _ _))

end Workspace

variable {inv : String → Graph α → Prop}

namespace Formula

open Workspace

mutual

theorem record_preserves [∀ name, Graph.Recorded (inv name)] :
    (t : Formula α) → Preserves (Each inv) t.record
  | .number _ => .pure _
  | .expr _ => .pure _
  | .binary op lhs rhs =>
    (record_preserves lhs).bind fun a => (record_preserves rhs).bind fun b =>
      (Workspace.record_preserves fun _ => a.toExpr_preserves.bind fun x =>
        b.toExpr_preserves.bind fun y => op.build_preserves x y).returning _
  | .unary op arg =>
    (record_preserves arg).bind fun a => (Workspace.record_preserves fun _ =>
      a.toExpr_preserves.bind fun x => op.build_preserves x).returning _
  | .pow base exponent =>
    (record_preserves base).bind fun a => (Workspace.record_preserves fun _ =>
      a.toExpr_preserves.bind fun x => Build.pow_preserves x exponent).returning _
  | .powInt base _ =>
    (record_preserves base).bind fun a => (Workspace.record_preserves fun _ =>
      a.toExpr_preserves.bind fun x => Build.pow_preserves x _).returning _
  | .sum terms =>
    (recordAll_preserves terms).bind fun operands => (Workspace.record_preserves fun _ =>
      (Preserves.mapM Operand.toExpr_preserves operands).bind fun xs =>
        Build.sum_preserves xs).returning _
  | .within graph body => scope_preserves graph (record_preserves body)

theorem recordAll_preserves [∀ name, Graph.Recorded (inv name)] :
    (terms : List (Formula α)) → Preserves (Each inv) (recordAll terms)
  | [] => .pure _
  | t :: rest => (record_preserves t).bind fun _ => (recordAll_preserves rest).returning _

end

variable [∀ name, Graph.Recorded (inv name)]

theorem recordExpr_preserves (t : Formula α) : Preserves (Each inv) t.recordExpr := by
  refine t.record_preserves.bind fun a => ?_
  cases a with
  | expr e => exact .pure e
  | number value => exact Workspace.record_preserves fun _ => Build.constant_preserves value

end Formula

namespace Workspace

variable [∀ name, Graph.Recorded (inv name)]

/-- A step keeps up the invariants if those of the graphs that it clears hold of the empty graph. -/
theorem perform_preserves (s : Step α) (hclear : ∀ name, s = .clear name → inv name {}) :
    Preserves (Each inv) (perform s) := by
  cases s with
  | call graph c => exact build_preserves graph c.perform_preserves
  | scope graph terms => exact scope_preserves graph (.mapM Formula.recordExpr_preserves terms)
  | clear graph =>
    intro w hw name
    have hgraphs := (update_spec (rfl : update graph (fun _ => ((), ({} : Graph α))) w.graphs = _)).2
    change inv name (graphIn (update graph _ w.graphs).2 name)
    rw [hgraphs]
    split
    next heq => exact heq ▸ hclear graph rfl
    next => exact hw name

/-- A sequence of steps keeps up the invariants, whether the steps fail or not. -/
theorem each_foldl {steps : List (Step α)} (hclear : ∀ name, .clear name ∈ steps → inv name {})
    {w : Workspace α} (hw : w.Each inv) : (steps.foldl next w).Each inv := by
  induction steps generalizing w with
  | nil => exact hw
  | cons s steps ih =>
    refine ih (fun name h => hclear name (List.mem_cons_of_mem s h)) ?_
    have hperform := perform_preserves s (fun name h => hclear name (h ▸ List.mem_cons_self)) w hw
    unfold next
    split
    next hrun => exact (hrun ▸ hperform : EndsIn (Each inv) (.ok _ _))
    next hrun => exact (hrun ▸ hperform : EndsIn (Each inv) (.error _ _))

end Workspace

end Autodiff
