import Autodiff.Lagrangian
import Autodiff.Proofs.Preserving
import Autodiff.Proofs.TapeAgreement
import Autodiff.Proofs.WellFormed

namespace Autodiff

variable {α β γ : Type}

namespace Graph

/-- The second graph has no variable nodes that the first one does not have at the same places. -/
def AddsNoVariable (g g' : Graph α) : Prop :=
  ∀ (i : Nat) (id : VarId), g'.nodes[i]? = some (.variable id) → g.nodes[i]? = some (.variable id)

instance [Scalar α] (g : Graph α) : Admitting g.AddsNoVariable where
  pushed g' node hg' hvar _ i id hi := by
    rw [Array.getElem?_push] at hi
    split at hi
    next => exact absurd (Option.some.inj hi) (hvar id)
    next => exact hg' i id hi

end Graph

namespace Build

/-- Run from any graph, an action leaves no variable nodes that were not there before. -/
def MakesNoVariable (act : Build α β) : Prop :=
  ∀ ⦃g : Graph α⦄ ⦃x : β⦄ ⦃g' : Graph α⦄, act g = .ok x g' →
    ∀ (i : Nat) (id : VarId), g'.nodes[i]? = some (.variable id) → g.nodes[i]? = some (.variable id)

theorem MakesNoVariable.of_preserves {act : Build α β}
    (h : ∀ g : Graph α, Preserves g.AddsNoVariable act) : act.MakesNoVariable := by
  intro g x g' hrun
  have hend := h g g fun _ _ hi => hi
  rw [hrun] at hend
  exact hend

/-- A variable node after a new variable is that of the new variable or was there before. -/
theorem node_of_newVar {x : Var} {g g' : Graph α} (h : newVar g = .ok x g') {i : Nat} {id : VarId}
    (hi : g'.nodes[i]? = some (.variable id)) :
    g.nodes[i]? = some (.variable id) ∨ x.expr.index = i := by
  obtain ⟨rfl, rfl⟩ := newVar_eq_ok.mp h
  rw [Array.getElem?_push] at hi
  split at hi
  next heq => exact Or.inr heq.symm
  next => exact Or.inl hi

theorem node_of_newVars {count : Nat} {xs : List Var} {g g' : Graph α}
    (h : newVars count g = .ok xs g') {i : Nat} {id : VarId}
    (hi : g'.nodes[i]? = some (.variable id)) :
    g.nodes[i]? = some (.variable id) ∨ ∃ x ∈ xs, x.expr.index = i := by
  induction count generalizing g xs with
  | zero =>
    obtain ⟨rfl, rfl⟩ := pure_eq_ok.mp h
    exact Or.inl hi
  | succ count ih =>
    obtain ⟨x, g₁, hx, h⟩ := bind_eq_ok.mp h
    obtain ⟨rest, g₂, hrest, h⟩ := bind_eq_ok.mp h
    obtain ⟨rfl, rfl⟩ := pure_eq_ok.mp h
    rcases ih hrest with hold | ⟨y, hy, he⟩
    · rcases node_of_newVar hx hold with hold | he
      · exact Or.inl hold
      · exact Or.inr ⟨x, by simp, he⟩
    · exact Or.inr ⟨y, by simp [hy], he⟩

end Build

namespace Lagrangian

variable [Scalar α] {g : Graph α} {objective : Expr} {constraints : List Expr} {vars : List Var}

open Build in
/-- The variables of the extended graph are those of the graph and the parameters. -/
theorem node_of_assemble {extended : Graph α} {root : Expr} {params : List Var}
    (h : (assemble objective constraints).run g = .ok (root, params) extended) {i : Nat}
    {id : VarId} (hi : extended.nodes[i]? = some (.variable id)) :
    g.nodes[i]? = some (.variable id) ∨ ∃ y ∈ params, y.expr.index = i := by
  obtain ⟨penalty, g₁, hpenalty, h⟩ := Build.bind_eq_ok.mp h
  obtain ⟨multipliers, g₂, hmultipliers, h⟩ := Build.bind_eq_ok.mp h
  obtain ⟨weighted, g₃, hweighted, h⟩ := Build.bind_eq_ok.mp h
  obtain ⟨total, g₄, htotal, h⟩ := Build.bind_eq_ok.mp h
  obtain ⟨half, g₅, hhalf, h⟩ := Build.bind_eq_ok.mp h
  obtain ⟨halfPenalty, g₆, hhalfPenalty, h⟩ := Build.bind_eq_ok.mp h
  obtain ⟨penaltyTerm, g₇, hpenaltyTerm, h⟩ := Build.bind_eq_ok.mp h
  obtain ⟨root', g₈, hroot, h⟩ := Build.bind_eq_ok.mp h
  obtain ⟨hpair, rfl⟩ := Build.pure_eq_ok.mp h
  obtain ⟨rfl, rfl⟩ := Prod.mk.inj hpair
  have h₇ := MakesNoVariable.of_preserves (fun _ => sum_preserves _) hroot i id hi
  have h₆ := MakesNoVariable.of_preserves (fun _ => mul_preserves _ _) hpenaltyTerm i id h₇
  have h₅ := MakesNoVariable.of_preserves (fun _ => mul_preserves _ _) hhalfPenalty i id h₆
  have h₄ := MakesNoVariable.of_preserves (fun _ => constant_preserves _) hhalf i id h₅
  have h₃ := MakesNoVariable.of_preserves (fun _ => TermVector.normSquared_preserves _) htotal i id h₄
  have h₂ := MakesNoVariable.of_preserves (fun _ => TermVector.dot_preserves _ _) hweighted i id h₃
  rcases node_of_newVars hmultipliers h₂ with h₁ | ⟨y, hy, he⟩
  · rcases node_of_newVar hpenalty h₁ with hold | he
    · exact Or.inl hold
    · exact Or.inr ⟨penalty, by simp, he⟩
  · exact Or.inr ⟨y, by simp [hy], he⟩

/-- A Lagrangian can be laid out for variables of the graph only. -/
theorem vars_lt_of_ofGraph {l : Lagrangian α}
    (h : ofGraph g objective constraints vars = .ok l) : ∀ v ∈ vars, v.expr.index < g.size := by
  intro v hv
  unfold ofGraph at h
  split at h
  next => cases h
  next root params extended hassemble =>
    obtain ⟨tape, htape, -⟩ := bind_eq_ok.mp h
    rcases extended.compileParametric_cases root vars params with
      ⟨t, order, layout, -, -, hr⟩ | ⟨id, order, hc, -⟩ | ⟨e, hc, -⟩
    · have hnode := hr.binds.node_eq v (List.mem_append_left _ hv)
      rcases node_of_assemble hassemble hnode with hold | ⟨y, hy, he⟩
      · exact Graph.size_of_node hold
      · -- A new variable is a parameter, and variables and parameters are all different.
        have hnodup := hr.binds.nodup
        rw [List.map_append, List.nodup_append] at hnodup
        exact absurd he.symm (hnodup.2.2 _ (List.mem_map_of_mem hv) _ (List.mem_map_of_mem hy))
    · cases htape.symm.trans hc
    · cases htape.symm.trans hc

end Lagrangian

end Autodiff
