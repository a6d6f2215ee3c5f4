import Autodiff.Proofs.ExactBuilding
import Autodiff.Proofs.LagrangianDomain
import Autodiff.Proofs.InnerProduct
import Autodiff.MultiplierMethod

namespace Autodiff

variable {α : Type} [ExactScalar α]

/-- The gradient of a Lagrangian: that of the objective, and those of the constraints each with its
multiplier. -/
def lagrangianGradient (objective multipliers : List α) (constraints : List (List α)) : List α :=
  (multipliers.zip constraints).foldl
    (fun v p => List.zipWith (fun a b => a + p.1 * b) v p.2) objective

theorem dot_updateMultipliers (penalty : α) {multipliers constraints : List α}
    (hl : multipliers.length = constraints.length) (t : List α) :
    dot (MultiplierMethod.updateMultipliers penalty multipliers constraints) t =
      dot multipliers t + penalty * dot constraints t := by
  induction multipliers generalizing constraints t with
  | nil =>
    obtain rfl : constraints = [] := List.eq_nil_of_length_eq_zero hl.symm
    rw [MultiplierMethod.updateMultipliers, List.zipWith_nil_left, dot_nil, mul_zero, add_zero]
  | cons m multipliers ih =>
    cases constraints with
    | nil => cases hl
    | cons c constraints =>
      cases t with
      | nil => simp [dot_eq_sum]
      | cons y t =>
        have hrest := ih (Nat.succ.inj hl) t
        rw [MultiplierMethod.updateMultipliers] at hrest ⊢
        rw [List.zipWith_cons_cons, dot_cons, dot_cons, dot_cons, hrest]
        ring

theorem updateMultipliers_zeros (penalty : α) (constraints : List α) :
    MultiplierMethod.updateMultipliers penalty (List.replicate constraints.length 0) constraints =
      constraints.map (penalty * ·) := by
  induction constraints with
  | nil => rfl
  | cons c constraints ih =>
    rw [MultiplierMethod.updateMultipliers] at ih ⊢
    rw [List.length_cons, List.replicate_succ, List.zipWith_cons_cons, ih, zero_add, List.map_cons]

theorem lagrangianGradient_map {β : Type} (vars : List β) (f : β → α) (t : Expr → β → α)
    (multipliers : List α) (constraints : List Expr) :
    lagrangianGradient (vars.map f) multipliers (constraints.map fun c => vars.map (t c)) =
      vars.map fun y => f y + dot multipliers (constraints.map fun c => t c y) := by
  induction multipliers generalizing constraints f with
  | nil => simp [lagrangianGradient, dot_nil]
  | cons m multipliers ih =>
    cases constraints with
    | nil => simp [lagrangianGradient, dot_eq_sum]
    | cons c constraints =>
      have hstep : List.zipWith (fun a b => a + m * b) (vars.map f) (vars.map (t c)) =
          vars.map fun y => f y + m * t c y := by
        rw [List.zipWith_map, List.zipWith_self]
      have hrest := ih (fun y => f y + m * t c y) constraints
      rw [lagrangianGradient] at hrest ⊢
      rw [List.map_cons, List.zip_cons_cons, List.foldl_cons, hstep, hrest]
      refine List.map_congr_left fun y _ => ?_
      rw [List.map_cons, dot_cons, add_assoc]

namespace Assembly.Stands

variable {a : Assembly} {g extended : Graph α} {objective root : Expr} {constraints : List Expr}
  {env : Nat → Option α} {dir : Nat → α}

theorem valueAt_weighted (h : a.Stands g extended objective constraints root) :
    extended.valueAt env a.weighted.index =
      dot (a.multipliers.map fun y => extended.valueAt env y.expr.index)
        (constraints.map fun c => extended.valueAt env c.index) := by
  rw [h.weighted.valueAt_eq, map_eq_of_forall₂ h.products fun p e hp => hp.valueAt_eq, dot_eq_sum,
    List.zip, List.map_zipWith, List.zipWith_map_left, List.zipWith_map]

/-- In a direction that leaves the multipliers alone. -/
theorem tangentAt_weighted (h : a.Stands g extended objective constraints root)
    (hdir : ∀ y ∈ a.multipliers, dir y.expr.index = 0) :
    extended.tangentAt env dir a.weighted.index =
      dot (a.multipliers.map fun y => extended.valueAt env y.expr.index)
        (constraints.map fun c => extended.tangentAt env dir c.index) := by
  have hproducts : (a.products.map fun e => extended.tangentAt env dir e.index) =
      ((a.multipliers.map Var.expr).zip constraints).map fun p =>
        extended.valueAt env p.2.index * extended.tangentAt env dir p.1.index +
          extended.valueAt env p.1.index * extended.tangentAt env dir p.2.index :=
    map_eq_of_forall₂ h.products fun p e hp => hp.tangentAt_eq
  have hzero : ∀ p ∈ (a.multipliers.map Var.expr).zip constraints,
      extended.valueAt env p.2.index * extended.tangentAt env dir p.1.index +
        extended.valueAt env p.1.index * extended.tangentAt env dir p.2.index =
      extended.valueAt env p.1.index * extended.tangentAt env dir p.2.index := by
    intro p hp
    obtain ⟨y, hy, he⟩ := List.mem_map.mp (List.of_mem_zip hp).1
    rw [← he, Graph.tangentAt_variable (h.multipliers y hy).node, hdir y hy, mul_zero, zero_add]
  rw [h.weighted.tangentAt_eq, hproducts, List.map_congr_left hzero, dot_eq_sum, List.zip,
    List.map_zipWith, List.zipWith_map_left, List.zipWith_map]

variable [SquarePowers α]

theorem valueAt_penaltyTerm (h : a.Stands g extended objective constraints root) :
    extended.valueAt env a.penaltyTerm.index =
      Scalar.half * extended.valueAt env a.penalty.expr.index *
        dot (constraints.map fun c => extended.valueAt env c.index)
          (constraints.map fun c => extended.valueAt env c.index) := by
  rw [h.penaltyTerm.valueAt_eq, h.halfPenalty.valueAt_eq, Graph.valueAt_constant h.half,
    h.total.valueAt_eq, map_eq_of_forall₂ h.squares fun c e hp => hp.valueAt_eq, dot_map]

theorem tangentAt_penaltyTerm (h : a.Stands g extended objective constraints root)
    (hdir : dir a.penalty.expr.index = 0) :
    extended.tangentAt env dir a.penaltyTerm.index =
      extended.valueAt env a.penalty.expr.index *
        dot (constraints.map fun c => extended.valueAt env c.index)
          (constraints.map fun c => extended.tangentAt env dir c.index) := by
  have htotal : extended.tangentAt env dir a.total.index =
      Scalar.two * dot (constraints.map fun c => extended.valueAt env c.index)
        (constraints.map fun c => extended.tangentAt env dir c.index) := by
    rw [h.total.tangentAt_eq, map_eq_of_forall₂ h.squares fun c e hp => hp.tangentAt_eq, dot_map,
      ← List.sum_map_mul_left]
    simp only [mul_assoc]
  rw [h.penaltyTerm.tangentAt_eq, h.halfPenalty.tangentAt_eq, h.halfPenalty.valueAt_eq,
    Graph.valueAt_constant h.half, Graph.tangentAt_constant h.half,
    Graph.tangentAt_variable h.penalty.node, hdir, htotal]
  linear_combination (extended.valueAt env a.penalty.expr.index *
    dot (constraints.map fun c => extended.valueAt env c.index)
      (constraints.map fun c => extended.tangentAt env dir c.index)) * (half_mul_two : _ = (1 : α))

theorem valueAt_root (h : a.Stands g extended objective constraints root) :
    extended.valueAt env root.index = extended.valueAt env objective.index +
      (dot (a.multipliers.map fun y => extended.valueAt env y.expr.index)
          (constraints.map fun c => extended.valueAt env c.index) +
        Scalar.half * extended.valueAt env a.penalty.expr.index *
          dot (constraints.map fun c => extended.valueAt env c.index)
            (constraints.map fun c => extended.valueAt env c.index)) := by
  rw [h.root.valueAt_eq, List.map_cons, List.map_cons, List.map_singleton, List.sum_cons,
    List.sum_cons, List.sum_singleton, h.valueAt_weighted, h.valueAt_penaltyTerm]

/-- The derivative of the augmented Lagrangian in a direction that leaves the multipliers and the
weight alone is that of the plain Lagrangian with updated multipliers. -/
theorem tangentAt_root (h : a.Stands g extended objective constraints root)
    (hpenalty : dir a.penalty.expr.index = 0) (hdir : ∀ y ∈ a.multipliers, dir y.expr.index = 0) :
    extended.tangentAt env dir root.index = extended.tangentAt env dir objective.index +
      dot (MultiplierMethod.updateMultipliers (extended.valueAt env a.penalty.expr.index)
          (a.multipliers.map fun y => extended.valueAt env y.expr.index)
          (constraints.map fun c => extended.valueAt env c.index))
        (constraints.map fun c => extended.tangentAt env dir c.index) := by
  have hl : (a.multipliers.map fun y => extended.valueAt env y.expr.index).length =
      (constraints.map fun c => extended.valueAt env c.index).length := by
    rw [List.length_map, List.length_map, h.length]
  rw [dot_updateMultipliers _ hl, h.root.tangentAt_eq, List.map_cons, List.map_cons,
    List.map_singleton, List.sum_cons, List.sum_cons, List.sum_singleton,
    h.tangentAt_weighted hdir, h.tangentAt_penaltyTerm hpenalty]

end Assembly.Stands

namespace Lagrangian.LaidOut

variable {l : Lagrangian α} {g : Graph α} {objective : Expr} {constraints : List Expr}
  {vars : List Var} {d : Blueprint α} {x multipliers : List α} {penalty : α}

/-- A direction of one of the variables leaves the parameters alone. -/
theorem towards_param (h : l.LaidOut g objective constraints vars d) {v y : Var} (hv : v ∈ vars)
    (hy : y ∈ d.params) : (Graph.towards v.expr.index y.expr.index : α) = 0 := by
  have hnodup := h.renders.binds.nodup
  rw [List.map_append, List.nodup_append] at hnodup
  have hne := hnodup.2.2 _ (List.mem_map_of_mem hv) _ (List.mem_map_of_mem hy)
  exact if_neg fun he => hne he.symm

theorem tangentAt_old (h : l.LaidOut g objective constraints vars d) (hx : x.length = vars.length)
    {e : Expr} (hu : d.Uses e) (he : e.index < g.size) (dir : Nat → α) :
    d.extended.tangentAt (d.env vars x multipliers penalty) dir e.index =
      g.tangentAt (assignment vars x) dir e.index :=
  Graph.tangentAt_extend h.stands.grows.extension he (h.closed_old hu he) fun _ hj =>
    h.env_old hx hj

variable [SquarePowers α]

/-- Without multipliers and weight the Lagrangian is the objective. -/
theorem valueAt_root_zero (h : l.LaidOut g objective constraints vars d)
    (hx : x.length = vars.length) (he : objective.index < g.size) :
    d.extended.valueAt (d.env vars x (List.replicate l.constraints.length 0) 0) d.root.index =
      g.valueAt (assignment vars x) objective.index := by
  rw [h.stands.valueAt_root, h.valueAt_multipliers hx List.length_replicate, h.valueAt_penalty hx,
    dot_zeros, mul_zero, zero_mul, add_zero, add_zero, h.valueAt_old hx he]

/-- The gradient that a Lagrangian has at a point of its domain is that of the plain Lagrangian with
updated multipliers. -/
theorem gradient_eq (h : l.LaidOut g objective constraints vars d) (hx : x.length = vars.length)
    (hm : multipliers.length = l.constraints.length) (he : objective.index < g.size)
    (hc : ∀ c ∈ constraints, c.index < g.size) :
    (vars.map fun v => d.extended.adjoints (d.env vars x multipliers penalty) d.root.index d.order
      v.expr.index) =
      lagrangianGradient
        (vars.map fun v =>
          g.tangentAt (assignment vars x) (Graph.towards v.expr.index) objective.index)
        (MultiplierMethod.updateMultipliers penalty multipliers
          (constraints.map fun c => g.valueAt (assignment vars x) c.index))
        (constraints.map fun c => vars.map fun v =>
          g.tangentAt (assignment vars x) (Graph.towards v.expr.index) c.index) := by
  have hvalues : (constraints.map fun c =>
      d.extended.valueAt (d.env vars x multipliers penalty) c.index) =
        constraints.map fun c => g.valueAt (assignment vars x) c.index :=
    List.map_congr_left fun c hmem => h.valueAt_old hx (hc c hmem)
  rw [lagrangianGradient_map vars _
    fun c v => g.tangentAt (assignment vars x) (Graph.towards v.expr.index) c.index]
  refine List.map_congr_left fun v hv => ?_
  have hnode := h.renders.binds.node_eq v (List.mem_append_left _ hv)
  have htangents : (constraints.map fun c => d.extended.tangentAt
      (d.env vars x multipliers penalty) (Graph.towards v.expr.index) c.index) =
        constraints.map fun c =>
          g.tangentAt (assignment vars x) (Graph.towards v.expr.index) c.index :=
    List.map_congr_left fun c hmem => h.tangentAt_old hx (h.uses_constraint hmem) (hc c hmem) _
  rw [Graph.adjoints_eq_tangentAt h.renders.ordered hnode,
    h.stands.tangentAt_root (h.towards_param hv (by simp [Blueprint.params]))
      fun y hy => h.towards_param hv (by simp [Blueprint.params, hy]),
    h.valueAt_penalty hx, h.valueAt_multipliers hx hm, hvalues, htangents,
    h.tangentAt_old hx h.uses_objective he]

end Lagrangian.LaidOut

end Autodiff
