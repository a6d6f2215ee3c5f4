import Autodiff.Proofs.CompiledObjective
import Autodiff.Proofs.Definedness
import Autodiff.Proofs.LagrangianDomain
import Autodiff.Proofs.NewVariables
import Autodiff.Proofs.PlainNumbers

namespace Autodiff

open UnitScalar

variable {α : Type} [Scalar α] [UnitScalar α]

/-- A result that is undefined when spoilt, and otherwise a given number. -/
structure Unspoilt (spoilt : Bool) (a r : α) : Prop where
  undefined : spoilt = true → Scalar.isNaN r = true
  same : spoilt = false → number r = number a

/-- A result that is zero or undefined. -/
abbrev Vanishes (r : α) : Prop := Unspoilt (Scalar.isNaN r) 0 r

namespace Unspoilt

variable {spoilt : Bool} {a r z : α}

theorem refl (a : α) : Unspoilt false a a := ⟨nofun, fun _ => rfl⟩

theorem vanishes (h : Unspoilt spoilt (0 : α) r) : Vanishes r := by
  refine ⟨id, fun hr => h.same ?_⟩
  by_contra hspoilt
  rw [h.undefined (Bool.eq_true_of_not_eq_false hspoilt)] at hr
  cases hr

theorem isNaN_eq (h : Unspoilt spoilt (0 : α) r) : Scalar.isNaN r = spoilt := by
  cases spoilt with
  | true => exact h.undefined rfl
  | false =>
    rw [← Bool.not_eq_true, isNaN_iff_number, h.same rfl, number_zero]
    exact nofun

theorem add (h : Unspoilt spoilt a r) (hz : Vanishes z) :
    Unspoilt (spoilt || Scalar.isNaN z) a (r + z) := by
  constructor
  · intro hspoilt
    rw [Bool.or_eq_true] at hspoilt
    exact isNaN_add (hspoilt.imp_left h.undefined)
  · intro hspoilt
    rw [Bool.or_eq_false_iff] at hspoilt
    rw [number_add_zero r ((hz.same hspoilt.2).trans number_zero), h.same hspoilt.1]

theorem zero_add (hz : Vanishes z) (h : Unspoilt spoilt a r) :
    Unspoilt (Scalar.isNaN z || spoilt) a (z + r) := by
  constructor
  · intro hspoilt
    rw [Bool.or_eq_true] at hspoilt
    exact isNaN_add (hspoilt.imp_right h.undefined)
  · intro hspoilt
    rw [Bool.or_eq_false_iff] at hspoilt
    rw [number_zero_add ((hz.same hspoilt.1).trans number_zero), h.same hspoilt.2]

theorem congr {r' : α} (h : Unspoilt spoilt a r) (hr : number r' = number r) :
    Unspoilt spoilt a r' := by
  refine ⟨fun hspoilt => ?_, fun hspoilt => hr.trans (h.same hspoilt)⟩
  rw [isNaN_iff_number, hr]
  exact isNaN_iff_number.mp (h.undefined hspoilt)

theorem foldl {xs : List α} (h : Unspoilt spoilt a r) (hxs : ∀ x ∈ xs, Vanishes x) :
    Unspoilt (spoilt || xs.any Scalar.isNaN) a (xs.foldl (· + ·) r) := by
  induction xs generalizing spoilt r with
  | nil =>
    rw [List.any_nil, Bool.or_false]
    exact h
  | cons x xs ih =>
    rw [List.any_cons, ← Bool.or_assoc]
    exact ih (h.add (hxs x (by simp))) fun y hy => hxs y (by simp [hy])

/-- Summands that vanish, added to a zero. -/
theorem foldl_zero {xs : List α} (hz : number z = .zero .positive) (hxs : ∀ x ∈ xs, Vanishes x) :
    Unspoilt (xs.any Scalar.isNaN) 0 (xs.foldl (· + ·) z) := by
  have hstart : Unspoilt false (0 : α) z := (refl 0).congr (hz.trans number_zero.symm)
  exact hstart.foldl hxs

end Unspoilt

namespace Graph

variable {g : Graph α} {env : Nat → Option α} {a b e : Expr} {terms : List Expr}

/-- The terms of a list that are constants. -/
def constants (g : Graph α) (terms : List Expr) : List Expr :=
  terms.filter fun t => (g.constantAt? t.index).isSome

omit [UnitScalar α] in
theorem constantPart_eq (g : Graph α) (env : Nat → Option α) (terms : List Expr) :
    g.constantPart terms =
      ((g.constants terms).map fun t => g.valueAt env t.index).foldl (· + ·) 0 := by
  have hlist : (terms.filterMap fun t => g.constantAt? t.index) =
      (g.constants terms).map fun t => g.valueAt env t.index := by
    induction terms with
    | nil => rfl
    | cons t terms ih =>
      rw [constants, List.filter_cons, List.filterMap_cons]
      cases ht : g.constantAt? t.index with
      | none => exact ih
      | some c =>
        have hvalue : g.valueAt env t.index = c := valueAt_constant (constantAt?_eq_some.mp ht)
        rw [Option.isSome_some, if_pos rfl, List.map_cons, hvalue]
        exact congrArg (c :: ·) ih
  rw [constantPart, hlist]

theorem number_noConstantPart (h : g.NoConstantPart terms) :
    number (g.constantPart terms) = .zero .positive := by
  rcases h with h | h
  · rw [constantPart, h]
    exact number_zero
  · have hbeq : (g.constantPart terms == 0) = true := by
      rw [bne, Bool.not_eq_false'] at h
      exact h
    rw [(beq_iff_number.mp hbeq).1, number_zero]

/-- The number of a sum is that of its variable terms and then its constants. -/
theorem IsSum.number_eq (h : g.IsSum terms e) (env : Nat → Option α) :
    number (g.valueAt env e.index) = number
      (Scalar.total ((g.variablePart terms).map fun t => g.valueAt env t.index) +
        g.constantPart terms) := by
  cases h with
  | constant hv he =>
    rw [hv, valueAt_constant he]
    exact (number_zero_add number_neg_zero _).symm
  | single hv hc =>
    rw [hv, number_add_zero _ (number_noConstantPart hc)]
    exact (number_zero_add number_neg_zero _).symm
  | node hc he hlt =>
    rw [number_add_zero _ (number_noConstantPart hc), valueAt_node he hlt]
    rfl
  | nodeWith hc he hlt =>
    rw [valueAt_node he hlt, Node.result, Scalar.total, List.map_append, List.foldl_append,
      List.map_singleton, valueAt_constant hc]
    rfl

omit [Scalar α] [UnitScalar α] in
theorem any_parts (g : Graph α) (terms : List Expr) (f : Expr → Bool) :
    terms.any f = ((g.variablePart terms).any f || (g.constants terms).any f) := by
  induction terms with
  | nil => rfl
  | cons t terms ih =>
    rw [List.any_cons, ih]
    cases ht : g.constantAt? t.index with
    | none => simp [variablePart, constants, ht, Bool.or_assoc]
    | some c => simp [variablePart, constants, ht, Bool.or_left_comm]

/-- A sum in which everything but its first term vanishes. -/
theorem IsSum.unspoilt {t : Expr} {spoilt : Bool} {x : α} (h : g.IsSum (t :: terms) e)
    (ht : Unspoilt spoilt x (g.valueAt env t.index))
    (hterms : ∀ u ∈ terms, Vanishes (g.valueAt env u.index)) :
    Unspoilt (spoilt || terms.any fun u => Scalar.isNaN (g.valueAt env u.index)) x
      (g.valueAt env e.index) := by
  have hvariable : ∀ y ∈ (g.variablePart terms).map fun u => g.valueAt env u.index, Vanishes y := by
    intro y hy
    obtain ⟨u, hu, rfl⟩ := List.mem_map.mp hy
    exact hterms u (List.mem_of_mem_filter hu)
  have hconstant : ∀ y ∈ (g.constants terms).map fun u => g.valueAt env u.index, Vanishes y := by
    intro y hy
    obtain ⟨u, hu, rfl⟩ := List.mem_map.mp hy
    exact hterms u (List.mem_of_mem_filter hu)
  have hnumber := h.number_eq env
  rw [constantPart_eq g env] at hnumber
  refine Unspoilt.congr ?_ hnumber
  rw [g.any_parts terms]
  -- The first term opens the variable part or, as a constant, the constant part.
  cases hc : g.constantAt? t.index with
  | none =>
    have hparts : g.variablePart (t :: terms) = t :: g.variablePart terms ∧
        g.constants (t :: terms) = g.constants terms := by
      simp [variablePart, constants, hc]
    have hsum := (ht.congr (number_zero_add number_neg_zero _)).foldl hvariable
    have hrest := Unspoilt.foldl_zero number_zero hconstant
    have hall := hsum.add hrest.vanishes
    rw [hrest.isNaN_eq, List.any_map, List.any_map] at hall
    rw [hparts.1, hparts.2, ← Bool.or_assoc]
    exact hall
  | some c =>
    have hparts : g.variablePart (t :: terms) = g.variablePart terms ∧
        g.constants (t :: terms) = t :: g.constants terms := by
      simp [variablePart, constants, hc]
    have hsum := (ht.congr (number_zero_add number_zero _)).foldl hconstant
    have hrest := Unspoilt.foldl_zero number_neg_zero hvariable
    have hall := Unspoilt.zero_add hrest.vanishes hsum
    rw [hrest.isNaN_eq, List.any_map, List.any_map] at hall
    rw [hparts.1, hparts.2, Bool.or_left_comm]
    exact hall

/-- A sum in which everything vanishes. -/
theorem IsSum.unspoilt_zero (h : g.IsSum terms e)
    (hterms : ∀ u ∈ terms, Vanishes (g.valueAt env u.index)) :
    Unspoilt (terms.any fun u => Scalar.isNaN (g.valueAt env u.index)) 0
      (g.valueAt env e.index) := by
  cases terms with
  | nil =>
    refine (Unspoilt.refl (0 : α)).congr ((h.number_eq env).trans ?_)
    exact number_zero_add number_neg_zero _
  | cons t terms => exact h.unspoilt (hterms t (by simp)) fun u hu => hterms u (by simp [hu])

/-- A product with a zero that is no constant. -/
theorem IsProduct.unspoilt (h : g.IsProduct a b e) (ha : g.constantAt? a.index = none)
    (hzero : number (g.valueAt env a.index) = .zero .positive) :
    Unspoilt (!Scalar.isFinite (g.valueAt env b.index)) 0 (g.valueAt env e.index) := by
  cases h with
  | folded ha' => cases ha.symm.trans (constantAt?_eq_some.mpr ha')
  | right ha' => cases ha.symm.trans (constantAt?_eq_some.mpr ha')
  | left hb hy he =>
    have hone := (beq_iff_number.mp hy).1
    have hfinite : Scalar.isFinite (g.valueAt env b.index) = true := by
      rw [valueAt_constant hb, isFinite_number, hone]
      exact (isFinite_number _).symm.trans isFinite_one
    rw [hfinite, he]
    exact (Unspoilt.refl (0 : α)).congr (hzero.trans number_zero.symm)
  | node he hae hbe =>
    rw [valueAt_node he (by simp [Node.operands, hae, hbe])]
    constructor
    · intro hinfinite
      rw [Bool.not_eq_true'] at hinfinite
      exact isNaN_zero_mul hzero hinfinite
    · intro hfinite
      rw [Bool.not_eq_false'] at hfinite
      exact (number_zero_mul hzero hfinite).trans number_zero.symm

/-- A recorded square is the square of a number, and a constant if the number is one. -/
theorem IsPower.square_eq [WholeSquares α] (h : g.IsPower a Scalar.two e)
    (hfolds : g.FoldsPower a Scalar.two e) :
    g.valueAt env e.index = Scalar.pow (g.valueAt env a.index) Scalar.two ∧
      (g.constantAt? a.index).isSome = (g.constantAt? e.index).isSome := by
  cases h with
  | one htwo => cases htwo.symm.trans UnitScalar.two_beq_one
  | zero htwo => cases htwo.symm.trans UnitScalar.two_beq_zero
  | folded ha hv he =>
    rw [valueAt_constant ha, valueAt_constant he, constantAt?_eq_some.mpr ha,
      constantAt?_eq_some.mpr he]
    exact ⟨powerValue_eq_ok hv, rfl⟩
  | node he ha =>
    have hnone : g.constantAt? e.index = none := by simp [constantAt?, he, Node.constant?]
    rw [valueAt_node he (by simp [Node.operands, ha]), hnone]
    refine ⟨rfl, ?_⟩
    cases hc : g.constantAt? a.index with
    | none => rfl
    | some c =>
      -- Two is a whole number, so the square of a constant was worked out.
      obtain ⟨node, hn, hfold⟩ := hfolds
      have hconstant := Option.some.inj (hn.symm.trans (constantAt?_eq_some.mp hc))
      have hvalue : powerValue c Scalar.two = .ok (Scalar.pow c Scalar.two) := by
        simp [powerValue, WholeSquares.isInteger_two]
      obtain ⟨w, hw⟩ := hfold c _ hconstant hvalue
      cases he.symm.trans hw

/-- The sum of the squares of expressions with given values, in the order in which it is recorded:
the squares of constants come last. -/
def squareSum (g : Graph α) (terms : List Expr) (v : Expr → α) : α :=
  Scalar.total ((g.variablePart terms).map fun t => Scalar.pow (v t) Scalar.two) +
    ((g.constants terms).map fun t => Scalar.pow (v t) Scalar.two).foldl (· + ·) 0

omit [UnitScalar α] in
theorem squareSum_extend {g' : Graph α} (hg : g.Extends g') (hlt : ∀ t ∈ terms, t.index < g.size)
    {v v' : Expr → α} (hv : ∀ t ∈ terms, v' t = v t) :
    g'.squareSum terms v' = g.squareSum terms v := by
  have hconstants : g'.constants terms = g.constants terms :=
    List.filter_congr fun t ht => by rw [hg.constantAt? (hlt t ht)]
  have hsquares (ts : List Expr) (hts : ∀ t ∈ ts, t ∈ terms) :
      (ts.map fun t => Scalar.pow (v' t) Scalar.two) = ts.map fun t => Scalar.pow (v t) Scalar.two :=
    List.map_congr_left fun t ht => by rw [hv t (hts t ht)]
  rw [squareSum, squareSum, (parts_of_extends hg hlt).2.1, hconstants,
    hsquares (g.variablePart terms) fun t => List.mem_of_mem_filter,
    hsquares (g.constants terms) fun t => List.mem_of_mem_filter]

/-- The values of expressions and the sum of their squares are finite. -/
structure FiniteSquares (g : Graph α) (terms : List Expr) (v : Expr → α) : Prop where
  values : ∀ t ∈ terms, Scalar.isFinite (v t) = true
  sum : Scalar.isFinite (g.squareSum terms v) = true

end Graph

namespace Assembly.Stands

open Autodiff.Graph

variable {a : Assembly} {g extended : Graph α} {objective root : Expr} {constraints : List Expr}
  {env : Nat → Option α}

theorem unspoilt_weighted (h : a.Stands g extended objective constraints root)
    (hzero : ∀ y ∈ a.multipliers, number (extended.valueAt env y.expr.index) = .zero .positive) :
    Unspoilt (constraints.any fun c => !Scalar.isFinite (extended.valueAt env c.index)) 0
      (extended.valueAt env a.weighted.index) := by
  have hproducts : List.Forall₂ (fun p e => Unspoilt
      (!Scalar.isFinite (extended.valueAt env p.2.index)) 0 (extended.valueAt env e.index))
      ((a.multipliers.map Var.expr).zip constraints) a.products := by
    have hpairs := (List.forall₂_and_left _ _).mpr ⟨fun p hp => (List.of_mem_zip hp).1, h.products⟩
    refine hpairs.imp fun p e ⟨hmem, hp⟩ => ?_
    obtain ⟨y, hy, he⟩ := List.mem_map.mp hmem
    rw [← he] at hp
    exact hp.unspoilt (h.constantAt?_multiplier hy) (hzero y hy)
  have hvanishes : ∀ e ∈ a.products, Vanishes (extended.valueAt env e.index) := by
    intro e he
    obtain ⟨p, -, hp⟩ := exists_of_forall₂ hproducts.flip he
    exact hp.vanishes
  have hlength : constraints.length ≤ (a.multipliers.map Var.expr).length := by
    rw [List.length_map, h.length]
  have hspoilt : (a.products.any fun e => Scalar.isNaN (extended.valueAt env e.index)) =
      constraints.any fun c => !Scalar.isFinite (extended.valueAt env c.index) := by
    have hmap := map_eq_of_forall₂ hproducts fun p e hp => hp.isNaN_eq
    rw [← List.map_snd_zip hlength, List.any_map]
    simpa only [List.any_map, Function.comp_def, id] using congrArg (List.any · id) hmap
  rw [← hspoilt]
  exact h.weighted.unspoilt_zero hvanishes

theorem unspoilt_penaltyTerm (h : a.Stands g extended objective constraints root)
    (hzero : number (extended.valueAt env a.penalty.expr.index) = .zero .positive) :
    Unspoilt (!Scalar.isFinite (extended.valueAt env a.total.index)) 0
      (extended.valueAt env a.penaltyTerm.index) := by
  have hpenalty : extended.constantAt? a.penalty.expr.index = none := by
    simp [constantAt?, h.penalty.node, Node.constant?]
  have hhalf : extended.constantAt? a.halfPenalty.index = none ∧
      number (extended.valueAt env a.halfPenalty.index) = .zero .positive := by
    cases h.halfPenalty with
    | folded _ hb => cases hpenalty.symm.trans (constantAt?_eq_some.mpr hb)
    | left hb => cases hpenalty.symm.trans (constantAt?_eq_some.mpr hb)
    | right _ _ he => exact he ▸ ⟨hpenalty, hzero⟩
    | node he ha hb =>
      refine ⟨by simp [constantAt?, he, Node.constant?], ?_⟩
      rw [valueAt_node he (by simp [Node.operands, ha, hb]), Node.result, valueAt_constant h.half]
      exact number_half_mul hzero
  exact h.penaltyTerm.unspoilt hhalf.1 hhalf.2

/-- Without multipliers and weight the Lagrangian is the objective, unless a constraint or the sum of
the squares is infinite or undefined. -/
theorem unspoilt_root (h : a.Stands g extended objective constraints root)
    (hmultipliers : ∀ y ∈ a.multipliers,
      number (extended.valueAt env y.expr.index) = .zero .positive)
    (hpenalty : number (extended.valueAt env a.penalty.expr.index) = .zero .positive) :
    Unspoilt ((constraints.any fun c => !Scalar.isFinite (extended.valueAt env c.index)) ||
        !Scalar.isFinite (extended.valueAt env a.total.index))
      (extended.valueAt env objective.index) (extended.valueAt env root.index) := by
  have hweighted := h.unspoilt_weighted hmultipliers
  have hpenaltyTerm := h.unspoilt_penaltyTerm hpenalty
  have hterms : ∀ u ∈ [a.weighted, a.penaltyTerm], Vanishes (extended.valueAt env u.index) := by
    intro u hu
    rcases List.mem_pair.mp hu with rfl | rfl
    · exact hweighted.vanishes
    · exact hpenaltyTerm.vanishes
  have hroot := h.root.unspoilt (.refl (extended.valueAt env objective.index)) hterms
  rw [List.any_cons, List.any_cons, List.any_nil, Bool.or_false, Bool.false_or, hweighted.isNaN_eq,
    hpenaltyTerm.isNaN_eq] at hroot
  exact hroot

/-- The recorded sum of the squares of the constraints. -/
theorem number_total [WholeSquares α] (h : a.Stands g extended objective constraints root) :
    number (extended.valueAt env a.total.index) =
      number (extended.squareSum constraints fun c => extended.valueAt env c.index) := by
  have hsquares : List.Forall₂ (fun c e => extended.valueAt env e.index =
      Scalar.pow (extended.valueAt env c.index) Scalar.two ∧
        (extended.constantAt? c.index).isSome = (extended.constantAt? e.index).isSome)
      constraints a.squares := by
    refine List.forall₂_iff_zip.mpr ⟨h.squares.length_eq, fun hpair => ?_⟩
    have hpower := (List.forall₂_iff_zip.mp h.squares).2 hpair
    exact hpower.square_eq ((List.forall₂_iff_zip.mp h.folds).2 hpair)
  have hconstants : (extended.constants a.squares).map (fun e => extended.valueAt env e.index) =
      (extended.constants constraints).map fun c =>
        Scalar.pow (extended.valueAt env c.index) Scalar.two :=
    map_eq_of_forall₂ (List.rel_filter (fun c e hp => iff_of_eq (congrArg (· = true) hp.2)) hsquares)
      fun _ _ hp => hp.1
  have hvariables :
      (extended.variablePart a.squares).map (fun e => extended.valueAt env e.index) =
        (extended.variablePart constraints).map fun c =>
          Scalar.pow (extended.valueAt env c.index) Scalar.two := by
    refine map_eq_of_forall₂ (List.rel_filter (fun c e hp => ?_) hsquares) fun _ _ hp => hp.1
    have hnone : (extended.constantAt? c.index).isNone = (extended.constantAt? e.index).isNone := by
      rw [← Option.not_isSome, ← Option.not_isSome, hp.2]
    exact iff_of_eq (congrArg (· = true) hnone)
  rw [h.total.number_eq env, constantPart_eq extended env, squareSum, hconstants, hvariables]

end Assembly.Stands

namespace Lagrangian

variable {l : Lagrangian α} {g : Graph α} {objective : Expr} {constraints : List Expr}
  {vars : List Var} {d : Blueprint α} {x : List α}

omit [UnitScalar α] in
/-- A measurement takes a point that fits, in the domain of the objective and all constraints. -/
theorem LaidOut.length_of_measure (h : l.LaidOut g objective constraints vars d) {value : α}
    {values : List α} (hr : l.measure x = .ok (value, values)) :
    x.length = vars.length ∧ l.Admits x := by
  obtain ⟨v, hv, -⟩ := bind_eq_ok.mp hr
  exact ⟨(Tape.lengths_of_valueParametric hv).1.trans h.renders.inputs, v, hv⟩

/-- The value that a Lagrangian has without multipliers and weight, by the values of the objective
and the constraints. -/
theorem LaidOut.unspoilt_value [WholeSquares α] (h : l.LaidOut g objective constraints vars d)
    (hx : x.length = vars.length) (hobjective : objective.index < g.size) :
    let v := fun e : Expr => g.valueAt (assignment vars x) e.index
    ∃ spoilt, (spoilt = false ↔ g.FiniteSquares constraints v) ∧ Unspoilt spoilt (v objective)
      (d.extended.valueAt (d.env vars x (List.replicate l.constraints.length 0) 0)
        d.root.index) := by
  intro v
  let zeros := List.replicate l.constraints.length (0 : α)
  have hold : ∀ e : Expr, e.index < g.size →
      d.extended.valueAt (d.env vars x zeros 0) e.index = v e := fun e he => h.valueAt_old hx he
  have hmultipliers : ∀ y ∈ d.assembly.multipliers,
      number (d.extended.valueAt (d.env vars x zeros 0) y.expr.index) = .zero .positive := by
    intro y hy
    have hmem := List.mem_map_of_mem
      (f := fun y : Var => d.extended.valueAt (d.env vars x zeros 0) y.expr.index) hy
    rw [h.valueAt_multipliers hx List.length_replicate] at hmem
    rw [List.eq_of_mem_replicate hmem, number_zero]
  have hpenalty :
      number (d.extended.valueAt (d.env vars x zeros 0) d.assembly.penalty.expr.index) =
        .zero .positive := by
    rw [h.valueAt_penalty hx, number_zero]
  have hroot := h.stands.unspoilt_root hmultipliers hpenalty
  have hsum : d.extended.squareSum constraints (fun c => d.extended.valueAt
      (d.env vars x zeros 0) c.index) = g.squareSum constraints v :=
    Graph.squareSum_extend h.stands.grows.extension h.constraint_lt fun c hc =>
      hold c (h.constraint_lt c hc)
  rw [hold objective hobjective, isFinite_number, h.stands.number_total, ← isFinite_number,
    hsum] at hroot
  refine ⟨_, ?_, hroot⟩
  rw [Bool.or_eq_false_iff, List.any_eq_false, Bool.not_eq_false']
  constructor
  · rintro ⟨hvalues, hsquares⟩
    refine ⟨fun c hc => ?_, hsquares⟩
    have hfinite := hvalues c hc
    rw [Bool.not_eq_true', Bool.not_eq_false, hold c (h.constraint_lt c hc)] at hfinite
    exact hfinite
  · rintro ⟨hvalues, hsquares⟩
    refine ⟨fun c hc => ?_, hsquares⟩
    rw [Bool.not_eq_true', Bool.not_eq_false, hold c (h.constraint_lt c hc)]
    exact hvalues c hc

/-- What is measured. The objective is read off the Lagrangian with zeros for the multipliers and the
weight, and zero times an infinity is undefined: the value is that of the objective exactly where all
constraints and the sum of their squares are finite, and elsewhere it is undefined. -/
theorem measured_values [WholeSquares α] (hobjective : objective.index < g.size)
    (h : ofGraph g objective constraints vars = .ok l) {value : α} {values : List α}
    (hr : l.measure x = .ok (value, values)) :
    ∃ v : Expr → α, (∀ e ∈ objective :: constraints, g.evaluate e vars x = .ok (v e)) ∧
      values = constraints.map v ∧
      (g.FiniteSquares constraints v → Scalar.Same value (v objective)) ∧
      (¬g.FiniteSquares constraints v → Scalar.isNaN value = true) := by
  obtain ⟨d, hd⟩ := ofGraph_spec h
  obtain ⟨hx, ha⟩ := hd.length_of_measure hr
  have hb := hd.binds_old (vars_lt_of_ofGraph h)
  obtain ⟨hvalue, hvalues⟩ := Prod.mk.inj (Except.ok.inj (hr.symm.trans (hd.measure_eq hx ha)))
  obtain ⟨spoilt, hspoilt, hunspoilt⟩ := hd.unspoilt_value hx hobjective
  rw [← hvalue] at hunspoilt
  refine ⟨fun e => g.valueAt (assignment vars x) e.index, fun e he => ?_, hvalues, ?_, ?_⟩
  · rcases List.mem_cons.mp he with rfl | hc
    · exact hd.evaluate_old hx ha hb hd.uses_objective hobjective
    · exact hd.evaluate_old hx ha hb (hd.uses_constraint hc) (hd.constraint_lt e hc)
  · exact fun hfinite => same_iff.mpr (hunspoilt.same (hspoilt.mpr hfinite))
  · exact fun hinfinite =>
      hunspoilt.undefined (Bool.eq_true_of_not_eq_false (mt hspoilt.mp hinfinite))

/-- Two variables and the square of the second as a product. -/
def squaringGraph : Graph Float :=
  ⟨#[.variable ⟨0⟩, .variable ⟨1⟩, .binary .multiply ⟨1⟩ ⟨1⟩], 2⟩

def squaringVars : List Var := [⟨⟨0⟩, ⟨0⟩⟩, ⟨⟨1⟩, ⟨1⟩⟩]

/-- The objective one is measured without constraints, but with a square that is too large it is
not. -/
theorem measured_values_square :
    (∃ l value, ofGraph squaringGraph ⟨0⟩ [] squaringVars = .ok l ∧
      l.measure [1, 1e200] = .ok (value, []) ∧
      ∃ v, squaringGraph.evaluate ⟨0⟩ squaringVars [1, 1e200] = .ok v ∧ Scalar.Same value v) ∧
    ∃ l value y, ofGraph squaringGraph ⟨0⟩ [⟨2⟩] squaringVars = .ok l ∧
      l.measure [1, 1e200] = .ok (value, [y]) ∧ Scalar.isFinite y = false ∧
      Scalar.isNaN value = true := by
  have hplain : ((ofGraph squaringGraph ⟨0⟩ [] squaringVars).toOption.bind fun l =>
      (l.measure [1, 1e200]).toOption.map fun r => r.2.length) = some 0 := by decide +kernel
  have hlarge : ((ofGraph squaringGraph ⟨0⟩ [⟨2⟩] squaringVars).toOption.bind fun l =>
      (l.measure [1, 1e200]).toOption.map fun r => r.2.map Scalar.isFinite) = some [false] := by
    decide +kernel
  constructor
  · obtain ⟨l, hl, hmeasure⟩ := Option.bind_eq_some_iff.mp hplain
    obtain ⟨⟨value, values⟩, hr, hlength⟩ := Option.map_eq_some_iff.mp hmeasure
    rw [toOption_eq_some] at hl hr
    obtain rfl := List.eq_nil_of_length_eq_zero hlength
    obtain ⟨v, hv, -, hsame, -⟩ := measured_values (by decide) hl hr
    have hsum : Scalar.isFinite (-0 + 0 : Float) = true := by decide +kernel
    have hfinite : squaringGraph.FiniteSquares [] v := ⟨nofun, hsum⟩
    exact ⟨l, value, hl, hr, v ⟨0⟩, hv _ (by simp), hsame hfinite⟩
  · obtain ⟨l, hl, hmeasure⟩ := Option.bind_eq_some_iff.mp hlarge
    obtain ⟨⟨value, values⟩, hr, hvalues⟩ := Option.map_eq_some_iff.mp hmeasure
    rw [toOption_eq_some] at hl hr
    obtain ⟨v, hv, rfl, -, hundefined⟩ := measured_values (by decide) hl hr
    have hinfinite : Scalar.isFinite (v ⟨2⟩) = false := by simpa using hvalues
    refine ⟨l, value, v ⟨2⟩, hl, hr, hinfinite, hundefined fun hfinite => ?_⟩
    cases hinfinite.symm.trans (hfinite.values ⟨2⟩ (by simp))

/-- The objective is one, but it is not what is measured. -/
theorem measured_value_lost : ∃ l value values v,
    ofGraph squaringGraph ⟨0⟩ [⟨2⟩] squaringVars = .ok l ∧
      l.measure [1, 1e200] = .ok (value, values) ∧
      squaringGraph.evaluate ⟨0⟩ squaringVars [1, 1e200] = .ok v ∧
      Scalar.isFinite v = true ∧ ¬Scalar.Same value v := by
  have hlost : ((ofGraph squaringGraph ⟨0⟩ [⟨2⟩] squaringVars).toOption.bind fun l =>
      (l.measure [1, 1e200]).toOption.bind fun r =>
        (squaringGraph.evaluate ⟨0⟩ squaringVars [1, 1e200]).toOption.map fun v =>
          (Scalar.isFinite v, r.1 == v, Scalar.isNaN v)) = some (true, false, false) := by
    decide +kernel
  obtain ⟨l, hl, hlost⟩ := Option.bind_eq_some_iff.mp hlost
  obtain ⟨⟨value, values⟩, hr, hlost⟩ := Option.bind_eq_some_iff.mp hlost
  obtain ⟨v, hv, hlost⟩ := Option.map_eq_some_iff.mp hlost
  rw [toOption_eq_some] at hl hr hv
  simp only [Prod.mk.injEq] at hlost
  obtain ⟨hfinite, hbeq, hnan⟩ := hlost
  refine ⟨l, value, values, v, hl, hr, hv, hfinite, ?_⟩
  rintro (hsame | ⟨-, hsame⟩)
  · cases hbeq.symm.trans hsame
  · cases hnan.symm.trans hsame

end Lagrangian

end Autodiff
