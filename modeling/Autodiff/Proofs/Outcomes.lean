import Autodiff.Proofs.Refusals
import Autodiff.Proofs.UnreachedNodes

namespace Autodiff

variable {α β : Type}

namespace Graph

/-- Why an entry of a list of variables is refused after earlier entries were bound: it does not name a
variable node with its identity, or an earlier entry names the same node. -/
inductive Objection (g : Graph α) (earlier : List Var) (x : Var) : Error α → Prop where
  | foreign (h : g.nodes[x.expr.index]? ≠ some (.variable x.id)) :
      Objection g earlier x (.foreignNode x.expr.index g.size)
  | repeated (hn : g.nodes[x.expr.index]? = some (.variable x.id))
      (h : ∃ y ∈ earlier, y.expr.index = x.expr.index) :
      Objection g earlier x (.duplicateVariable x.id)

theorem Binds.snoc {g : Graph α} {vars : List Var} {x : Var} (h : g.Binds vars)
    (hn : g.nodes[x.expr.index]? = some (.variable x.id))
    (hnew : ∀ y ∈ vars, y.expr.index ≠ x.expr.index) : g.Binds (vars ++ [x]) := by
  refine ⟨fun y hy => ?_, ?_⟩
  · rcases List.mem_append.mp hy with hy | hy
    · exact h.node_eq y hy
    · obtain rfl := List.mem_singleton.mp hy
      exact hn
  · rw [List.map_append, List.nodup_append]
    refine ⟨h.nodup, by simp, fun i hi j hj => ?_⟩
    obtain ⟨y, hy, rfl⟩ := List.mem_map.mp hi
    obtain rfl : j = x.expr.index := by simpa using hj
    exact hnew y hy

/-- A list of variables can be bound, or there is a first entry that cannot. -/
theorem binds_or_objection (g : Graph α) (vars : List Var) :
    g.Binds vars ∨ ∃ before x after e, vars = before ++ x :: after ∧ g.Binds before ∧
      g.Objection before x e := by
  induction vars using List.reverseRecOn with
  | nil => exact Or.inl ⟨by simp, by simp⟩
  | append_singleton vars x ih =>
    rcases ih with hb | ⟨before, y, after, e, rfl, hb, ho⟩
    · by_cases hn : g.nodes[x.expr.index]? = some (.variable x.id)
      · by_cases hnew : ∃ y ∈ vars, y.expr.index = x.expr.index
        · exact Or.inr ⟨vars, x, [], _, rfl, hb, .repeated hn hnew⟩
        · exact Or.inl (hb.snoc hn fun y hy he => hnew ⟨y, hy, he⟩)
      · exact Or.inr ⟨vars, x, [], _, rfl, hb, .foreign hn⟩
    · exact Or.inr ⟨before, y, after ++ [x], e, by simp, hb, ho⟩

/-- Binding reports the first entry that cannot be bound. -/
theorem Objection.bind {g : Graph α} {before after : List Var} {x : Var} {e : Error α}
    (ho : g.Objection before x e) (hb : g.Binds before) :
    g.bind (before ++ x :: after) g.unbound 0 = .error (.refused e) := by
  obtain ⟨slots, hslots, hsize, hat⟩ := bind_unbound_of_binds hb
  rw [bind_append, hslots, ok_bind, bind_cons]
  cases ho with
  | foreign h => rw [bindVar_foreign _ h, error_bind]
  | repeated hn h =>
    rw [bindVar_eq hsize _ hn, hat]
    cases hp : position before x.expr.index with
    | none =>
      obtain ⟨y, hy, he⟩ := h
      exact absurd he (position_eq_none_iff.mp hp y hy)
    | some k => rfl

variable [Scalar α]

/-- Why a node has no value at a point, given the values of the nodes before it: its variable is not
listed, or its operand lies outside the domain. -/
inductive Obstacle (g : Graph α) (vars : List Var) (point : List α) (i : Nat) : Error α → Prop where
  | unlisted {id : VarId} (hn : g.nodes[i]? = some (.variable id))
      (h : ∀ x ∈ vars, x.expr.index ≠ i) : Obstacle g vars point i (.unboundVariable id)
  | logarithm {arg : Expr} (hn : g.nodes[i]? = some (.unary .log arg))
      (h : g.valueAt (assignment vars point) arg.index ≤ 0) :
      Obstacle g vars point i (.logDomain (g.valueAt (assignment vars point) arg.index))
  | power {base : Expr} {exponent : α} (hn : g.nodes[i]? = some (.power base exponent))
      (hexp : Scalar.isInteger exponent = false)
      (h : g.valueAt (assignment vars point) base.index ≤ 0) :
      Obstacle g vars point i
        (.powerDomain (g.valueAt (assignment vars point) base.index) exponent)

section

variable {g : Graph α} {vars : List Var} {point : List α}

theorem obstacle_of_errorAt? (hl : vars.length = point.length) {i : Nat} {e : Error α}
    (h : g.errorAt? (assignment vars point) i = some e) : g.Obstacle vars point i e := by
  obtain ⟨node, hn, h⟩ := Option.bind_eq_some_iff.mp h
  unfold Node.refusal? at h
  split at h
  next id =>
    split at h
    next => cases h
    next hnone =>
      obtain rfl := Option.some.inj h
      rw [assignment_isSome hl, Option.not_isSome_iff_eq_none, position_eq_none_iff] at hnone
      exact .unlisted hn hnone
  next arg =>
    split at h
    next ha =>
      obtain rfl := Option.some.inj h
      exact .logarithm hn ha
    next => cases h
  next base exponent =>
    split at h
    next hd =>
      obtain rfl := Option.some.inj h
      obtain ⟨hexp, hbase⟩ : Scalar.isInteger exponent = false ∧
          g.valueAt (assignment vars point) base.index ≤ 0 := by simpa using hd
      exact .power hn hexp hbase
    next => cases h
  all_goals cases h

theorem Obstacle.errorAt? (hl : vars.length = point.length) {i : Nat} {e : Error α}
    (h : g.Obstacle vars point i e) : g.errorAt? (assignment vars point) i = some e := by
  cases h with
  | unlisted hn h =>
    have hnone := assignment_isSome hl i
    rw [position_eq_none_iff.mpr h] at hnone
    rw [errorAt?_node hn, Node.refusal?, hnone]
    rfl
  | logarithm hn h => rw [errorAt?_node hn, Node.refusal?, if_pos h]
  | power hn hexp h =>
    rw [errorAt?_node hn, Node.refusal?, if_pos (by simp [hexp, h])]

end

/-- When an expression has a value at a point: the lengths fit, the root and all operands below it
belong to the graph, the listed variables can be bound, and no node below the root lacks a value. -/
structure Evaluable (g : Graph α) (root : Nat) (vars : List Var) (point : List α) : Prop where
  lengths : vars.length = point.length
  root_lt : root < g.size
  closed : g.Closed root
  binds : g.Binds vars
  values : ∀ i e, g.Reaches root i → ¬g.Obstacle vars point i e

/-- The error for an expression without a value at a point. Each reason is looked for only after
those above it; among nodes without a value the first counts. -/
inductive Refuses (g : Graph α) (root : Nat) (vars : List Var) (point : List α) :
    Error α → Prop where
  | lengths (h : vars.length ≠ point.length) :
      Refuses g root vars point (.lengthMismatch vars.length point.length)
  | foreign {k : Nat} (hl : vars.length = point.length) (h : g.Intruder root k) :
      Refuses g root vars point (.foreignNode k g.size)
  | entry {before after : List Var} {x : Var} {e : Error α} (hl : vars.length = point.length)
      (hroot : root < g.size) (hc : g.Closed root) (hsplit : vars = before ++ x :: after)
      (hbefore : g.Binds before) (h : g.Objection before x e) : Refuses g root vars point e
  | node {i : Nat} {e : Error α} (hl : vars.length = point.length) (hroot : root < g.size)
      (hc : g.Closed root) (hb : g.Binds vars) (hr : g.Reaches root i)
      (hfirst : ∀ j e', g.Reaches root j → j < i → ¬g.Obstacle vars point j e')
      (h : g.Obstacle vars point i e) : Refuses g root vars point e

/-- An outcome that is an answer exactly for expressions that have a value, and otherwise an error
with the right reason. -/
structure Settles (g : Graph α) (root : Nat) (vars : List Var) (point : List α)
    (outcome : Except (Failure α) β) : Prop where
  answers : (∃ r, outcome = .ok r) ↔ g.Evaluable root vars point
  refuses : ∀ cause, outcome = .error cause → ∃ e, cause = .refused e ∧ g.Refuses root vars point e

variable (g : Graph α) (root : Expr) (vars : List Var) (point : List α)

/-- The first node in order without a value is the least one. -/
theorem Ordered.refuses_of_findSome? {g : Graph α} {root : Nat} {order : List Nat} {vars : List Var}
    {point : List α} (ho : g.Ordered root order) (hl : vars.length = point.length)
    (hb : g.Binds vars) {e : Error α}
    (h : order.findSome? (g.errorAt? (assignment vars point)) = some e) :
    g.Refuses root vars point e := by
  obtain ⟨done, i, todo, hsplit, hi, hdone⟩ := List.findSome?_eq_some_iff.mp h
  have hmem : i ∈ order := by simp [hsplit]
  refine .node hl ho.root_lt ho.closed hb ((ho.mem_iff i).mp hmem) (fun j e' hj hlt hobstacle => ?_)
    (obstacle_of_errorAt? hl hi)
  have hj : j ∈ done := by
    have hj := (ho.mem_iff j).mpr hj
    have hsorted := ho.sorted
    rw [hsplit] at hj hsorted
    rcases List.mem_append.mp hj with hj | hj
    · exact hj
    · rcases List.mem_cons.mp hj with rfl | hj
      · omega
      · have := (List.pairwise_cons.mp (List.pairwise_append.mp hsorted).2.1).1 j hj
        omega
  have hnone := hdone j hj
  rw [hobstacle.errorAt? hl] at hnone
  cases hnone

theorem forward_settles : g.Settles root.index vars point (Sweep.forward g root vars point) := by
  refine ⟨⟨?_, fun h => ?_⟩, fun cause hcause => ?_⟩
  · rintro ⟨s, hs⟩
    obtain ⟨hroot, hl, -, hc⟩ := Sweep.complete_of_forward hs
    rw [← hroot]
    refine ⟨hl, hc.ordered.root_lt, hc.ordered.closed, hc.binds, fun i e hr ho => ?_⟩
    have hnone := hc.defined i ((hc.ordered.mem_iff i).mpr hr)
    rw [ho.errorAt? hl] at hnone
    cases hnone
  · obtain ⟨order, horder⟩ := reachable_of_closed h.root_lt h.closed
    rcases Sweep.forward_spec h.lengths horder h.binds with ⟨e, he, -⟩ | ⟨-, s, hs, -⟩
    · obtain ⟨i, hi, hfound⟩ := List.exists_of_findSome?_eq_some he
      exact absurd (obstacle_of_errorAt? h.lengths hfound)
        (h.values i e (((reachable_ordered horder).mem_iff i).mp hi))
    · exact ⟨s, hs⟩
  · by_cases hl : vars.length = point.length
    · rcases g.reachable_spec root with ⟨order, horder, ho⟩ | ⟨k, hk, hintruder⟩
      · rcases g.binds_or_objection vars with hb | ⟨before, x, after, e, hsplit, hbefore, hobjection⟩
        · rcases Sweep.forward_spec hl horder hb with ⟨e, he, hrun⟩ | ⟨-, s, hrun, -⟩
          · obtain rfl := Except.error.inj (hcause.symm.trans hrun)
            exact ⟨e, rfl, ho.refuses_of_findSome? hl hb he⟩
          · cases hcause.symm.trans hrun
        · have hbind : g.bind (before ++ x :: after) g.unbound 0 = .error (.refused e) :=
            hobjection.bind hbefore
          rw [Sweep.forward_eq hl, horder, ok_bind, hsplit, hbind, error_bind] at hcause
          obtain rfl := Except.error.inj hcause
          exact ⟨e, rfl, .entry hl ho.root_lt ho.closed hsplit hbefore hobjection⟩
      · rw [Sweep.forward_eq hl, hk, error_bind] at hcause
        obtain rfl := Except.error.inj hcause
        exact ⟨_, rfl, .foreign hl hintruder⟩
    · rw [Sweep.forward, if_pos hl] at hcause
      obtain rfl := Except.error.inj hcause
      exact ⟨_, rfl, .lengths hl⟩

variable {g root vars point}

/-- What is computed from a sweep succeeds and fails with the sweep, if it cannot fail itself. -/
theorem Settles.bind {outcome : Except (Failure α) (Sweep α)} {f : Sweep α → Except (Failure α) β}
    (h : g.Settles root.index vars point outcome)
    (hf : ∀ s, outcome = .ok s → ∃ r, f s = .ok r) :
    g.Settles root.index vars point (outcome >>= f) := by
  obtain ⟨hanswers, hrefuses⟩ := h
  cases outcome with
  | error cause =>
    refine ⟨?_, fun _ h => hrefuses _ (Except.error.inj h ▸ rfl)⟩
    rw [← hanswers]
    simp
  | ok s =>
    obtain ⟨r, hr⟩ := hf s rfl
    refine ⟨iff_of_true ⟨r, hr⟩ (hanswers.mp ⟨s, rfl⟩), fun cause hcause => ?_⟩
    cases hr.symm.trans hcause

end Graph

/-- Value and gradient of the same sweep. -/
theorem Sweep.Complete.pair_exists [Scalar α] {g : Graph α} {vars : List Var} {point : List α}
    {s : Sweep α} (hc : s.Complete g vars point) :
    ∃ r, (do return (← s.value, ← s.gradient g vars.length)) = Except.ok r := by
  obtain ⟨partials, hpartials⟩ := hc.gradient_exists
  exact ⟨_, by rw [hc.value_eq, hpartials]; rfl⟩

/-- The three ways to evaluate an expression directly answer exactly when it is evaluable, refuse for
the right reason otherwise, and depend on no node that the root does not reach, except for whether a
listed handle names its variable. -/
structure Graph.Outcomes [Scalar α] (g : Graph α) (root : Expr) (vars : List Var) (point : List α) :
    Prop where
  evaluate : g.Settles root.index vars point (g.evaluate root vars point)
  differentiate : g.Settles root.index vars point (g.differentiate root vars point)
  valueAndGradient : g.Settles root.index vars point (g.valueAndGradient root vars point)
  value_eq : ∀ v, g.evaluate root vars point = .ok v →
    v = g.valueAt (assignment vars point) root.index
  evaluate_alike : ∀ g', g.Alike g' root.index vars →
    g'.evaluate root vars point = (g.evaluate root vars point).mapError (.inSize g'.size)
  differentiate_alike : ∀ g', g.Alike g' root.index vars →
    g'.differentiate root vars point = (g.differentiate root vars point).mapError (.inSize g'.size)
  valueAndGradient_alike : ∀ g', g.Alike g' root.index vars →
    g'.valueAndGradient root vars point =
      (g.valueAndGradient root vars point).mapError (.inSize g'.size)

/-- When direct evaluation fails, and how. -/
theorem Graph.direct_evaluation_outcomes [Scalar α] (g : Graph α) (root : Expr) (vars : List Var)
    (point : List α) : g.Outcomes root vars point where
  evaluate := (g.forward_settles root vars point).bind fun s hs => by
    obtain ⟨-, -, -, hc⟩ := Sweep.complete_of_forward hs
    exact ⟨_, hc.value_eq⟩
  differentiate := (g.forward_settles root vars point).bind fun s hs => by
    obtain ⟨-, -, -, hc⟩ := Sweep.complete_of_forward hs
    exact hc.gradient_exists
  valueAndGradient := (g.forward_settles root vars point).bind fun s hs => by
    obtain ⟨-, -, -, hc⟩ := Sweep.complete_of_forward hs
    exact hc.pair_exists
  value_eq v hv := by
    obtain ⟨s, hs, hvalue⟩ := bind_eq_ok.mp hv
    obtain ⟨rfl, -, -, hc⟩ := Sweep.complete_of_forward hs
    exact Except.ok.inj (hvalue.symm.trans hc.value_eq)
  evaluate_alike g' h :=
    h.sweep_congr point (f := fun _ s => s.value) fun s s' hm hc =>
      ⟨_, hc.value_eq, hm.value_eq.trans hc.value_eq⟩
  differentiate_alike g' h :=
    h.sweep_congr point (f := fun g s => s.gradient g vars.length) fun s s' hm hc => by
      obtain ⟨partials, hpartials⟩ := hc.gradient_exists
      exact ⟨partials, hpartials, (hm.gradient_eq hc.ordered _).trans hpartials⟩
  valueAndGradient_alike g' h :=
    h.sweep_congr point (f := fun g s => do return (← s.value, ← s.gradient g vars.length))
      fun s s' hm hc => by
        obtain ⟨r, hr⟩ := hc.pair_exists
        exact ⟨r, hr, by rw [hm.value_eq, hm.gradient_eq hc.ordered, hr]⟩

end Autodiff
