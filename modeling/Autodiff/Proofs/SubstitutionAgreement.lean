import Autodiff.Proofs.SubstitutionMeaning

namespace Autodiff

variable {α : Type}

namespace Node

theorem result_relocate [Scalar α] (f : Expr → Expr) (x : α) (v : Nat → α) (node : Node α) :
    (node.relocate f).result x v = node.result x fun j => v (f ⟨j⟩).index := by
  cases node with
  | sum terms => simp only [relocate, result, List.map_map, Function.comp_def]
  | _ => rfl

theorem tangent_relocate [ExactScalar α] (f : Expr → Expr) (d : α) (v t : Nat → α)
    (node : Node α) : (node.relocate f).tangent d v t =
      node.tangent d (fun j => v (f ⟨j⟩).index) fun j => t (f ⟨j⟩).index := by
  cases node with
  | unary op arg =>
    cases op with
    | _ => rfl
  | binary op lhs rhs =>
    cases op with
    | _ => rfl
  | sum terms => simp only [relocate, tangent, List.map_map, Function.comp_def]
  | _ => rfl

theorem refusal?_relocate [Scalar α] (f : Expr → Expr) (x : Option α) (v : Nat → α)
    (node : Node α) :
    (node.relocate f).refusal? x v = node.refusal? x fun j => v (f ⟨j⟩).index := by
  cases node with
  | unary op arg =>
    cases op with
    | _ => rfl
  | _ => rfl

end Node

/-- Two bindings that belong together: the first one gives the replaced variables their values, and
apart from these both are the same. The directions leave the replaced variables alone. -/
structure Compatible [Zero α] (vars : List Var) (values : List α) (env env' : Nat → Option α)
    (dir dir' : Nat → α) : Prop where
  env_bound : ∀ i k, position vars i = some k → env i = values[k]?
  env_free : ∀ i, position vars i = none → env' i = env i
  dir_bound : ∀ i k, position vars i = some k → dir i = 0
  dir_free : ∀ i, position vars i = none → dir' i = dir i

variable [OrderedScalar α]

namespace Graph

/-- Below a node no power has exponent zero. Such a power is a constant, whatever its base. -/
def NoZeroPowers (g : Graph α) (i : Nat) : Prop :=
  g.Throughout (fun _ node => ∀ base n, node = .power base n → n ≠ 0) i

end Graph

namespace Translation

open Autodiff.Graph

variable {g : Graph α} {vars : List Var} {values : List α}

/-- Under bindings that belong together a node and its image have the same value and the same
derivatives, and they have them at the same time. -/
def Agrees (g : Graph α) (vars : List Var) (values : List α) (i : Nat) (h : Graph α) (e : Expr) :
    Prop :=
  ∀ env env' dir dir', Compatible vars values env env' dir dir' →
    h.valueAt env' e.index = g.valueAt env i ∧
    h.tangentAt env' dir' e.index = g.tangentAt env dir i ∧
    (h.Defined env' e.index ↔ g.Defined env i)

theorem Agrees.extend {i : Nat} {h h' : Graph α} {e : Expr} (hagrees : Agrees g vars values i h e)
    (hlt : e.index < h.size) (hc : h.Closed e.index) (hext : h.Extends h') :
    Agrees g vars values i h' e := by
  intro env env' dir dir' hcompat
  have hold := hagrees env env' dir dir' hcompat
  rwa [valueAt_extend hext hlt fun _ _ => rfl, tangentAt_extend hext hlt hc fun _ _ => rfl,
    defined_extend hext hlt hc fun _ _ => rfl]

/-- A constant in place of a variable. -/
theorem agrees_replaced {i k : Nat} {id : VarId} {c : α} {h : Graph α} {e : Expr}
    (hn : g.nodes[i]? = some (.variable id)) (hp : position vars i = some k)
    (hc : values[k]? = some c) (he : h.nodes[e.index]? = some (.constant c)) :
    Agrees g vars values i h e := by
  intro env env' dir dir' hcompat
  have henv : env i = some c := (hcompat.env_bound i k hp).trans hc
  refine ⟨?_, ?_, iff_of_true (defined_constant he) ?_⟩
  · rw [valueAt_constant he, valueAt_variable hn, henv, Option.getD_some]
  · rw [tangentAt_constant he, tangentAt_variable hn, hcompat.dir_bound i k hp]
  · rw [defined_node hn (by simp [Node.operands])]
    simp [Node.operands, Node.refusal?, henv]

/-- A node in its own place, when its operands agree with themselves. -/
theorem agrees_kept {i : Nat} {node : Node α} {h : Graph α} (hn : g.nodes[i]? = some node)
    (hnode : h.nodes[i]? = some node) (hp : position vars i = none)
    (hlt : ∀ a ∈ node.operands, a.index < i)
    (hops : ∀ a ∈ node.operands, Agrees g vars values a.index h a) :
    Agrees g vars values i h ⟨i⟩ := by
  intro env env' dir dir' hcompat
  have hall := fun a ha => hops a ha env env' dir dir' hcompat
  have henv := hcompat.env_free i hp
  refine ⟨?_, ?_, ?_⟩
  · rw [valueAt_node hnode hlt, valueAt_node hn hlt, henv]
    exact Node.result_congr fun a ha => (hall a ha).1
  · rw [tangentAt_node hnode hlt, tangentAt_node hn hlt, hcompat.dir_free i hp]
    exact Node.tangent_congr (fun a ha => (hall a ha).1) fun a ha => (hall a ha).2.1
  · rw [defined_node hnode hlt, defined_node hn hlt, henv]
    refine and_congr (forall₂_congr fun a ha => (hall a ha).2.2) ?_
    rw [Node.refusal?_congr rfl fun a ha => (hall a ha).1]

variable [UnitPowers α]

/-- What stands for a node on images that agree with its operands. -/
theorem agrees_rebuilt {i : Nat} {node : Node α} {h : Graph α} {e : Expr} {f : Expr → Expr}
    (hn : g.nodes[i]? = some node) (hvar : ∀ id, node ≠ .variable id)
    (hpow : ∀ base n, node = .power base n → n ≠ 0) (hlt : ∀ a ∈ node.operands, a.index < i)
    (hc : ∀ a ∈ node.operands, h.Closed (f a).index)
    (hops : ∀ a ∈ node.operands, Agrees g vars values a.index h (f a))
    (hstands : h.StandsFor e (node.relocate f)) : Agrees g vars values i h e := by
  intro env env' dir dir' hcompat
  have hall := fun a ha => hops a ha env env' dir dir' hcompat
  have hvar' := Node.relocate_ne_variable hvar f
  have hpow' : ∀ base n, node.relocate f = .power base n → n ≠ 0 := by
    intro base n heq
    obtain ⟨b, rfl⟩ := Node.power_of_relocate heq
    exact hpow b n rfl
  have hc' : ∀ b ∈ (node.relocate f).operands, h.Closed b.index := by
    rw [Node.operands_relocate]
    intro b hb
    obtain ⟨a, ha, rfl⟩ := List.mem_map.mp hb
    exact hc a ha
  refine ⟨?_, ?_, ?_⟩
  · rw [hstands.valueAt_eq hvar' hc' ((env i).getD 0), valueAt_node hn hlt, Node.result_relocate]
    exact Node.result_congr fun a ha => (hall a ha).1
  · rw [hstands.tangentAt_eq hvar' hc' (dir i), tangentAt_node hn hlt, Node.tangent_relocate]
    exact Node.tangent_congr (fun a ha => (hall a ha).1) fun a ha => (hall a ha).2.1
  · rw [hstands.defined_iff hvar' hc' hpow' (env i), defined_node hn hlt, Node.operands_relocate,
      Node.refusal?_relocate, List.forall_mem_map]
    refine and_congr (forall₂_congr fun a ha => (hall a ha).2.2) ?_
    rw [Node.refusal?_congr rfl fun a ha => (hall a ha).1]

/-- A substitution keeps the meaning of all nodes without powers with exponent zero below. -/
theorem meaning (g : Graph α) (vars : List Var) (values : List α) :
    Translation g vars values fun i h e => Located g vars i h e ∧
      (g.NoZeroPowers i → Agrees g vars values i h e) where
  owned h := h.1.confined.lt
  extend h hext := ⟨(located g vars values).extend h.1 hext, fun hz =>
    (h.2 hz).extend h.1.confined.lt h.1.confined.closed hext⟩
  replaced hn hp hc he := ⟨(located g vars values).replaced hn hp hc he, fun _ =>
    agrees_replaced hn hp hc he⟩
  kept := by
    intro i node h hn hext hp hops
    have hlt : ∀ a ∈ node.operands, a.index < i := fun a ha => (hops a ha).1
    refine ⟨(located g vars values).kept hn hext hp fun a ha => ⟨hlt a ha, (hops a ha).2.1⟩, ?_⟩
    intro hz
    have hz' := ((throughout_node hn hlt).mp hz).2
    exact agrees_kept hn (hext.node hn) hp hlt fun a ha => (hops a ha).2.2 (hz' a ha)
  rebuilt := by
    intro i node h h' e f hn hvar hops hother he
    have hlt : ∀ a ∈ node.operands, a.index < i := fun a ha => (hops a ha).1
    obtain ⟨hext, hstands⟩ := Build.ofNode_spec he
    refine ⟨(located g vars values).rebuilt hn hvar (fun a ha => ⟨hlt a ha, (hops a ha).2.1⟩) hother
      he, fun hz => ?_⟩
    obtain ⟨hpow, hz'⟩ := (throughout_node hn hlt).mp hz
    have hc : ∀ a ∈ node.operands, h'.Closed (f a).index := fun a ha =>
      ((hops a ha).2.1.confined.extend hext).closed
    refine agrees_rebuilt hn hvar hpow hlt hc (fun a ha => ?_) hstands
    have hconf := (hops a ha).2.1.confined
    exact ((hops a ha).2.2 (hz' a ha)).extend hconf.lt hconf.closed hext

end Translation

section

variable {g : Graph α} {free vars : List Var} {point values : List α}

/-- Binding the other variables belongs together with binding the replaced ones as well. -/
theorem compatible_of_binds (hb : g.Binds (free ++ vars)) (hl : free.length = point.length)
    (dir : Nat → α) (hdir : ∀ i k, position vars i = some k → dir i = 0) :
    Compatible vars values (assignment (free ++ vars) (point ++ values)) (assignment free point)
      dir dir where
  env_bound i k hp := by
    rw [assignment, position_append, hb.position_left hp, hp]
    simp [hl, List.getElem?_append_right]
  env_free i hp := (assignment_append hl hp).symm
  dir_bound := hdir
  dir_free _ _ := rfl

variable {root e : Expr} {g' : Graph α}

/-- An image that agrees with an expression has a value for the other variables where the expression
has one for all variables, and the same value. -/
theorem evaluate_eq_ok_iff (hroot : root.index < g.size) (hc : g.Closed root.index)
    (he : e.index < g'.size) (hc' : g'.Closed e.index) (hg : g.Extends g')
    (hagrees : Translation.Agrees g vars values root.index g' e) (hb : g.Binds (free ++ vars))
    (hlen : vars.length = values.length) (point : List α) (v : α) :
    g'.evaluate e free point = .ok v ↔
      g.evaluate root (free ++ vars) (point ++ values) = .ok v := by
  rw [Graph.evaluate_eq_ok he hc' (hb.of_append.extend hg), Graph.evaluate_eq_ok hroot hc hb,
    List.length_append, List.length_append, hlen, Nat.add_right_cancel_iff]
  refine and_congr_right fun hl => ?_
  obtain ⟨hvalue, -, hdefined⟩ := hagrees _ _ _ _
    (compatible_of_binds hb hl (fun _ => 0) fun _ _ _ => rfl)
  rw [hvalue, hdefined]

/-- The partial derivatives of the image are those of the expression in the other variables. -/
theorem differentiate_take (hagrees : Translation.Agrees g vars values root.index g' e)
    (hb : g.Binds (free ++ vars)) {v v' : α} (hv : g'.evaluate e free point = .ok v)
    (hv' : g.evaluate root (free ++ vars) (point ++ values) = .ok v') :
    ∃ partials, g.differentiate root (free ++ vars) (point ++ values) = .ok partials ∧
      g'.differentiate e free point = .ok (partials.take free.length) := by
  obtain ⟨s, hs, -⟩ := bind_eq_ok.mp hv
  obtain ⟨-, hl, -, -⟩ := Sweep.complete_of_forward hs
  refine ⟨_, Graph.differentiate_of_evaluate hv', ?_⟩
  rw [Graph.differentiate_of_evaluate hv, List.map_append, List.take_left' (List.length_map _)]
  refine congrArg Except.ok (List.map_congr_left fun x hx => ?_)
  refine (hagrees _ _ _ _ (compatible_of_binds hb hl _ fun i k hp => ?_)).2.1
  -- A replaced variable is not the one to differentiate in.
  have hne : i ≠ x.expr.index := by
    rintro rfl
    exact position_eq_none_iff.mp (hb.position_left hp) x hx rfl
  exact if_neg hne

end

open Build in
/-- Replacing variables of an expression by constants keeps its meaning: for every choice of the
other variables the result can be evaluated where the expression can, with the same value and the
same partial derivatives. A substitution that fails changes nothing. -/
theorem substitute_keeps_meaning [UnitPowers α] (g : Graph α) (root : Expr) (vars : List Var) (values : List α) :
    (∀ cause g', substitute root vars values g = .error cause g' → g' = g) ∧
    (root.index < g.size → g.Closed root.index → g.NoZeroPowers root.index → g.Binds vars →
      vars.length = values.length →
      ∃ image e g', images root vars values g = .ok image g' ∧
        substitute root vars values g = .ok e g' ∧ image[root.index]? = some e ∧
        g.Extends g' ∧
        (∀ free point, g.Binds (free ++ vars) →
          ∀ v, (g'.evaluate e free point = .ok v ↔
              g.evaluate root (free ++ vars) (point ++ values) = .ok v) ∧
            (g'.evaluate e free point = .ok v → ∃ partials,
              g.differentiate root (free ++ vars) (point ++ values) = .ok partials ∧
              g'.differentiate e free point = .ok (partials.take free.length))) ∧
        (∀ x ∈ vars, ¬g'.Reaches e.index x.expr.index) ∧
        (∃ xs ys, g'.variablesOf e = .ok xs ∧ g.variablesOf root = .ok ys ∧ xs ⊆ ys) ∧
        ∀ i, g.Reaches root.index i → (∀ x ∈ vars, ¬g.Reaches i x.expr.index) →
          image[i]? = some ⟨i⟩) := by
  refine ⟨fun cause g' h => (substitute_eq_error h).1, fun hroot hc hz hb hlen => ?_⟩
  obtain ⟨image, e, g', himages, hrun, he, hext, hall⟩ :=
    (Translation.meaning g vars values).images_spec hb hlen hroot hc
  have hrel : ∀ i, g.Reaches root.index i → ∀ e', image[i]? = some e' →
      Translation.Located g vars i g' e' ∧
        (g.NoZeroPowers i → Translation.Agrees g vars values i g' e') := by
    intro i hi e' he'
    obtain ⟨e'', he'', hrel⟩ := hall i hi
    rwa [Option.some.inj (he'.symm.trans he'')]
  obtain ⟨hlocated, hagrees⟩ := hrel root.index (.refl _) e he
  have hconf := hlocated.confined
  refine ⟨image, e, g', himages, hrun, he, hext, fun free point hfree v => ?_, fun x hx hr => ?_, ?_,
    fun i hi hfree => ?_⟩
  · have hiff := evaluate_eq_ok_iff hroot hc hconf.lt hconf.closed hext (hagrees hz) hfree hlen point v
    exact ⟨hiff, fun hv => differentiate_take (hagrees hz) hfree hv (hiff.mp hv)⟩
  · have hnode := hext.node (hb.node_eq x hx)
    have hnone := ((hconf.nodes _ _ hr hnode).2 x.id rfl).2
    exact position_eq_none_iff.mp hnone x hx rfl
  · obtain ⟨xs, hxs⟩ := Graph.variablesOf_of_closed hconf.lt hconf.closed
    obtain ⟨ys, hys⟩ := Graph.variablesOf_of_closed hroot hc
    refine ⟨xs, ys, hxs, hys, fun x hx => ?_⟩
    obtain ⟨hr, hn⟩ := (Graph.mem_variablesOf hxs x).mp hx
    have hbelow := ((hconf.nodes _ _ hr hn).2 x.id rfl).1
    refine (Graph.mem_variablesOf hys x).mpr ⟨hbelow, ?_⟩
    rwa [← hext.kept _ (Nat.lt_of_le_of_lt hbelow.le hroot)]
  · obtain ⟨e', he', hlocated', -⟩ := hall i hi
    rw [he', hlocated'.same fun j hj => ?_]
    rw [position_eq_none_iff]
    rintro x hx rfl
    exact hfree x hx hj

/-- The square of a product. -/
def squaredProduct : Graph ℚ :=
  ⟨#[.variable ⟨0⟩, .variable ⟨1⟩, .binary .multiply ⟨0⟩ ⟨1⟩, .power ⟨2⟩ 2], 2⟩

theorem substitute_keeps_meaning_squaredProduct :
    ∃ e g', Build.substitute ⟨3⟩ [⟨⟨1⟩, ⟨1⟩⟩] [3] squaredProduct = .ok e g' ∧
      g'.evaluate e [⟨⟨0⟩, ⟨0⟩⟩] [2] = .ok 36 := by
  have hnodes : ∀ (i : Nat) (node : Node ℚ), squaredProduct.nodes[i]? = some node →
      (∀ a ∈ node.operands, a.index < i) ∧ ∀ base n, node = .power base n → n ≠ 0 := by
    intro i node hn
    match i with
    | 0 | 1 | 2 | 3 =>
      obtain rfl : _ = node := by simpa [squaredProduct] using hn
      simp [Node.operands]
    | i + 4 => simp [squaredProduct] at hn
  have hbinds : squaredProduct.Binds [⟨⟨0⟩, ⟨0⟩⟩, ⟨⟨1⟩, ⟨1⟩⟩] :=
    ⟨by simp [squaredProduct], by simp⟩
  have hvalue : squaredProduct.evaluate ⟨3⟩ [⟨⟨0⟩, ⟨0⟩⟩, ⟨⟨1⟩, ⟨1⟩⟩] [2, 3] = .ok 36 :=
    toOption_eq_some.mp (by decide +kernel)
  obtain ⟨-, e, g', -, hrun, -, -, hmeaning, -⟩ :=
    (substitute_keeps_meaning squaredProduct ⟨3⟩ [⟨⟨1⟩, ⟨1⟩⟩] [3]).2 (by decide)
      (fun i node _ hn => (hnodes i node hn).1) (fun i node _ hn => (hnodes i node hn).2)
      ⟨fun x hx => hbinds.node_eq x (List.mem_append_right [_] hx), by simp⟩ rfl
  exact ⟨e, g', hrun, (hmeaning [⟨⟨0⟩, ⟨0⟩⟩] [2] hbinds 36).1.mpr hvalue⟩

end Autodiff
