import Autodiff.Proofs.TapeAgreement

namespace Autodiff

variable {α : Type}

/-- Variables of different nodes take exactly the values that they are paired with. -/
theorem assignment_eq_some_iff {vars : List Var} {point : List α}
    (hn : (vars.map fun x => x.expr.index).Nodup) {i : Nat} {a : α} :
    assignment vars point i = some a ↔ ∃ x, x.expr.index = i ∧ (x, a) ∈ vars.zip point := by
  rw [assignment, Option.bind_eq_some_iff]
  constructor
  · rintro ⟨k, hk, ha⟩
    obtain ⟨x, hx, hi⟩ := getElem_of_position hk
    exact ⟨x, hi, List.mem_of_getElem? (List.getElem?_zip_eq_some.mpr ⟨hx, ha⟩)⟩
  · rintro ⟨x, rfl, hm⟩
    obtain ⟨k, hk⟩ := List.mem_iff_getElem?.mp hm
    obtain ⟨hx, ha⟩ := List.getElem?_zip_eq_some.mp hk
    exact ⟨k, position_of_nodup hn hx, ha⟩

namespace Graph

theorem Binds.perm {g : Graph α} {xs ys : List Var} (h : g.Binds xs) (hp : ys.Perm xs) :
    g.Binds ys where
  node_eq x hx := h.node_eq x (hp.mem_iff.mp hx)
  nodup := (hp.map _).nodup_iff.mpr h.nodup

/-- Variables of a graph that are no repetitions stand for different nodes. -/
theorem Binds.append {g : Graph α} {xs ys : List Var} (hx : g.Binds xs) (hy : g.Binds ys)
    (hnew : ∀ y ∈ ys, y ∉ xs) : g.Binds (xs ++ ys) where
  node_eq z hz := (List.mem_append.mp hz).elim (hx.node_eq z) (hy.node_eq z)
  nodup := by
    rw [List.map_append, List.nodup_append]
    refine ⟨hx.nodup, hy.nodup, fun i hi j hj hij => ?_⟩
    obtain ⟨x, hxs, rfl⟩ := List.mem_map.mp hi
    obtain ⟨y, hys, rfl⟩ := List.mem_map.mp hj
    have hnode := (hx.node_eq x hxs).symm.trans (hij ▸ hy.node_eq y hys)
    obtain ⟨xid, ⟨i⟩⟩ := x
    obtain ⟨yid, ⟨j⟩⟩ := y
    cases hij
    cases hnode
    exact hnew _ hys hxs

end Graph

variable [Scalar α]

theorem Node.gains_congr {v w : Nat → α} {node : Node α}
    (h : ∀ e ∈ node.operands, v e.index = w e.index) (r a : α) :
    node.gains v r a = node.gains w r a := by
  cases node with
  | unary op arg => simp only [gains, h arg (by simp [operands])]
  | binary op lhs rhs => simp only [gains, h lhs (by simp [operands]), h rhs (by simp [operands])]
  | power base exponent => simp only [gains, h base (by simp [operands])]
  | _ => rfl

namespace Graph

section

variable {g : Graph α} {root : Nat} {order : List Nat} {env env' : Nat → Option α}

/-- Values below a root depend only on what the variables below it stand for. -/
theorem valueAt_agree (ho : g.Ordered root order) (he : ∀ i ∈ order, env' i = env i) (i : Nat)
    (hi : i ∈ order) : g.valueAt env' i = g.valueAt env i := by
  induction i using Nat.strongRecOn with
  | ind i ih =>
    obtain ⟨node, hn⟩ := ho.node_exists hi
    have hlt : ∀ e ∈ node.operands, e.index < i := fun e hm => ho.operand_lt hi hn hm
    rw [valueAt_node hn hlt, valueAt_node hn hlt, he i hi]
    exact Node.result_congr fun e hm => ih e.index (hlt e hm) (ho.operand_mem hi hn hm)

theorem errorAt?_agree (ho : g.Ordered root order) (he : ∀ i ∈ order, env' i = env i) {i : Nat}
    (hi : i ∈ order) : g.errorAt? env' i = g.errorAt? env i := by
  obtain ⟨node, hn⟩ := ho.node_exists hi
  rw [errorAt?_node hn, errorAt?_node hn, he i hi]
  exact Node.refusal?_congr rfl fun e hm => valueAt_agree ho he _ (ho.operand_mem hi hn hm)

theorem passOn_agree (ho : g.Ordered root order) (he : ∀ i ∈ order, env' i = env i) {i : Nat}
    (hi : i ∈ order) (f : Nat → α) : g.passOn env' f i = g.passOn env f i := by
  obtain ⟨node, hn⟩ := ho.node_exists hi
  have hgains := Node.gains_congr (r := g.valueAt env i) (a := f i) fun e hm =>
    valueAt_agree ho he e.index (ho.operand_mem hi hn hm)
  rw [passOn_node hn, passOn_node hn, valueAt_agree ho he i hi, hgains]

/-- The adjoints, added up in the order of the nodes, do not depend on where the variables are
bound. -/
theorem adjoints_agree (ho : g.Ordered root order) (he : ∀ i ∈ order, env' i = env i) :
    g.adjoints env' root order = g.adjoints env root order :=
  List.foldl_ext _ _ _ fun f _ hi => passOn_agree ho he (List.mem_reverse.mp hi) f

end

/-- The partial derivative that a sweep gathers for the variable of a node: the adjoint of the node,
unless the root does not reach it or the adjoint is zero. -/
def partialAt (g : Graph α) (env : Nat → Option α) (root : Nat) (order : List Nat) (i : Nat) : α :=
  let adjoint := g.adjoints env root order i
  if i ∈ order ∧ (adjoint == 0) = false then 0 + adjoint else 0

end Graph

theorem Sweep.Complete.gradient_eq_partials {g : Graph α} {vars : List Var} {point : List α}
    {s : Sweep α} (hc : s.Complete g vars point) :
    s.gradient g vars.length = .ok (vars.map fun x =>
      g.partialAt (assignment vars point) s.root.index s.order x.expr.index) := by
  obtain ⟨partials, γ, hgradient, hcount, hg, hval⟩ := gradient_spec hc
  rw [hgradient]
  refine congrArg Except.ok (List.ext_getElem (by simp [hcount]) fun k hk hk' => ?_)
  have hkv : k < vars.length := by simpa using hk'
  have hpos := position_of_nodup hc.binds.nodup (List.getElem?_eq_getElem hkv)
  have hread := hg k (by omega)
  rw [Array.getElem?_eq_getElem (by omega), hval _ k hpos] at hread
  rw [Array.getElem_toList, List.getElem_map, Option.some.inj hread]
  rfl

namespace Graph

/-- Everything that evaluates a root in the listed variables at a point succeeds with the same value,
and with a partial derivative for every variable that does not depend on the list. -/
structure Evaluates (g : Graph α) (root : Expr) (vars : List Var) (point : List α) (v : α)
    (partials slopes : Var → α) : Prop where
  evaluate : g.evaluate root vars point = .ok v
  differentiate : g.differentiate root vars point = .ok (vars.map partials)
  valueAndGradient : g.valueAndGradient root vars point = .ok (v, vars.map partials)
  compiled : ∃ t, g.compile root vars = .ok t ∧ t.value point = .ok v ∧
    t.evaluate point = .ok (v, vars.map slopes)

variable {g : Graph α} {root : Expr} {vars : List Var} {point : List α} {order : List Nat}
  {env : Nat → Option α}

/-- Where every node below the root has a value, the expression has a tape that gives the value. -/
theorem compile_of_defined (hl : vars.length = point.length) (horder : g.reachable root = .ok order)
    (hb : g.Binds vars)
    (hdefined : ∀ i ∈ order, g.errorAt? (assignment vars point) i = none) :
    ∃ t, g.compile root vars = .ok t ∧
      t.value point = .ok (g.valueAt (assignment vars point) root.index) ∧
      t.evaluate point = .ok (g.valueAt (assignment vars point) root.index,
        vars.map fun x => g.adjoints (assignment vars point) root.index order x.expr.index) := by
  have hnone := List.findSome?_eq_none_iff.mpr hdefined
  rcases g.compileParametric_cases root vars [] with
    ⟨t, order', l, hcompile, horder', ht⟩ | ⟨id, order', -, horder', -, hfree⟩ | ⟨e, -, -, hfail⟩
  · obtain rfl := Except.ok.inj (horder.symm.trans horder')
    have hvalue := ht.valueParametric_eq (x := point) (p := []) hl.symm rfl
    have hpair := ht.evaluateParametric_eq (x := point) (p := []) hl.symm rfl
    simp only [List.append_nil] at hvalue hpair
    exact ⟨t, hcompile, hvalue.trans (answer_eq_ok.mpr ⟨hdefined, rfl⟩),
      hpair.trans (answer_eq_ok.mpr ⟨hdefined, rfl⟩)⟩
  · obtain rfl := Except.ok.inj (horder.symm.trans horder')
    rw [List.append_nil] at hfree
    obtain ⟨e, he, -⟩ := findSome?_errorAt?_of_free (assignment_isSome hl) order hfree
    cases he.symm.trans hnone
  · rw [List.append_nil] at hfail
    rcases Sweep.forward_spec hl horder hb with ⟨e', he, -⟩ | ⟨-, s, hs, -⟩
    · cases he.symm.trans hnone
    · cases (hfail point hl).symm.trans hs

/-- What is computed for a list of variables depends on the list and the point only through what the
variables below the root stand for. -/
theorem evaluates_of_agree (hl : vars.length = point.length)
    (horder : g.reachable root = .ok order) (hb : g.Binds vars)
    (he : ∀ i ∈ order, assignment vars point i = env i)
    (hdefined : ∀ i ∈ order, g.errorAt? env i = none) :
    g.Evaluates root vars point (g.valueAt env root.index)
      (fun x => g.partialAt env root.index order x.expr.index)
      (fun x => g.adjoints env root.index order x.expr.index) := by
  have ho := reachable_ordered horder
  have hvalue := valueAt_agree ho he root.index ho.root_mem
  have hadjoints := adjoints_agree ho he
  have hdefined' : ∀ i ∈ order, g.errorAt? (assignment vars point) i = none := fun i hi =>
    (errorAt?_agree ho he hi).trans (hdefined i hi)
  rcases Sweep.forward_spec hl horder hb with ⟨e, herror, -⟩ | ⟨-, s, hs, rfl, rfl, hc⟩
  · cases herror.symm.trans (List.findSome?_eq_none_iff.mpr hdefined')
  · have hv := hc.value_eq
    have hg := hc.gradient_eq_partials
    simp only [hvalue] at hv
    simp only [partialAt, hadjoints] at hg
    refine ⟨?_, ?_, ?_, ?_⟩
    · rw [evaluate, hs, ok_bind, hv]
    · rw [differentiate, hs, ok_bind, hg]
      rfl
    · rw [Graph.valueAndGradient, hs, ok_bind, hv, hg]
      rfl
    · have hcompiled := compile_of_defined hl horder hb hdefined'
      simpa only [hvalue, hadjoints] using hcompiled

/-- Neither the order of the bound variables nor further variables that the root does not reach make
a difference, whatever the arithmetic: the second list may hold the pairs of the first in any order,
with others in between, and gives the same value, the same partial derivative for every variable of
the first, and zero for the others. The same is true of tapes. -/
theorem binding_order_irrelevant {v : α} (hv : g.evaluate root vars point = .ok v)
    {vars' : List Var} {point' : List α} {extra : List (Var × α)}
    (hl : vars'.length = point'.length)
    (hperm : (vars'.zip point').Perm (vars.zip point ++ extra))
    (hvalid : g.Binds (extra.map Prod.fst)) (hnew : ∀ x ∈ extra, x.1 ∉ vars)
    (hfree : ∀ x ∈ extra, ¬g.Reaches root.index x.1.expr.index) :
    ∃ partials slopes : Var → α, g.Evaluates root vars point v partials slopes ∧
      g.Evaluates root vars' point' v partials slopes ∧
      ∀ x ∈ extra, partials x.1 = 0 ∧ slopes x.1 = 0 := by
  obtain ⟨s, hs, hvalue⟩ := bind_eq_ok.mp hv
  obtain ⟨rfl, hlen, horder, hc⟩ := Sweep.complete_of_forward hs
  have ho := hc.ordered
  have hvars : vars'.Perm (vars ++ extra.map Prod.fst) := by
    have hfst := hperm.map Prod.fst
    rwa [List.map_append, List.map_fst_zip hl.le, List.map_fst_zip hlen.le] at hfst
  have hb' : g.Binds vars' := by
    refine (hc.binds.append hvalid fun x hx => ?_).perm hvars
    obtain ⟨y, hy, rfl⟩ := List.mem_map.mp hx
    exact hnew y hy
  -- The pairs that were added are about nodes that no sweep below the root looks at.
  have hagree : ∀ i ∈ s.order, assignment vars' point' i = assignment vars point i := by
    intro i hi
    ext a
    rw [assignment_eq_some_iff hb'.nodup, assignment_eq_some_iff hc.binds.nodup]
    refine exists_congr fun x => and_congr_right fun hx => ?_
    rw [hperm.mem_iff, List.mem_append]
    refine or_iff_left fun hm => hfree _ hm ?_
    exact hx ▸ (ho.mem_iff i).mp hi
  obtain rfl := Except.ok.inj (hvalue.symm.trans hc.value_eq)
  refine ⟨_, _, evaluates_of_agree hlen horder hc.binds (fun _ _ => rfl) hc.defined,
    evaluates_of_agree hl horder hb' hagree hc.defined, fun x hx => ?_⟩
  have hout : x.1.expr.index ∉ s.order := fun hm => hfree x hx ((ho.mem_iff _).mp hm)
  exact ⟨if_neg fun h => hout h.1, adjoints_of_notMem ho hout⟩

/-- A product of two variables, added to the first of them, next to a third variable. -/
def productAndSelf : Graph ℚ :=
  ⟨#[.variable ⟨0⟩, .variable ⟨1⟩, .variable ⟨2⟩, .binary .multiply ⟨0⟩ ⟨1⟩, .binary .add ⟨3⟩ ⟨0⟩], 3⟩

theorem binding_order_irrelevant_productAndSelf :
    let x : Var := ⟨⟨0⟩, ⟨0⟩⟩
    let y : Var := ⟨⟨1⟩, ⟨1⟩⟩
    let z : Var := ⟨⟨2⟩, ⟨2⟩⟩
    ∃ partials slopes : Var → ℚ, productAndSelf.Evaluates ⟨4⟩ [x, y] [2, 3] 8 partials slopes ∧
      productAndSelf.Evaluates ⟨4⟩ [y, z, x] [3, 7, 2] 8 partials slopes ∧
      partials z = 0 ∧ slopes z = 0 := by
  intro x y z
  have hvalue : productAndSelf.evaluate ⟨4⟩ [x, y] [2, 3] = .ok 8 :=
    toOption_eq_some.mp (by decide +kernel)
  have hreachable : productAndSelf.reachable ⟨4⟩ = .ok [0, 1, 3, 4] := rfl
  have hfree : ¬productAndSelf.Reaches 4 2 := fun hr =>
    absurd (((reachable_ordered hreachable).mem_iff 2).mpr hr) (by decide)
  obtain ⟨partials, slopes, hxy, hyzx, hnew⟩ :=
    @binding_order_irrelevant ℚ _ productAndSelf ⟨4⟩ [x, y] [2, 3] 8 hvalue [y, z, x] [3, 7, 2]
      [(z, 7)] rfl (by decide) ⟨by simp [productAndSelf, z], by simp⟩ (by simp [x, y, z])
      (by simpa [z] using hfree)
  exact ⟨partials, slopes, hxy, hyzx, hnew (z, 7) (by simp)⟩

end Graph

end Autodiff
