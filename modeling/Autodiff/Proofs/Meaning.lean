import Autodiff.Sweep
import Autodiff.Proofs.Binding
import Autodiff.Proofs.Reachability

namespace Autodiff

namespace Graph

variable {α β : Type}

/-- A quantity that every node has in terms of the same quantity of the nodes before it. -/
def recursion (g : Graph α) (absent : β) (f : Nat → Node α → (Nat → β) → β)
    (i : Nat) : β :=
  match g.nodes[i]? with
  | some node => f i node fun j => if j < i then g.recursion absent f j else absent
  | none => absent
termination_by i

theorem recursion_node {g : Graph α} {absent : β} {f : Nat → Node α → (Nat → β) → β}
    {i : Nat} {node : Node α} (hn : g.nodes[i]? = some node) :
    g.recursion absent f i =
      f i node fun j => if j < i then g.recursion absent f j else absent := by
  rw [recursion]
  simp only [hn]

/-- Where two graphs agree up to a node, so do quantities with the same recursion. -/
theorem recursion_congr {g g' : Graph α} {absent : β} {f f' : Nat → Node α → (Nat → β) → β}
    (i : Nat) (hn : ∀ j ≤ i, g'.nodes[j]? = g.nodes[j]?)
    (hf : ∀ j ≤ i, ∀ node t, f' j node t = f j node t) :
    g'.recursion absent f' i = g.recursion absent f i := by
  induction i using Nat.strongRecOn with
  | ind i ih =>
    rw [recursion, recursion, hn i (Nat.le_refl i)]
    split
    next node _ =>
      rw [hf i (Nat.le_refl i)]
      congr 1
      funext j
      split
      next hj =>
        exact ih j hj (fun k hk => hn k (by omega)) fun k hk => hf k (by omega)
      next => rfl
    next => rfl

end Graph

variable {α : Type} [Scalar α]

/-- The value of a unary operation, which means nothing outside its domain. -/
def UnaryOp.result (op : UnaryOp) (a : α) : α :=
  match op with
  | .negate => -a
  | .exp => Scalar.exp a
  | .log => Scalar.log a

namespace Node

/-- The value of a node in terms of those of its operands, where `x` is the value of a variable.
Outside the domain of the operation it means nothing. -/
def result (x : α) (v : Nat → α) : Node α → α
  | .constant value => value
  | .variable _ => x
  | .unary op arg => op.result (v arg.index)
  | .binary op lhs rhs => op.value (v lhs.index) (v rhs.index)
  | .power base exponent => Scalar.pow (v base.index) exponent
  | .sum terms => Scalar.total (terms.map fun t => v t.index)

/-- Why a node has no value: a variable is free, or an operand lies outside the domain. -/
def refusal? (x : Option α) (v : Nat → α) : Node α → Option (Error α)
  | .variable id => if x.isSome then none else some (.unboundVariable id)
  | .unary .log arg => if v arg.index ≤ 0 then some (.logDomain (v arg.index)) else none
  | .power base exponent =>
    if !Scalar.isInteger exponent && decide (v base.index ≤ 0) then
      some (.powerDomain (v base.index) exponent)
    else none
  | .constant _ | .unary _ _ | .binary _ _ _ | .sum _ => none

theorem result_congr {x : α} {v w : Nat → α} {node : Node α}
    (h : ∀ e ∈ node.operands, v e.index = w e.index) : node.result x v = node.result x w := by
  cases node with
  | unary op arg => simp only [result, h arg (by simp [operands])]
  | binary op lhs rhs =>
    simp only [result, h lhs (by simp [operands]), h rhs (by simp [operands])]
  | power base exponent => simp only [result, h base (by simp [operands])]
  | sum terms =>
    have hm : terms.map (fun t => v t.index) = terms.map fun t => w t.index :=
      List.map_congr_left h
    simp only [result, hm]
  | _ => rfl

theorem refusal?_congr {x y : Option α} {v w : Nat → α} {node : Node α}
    (hx : x.isSome = y.isSome) (h : ∀ e ∈ node.operands, v e.index = w e.index) :
    node.refusal? x v = node.refusal? y w := by
  cases node with
  | «variable» id => simp only [refusal?, hx]
  | unary op arg =>
    cases op with
    | log => simp only [refusal?, h arg (by simp [operands])]
    | _ => rfl
  | power base exponent => simp only [refusal?, h base (by simp [operands])]
  | _ => rfl

end Node

/-- The entries of an array at the given places are those of a function. -/
def Holds (xs : Array α) (v : Nat → α) (places : List Nat) : Prop :=
  ∀ i ∈ places, xs[i]? = some (v i)

theorem UnaryOp.value_eq (op : UnaryOp) (a : α) :
    op.value a =
      if op = .log ∧ a ≤ 0 then .error (.logDomain a) else .ok (op.result a) := by
  cases op <;> simp [UnaryOp.value, UnaryOp.result]

theorem Node.value_spec {slots : Graph.Slots} {point values : Array α} {i : Nat} {node : Node α}
    {x : Option α} {v : Nat → α} (hi : i < slots.size)
    (hx : (slots.at i).bind (point[·]?) = x) (hs : ∀ k, slots.at i = some k → k < point.size)
    (hv : ∀ e ∈ node.operands, values[e.index]? = some (v e.index)) :
    node.value slots point values i =
      match node.refusal? x v with
      | some e => .error (.refused e)
      | none => .ok (node.result (x.getD 0) v) := by
  cases node with
  | constant c => rfl
  | «variable» id =>
    have hf : fetch (α := α) slots i = .ok slots[i] :=
      fetch_eq_ok (Array.getElem?_eq_getElem hi)
    have hat : slots.at i = slots[i] := by
      simp [Graph.Slots.at, Array.getElem?_eq_getElem hi]
    rw [hat] at hx hs
    simp only [Node.value, hf, ok_bind]
    cases hk : slots[i] with
    | none =>
      rw [hk] at hx
      subst hx
      rfl
    | some k =>
      have hlt := hs k hk
      rw [hk, Option.bind_some, Array.getElem?_eq_getElem hlt] at hx
      subst hx
      exact fetch_eq_ok (Array.getElem?_eq_getElem hlt)
  | unary op arg =>
    have hf := fetch_eq_ok (α := α) (hv arg (by simp [operands]))
    simp only [Node.value, hf, ok_bind, op.value_eq]
    cases op with
    | log => by_cases ha : v arg.index ≤ 0 <;> simp [refusal?, result, Except.mapError, ha]
    | _ => rfl
  | binary op lhs rhs =>
    have hl := fetch_eq_ok (α := α) (hv lhs (by simp [operands]))
    have hr := fetch_eq_ok (α := α) (hv rhs (by simp [operands]))
    simp only [Node.value, hl, hr, ok_bind]
    rfl
  | power base exponent =>
    have hf := fetch_eq_ok (α := α) (hv base (by simp [operands]))
    simp only [Node.value, hf, ok_bind, powerValue, refusal?]
    by_cases hd : (!Scalar.isInteger exponent && decide (v base.index ≤ 0)) = true
    · rw [if_pos hd, if_pos hd]
      rfl
    · rw [if_neg hd, if_neg hd]
      rfl
  | sum terms =>
    have hm : terms.mapM (fun t => fetch (α := α) values t.index) =
        .ok (terms.map fun t => v t.index) :=
      mapM_eq_ok terms fun t ht => fetch_eq_ok (hv t ht)
    simp only [Node.value, hm, ok_bind]
    rfl

namespace Graph

/-- The value of a node when the variable nodes have the given values. -/
def valueAt (g : Graph α) (env : Nat → Option α) : Nat → α :=
  g.recursion 0 fun i node v => node.result ((env i).getD 0) v

/-- Why a node cannot be evaluated, apart from what its operands lack. -/
def errorAt? (g : Graph α) (env : Nat → Option α) (i : Nat) : Option (Error α) :=
  g.nodes[i]?.bind fun node => node.refusal? (env i) (g.valueAt env)

variable {g : Graph α} {env : Nat → Option α} {root : Nat} {order : List Nat}

theorem valueAt_node {i : Nat} {node : Node α} (hn : g.nodes[i]? = some node)
    (hlt : ∀ e ∈ node.operands, e.index < i) :
    g.valueAt env i = node.result ((env i).getD 0) (g.valueAt env) := by
  rw [valueAt, recursion_node hn]
  exact Node.result_congr fun e he => if_pos (hlt e he)

theorem valueAt_constant {i : Nat} {c : α} (hn : g.nodes[i]? = some (.constant c)) :
    g.valueAt env i = c := valueAt_node hn (by simp [Node.operands])

theorem valueAt_variable {i : Nat} {id : VarId} (hn : g.nodes[i]? = some (.variable id)) :
    g.valueAt env i = (env i).getD 0 := valueAt_node hn (by simp [Node.operands])

theorem valueAt_congr {g' : Graph α} {env' : Nat → Option α} {i : Nat}
    (hn : ∀ j ≤ i, g'.nodes[j]? = g.nodes[j]?) (he : ∀ j ≤ i, env' j = env j) :
    g'.valueAt env' i = g.valueAt env i :=
  recursion_congr i hn fun j hj node t => by rw [he j hj]

theorem errorAt?_node {i : Nat} {node : Node α} (hn : g.nodes[i]? = some node) :
    g.errorAt? env i = node.refusal? (env i) (g.valueAt env) := by
  simp only [errorAt?, hn, Option.bind_some]

/-- What a sweep reads from the slots and the point is the given environment. -/
structure Feeds (slots : Slots) (point : Array α) (env : Nat → Option α) : Prop where
  eq : ∀ i, (slots.at i).bind (point[·]?) = env i
  lt : ∀ i k, slots.at i = some k → k < point.size

theorem forwardStep_spec {slots : Slots} {point : Array α} (hf : Feeds slots point env)
    (hsize : slots.size = g.size) (values : Array α) {i : Nat} {node : Node α} (hn : g.nodes[i]? = some node)
    (hi : i < values.size) (hlt : ∀ e ∈ node.operands, e.index < i)
    (hv : ∀ e ∈ node.operands, values[e.index]? = some (g.valueAt env e.index)) :
    Sweep.forwardStep g slots point values i =
      match g.errorAt? env i with
      | some e => .error (.refused e)
      | none => .ok (values.setIfInBounds i (g.valueAt env i)) := by
  have hslots : i < slots.size := hsize ▸ (Array.getElem?_eq_some_iff.mp hn).1
  have hvalue := Node.value_spec hslots (hf.eq i) (hf.lt i) hv
  rw [Sweep.forwardStep, fetch_eq_ok hn, ok_bind, hvalue, errorAt?_node hn]
  cases node.refusal? (env i) (g.valueAt env) with
  | some e => rfl
  | none =>
    rw [valueAt_node hn hlt]
    exact store_eq_ok hi _

/-- A forward sweep evaluates the nodes in order, up to the first that has no value. -/
theorem foldlM_forwardStep {slots : Slots} {point : Array α} (ho : g.Ordered root order)
    (hf : Feeds slots point env) (hsize : slots.size = g.size) (todo done : List Nat)
    {values : Array α} (hsplit : done ++ todo = order) (hlen : values.size = root + 1)
    (hold : Holds values (g.valueAt env) done) :
    (∃ e, todo.findSome? (g.errorAt? env) = some e ∧
      todo.foldlM (Sweep.forwardStep g slots point) values = .error (.refused e)) ∨
    (todo.findSome? (g.errorAt? env) = none ∧ ∃ values',
      todo.foldlM (Sweep.forwardStep g slots point) values = .ok values' ∧
      values'.size = root + 1 ∧ Holds values' (g.valueAt env) order) := by
  induction todo generalizing done values with
  | nil =>
    refine Or.inr ⟨rfl, values, rfl, hlen, ?_⟩
    rwa [← hsplit, List.append_nil]
  | cons i todo ih =>
    have hmem : i ∈ order := by simp [← hsplit]
    obtain ⟨node, hn⟩ := ho.node_exists hmem
    have hle := ho.le_root hmem
    have hlt : ∀ e ∈ node.operands, e.index < i := fun e he => ho.operand_lt hmem hn he
    have hdone : ∀ e ∈ node.operands, e.index ∈ done := fun e he =>
      ho.operand_before hsplit hn he
    have hstep := forwardStep_spec hf hsize values hn (by omega) hlt
      fun e he => hold _ (hdone e he)
    rw [List.foldlM_cons, hstep, List.findSome?_cons]
    cases he : g.errorAt? env i with
    | some e => exact Or.inl ⟨e, rfl, rfl⟩
    | none =>
      refine ih (done ++ [i]) (by simpa using hsplit) (by simpa using hlen) ?_
      intro j hj
      rcases List.mem_append.mp hj with hj | hj
      · have hji := ho.lt_of_before hsplit hj
        rw [Array.getElem?_setIfInBounds, if_neg (by omega)]
        exact hold j hj
      · obtain rfl : j = i := by simpa using hj
        rw [Array.getElem?_setIfInBounds, if_pos rfl, if_pos (by omega)]

end Graph

namespace Sweep

variable {g : Graph α} {root : Expr} {vars : List Var} {point : List α} {order : List Nat}

/-- A sweep that holds the values of all nodes below its root. -/
structure Complete (g : Graph α) (vars : List Var) (point : List α) (s : Sweep α) : Prop where
  ordered : g.Ordered s.root.index s.order
  binds : g.Binds vars
  slots_size : s.slots.size = g.size
  slots_at : ∀ i, s.slots.at i = position vars i
  values_size : s.values.size = s.root.index + 1
  values_hold : Holds s.values (g.valueAt (assignment vars point)) s.order
  defined : ∀ i ∈ s.order, g.errorAt? (assignment vars point) i = none

/-- The forward sweep for a point that fits: it stops at the first node without a value, or has
the values of all nodes. -/
theorem forward_spec (hl : vars.length = point.length) (ho : g.reachable root = .ok order)
    (hb : g.Binds vars) :
    (∃ e, order.findSome? (g.errorAt? (assignment vars point)) = some e ∧
      forward g root vars point = .error (.refused e)) ∨
    (order.findSome? (g.errorAt? (assignment vars point)) = none ∧ ∃ s,
      forward g root vars point = .ok s ∧ s.root = root ∧ s.order = order ∧
      s.Complete g vars point) := by
  obtain ⟨slots, hbind, hsize, hat⟩ := Graph.bind_unbound_of_binds hb
  have hord := Graph.reachable_ordered ho
  have hfeeds : Graph.Feeds slots point.toArray (assignment vars point) := by
    refine ⟨fun i => ?_, fun i k hk => ?_⟩
    · simp only [hat, assignment, List.getElem?_toArray]
    · rw [hat] at hk
      have hlt := position_lt hk
      simpa [hl] using hlt
  have hzeros : (Array.replicate (root.index + 1) (0 : α)).size = root.index + 1 := by simp
  simp only [forward, hl, ne_eq, not_true_eq_false, ↓reduceIte, ho, ok_bind, hbind]
  rcases Graph.foldlM_forwardStep hord hfeeds hsize order [] rfl hzeros
      (by simp [Holds]) with ⟨e, he, hfold⟩ | ⟨hnone, values, hfold, hlen, hhold⟩
  · exact Or.inl ⟨e, he, by rw [hfold, error_bind]⟩
  · refine Or.inr ⟨hnone, ⟨root, order, slots, values⟩, by rw [hfold]; rfl, rfl, rfl, ?_⟩
    exact ⟨hord, hb, hsize, hat, hlen, hhold, List.findSome?_eq_none_iff.mp hnone⟩

/-- A sweep that succeeds is complete, and its point fits. -/
theorem complete_of_forward {s : Sweep α} (h : forward g root vars point = .ok s) :
    s.root = root ∧ vars.length = point.length ∧ g.reachable root = .ok s.order ∧
      s.Complete g vars point := by
  by_cases hl : vars.length = point.length
  · have h' := h
    simp only [forward, hl, ne_eq, not_true_eq_false, ↓reduceIte, bind_eq_ok] at h'
    obtain ⟨order, ho, slots, hbind, -⟩ := h'
    have hb := (Graph.binds_of_bind hbind).1
    rcases forward_spec hl ho hb with ⟨e, -, he⟩ | ⟨-, s', hs, hroot, horder, hc⟩
    · cases h.symm.trans he
    · obtain rfl : s = s' := Except.ok.inj (h.symm.trans hs)
      exact ⟨hroot, hl, horder ▸ ho, hc⟩
  · simp only [forward, ne_eq, hl, not_false_eq_true, ↓reduceIte] at h
    cases h

theorem Complete.value_eq {s : Sweep α} (h : s.Complete g vars point) :
    s.value = .ok (g.valueAt (assignment vars point) s.root.index) :=
  fetch_eq_ok (h.values_hold _ h.ordered.root_mem)

/-- Every variable below the root of a complete sweep is bound. -/
theorem Complete.position_exists {s : Sweep α} (h : s.Complete g vars point) {i : Nat}
    (hi : i ∈ s.order) {id : VarId} (hn : g.nodes[i]? = some (.variable id)) :
    ∃ k, position vars i = some k := by
  have hd := h.defined i hi
  rw [Graph.errorAt?_node hn, Node.refusal?] at hd
  cases hp : position vars i with
  | none => simp [assignment, hp] at hd
  | some k => exact ⟨k, rfl⟩

theorem Complete.node_of_position {s : Sweep α} (h : s.Complete g vars point) {i k : Nat}
    (hk : position vars i = some k) : ∃ id, g.nodes[i]? = some (.variable id) := by
  obtain ⟨x, hx, rfl⟩ := getElem_of_position hk
  exact ⟨x.id, h.binds.node_eq x (List.mem_of_getElem? hx)⟩

end Sweep

/-- The answer at a point: the first reason in order why a node has no value, or else the given
result. -/
def Graph.answer {β : Type} (g : Graph α) (env : Nat → Option α) (order : List Nat) (x : β) :
    Except (Failure α) β :=
  match order.findSome? (g.errorAt? env) with
  | some e => .error (.refused e)
  | none => .ok x

theorem Graph.answer_cases {β : Type} (g : Graph α) (env : Nat → Option α) (order : List Nat)
    (x : β) : g.answer env order x = .ok x ∨ ∃ e, g.answer env order x = .error (.refused e) := by
  unfold answer
  split
  next e _ => exact Or.inr ⟨e, rfl⟩
  next => exact Or.inl rfl

theorem Graph.answer_eq_ok {β : Type} {g : Graph α} {env : Nat → Option α} {order : List Nat}
    {x y : β} :
    g.answer env order x = .ok y ↔ (∀ i ∈ order, g.errorAt? env i = none) ∧ x = y := by
  rw [answer, ← List.findSome?_eq_none_iff]
  cases order.findSome? (g.errorAt? env) with
  | some e => simp
  | none => simp

theorem Graph.evaluate_eq {g : Graph α} {root : Expr} {vars : List Var} {point : List α}
    {order : List Nat} (hl : vars.length = point.length) (ho : g.reachable root = .ok order)
    (hb : g.Binds vars) :
    g.evaluate root vars point = g.answer (assignment vars point) order
      (g.valueAt (assignment vars point) root.index) := by
  rw [evaluate, answer]
  rcases Sweep.forward_spec hl ho hb with ⟨e, he, hs⟩ | ⟨hnone, s, hs, hroot, -, hc⟩
  · rw [hs, he, error_bind]
  · rw [hs, hnone, ok_bind, hc.value_eq, hroot]

end Autodiff
