import Autodiff.Tape
import Autodiff.Proofs.Meaning
import Mathlib.Data.List.Basic

namespace Autodiff

variable {α : Type}

namespace Node

/-- A node is laid out at slot `s` of a code with operand table, when its operands have the slots
given by `σ`. A power has its exponent in the slot before its own. -/
def LaidAt (code : Array (Instruction α)) (table : Array Nat) (σ : Nat → Nat) (s : Nat) :
    Node α → Prop
  | .constant value => code[s]? = some (.constant value)
  | .variable _ => code[s]? = some .input
  | .unary op arg => code[s]? = some (.unary op (σ arg.index))
  | .binary op lhs rhs => code[s]? = some (.binary op (σ lhs.index) (σ rhs.index))
  | .power base exponent => ∃ k, k + 1 = s ∧ code[k]? = some (.constant exponent) ∧
      code[s]? = some (.power (σ base.index) k)
  | .sum terms => ∃ offset, code[s]? = some (.sum offset terms.length) ∧
      offset + terms.length ≤ table.size ∧
      (table.extract offset (offset + terms.length)).toList = terms.map fun t => σ t.index

/-- The slots that the evaluation of a node with slot `s` passes through. -/
def block (s : Nat) : Node α → List Nat
  | .variable _ => []
  | .power _ _ => [s - 1, s]
  | .constant _ | .unary _ _ | .binary _ _ _ | .sum _ => [s]

/-- A layout stays valid while code and table grow and the operands keep their slots. -/
theorem LaidAt.mono {code code' : Array (Instruction α)} {table table' : Array Nat}
    {σ σ' : Nat → Nat} {s : Nat} {node : Node α} (h : node.LaidAt code table σ s)
    (hcode : ∀ (k : Nat) (x : Instruction α), code[k]? = some x → code'[k]? = some x)
    (htable : ∃ more, table' = table ++ more)
    (hσ : ∀ e ∈ node.operands, σ' e.index = σ e.index) : node.LaidAt code' table' σ' s := by
  cases node with
  | constant value => exact hcode _ _ h
  | «variable» id => exact hcode _ _ h
  | unary op arg =>
    simp only [LaidAt, hσ arg (by simp [operands])]
    exact hcode _ _ h
  | binary op lhs rhs =>
    simp only [LaidAt, hσ lhs (by simp [operands]), hσ rhs (by simp [operands])]
    exact hcode _ _ h
  | power base exponent =>
    obtain ⟨k, hk, hexp, hpow⟩ := h
    simp only [LaidAt, hσ base (by simp [operands])]
    exact ⟨k, hk, hcode _ _ hexp, hcode _ _ hpow⟩
  | sum terms =>
    obtain ⟨offset, hsum, hle, hlist⟩ := h
    obtain ⟨more, rfl⟩ := htable
    refine ⟨offset, hcode _ _ hsum, by simp only [Array.size_append]; omega, ?_⟩
    have hsame : (table ++ more).extract offset (offset + terms.length) =
        table.extract offset (offset + terms.length) := by
      rw [Array.extract_append, Nat.sub_eq_zero_of_le hle, Array.extract_zero, Array.append_empty]
    rw [hsame, hlist]
    exact List.map_congr_left fun t ht => (hσ t ht).symm

end Node

namespace Layout

/-- The slot of a node, when it has one. -/
def slot (l : Layout α) (i : Nat) : Nat := (l.slots.at i).getD 0

theorem slotOf_eq_ok {l : Layout α} {i s : Nat} (h : l.slots.at i = some s) :
    l.slotOf i = .ok s := by
  have hi : l.slots[i]? = some (some s) := Option.join_eq_some_iff.mp h
  rw [slotOf, fetch_eq_ok hi]
  rfl

theorem slot_eq {l : Layout α} {i s : Nat} (h : l.slots.at i = some s) : l.slot i = s := by
  simp [slot, h]

/-- The slots of one node of a graph that are evaluated, in order. -/
def blockAt (l : Layout α) (g : Graph α) (i : Nat) : List Nat :=
  match g.nodes[i]? with
  | some node => node.block (l.slot i)
  | none => []

/-- The nodes in `done` are laid out, the leaves have the slots given by `bound`, and the slots
from the leaves on belong to the nodes in order. -/
structure Covers (l : Layout α) (g : Graph α) (leaves : Nat) (bound : Nat → Option Nat)
    (done : List Nat) : Prop where
  bound_lt : ∀ i k, bound i = some k → k < leaves
  slots_size : l.slots.size = g.size
  leaves_le : leaves ≤ l.code.size
  inputs : ∀ k < leaves, l.code[k]? = some .input
  laid : ∀ i ∈ done, ∃ node s, g.nodes[i]? = some node ∧ (∀ e ∈ node.operands, e.index ∈ done) ∧
    l.slots.at i = some s ∧ node.LaidAt l.code l.operands l.slot s
  variables_at : ∀ i id, g.nodes[i]? = some (.variable id) → l.slots.at i = bound i
  others_at : ∀ i, i ∉ done → l.slots.at i = bound i
  at_lt : ∀ i s, l.slots.at i = some s → s < l.code.size
  at_inj : ∀ i j s, l.slots.at i = some s → l.slots.at j = some s → i = j
  blocks : done.flatMap (l.blockAt g) = List.range' leaves (l.code.size - leaves)

variable {g : Graph α} {leaves : Nat} {bound : Nat → Option Nat} {done : List Nat} {l : Layout α}

/-- Laying out one more operation, which takes the last of the slots that are added. -/
theorem Covers.extend (h : l.Covers g leaves bound done) {i : Nat} (hi : i ∉ done)
    {node : Node α} (hn : g.nodes[i]? = some node) (hnv : ∀ id, node ≠ .variable id)
    (hops : ∀ e ∈ node.operands, e.index ∈ done)
    (extra : Array (Instruction α)) (more : Array Nat) (s : Nat)
    (hs : s + 1 = l.code.size + extra.size) (hpos : 0 < extra.size)
    (hlaid : node.LaidAt (l.code ++ extra) (l.operands ++ more) l.slot s)
    (hblock : node.block s = List.range' l.code.size extra.size) :
    Covers ⟨l.code ++ extra, l.operands ++ more, l.slots.setIfInBounds i (some s)⟩ g leaves bound
      (done ++ [i]) := by
  have hig : i < l.slots.size := h.slots_size ▸ (Array.getElem?_eq_some_iff.mp hn).1
  have hset := Graph.Slots.at_setIfInBounds hig s
  let l' : Layout α := ⟨l.code ++ extra, l.operands ++ more, l.slots.setIfInBounds i (some s)⟩
  have hslot : ∀ j, j ≠ i → l'.slot j = l.slot j := by
    intro j hj
    simp only [slot, l', hset, if_neg fun he : i = j => hj he.symm]
  have hcode : ∀ (k : Nat) (x : Instruction α), l.code[k]? = some x → l'.code[k]? = some x := by
    intro k x hk
    have hlt := (Array.getElem?_eq_some_iff.mp hk).1
    rw [Array.getElem?_append_left hlt, hk]
  have hne : ∀ j ∈ done, j ≠ i := fun j hj he => hi (he ▸ hj)
  have hat : l'.slots.at i = some s := by simp only [l', hset, ↓reduceIte]
  have hblockAt : ∀ j ∈ done, l'.blockAt g j = l.blockAt g j := by
    intro j hj
    simp only [blockAt, hslot j (hne j hj)]
  have hlast : l'.blockAt g i = List.range' l.code.size extra.size := by
    simp only [blockAt, hn, slot_eq hat, hblock]
  refine ⟨h.bound_lt, by simpa using h.slots_size, ?_, ?_, ?_, ?_, ?_, ?_, ?_, ?_⟩
  · have hle := h.leaves_le
    simp only [Array.size_append]
    omega
  · exact fun k hk => hcode k _ (h.inputs k hk)
  · intro j hj
    rcases List.mem_append.mp hj with hj | hj
    · obtain ⟨node', s', hn', hops', hs', hl'⟩ := h.laid j hj
      refine ⟨node', s', hn', fun e he => List.mem_append_left _ (hops' e he), ?_,
        hl'.mono hcode ⟨more, rfl⟩ fun e he => hslot _ (hne _ (hops' e he))⟩
      simp only [hset, if_neg fun he : i = j => hne j hj he.symm, hs']
    · obtain rfl : j = i := by simpa using hj
      exact ⟨node, s, hn, fun e he => List.mem_append_left _ (hops e he), hat,
        hlaid.mono (fun _ _ hk => hk) ⟨#[], by simp⟩ fun e he => hslot _ (hne _ (hops e he))⟩
  · intro j id hj
    have hji : i ≠ j := by
      rintro rfl
      exact hnv id (Option.some.inj (hn.symm.trans hj))
    simp only [hset, if_neg hji]
    exact h.variables_at j id hj
  · intro j hj
    simp only [List.mem_append, List.mem_singleton, not_or] at hj
    simp only [hset, if_neg fun he : i = j => hj.2 he.symm]
    exact h.others_at j hj.1
  · intro j k hk
    simp only [hset] at hk
    simp only [Array.size_append]
    split at hk
    next => cases hk; omega
    next =>
      have := h.at_lt j k hk
      omega
  · intro j j' k hk hk'
    refine Graph.Slots.setIfInBounds_inj hig (fun j k hk => ?_) h.at_inj hk hk'
    have := h.at_lt j k hk
    omega
  · have hle := h.leaves_le
    have hold : done.flatMap (l'.blockAt g) = done.flatMap (l.blockAt g) :=
      List.flatMap_congr hblockAt
    have hend : l.code.size = leaves + (l.code.size - leaves) := by omega
    have hcount : (l.code ++ extra).size - leaves = l.code.size - leaves + extra.size := by
      simp only [Array.size_append]
      omega
    rw [List.flatMap_append, hold, h.blocks, List.flatMap_singleton, hlast, hcount, hend,
      ← List.range'_append_1, Nat.add_sub_cancel_left]

theorem Covers.at_eq (h : l.Covers g leaves bound done) {i : Nat} (hi : i ∈ done) :
    l.slots.at i = some (l.slot i) := by
  obtain ⟨node, s, -, -, hs, -⟩ := h.laid i hi
  rw [hs, slot_eq hs]

theorem Covers.slotOf_eq (h : l.Covers g leaves bound done) {i : Nat} (hi : i ∈ done) :
    l.slotOf i = .ok (l.slot i) := slotOf_eq_ok (h.at_eq hi)

theorem emit_eq {i : Nat} (hi : i < l.slots.size) (x : Instruction α) :
    l.emit i x = .ok ⟨l.code ++ #[x], l.operands, l.slots.setIfInBounds i (some l.code.size)⟩ := by
  rw [emit, store_eq_ok hi]
  rfl

/-- A variable that has a slot needs no other. -/
theorem Covers.skip (h : l.Covers g leaves bound done) {i k : Nat} {id : VarId}
    (hn : g.nodes[i]? = some (.variable id)) (hk : bound i = some k) :
    l.Covers g leaves bound (done ++ [i]) := by
  have hat : l.slots.at i = some k := (h.variables_at i id hn).trans hk
  refine ⟨h.bound_lt, h.slots_size, h.leaves_le, h.inputs, ?_, h.variables_at, ?_, h.at_lt,
    h.at_inj, ?_⟩
  · intro j hj
    rcases List.mem_append.mp hj with hj | hj
    · obtain ⟨node, s, hn', hops, hs, hl⟩ := h.laid j hj
      exact ⟨node, s, hn', fun e he => List.mem_append_left _ (hops e he), hs, hl⟩
    · obtain rfl : j = i := by simpa using hj
      exact ⟨.variable id, k, hn, by simp [Node.operands], hat, h.inputs k (h.bound_lt j k hk)⟩
  · exact fun j hj => h.others_at j fun hd => hj (List.mem_append_left _ hd)
  · have hnone : l.blockAt g i = [] := by simp only [blockAt, hn, Node.block]
    rw [List.flatMap_append, List.flatMap_singleton, hnone, List.append_nil, h.blocks]

end Layout

namespace Graph

/-- The variable of a node, when it has no slot. -/
def free? (g : Graph α) (bound : Nat → Option Nat) (i : Nat) : Option VarId :=
  match g.nodes[i]? with
  | some (.variable id) => if (bound i).isSome then none else some id
  | _ => none

end Graph

namespace Layout

/-- Laying out one node: a variable without a slot is refused, any other node gets its place. -/
theorem place_spec {g : Graph α} {leaves : Nat} {bound : Nat → Option Nat} {done : List Nat}
    {l : Layout α} (h : l.Covers g leaves bound done) {i : Nat} (hi : i ∉ done) {node : Node α}
    (hn : g.nodes[i]? = some node) (hops : ∀ e ∈ node.operands, e.index ∈ done) :
    (∃ id, g.free? bound i = some id ∧
      place g l i = .error (.refused (.unboundVariable id))) ∨
    (g.free? bound i = none ∧ ∃ l', place g l i = .ok l' ∧
      l'.Covers g leaves bound (done ++ [i])) := by
  have hig : i < l.slots.size := h.slots_size ▸ (Array.getElem?_eq_some_iff.mp hn).1
  cases node with
  | «variable» id =>
    have hfetch : fetch (α := α) l.slots i = .ok l.slots[i] :=
      fetch_eq_ok (Array.getElem?_eq_getElem hig)
    have hat : bound i = l.slots[i] := by
      rw [← h.variables_at i id hn]
      simp [Graph.Slots.at, Array.getElem?_eq_getElem hig]
    simp only [place, fetch_eq_ok hn, ok_bind, hfetch, Graph.free?, hn]
    cases hk : l.slots[i] with
    | none =>
      rw [hk] at hat
      exact Or.inl ⟨id, by simp [hat], rfl⟩
    | some k =>
      rw [hk] at hat
      exact Or.inr ⟨by simp [hat], l, rfl, h.skip hn hat⟩
  | constant value =>
    refine Or.inr ⟨by simp only [Graph.free?, hn], _, ?_, h.extend hi hn (by simp) hops
      #[.constant value] #[] l.code.size rfl (by simp) ?_ rfl⟩
    · simp only [place, fetch_eq_ok hn, ok_bind, emit_eq hig, Array.append_empty]
    · simp [Node.LaidAt]
  | unary op arg =>
    have harg := h.slotOf_eq (hops arg (by simp [Node.operands]))
    refine Or.inr ⟨by simp only [Graph.free?, hn], _, ?_, h.extend hi hn (by simp) hops
      #[.unary op (l.slot arg.index)] #[] l.code.size rfl (by simp) ?_ rfl⟩
    · simp only [place, fetch_eq_ok hn, ok_bind, harg, emit_eq hig, Array.append_empty]
    · simp [Node.LaidAt]
  | binary op lhs rhs =>
    have hlhs := h.slotOf_eq (hops lhs (by simp [Node.operands]))
    have hrhs := h.slotOf_eq (hops rhs (by simp [Node.operands]))
    refine Or.inr ⟨by simp only [Graph.free?, hn], _, ?_, h.extend hi hn (by simp) hops
      #[.binary op (l.slot lhs.index) (l.slot rhs.index)] #[] l.code.size rfl (by simp) ?_ rfl⟩
    · simp only [place, fetch_eq_ok hn, ok_bind, hlhs, hrhs, emit_eq hig, Array.append_empty]
    · simp [Node.LaidAt]
  | power base exponent =>
    have hbase := h.slotOf_eq (hops base (by simp [Node.operands]))
    refine Or.inr ⟨by simp only [Graph.free?, hn], _, ?_, h.extend hi hn (by simp) hops
      #[.constant exponent, .power (l.slot base.index) l.code.size] #[] (l.code.size + 1) rfl
      (by simp) ?_ rfl⟩
    · have hpair : ∀ x y : Instruction α, l.code ++ #[x, y] = (l.code.push x).push y :=
        fun x y => Array.ext' (by simp)
      simp only [place, fetch_eq_ok hn, ok_bind, hbase]
      rw [emit_eq (by exact hig)]
      simp [hpair]
    · refine ⟨l.code.size, rfl, ?_, ?_⟩
      · simp
      · simp
  | sum terms =>
    have hterms : terms.mapM (fun t => l.slotOf t.index) =
        .ok (terms.map fun t => l.slot t.index) :=
      mapM_eq_ok terms fun t ht => h.slotOf_eq (hops t ht)
    refine Or.inr ⟨by simp only [Graph.free?, hn], _, ?_, h.extend hi hn (by simp) hops
      #[.sum l.operands.size terms.length] (terms.map fun t => l.slot t.index).toArray
      l.code.size rfl (by simp) ?_ rfl⟩
    · simp only [place, fetch_eq_ok hn, ok_bind, hterms]
      rw [emit_eq (by exact hig)]
    · refine ⟨l.operands.size, by simp, by simp, ?_⟩
      simp [List.take_of_length_le]

/-- Laying out the nodes in order, up to the first variable without a slot. -/
theorem foldlM_place {g : Graph α} {leaves root : Nat} {bound : Nat → Option Nat}
    {order : List Nat} (ho : g.Ordered root order) (todo done : List Nat)
    {l : Layout α} (hsplit : done ++ todo = order) (h : l.Covers g leaves bound done) :
    (∃ id, todo.findSome? (g.free? bound) = some id ∧
      todo.foldlM (place g) l = .error (.refused (.unboundVariable id))) ∨
    (todo.findSome? (g.free? bound) = none ∧ ∃ l', todo.foldlM (place g) l = .ok l' ∧
      l'.Covers g leaves bound order) := by
  induction todo generalizing done l with
  | nil =>
    rw [List.append_nil] at hsplit
    exact Or.inr ⟨rfl, l, rfl, hsplit ▸ h⟩
  | cons i todo ih =>
    have hmem : i ∈ order := by simp [← hsplit]
    obtain ⟨node, hn⟩ := ho.node_exists hmem
    have hi : i ∉ done := fun hd => Nat.lt_irrefl i (ho.lt_of_before hsplit hd)
    rw [List.foldlM_cons, List.findSome?_cons]
    rcases place_spec h hi hn (fun e he => ho.operand_before hsplit hn he) with
      ⟨id, hfree, hp⟩ | ⟨hfree, l', hp, h'⟩
    · rw [hfree, hp]
      exact Or.inl ⟨id, rfl, rfl⟩
    · rw [hfree, hp, ok_bind]
      exact ih (done ++ [i]) (by simpa using hsplit) h'

theorem covers_start {g : Graph α} {xs : List Var} {slots : Graph.Slots} {leaves : Nat}
    (hleaves : xs.length = leaves) (hsize : slots.size = g.size)
    (hat : ∀ i, slots.at i = position xs i) :
    Covers ⟨Array.replicate leaves .input, #[], slots⟩ g leaves (position xs) [] := by
  refine ⟨fun i k hk => hleaves ▸ position_lt hk, hsize, by simp, ?_, by simp, fun i _ _ => hat i,
    fun i _ => hat i, ?_, ?_, by simp⟩
  · intro k hk
    simp [hk]
  · intro i k hk
    rw [hat] at hk
    have := position_lt hk
    simp only [Array.size_replicate]
    omega
  · intro i j k hi hj
    rw [hat] at hi hj
    exact position_inj hi hj

end Layout

namespace Graph

variable {g : Graph α} {root : Expr} {vars params : List Var} {order : List Nat}

/-- Binding the parameters after the variables is binding both lists at once. -/
theorem compileParametric_eq (g : Graph α) (root : Expr) (vars params : List Var) :
    g.compileParametric root vars params = (do
      let order ← g.reachable root
      let slots ← g.bind (vars ++ params) g.unbound 0
      let leaves := vars.length + params.length
      let layout ← order.foldlM (Layout.place g) ⟨Array.replicate leaves .input, #[], slots⟩
      return {
        code := layout.code
        operands := layout.operands
        inputs := vars.length
        params := params.length
        output := ← layout.slotOf root.index }) := by
  simp only [compileParametric, bind_append, Nat.zero_add]
  cases g.reachable root with
  | error e => rfl
  | ok order =>
    cases g.bind vars g.unbound 0 with
    | error e => rfl
    | ok slots => rfl

/-- Compiling an expression whose nodes can be listed and whose variables can be bound: the first
node in order that is a variable without a slot is refused, and otherwise there is a tape. -/
theorem compileParametric_spec (ho : g.reachable root = .ok order)
    (hb : g.Binds (vars ++ params)) :
    (∃ id, order.findSome? (g.free? (position (vars ++ params))) = some id ∧
      g.compileParametric root vars params = .error (.refused (.unboundVariable id))) ∨
    (order.findSome? (g.free? (position (vars ++ params))) = none ∧ ∃ l : Layout α,
      l.Covers g (vars.length + params.length) (position (vars ++ params)) order ∧
      g.compileParametric root vars params =
        .ok ⟨l.code, l.operands, vars.length, params.length, l.slot root.index⟩) := by
  obtain ⟨slots, hbind, hsize, hat⟩ := bind_unbound_of_binds hb
  have hord := reachable_ordered ho
  have hstart := Layout.covers_start List.length_append hsize hat
  simp only [compileParametric_eq, ho, ok_bind, hbind]
  rcases Layout.foldlM_place hord order [] rfl hstart with
    ⟨id, hfree, hfold⟩ | ⟨hnone, l, hfold, hl⟩
  · exact Or.inl ⟨id, hfree, by rw [hfold, error_bind]⟩
  · refine Or.inr ⟨hnone, l, hl, ?_⟩
    rw [hfold, ok_bind, hl.slotOf_eq hord.root_mem]
    rfl

end Graph

end Autodiff
