import Autodiff.Proofs.TapeAgreement

namespace Autodiff

variable {α : Type}

/-- Ranges of offset and count that follow one another from a start to a stop. -/
def Tiles : Nat → List (Nat × Nat) → Nat → Prop
  | start, [], stop => start = stop
  | start, (offset, count) :: ranges, stop => offset = start ∧ Tiles (start + count) ranges stop

namespace Tiles

variable {start mid stop : Nat} {ranges more : List (Nat × Nat)}

theorem append (h : Tiles start ranges mid) (h' : Tiles mid more stop) :
    Tiles start (ranges ++ more) stop := by
  induction ranges generalizing start with
  | nil =>
    obtain rfl : start = mid := h
    exact h'
  | cons r ranges ih => exact ⟨h.1, ih h.2⟩

theorem le (h : Tiles start ranges stop) : start ≤ stop := by
  induction ranges generalizing start with
  | nil => exact Nat.le_of_eq h
  | cons r ranges ih => exact Nat.le_trans (Nat.le_add_right _ _) (ih h.2)

/-- Every position belongs to exactly one of the ranges. -/
theorem flatMap_eq (h : Tiles start ranges stop) :
    (ranges.flatMap fun r => List.range' r.1 r.2) = List.range' start (stop - start) := by
  induction ranges generalizing start with
  | nil =>
    obtain rfl : start = stop := h
    simp
  | cons r ranges ih =>
    obtain ⟨rfl, h⟩ := h
    have hle := h.le
    have hcount : stop - r.1 = r.2 + (stop - (r.1 + r.2)) := by omega
    rw [List.flatMap_cons, ih h, hcount, List.range'_append_1]

end Tiles

namespace Node

def isVariable : Node α → Bool
  | .variable _ => true
  | _ => false

def isPower : Node α → Bool
  | .power _ _ => true
  | _ => false

theorem length_block (node : Node α) (s : Nat) :
    (node.block s).length = (!node.isVariable).toNat + node.isPower.toNat := by
  cases node <;> rfl

/-- The instructions in the slots of a node: its own one, and constants. -/
inductive Emits (code : Array (Instruction α)) (table : Array Nat) (σ : Nat → Nat) (s : Nat)
    (node : Node α) : Nat → Instruction α → Prop where
  | constant {r : Nat} (c : α) : Emits code table σ s node r (.constant c)
  | unary {op : UnaryOp} {arg : Expr} (hn : node = .unary op arg) :
      Emits code table σ s node s (.unary op (σ arg.index))
  | binary {op : BinaryOp} {lhs rhs : Expr} (hn : node = .binary op lhs rhs) :
      Emits code table σ s node s (.binary op (σ lhs.index) (σ rhs.index))
  | power {base : Expr} {exponent : α} {k : Nat} (hn : node = .power base exponent) (hk : k < s)
      (hc : code[k]? = some (.constant exponent)) :
      Emits code table σ s node s (.power (σ base.index) k)
  | sum {terms : List Expr} {offset : Nat} (hn : node = .sum terms)
      (ht : (table.extract offset (offset + terms.length)).toList = terms.map fun t => σ t.index) :
      Emits code table σ s node s (.sum offset terms.length)

theorem LaidAt.emits {code : Array (Instruction α)} {table : Array Nat} {σ : Nat → Nat} {s r : Nat}
    {node : Node α} (h : node.LaidAt code table σ s) (hr : r ∈ node.block s)
    {instruction : Instruction α} (hc : code[r]? = some instruction) :
    node.Emits code table σ s r instruction := by
  cases node with
  | «variable» id => cases hr
  | constant value =>
    obtain rfl := List.mem_singleton.mp hr
    obtain rfl := Option.some.inj (hc.symm.trans h)
    exact .constant value
  | unary op arg =>
    obtain rfl := List.mem_singleton.mp hr
    obtain rfl := Option.some.inj (hc.symm.trans h)
    exact .unary rfl
  | binary op lhs rhs =>
    obtain rfl := List.mem_singleton.mp hr
    obtain rfl := Option.some.inj (hc.symm.trans h)
    exact .binary rfl
  | power base exponent =>
    obtain ⟨k, rfl, hexp, hpow⟩ := h
    rcases List.mem_cons.mp hr with rfl | hr
    · obtain rfl := Option.some.inj (hc.symm.trans hexp)
      exact .constant exponent
    · obtain rfl := List.mem_singleton.mp hr
      obtain rfl := Option.some.inj (hc.symm.trans hpow)
      exact .power rfl (Nat.lt_succ_self k) hexp
  | sum terms =>
    obtain ⟨offset, hsum, -, hlist⟩ := h
    obtain rfl := List.mem_singleton.mp hr
    obtain rfl := Option.some.inj (hc.symm.trans hsum)
    exact .sum rfl hlist

end Node

/-- The nodes at the given places. -/
def Graph.nodesAt (g : Graph α) (places : List Nat) : List (Node α) :=
  places.filterMap (g.nodes[·]?)

namespace Instruction

/-- The part of the operand table that a sum adds up, as offset and count. -/
def range? : Instruction α → Option (Nat × Nat)
  | .sum offset count => some (offset, count)
  | _ => none

/-- The ranges of all sums of a code, in order. -/
def ranges (code : Array (Instruction α)) : List (Nat × Nat) := code.toList.filterMap range?

theorem ranges_push (code : Array (Instruction α)) (instruction : Instruction α) :
    ranges (code.push instruction) = ranges code ++ instruction.range?.toList := by
  rw [ranges, Array.toList_push, List.filterMap_append]
  cases h : instruction.range? with
  | none => simp [ranges, h]
  | some r => simp [ranges, h]

end Instruction

namespace Layout

variable {g : Graph α} {l l' : Layout α} {i : Nat}

/-- The ranges of the sums make up the operand table. -/
def Tiled (l : Layout α) : Prop := Tiles 0 (Instruction.ranges l.code) l.operands.size

theorem emit_eq_ok {instruction : Instruction α} (h : l.emit i instruction = .ok l') :
    l'.code = l.code.push instruction ∧ l'.operands = l.operands := by
  obtain ⟨slots, -, h⟩ := bind_eq_ok.mp h
  obtain rfl := Except.ok.inj h
  exact ⟨rfl, rfl⟩

theorem Tiled.emit (h : l.Tiled) {instruction : Instruction α} (hr : instruction.range? = none)
    (hl : l.emit i instruction = .ok l') : l'.Tiled := by
  obtain ⟨hcode, htable⟩ := emit_eq_ok hl
  rw [Tiled, hcode, htable, Instruction.ranges_push, hr, Option.toList_none, List.append_nil]
  exact h

/-- Laying out a sum appends its operands to the table, and nothing else touches the table. -/
theorem Tiled.place (h : l.Tiled) (hl : l.place g i = .ok l') : l'.Tiled := by
  obtain ⟨node, -, hl⟩ := bind_eq_ok.mp hl
  cases node with
  | «variable» id =>
    obtain ⟨slot, -, hl⟩ := bind_eq_ok.mp hl
    cases slot with
    | none => cases hl
    | some s => exact Except.ok.inj hl ▸ h
  | constant value => exact h.emit rfl hl
  | unary op arg =>
    obtain ⟨a, -, hl⟩ := bind_eq_ok.mp hl
    exact h.emit rfl hl
  | binary op lhs rhs =>
    obtain ⟨a, -, hl⟩ := bind_eq_ok.mp hl
    obtain ⟨b, -, hl⟩ := bind_eq_ok.mp hl
    exact h.emit rfl hl
  | power base exponent =>
    obtain ⟨b, -, hl⟩ := bind_eq_ok.mp hl
    refine Tiled.emit ?_ rfl hl
    rw [Tiled, Instruction.ranges_push]
    exact (List.append_nil _).symm ▸ h
  | sum terms =>
    obtain ⟨slots, hslots, hl⟩ := bind_eq_ok.mp hl
    have hlength : terms.length = slots.length := (forall₂_of_mapM hslots).length_eq
    obtain ⟨hcode, htable⟩ := emit_eq_ok hl
    rw [Tiled, hcode, htable, Instruction.ranges_push]
    exact Tiles.append h ⟨rfl, by simp [Tiles, hlength]⟩

theorem Tiled.foldlM_place {order : List Nat} (h : l.Tiled)
    (hl : order.foldlM (Layout.place g) l = .ok l') : l'.Tiled := by
  induction order generalizing l with
  | nil => exact Except.ok.inj hl ▸ h
  | cons i order ih =>
    obtain ⟨l₁, hl₁, hl⟩ := bind_eq_ok.mp hl
    exact ih (h.place hl₁) hl

variable {leaves : Nat} {bound : Nat → Option Nat} {order : List Nat} {root : Nat}

theorem mem_blockAt {s : Nat} :
    s ∈ l.blockAt g i ↔ ∃ node, g.nodes[i]? = some node ∧ s ∈ node.block (l.slot i) := by
  unfold blockAt
  cases g.nodes[i]? with
  | none => simp
  | some node => simp

/-- Every slot after the leaves belongs to the layout of a node. -/
theorem Covers.block_of_slot (h : l.Covers g leaves bound order) {s : Nat} (hle : leaves ≤ s)
    (hlt : s < l.code.size) :
    ∃ i ∈ order, ∃ node, g.nodes[i]? = some node ∧ s ∈ node.block (l.slot i) ∧
      node.LaidAt l.code l.operands l.slot (l.slot i) := by
  have hmem : s ∈ order.flatMap (l.blockAt g) := by
    rw [h.blocks, List.mem_range'_1]
    omega
  obtain ⟨i, hi, hs⟩ := List.mem_flatMap.mp hmem
  obtain ⟨node, hn, hs⟩ := mem_blockAt.mp hs
  obtain ⟨node', s', hn', -, hs', hl⟩ := h.laid i hi
  obtain rfl := Option.some.inj (hn.symm.trans hn')
  obtain rfl := slot_eq hs'
  exact ⟨i, hi, node, hn, hs, hl⟩

theorem Covers.block_unique (h : l.Covers g leaves bound order) {j : Nat} (hi : i ∈ order)
    (hj : j ∈ order) {s : Nat} (hs : s ∈ l.blockAt g i) (hs' : s ∈ l.blockAt g j) : i = j := by
  have hnodup : (order.flatMap (l.blockAt g)).Nodup := h.blocks ▸ List.nodup_range'
  have hpair := (List.nodup_flatMap.mp hnodup).2
  have : Std.Symm (Function.onFun List.Disjoint (l.blockAt g)) := ⟨fun _ _ hd => hd.symm⟩
  by_contra hne
  exact hpair.forall hi hj hne hs hs'

theorem length_blocks (l : Layout α) (g : Graph α) (order : List Nat) :
    (order.flatMap (l.blockAt g)).length = (g.nodesAt order).countP (!·.isVariable) +
      (g.nodesAt order).countP (·.isPower) := by
  induction order with
  | nil => rfl
  | cons i order ih =>
    rw [List.flatMap_cons, List.length_append, ih]
    cases hn : g.nodes[i]? with
    | none => simp [blockAt, Graph.nodesAt, hn]
    | some node =>
      have hblock : l.blockAt g i = node.block (l.slot i) := by simp only [blockAt, hn]
      have hnodes : g.nodesAt (i :: order) = node :: g.nodesAt order :=
        List.filterMap_cons_some hn
      rw [hnodes, hblock, node.length_block, List.countP_cons, List.countP_cons]
      cases node.isVariable <;> cases node.isPower <;> simp <;> omega

theorem Covers.size_eq (h : l.Covers g leaves bound order) :
    l.code.size = leaves + (g.nodesAt order).countP (!·.isVariable) +
      (g.nodesAt order).countP (·.isPower) := by
  have hlength := l.length_blocks g order
  have hle := h.leaves_le
  rw [h.blocks, List.length_range'] at hlength
  omega

end Layout

namespace Tape

/-- The operand slots of an instruction, with those that a sum has in the table. -/
def reads (t : Tape α) : Instruction α → List Nat
  | .input | .constant _ => []
  | .unary _ arg => [arg]
  | .binary _ lhs rhs => [lhs, rhs]
  | .power base exponent => [base, exponent]
  | .sum offset count => (t.operands.extract offset (offset + count)).toList

/-- The inputs come first, every operation comes after all its operands, and the sums have the operand
table divided among them. -/
structure WellShaped (t : Tape α) : Prop where
  inputs_iff : ∀ s, t.code[s]? = some .input ↔ s < t.inputs + t.params
  reads_lt : ∀ s instruction, t.code[s]? = some instruction → ∀ r ∈ t.reads instruction, r < s
  exponents : ∀ (s base k : Nat), t.code[s]? = some (.power base k) →
    ∃ c : α, t.code[k]? = some (.constant c)
  tiles : Tiles 0 (Instruction.ranges t.code) t.operands.size
  output_lt : t.output < t.size

/-- Where the nodes below a root stand in a tape: each of them once, with its own slots, and nothing
else after the leaves. -/
structure Flattens (t : Tape α) (g : Graph α) (root : Expr) (vars params : List Var)
    (order : List Nat) (slot : Nat → Nat) : Prop where
  nodup : order.Nodup
  mem_iff : ∀ i, i ∈ order ↔ g.Reaches root.index i
  inputs_eq : t.inputs = vars.length
  params_eq : t.params = params.length
  bound : ∀ (k : Nat) (x : Var), (vars ++ params)[k]? = some x → slot x.expr.index = k
  laid : ∀ i ∈ order, ∃ node, g.nodes[i]? = some node ∧
    node.LaidAt t.code t.operands slot (slot i)
  injective : ∀ i ∈ order, ∀ j ∈ order, slot i = slot j → i = j
  origin : ∀ s, t.inputs + t.params ≤ s → s < t.size → ∃! i, i ∈ order ∧
    ∃ node, g.nodes[i]? = some node ∧ s ∈ node.block (slot i)
  exponents : ∀ (s base k : Nat), t.code[s]? = some (.power base k) → ∃ i ∈ order, ∃ e exponent,
    g.nodes[i]? = some (.power e exponent) ∧ slot i = s ∧ slot e.index = base ∧
      t.code[k]? = some (.constant exponent)
  output : t.output = slot root.index
  size_eq : t.size = t.inputs + t.params + (g.nodesAt order).countP (!·.isVariable) +
    (g.nodesAt order).countP (·.isPower)

namespace Renders

variable {t : Tape α} {g : Graph α} {root : Expr} {order : List Nat} {vars params : List Var}
  {l : Layout α}

theorem slot_origin (h : t.Renders g root order vars params l) {s : Nat}
    (hle : t.inputs + t.params ≤ s) (hlt : s < t.size) :
    ∃ i ∈ order, ∃ node, g.nodes[i]? = some node ∧ s ∈ node.block (l.slot i) ∧
      node.LaidAt t.code t.operands l.slot (l.slot i) := by
  rw [h.code, h.operands]
  rw [h.inputs, h.params] at hle
  rw [size, h.code] at hlt
  exact h.covers.block_of_slot hle hlt

theorem input (h : t.Renders g root order vars params l) {s : Nat} (hs : s < t.inputs + t.params) :
    t.code[s]? = some .input := by
  rw [h.code]
  rw [h.inputs, h.params] at hs
  exact h.covers.inputs s hs

theorem emits (h : t.Renders g root order vars params l) {s : Nat} {instruction : Instruction α}
    (hs : t.code[s]? = some instruction) (hle : t.inputs + t.params ≤ s) :
    ∃ i ∈ order, ∃ node, g.nodes[i]? = some node ∧ s ∈ node.block (l.slot i) ∧
      node.Emits t.code t.operands l.slot (l.slot i) s instruction := by
  obtain ⟨i, hi, node, hn, hblock, hl⟩ :=
    h.slot_origin hle (Array.getElem?_eq_some_iff.mp hs).1
  exact ⟨i, hi, node, hn, hblock, hl.emits hblock hs⟩

theorem flattens (h : t.Renders g root order vars params l) :
    t.Flattens g root vars params order l.slot where
  nodup := h.ordered.sorted.imp fun hlt => Nat.ne_of_lt hlt
  mem_iff := h.ordered.mem_iff
  inputs_eq := h.inputs
  params_eq := h.params
  bound k x hx := by
    have hnode := h.binds.node_eq x (List.mem_of_getElem? hx)
    have hpos := position_of_nodup h.binds.nodup hx
    exact Layout.slot_eq ((h.covers.variables_at _ _ hnode).trans hpos)
  laid i hi := by
    obtain ⟨node, s, hn, -, hs, hl⟩ := h.covers.laid i hi
    rw [h.code, h.operands, Layout.slot_eq hs]
    exact ⟨node, hn, hl⟩
  injective i hi j hj he :=
    h.covers.at_inj i j _ (h.covers.at_eq hi) (he ▸ h.covers.at_eq hj)
  origin s hle hlt := by
    obtain ⟨i, hi, node, hn, hblock, -⟩ := h.slot_origin hle hlt
    refine ⟨i, ⟨hi, node, hn, hblock⟩, ?_⟩
    rintro j ⟨hj, node', hn', hblock'⟩
    exact h.covers.block_unique hj hi (Layout.mem_blockAt.mpr ⟨node', hn', hblock'⟩)
      (Layout.mem_blockAt.mpr ⟨node, hn, hblock⟩)
  exponents s base k hs := by
    rcases Nat.lt_or_ge s (t.inputs + t.params) with hlt | hle
    · cases hs.symm.trans (h.input hlt)
    · obtain ⟨i, hi, node, hn, -, hemits⟩ := h.emits hs hle
      cases hemits with
      | power hop hk hc => exact ⟨i, hi, _, _, hop ▸ hn, rfl, rfl, hc⟩
  output := h.output
  size_eq := by
    rw [size, h.code, h.inputs, h.params]
    exact h.covers.size_eq

end Renders

namespace WellShaped

variable {t : Tape α}

/-- The ranges of the sums cover the operand table, each of its positions once. -/
theorem covered (h : t.WellShaped) :
    ((Instruction.ranges t.code).flatMap fun r => List.range' r.1 r.2) =
      List.range t.operands.size := by
  rw [h.tiles.flatMap_eq, Nat.sub_zero, List.range_eq_range']

theorem operand_lt (h : t.WellShaped) {r : Nat} (hr : r ∈ t.operands) : r < t.size := by
  obtain ⟨k, hk, rfl⟩ := Array.mem_iff_getElem.mp hr
  have hcovered : k ∈ (Instruction.ranges t.code).flatMap fun r => List.range' r.1 r.2 := by
    rw [h.covered]
    exact List.mem_range.mpr hk
  obtain ⟨⟨offset, count⟩, hrange, hmem⟩ := List.mem_flatMap.mp hcovered
  obtain ⟨instruction, hins, hsum⟩ := List.mem_filterMap.mp hrange
  obtain ⟨s, hs⟩ := Array.mem_iff_getElem?.mp (Array.mem_toList_iff.mp hins)
  cases instruction with
  | sum o c =>
    obtain ⟨rfl, rfl⟩ := Prod.mk.inj (Option.some.inj hsum)
    rw [List.mem_range'_1] at hmem
    have hread : t.operands[k] ∈ t.reads (.sum o c) := by
      refine Array.mem_toList_iff.mpr (Array.mem_extract_iff_getElem.mpr ⟨k - o, ?_, ?_⟩)
      · omega
      · simp only [Nat.add_sub_cancel' hmem.1]
    exact Nat.lt_trans (h.reads_lt s _ hs _ hread) (Array.getElem?_eq_some_iff.mp hs).1
  | _ => cases hsum

end WellShaped

end Tape

namespace Graph

variable {g : Graph α} {root : Expr} {vars params : List Var} {t : Tape α}

end Graph

end Autodiff
