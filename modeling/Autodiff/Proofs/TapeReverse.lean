import Autodiff.Proofs.TapeForward

namespace Autodiff

variable {α : Type} [Scalar α]

namespace Tape

variable {t : Tape α} {g : Graph α} {env : Nat → Option α} {root : Nat} {order : List Nat}
  {l : Layout α} {inputs : List α} {bound : Nat → Option Nat}

/-- What the operands of a slot gain is what those of its node gain, at their slots. -/
theorem shares_eq {node : Node α} {σ : Nat → Nat} {s : Nat} {v : Nat → α} {r a : α}
    {values : Array α} (hl : node.LaidAt t.code t.operands σ s)
    (hconst : ∀ (k : Nat) (c : α), t.code[k]? = some (.constant c) → values[k]? = some c)
    (hv : ∀ e ∈ node.operands, values[σ e.index]? = some (v e.index))
    (hr : values[s]? = some r) :
    (fetch t.code s >>= t.shares values s a) =
      .ok ((node.gains v r a).map fun p => (σ p.1, p.2)) := by
  cases node with
  | constant c =>
    simp only [fetch_eq_ok hl, ok_bind]
    rfl
  | «variable» id =>
    simp only [fetch_eq_ok hl, ok_bind]
    rfl
  | unary op arg =>
    have ha := fetch_eq_ok (α := α) (hv arg (by simp [Node.operands]))
    simp only [fetch_eq_ok hl, ok_bind, shares, ha, fetch_eq_ok hr]
    rfl
  | binary op lhs rhs =>
    have ha := fetch_eq_ok (α := α) (hv lhs (by simp [Node.operands]))
    have hb := fetch_eq_ok (α := α) (hv rhs (by simp [Node.operands]))
    simp only [fetch_eq_ok hl, ok_bind, shares, ha, hb]
    rfl
  | power base exponent =>
    obtain ⟨k, -, hexp, hpow⟩ := hl
    have ha := fetch_eq_ok (α := α) (hv base (by simp [Node.operands]))
    have hb := fetch_eq_ok (α := α) (hconst k exponent hexp)
    simp only [fetch_eq_ok hpow, ok_bind, shares, ha, hb]
    rfl
  | sum terms =>
    obtain ⟨offset, hsum, hle, hslots⟩ := hl
    simp only [fetch_eq_ok hsum, ok_bind, shares, summands_eq hle hslots, Node.gains, List.map_map]
    rfl

/-- The adjoints of slots are those of the nodes that have the slots. -/
def Tracks (l : Layout α) (size : Nat) (adjoints : Array α) (f : Nat → α) : Prop :=
  adjoints.size = size ∧ ∃ F, Mirrors adjoints F ∧ ∀ i s, l.slots.at i = some s → F s = f i

/-- Crediting nodes is crediting their slots, since no two nodes share a slot. -/
theorem creditAll_slots {F f : Nat → α}
    (hinj : ∀ i j s, l.slots.at i = some s → l.slots.at j = some s → i = j)
    (shares : List (Nat × α)) (hat : ∀ p ∈ shares, l.slots.at p.1 = some (l.slot p.1))
    (h : ∀ i s, l.slots.at i = some s → F s = f i) :
    ∀ i s, l.slots.at i = some s →
      creditAll F (shares.map fun p => (l.slot p.1, p.2)) s = creditAll f shares i := by
  induction shares generalizing F f with
  | nil => exact h
  | cons p shares ih =>
    refine ih (fun q hq => hat q (by simp [hq])) fun i s hs => ?_
    have hp := hat p (by simp)
    by_cases hip : i = p.1
    · subst hip
      have hsp : s = l.slot p.1 := Option.some.inj (hs.symm.trans hp)
      simp only [credit, if_pos hsp, ↓reduceIte, h p.1 s hs]
    · have hsp : s ≠ l.slot p.1 := fun he => hip (hinj i p.1 s hs (he ▸ hp))
      simp only [credit, if_neg hsp, if_neg hip, h i s hs]

theorem reverseStep_leaf {s : Nat} {x : Instruction α} (hx : t.code[s]? = some x)
    (hleaf : x = .input ∨ ∃ c, x = .constant c) (values : Array α) {adjoints : Array α}
    (hlt : s < adjoints.size) : t.reverseStep values adjoints s = .ok adjoints := by
  have ha : fetch (α := α) adjoints s = .ok adjoints[s] :=
    fetch_eq_ok (Array.getElem?_eq_getElem hlt)
  simp only [reverseStep, ha, ok_bind]
  split
  next => rfl
  next => rcases hleaf with rfl | ⟨c, rfl⟩ <;> (rw [fetch_eq_ok hx, ok_bind]; rfl)

/-- The reverse step at the slot of a node passes on the adjoint of the node. -/
theorem reverseStep_tracks (hc : l.Covers g inputs.length bound order)
    (hcode : t.code = l.code) (htable : t.operands = l.operands) {values : Array α}
    (hseed : t.Seeded inputs values)
    (hhold : ∀ i ∈ order, values[l.slot i]? = some (g.valueAt env i)) {i : Nat} (hi : i ∈ order)
    {adjoints : Array α} {f : Nat → α} (h : Tracks l t.size adjoints f) :
    ∃ adjoints', t.reverseStep values adjoints (l.slot i) = .ok adjoints' ∧
      Tracks l t.size adjoints' (g.passOn env f i) := by
  obtain ⟨hsize, F, hm, hF⟩ := h
  obtain ⟨node, s, hn, hops, hs, hl⟩ := hc.laid i hi
  have hslot : l.slot i = s := Layout.slot_eq hs
  have hslt := hc.at_lt i s hs
  rw [← hcode, ← size] at hslt
  have hadj : fetch (α := α) adjoints s = .ok (f i) := by
    rw [← hF i s hs]
    exact fetch_eq_ok (hm s (by omega))
  rw [hslot, Graph.passOn_node hn]
  by_cases hzero : (f i == 0) = true
  · refine ⟨adjoints, ?_, ?_⟩
    · simp only [reverseStep, hadj, ok_bind, if_pos hzero]
      rfl
    · rw [if_pos hzero]
      exact ⟨hsize, F, hm, hF⟩
  · have hval := hhold i hi
    rw [hslot] at hval
    have hv : ∀ e ∈ node.operands, values[l.slot e.index]? = some (g.valueAt env e.index) :=
      fun e he => hhold _ (hops e he)
    have hshares := shares_eq (a := f i) (by rwa [hcode, htable]) hseed.constants hv hval
    have hat : ∀ p ∈ node.gains (g.valueAt env) (g.valueAt env i) (f i),
        l.slots.at p.1 = some (l.slot p.1) := by
      intro p hp
      obtain ⟨e, he, heq⟩ := Node.gains_operand hp
      exact heq ▸ hc.at_eq (hops e he)
    have hlt : ∀ p ∈ (node.gains (g.valueAt env) (g.valueAt env i) (f i)).map
        fun p => (l.slot p.1, p.2), p.1 < adjoints.size := by
      intro p hp
      obtain ⟨q, hq, rfl⟩ := List.mem_map.mp hp
      have := hc.at_lt _ _ (hat q hq)
      rw [hsize, size, hcode]
      exact this
    obtain ⟨adjoints', hacc, hsize', hm'⟩ := accumulateAll_mirrors hm hlt
    refine ⟨adjoints', ?_, ?_⟩
    · simp only [reverseStep, hadj, ok_bind, if_neg hzero]
      have hassoc : (do
          let shares ← t.shares values s (f i) (← fetch t.code s)
          accumulateAll adjoints shares) =
          (fetch t.code s >>= t.shares values s (f i)) >>= accumulateAll adjoints := by
        cases fetch (α := α) t.code s <;> rfl
      exact hassoc.trans (by rw [hshares, ok_bind, hacc])
    · rw [if_neg hzero]
      exact ⟨hsize'.trans hsize, _, hm', creditAll_slots hc.at_inj _ hat hF⟩

theorem foldlM_block_tracks (hc : l.Covers g inputs.length bound order) (hcode : t.code = l.code)
    (htable : t.operands = l.operands) {values : Array α} (hseed : t.Seeded inputs values)
    (hhold : ∀ i ∈ order, values[l.slot i]? = some (g.valueAt env i)) {i : Nat} (hi : i ∈ order)
    {adjoints : Array α} {f : Nat → α} (h : Tracks l t.size adjoints f) :
    ∃ adjoints', (l.blockAt g i).reverse.foldlM (t.reverseStep values) adjoints = .ok adjoints' ∧
      Tracks l t.size adjoints' (g.passOn env f i) := by
  obtain ⟨adjoints', hstep, htracks⟩ := reverseStep_tracks hc hcode htable hseed hhold hi h
  obtain ⟨node, s, hn, -, hs, hl⟩ := hc.laid i hi
  rw [Layout.slot_eq hs] at hstep
  have hblock : l.blockAt g i = node.block s := by
    simp only [Layout.blockAt, hn, Layout.slot_eq hs]
  have hone : [s].foldlM (t.reverseStep values) adjoints = .ok adjoints' := by
    rw [List.foldlM_cons, hstep]
    rfl
  rw [hblock]
  cases node with
  | «variable» id =>
    refine ⟨adjoints, rfl, ?_⟩
    rw [Graph.passOn_node hn]
    exact (ite_self (c := (f i == 0) = true) f).symm ▸ h
  | power base exponent =>
    obtain ⟨k, rfl, hexp, -⟩ := hl
    have hlt : k < adjoints'.size := by
      rw [htracks.1, size, hcode]
      exact (Array.getElem?_eq_some_iff.mp hexp).1
    have hleaf := reverseStep_leaf (hcode.symm ▸ hexp) (Or.inr ⟨_, rfl⟩) values hlt
    refine ⟨adjoints', ?_, htracks⟩
    show [k + 1, k].foldlM (t.reverseStep values) adjoints = _
    rw [List.foldlM_cons, hstep, ok_bind, List.foldlM_cons, hleaf]
    rfl
  | constant c => exact ⟨adjoints', hone, htracks⟩
  | unary op arg => exact ⟨adjoints', hone, htracks⟩
  | binary op lhs rhs => exact ⟨adjoints', hone, htracks⟩
  | sum terms => exact ⟨adjoints', hone, htracks⟩

theorem foldlM_blocks_tracks (hc : l.Covers g inputs.length bound order) (hcode : t.code = l.code)
    (htable : t.operands = l.operands) {values : Array α} (hseed : t.Seeded inputs values)
    (hhold : ∀ i ∈ order, values[l.slot i]? = some (g.valueAt env i)) (todo : List Nat)
    (hmem : ∀ i ∈ todo, i ∈ order) {adjoints : Array α} {f : Nat → α}
    (h : Tracks l t.size adjoints f) :
    ∃ adjoints',
      (todo.flatMap fun i => (l.blockAt g i).reverse).foldlM (t.reverseStep values) adjoints =
        .ok adjoints' ∧ Tracks l t.size adjoints' (todo.foldl (g.passOn env) f) := by
  induction todo generalizing adjoints f with
  | nil => exact ⟨adjoints, rfl, h⟩
  | cons i todo ih =>
    obtain ⟨adjoints', hrun, h'⟩ :=
      foldlM_block_tracks hc hcode htable hseed hhold (hmem i (by simp)) h
    obtain ⟨adjoints'', hrun', h''⟩ := ih (fun j hj => hmem j (by simp [hj])) h'
    refine ⟨adjoints'', ?_, h''⟩
    rw [List.flatMap_cons, List.foldlM_append, hrun, ok_bind, hrun']

theorem foldlM_leaves {ks : List Nat} {values adjoints : Array α}
    (h : ∀ k ∈ ks, t.code[k]? = some .input) (hsize : adjoints.size = t.size) :
    ks.foldlM (t.reverseStep values) adjoints = .ok adjoints := by
  induction ks with
  | nil => rfl
  | cons k ks ih =>
    have hk := h k (by simp)
    have hlt : k < adjoints.size := hsize ▸ (Array.getElem?_eq_some_iff.mp hk).1
    rw [List.foldlM_cons, reverseStep_leaf hk (Or.inl rfl) values hlt, ok_bind]
    exact ih fun k' hk' => h k' (by simp [hk'])

/-- The reverse run of a tape leaves the adjoints of the nodes in their slots. -/
theorem reverse_spec (ho : g.Ordered root order) (hc : l.Covers g inputs.length bound order)
    (hcode : t.code = l.code) (htable : t.operands = l.operands) (hout : t.output = l.slot root)
    {values : Array α} (hseed : t.Seeded inputs values)
    (hhold : ∀ i ∈ order, values[l.slot i]? = some (g.valueAt env i)) (buffer : Array α) :
    ∃ adjoints, t.reverse values buffer = .ok adjoints ∧
      Tracks l t.size adjoints (g.adjoints env root order) := by
  have hroot := hc.at_eq ho.root_mem
  have houtlt : t.output < t.size := by
    rw [hout, size, hcode]
    exact hc.at_lt root _ hroot
  have hzeros : buffer.shrink 0 ++ List.replicate t.size (0 : α) = Array.replicate t.size 0 :=
    Array.ext' (by simp)
  have hstart : Tracks l t.size ((Array.replicate t.size (0 : α)).setIfInBounds t.output 1)
      fun i => if i = root then 1 else 0 := by
    refine ⟨by simp, _, Sweep.mirrors_start houtlt, fun i s hs => ?_⟩
    by_cases hi : i = root
    · subst hi
      have hso : s = t.output := by rw [hout, Option.some.inj (hs.symm.trans hroot)]
      simp [hso]
    · have hso : s ≠ t.output := by
        intro he
        exact hi (hc.at_inj i root s hs (by rw [he, hout]; exact hroot))
      simp [hso, hi]
  have hle : inputs.length ≤ t.size := by
    rw [size, hcode]
    exact hc.leaves_le
  have hslots : (List.range t.size).reverse =
      (order.reverse.flatMap fun i => (l.blockAt g i).reverse) ++
        (List.range inputs.length).reverse := by
    have hsplit : List.range t.size = List.range inputs.length ++ order.flatMap (l.blockAt g) := by
      have hsum : t.size = inputs.length + (t.size - inputs.length) := by omega
      rw [hc.blocks, ← hcode, ← size, hsum, List.range_eq_range', List.range_eq_range',
        ← List.range'_append_1]
      simp
    rw [hsplit, List.reverse_append, List.reverse_flatMap]
    rfl
  obtain ⟨adjoints, hrun, htracks⟩ := foldlM_blocks_tracks hc hcode htable hseed hhold
    order.reverse (fun i hi => List.mem_reverse.mp hi) hstart
  refine ⟨adjoints, ?_, htracks⟩
  have hleaves : ∀ k ∈ (List.range inputs.length).reverse, t.code[k]? = some .input := by
    intro k hk
    rw [List.mem_reverse, List.mem_range] at hk
    exact (hseed.inputs k hk).1
  rw [reverse, hzeros, store_eq_ok (by simpa using houtlt), ok_bind, hslots, List.foldlM_append,
    hrun, ok_bind, foldlM_leaves hleaves htracks.1]

end Tape

end Autodiff
