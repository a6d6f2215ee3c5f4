import Autodiff.Proofs.Meaning

namespace Autodiff

/-- What accumulating from zero relies on. It asks less than that zero is neutral, since in rounded
arithmetic adding zero turns negative zero into zero. -/
class SumsFromZero (α : Type) [Scalar α] : Prop where
  zero_add_zero : (0 : α) + 0 = 0
  zero_add_one : (0 : α) + 1 = 1
  zero_add_add (a b : α) : 0 + (a + b) = 0 + a + b
  zero_add_of_beq (a : α) : (a == 0) = true → 0 + a = 0

variable {α : Type} [Scalar α]

/-- Zero is neutral, and nothing else compares equal to it. -/
theorem SumsFromZero.of_zero_add (hz : ∀ a : α, 0 + a = a)
    (he : ∀ a : α, (a == 0) = true → a = 0) : SumsFromZero α where
  zero_add_zero := hz 0
  zero_add_one := hz 1
  zero_add_add a b := by rw [hz, hz]
  zero_add_of_beq a h := by rw [hz, he a h]

/-- Adds to the value of a function at one place. -/
def credit (f : Nat → α) (i : Nat) (x : α) : Nat → α := fun j => if j = i then f j + x else f j

/-- Adds a list of amounts, each at its place, in order. -/
def creditAll (f : Nat → α) (shares : List (Nat × α)) : Nat → α :=
  shares.foldl (fun f s => credit f s.1 s.2) f

theorem creditAll_cons (f : Nat → α) (s : Nat × α) (shares : List (Nat × α)) :
    creditAll f (s :: shares) = creditAll (credit f s.1 s.2) shares := rfl

theorem creditAll_of_notMem {f : Nat → α} {shares : List (Nat × α)} {j : Nat}
    (h : ∀ s ∈ shares, s.1 ≠ j) : creditAll f shares j = f j := by
  induction shares generalizing f with
  | nil => rfl
  | cons s shares ih =>
    rw [creditAll_cons, ih fun s' hs' => h s' (by simp [hs'])]
    exact if_neg (h s (by simp)).symm

/-- The entries of an array are the values of a function. -/
def Mirrors (xs : Array α) (f : Nat → α) : Prop := ∀ i < xs.size, xs[i]? = some (f i)

theorem accumulate_mirrors {xs : Array α} {f : Nat → α} (h : Mirrors xs f) {i : Nat}
    (hi : i < xs.size) (x : α) :
    ∃ ys, accumulate xs i x = .ok ys ∧ ys.size = xs.size ∧ Mirrors ys (credit f i x) := by
  refine ⟨xs.setIfInBounds i (f i + x), ?_, by simp, fun j hj => ?_⟩
  · rw [accumulate, fetch_eq_ok (h i hi), ok_bind, store_eq_ok hi]
  · rw [Array.size_setIfInBounds] at hj
    rw [Array.getElem?_setIfInBounds]
    by_cases hij : i = j
    · subst hij
      simp [credit, hi]
    · rw [if_neg hij, h j hj, credit, if_neg fun he => hij he.symm]

theorem accumulateAll_mirrors {shares : List (Nat × α)} {xs : Array α} {f : Nat → α}
    (h : Mirrors xs f) (hlt : ∀ s ∈ shares, s.1 < xs.size) :
    ∃ ys, accumulateAll xs shares = .ok ys ∧ ys.size = xs.size ∧
      Mirrors ys (creditAll f shares) := by
  induction shares generalizing xs f with
  | nil => exact ⟨xs, rfl, rfl, h⟩
  | cons s shares ih =>
    obtain ⟨ys, hys, hsize, hm⟩ := accumulate_mirrors h (hlt s (by simp)) s.2
    obtain ⟨zs, hzs, hsize', hm'⟩ := ih hm fun s' hs' => by
      rw [hsize]
      exact hlt s' (by simp [hs'])
    refine ⟨zs, ?_, by omega, hm'⟩
    rw [accumulateAll, List.foldlM_cons, hys, ok_bind]
    exact hzs

namespace Node

/-- What the operands of a node gain from its adjoint `a`, where `r` is the value of the node. -/
def gains (v : Nat → α) (r a : α) : Node α → List (Nat × α)
  | .constant _ | .variable _ => []
  | .unary op arg => [(arg.index, op.slope (v arg.index) r * a)]
  | .binary op lhs rhs =>
    [(lhs.index, (op.slopes (v lhs.index) (v rhs.index)).1 * a),
      (rhs.index, (op.slopes (v lhs.index) (v rhs.index)).2 * a)]
  | .power base exponent => [(base.index, powerSlope (v base.index) exponent * a)]
  | .sum terms => terms.map fun t => (t.index, a)

theorem gains_places (v : Nat → α) (r a : α) (node : Node α) :
    (node.gains v r a).map Prod.fst = node.operands.map Expr.index := by
  cases node with
  | sum terms => simp [gains, operands]
  | _ => rfl

theorem gains_operand {v : Nat → α} {r a : α} {node : Node α} {s : Nat × α}
    (hs : s ∈ node.gains v r a) : ∃ e ∈ node.operands, e.index = s.1 := by
  have hm : s.1 ∈ (node.gains v r a).map Prod.fst := List.mem_map_of_mem hs
  rw [gains_places] at hm
  exact List.mem_map.mp hm

theorem shares_eq_gains {values : Array α} {v : Nat → α} {r a : α} {node : Node α}
    (hv : ∀ e ∈ node.operands, values[e.index]? = some (v e.index)) :
    node.shares values r a = .ok (node.gains v r a) := by
  cases node with
  | unary op arg =>
    have hf := fetch_eq_ok (α := α) (hv arg (by simp [operands]))
    simp only [shares, hf, ok_bind]
    rfl
  | binary op lhs rhs =>
    have hl := fetch_eq_ok (α := α) (hv lhs (by simp [operands]))
    have hr := fetch_eq_ok (α := α) (hv rhs (by simp [operands]))
    simp only [shares, hl, hr, ok_bind]
    rfl
  | power base exponent =>
    have hf := fetch_eq_ok (α := α) (hv base (by simp [operands]))
    simp only [shares, hf, ok_bind]
    rfl
  | _ => rfl

end Node

namespace Graph

/-- Passes the adjoint of one node on to its operands; a zero adjoint passes nothing on. -/
def passOn (g : Graph α) (env : Nat → Option α) (f : Nat → α) (i : Nat) : Nat → α :=
  if f i == 0 then f
  else
    match g.nodes[i]? with
    | some node => creditAll f (node.gains (g.valueAt env) (g.valueAt env i) (f i))
    | none => f

/-- The adjoint of every node when all listed nodes have passed theirs on, the last one first. -/
def adjoints (g : Graph α) (env : Nat → Option α) (root : Nat) (order : List Nat) : Nat → α :=
  order.reverse.foldl (g.passOn env) fun i => if i = root then 1 else 0

variable {g : Graph α} {env : Nat → Option α}

theorem passOn_node {f : Nat → α} {i : Nat} {node : Node α} (hn : g.nodes[i]? = some node) :
    g.passOn env f i = if f i == 0 then f
      else creditAll f (node.gains (g.valueAt env) (g.valueAt env i) (f i)) := by
  simp only [passOn, hn]

theorem passOn_of_notMem {f : Nat → α} {i j : Nat}
    (h : ∀ node, g.nodes[i]? = some node → ∀ e ∈ node.operands, e.index ≠ j) :
    g.passOn env f i j = f j := by
  cases hn : g.nodes[i]? with
  | none => simp only [passOn, hn, ite_self]
  | some node =>
    rw [passOn_node hn]
    split
    next => rfl
    next =>
      refine creditAll_of_notMem fun s hs => ?_
      obtain ⟨e, he, heq⟩ := Node.gains_operand hs
      exact heq ▸ h node hn e he

/-- Adjoints of nodes that are no operands of the nodes treated stay. -/
theorem foldl_passOn_of_notMem (todo : List Nat) {f : Nat → α} {j : Nat}
    (h : ∀ i ∈ todo, ∀ node, g.nodes[i]? = some node → ∀ e ∈ node.operands, e.index ≠ j) :
    todo.foldl (g.passOn env) f j = f j := by
  induction todo generalizing f with
  | nil => rfl
  | cons i todo ih =>
    rw [List.foldl_cons, ih fun i' hi' => h i' (by simp [hi'])]
    exact passOn_of_notMem (h i (by simp))

/-- An adjoint that adding zero to does not change. -/
def Settled (f : Nat → α) : Prop := ∀ i, 0 + f i = f i

theorem settled_creditAll [SumsFromZero α] {f : Nat → α} (hf : Settled f)
    (shares : List (Nat × α)) : Settled (creditAll f shares) := by
  induction shares generalizing f with
  | nil => exact hf
  | cons s shares ih =>
    refine ih fun j => ?_
    show 0 + credit f s.1 s.2 j = credit f s.1 s.2 j
    unfold credit
    split
    next => rw [SumsFromZero.zero_add_add, hf j]
    next => exact hf j

theorem settled_adjoints [SumsFromZero α] (g : Graph α) (env : Nat → Option α) (root : Nat)
    (order : List Nat) :
    Settled (g.adjoints env root order) := by
  have hstart : Settled fun i : Nat => if i = root then (1 : α) else 0 := by
    intro i
    dsimp only
    split
    next => exact SumsFromZero.zero_add_one
    next => exact SumsFromZero.zero_add_zero
  have hfold : ∀ (todo : List Nat) (f : Nat → α), Settled f →
      Settled (todo.foldl (g.passOn env) f) := by
    intro todo
    induction todo with
    | nil => exact fun f hf => hf
    | cons i todo ih =>
      intro f hf
      refine ih _ ?_
      cases hn : g.nodes[i]? with
      | none => simpa only [passOn, hn, ite_self] using hf
      | some node =>
        rw [passOn_node hn]
        split
        next => exact hf
        next => exact settled_creditAll hf _
  exact hfold _ _ hstart

/-- Nodes that the root does not reach have no adjoint. -/
theorem adjoints_of_notMem {root : Nat} {order : List Nat} (ho : g.Ordered root order) {j : Nat}
    (hj : j ∉ order) : g.adjoints env root order j = 0 := by
  have hne : j ≠ root := fun he => hj (he ▸ ho.root_mem)
  rw [adjoints, foldl_passOn_of_notMem]
  · exact if_neg hne
  · intro i hi node hn e he heq
    exact hj (heq ▸ ho.operand_mem (List.mem_reverse.mp hi) hn he)

end Graph

namespace Sweep

variable {g : Graph α} {vars : List Var} {point : List α} {s : Sweep α}

theorem reverseStep_operation (hc : s.Complete g vars point) {i : Nat} (hi : i ∈ s.order)
    {node : Node α} (hn : g.nodes[i]? = some node) (hnv : ∀ id, node ≠ .variable id)
    {adjoints : Adjoints α} {f : Nat → α} (hsize : adjoints.nodes.size = s.root.index + 1)
    (hm : Mirrors adjoints.nodes f) :
    ∃ nodes, reverseStep g s adjoints i = .ok ⟨adjoints.gradient, nodes⟩ ∧
      nodes.size = s.root.index + 1 ∧ Mirrors nodes (g.passOn (assignment vars point) f i) := by
  let env := assignment vars point
  have hle := hc.ordered.le_root hi
  have hadj : fetch (α := α) adjoints.nodes i = .ok (f i) := fetch_eq_ok (hm i (by omega))
  by_cases hzero : (f i == 0) = true
  · refine ⟨adjoints.nodes, ?_, hsize, ?_⟩
    · simp only [reverseStep, hadj, ok_bind, if_pos hzero]
      rfl
    · rw [Graph.passOn_node hn, if_pos hzero]
      exact hm
  · have hval : fetch (α := α) s.values i = .ok (g.valueAt env i) :=
      fetch_eq_ok (hc.values_hold i hi)
    have hops : ∀ e ∈ node.operands, s.values[e.index]? = some (g.valueAt env e.index) :=
      fun e he => hc.values_hold _ (hc.ordered.operand_mem hi hn he)
    have hshares := Node.shares_eq_gains (r := g.valueAt env i) (a := f i) hops
    have hplaces : ∀ s' ∈ node.gains (g.valueAt env) (g.valueAt env i) (f i),
        s'.1 < adjoints.nodes.size := by
      intro s' hs'
      obtain ⟨e, he, heq⟩ := Node.gains_operand hs'
      have := hc.ordered.operand_lt hi hn he
      omega
    obtain ⟨nodes, hnodes, hsize', hm'⟩ := accumulateAll_mirrors hm hplaces
    refine ⟨nodes, ?_, by omega, ?_⟩
    · simp only [reverseStep, hadj, ok_bind, if_neg hzero, fetch_eq_ok hn]
      cases node with
      | «variable» id => exact absurd rfl (hnv id)
      | _ => simp only [hval, ok_bind, hshares, hnodes]; rfl
    · rw [Graph.passOn_node hn, if_neg hzero]
      exact hm'

theorem reverseStep_variable (hc : s.Complete g vars point) {i : Nat} (hi : i ∈ s.order)
    {id : VarId} (hn : g.nodes[i]? = some (.variable id)) {k : Nat}
    (hk : position vars i = some k) {adjoints : Adjoints α} {f γ : Nat → α}
    (hsize : adjoints.nodes.size = s.root.index + 1) (hm : Mirrors adjoints.nodes f)
    (hcount : adjoints.gradient.size = vars.length) (hg : Mirrors adjoints.gradient γ) :
    ∃ gradient, reverseStep g s adjoints i = .ok ⟨gradient, adjoints.nodes⟩ ∧
      gradient.size = vars.length ∧
      Mirrors gradient (if f i == 0 then γ else credit γ k (f i)) := by
  have hle := hc.ordered.le_root hi
  have hadj : fetch (α := α) adjoints.nodes i = .ok (f i) := fetch_eq_ok (hm i (by omega))
  by_cases hzero : (f i == 0) = true
  · refine ⟨adjoints.gradient, ?_, hcount, ?_⟩
    · simp only [reverseStep, hadj, ok_bind, if_pos hzero]
      rfl
    · rw [if_pos hzero]
      exact hg
  · have hslot : s.slots[i]? = some (some k) := by
      have hat := hc.slots_at i
      rw [hk] at hat
      exact Option.join_eq_some_iff.mp hat
    have hlt : k < adjoints.gradient.size := hcount ▸ position_lt hk
    obtain ⟨gradient, hgr, hsize', hm'⟩ := accumulate_mirrors hg hlt (f i)
    refine ⟨gradient, ?_, by omega, ?_⟩
    · simp only [reverseStep, hadj, ok_bind, if_neg hzero, fetch_eq_ok hn, fetch_eq_ok hslot, hgr]
      rfl
    · rw [if_neg hzero]
      exact hm'

/-- The reverse sweep leaves in the gradient, for every variable it met, the final adjoint of its
node added to what was there. -/
theorem foldlM_reverseStep (hc : s.Complete g vars point) (todo : List Nat)
    (hmem : ∀ i ∈ todo, i ∈ s.order) (hdesc : todo.Pairwise (· > ·)) (adjoints : Adjoints α)
    {f γ : Nat → α} (hsize : adjoints.nodes.size = s.root.index + 1)
    (hm : Mirrors adjoints.nodes f) (hcount : adjoints.gradient.size = vars.length)
    (hg : Mirrors adjoints.gradient γ) :
    ∃ adjoints' γ', todo.foldlM (reverseStep g s) adjoints = .ok adjoints' ∧
      adjoints'.gradient.size = vars.length ∧ Mirrors adjoints'.gradient γ' ∧
      ∀ i k, position vars i = some k →
        γ' k = if i ∈ todo ∧ (todo.foldl (g.passOn (assignment vars point)) f i == 0) = false
          then γ k + todo.foldl (g.passOn (assignment vars point)) f i else γ k := by
  let env := assignment vars point
  induction todo generalizing adjoints f γ with
  | nil => exact ⟨adjoints, γ, rfl, hcount, hg, fun i k _ => by simp⟩
  | cons i todo ih =>
    have hi : i ∈ s.order := hmem i (by simp)
    obtain ⟨hbelow, hdesc'⟩ := List.pairwise_cons.mp hdesc
    have hmem' : ∀ j ∈ todo, j ∈ s.order := fun j hj => hmem j (by simp [hj])
    obtain ⟨node, hn⟩ := hc.ordered.node_exists hi
    have hown : ∀ j ∈ i :: todo, ∀ n, g.nodes[j]? = some n → ∀ e ∈ n.operands, e.index ≠ i := by
      intro j hj n hjn e he
      have hlt := hc.ordered.operand_lt (hmem j hj) hjn he
      rcases List.mem_cons.mp hj with rfl | hj
      · omega
      · have := hbelow j hj
        omega
    have hfinal : (i :: todo).foldl (g.passOn env) f i = f i :=
      Graph.foldl_passOn_of_notMem _ hown
    have hnot : i ∉ todo := fun h => Nat.lt_irrefl i (hbelow i h)
    by_cases hv : ∃ id, node = .variable id
    · obtain ⟨id, rfl⟩ := hv
      obtain ⟨k, hk⟩ := hc.position_exists hi hn
      obtain ⟨gradient, hstep, hcount', hg'⟩ :=
        reverseStep_variable hc hi hn hk hsize hm hcount hg
      have hpass : g.passOn env f i = f := by
        rw [Graph.passOn_node hn]
        exact ite_self f
      obtain ⟨adjoints', γ', hfold, hcount'', hg'', hval⟩ :=
        ih hmem' hdesc' ⟨gradient, adjoints.nodes⟩ hsize hm hcount' hg'
      refine ⟨adjoints', γ', ?_, hcount'', hg'', fun j l hl => ?_⟩
      · rw [List.foldlM_cons, hstep, ok_bind, hfold]
      · rw [hval j l hl, List.foldl_cons, hpass]
        by_cases hji : j = i
        · subst hji
          obtain rfl : k = l := Option.some.inj (hk.symm.trans hl)
          rw [List.foldl_cons, hpass] at hfinal
          rw [if_neg fun h => hnot h.1, hfinal]
          cases hz : f j == 0 <;> simp [credit]
        · have hlk : l ≠ k := fun he => hji (position_inj hl (he ▸ hk))
          have hsame : (if f i == 0 then γ else credit γ k (f i)) l = γ l := by
            split
            next => rfl
            next => exact if_neg hlk
          simp only [hsame, List.mem_cons, hji, false_or]
    · have hnv : ∀ id, node ≠ .variable id := fun id he => hv ⟨id, he⟩
      obtain ⟨nodes, hstep, hsize', hm'⟩ := reverseStep_operation hc hi hn hnv hsize hm
      obtain ⟨adjoints', γ', hfold, hcount'', hg'', hval⟩ :=
        ih hmem' hdesc' ⟨adjoints.gradient, nodes⟩ hsize' hm' hcount hg
      refine ⟨adjoints', γ', ?_, hcount'', hg'', fun j l hl => ?_⟩
      · rw [List.foldlM_cons, hstep, ok_bind, hfold]
      · have hji : j ≠ i := by
          rintro rfl
          obtain ⟨id, hid⟩ := hc.node_of_position hl
          exact hnv id (Option.some.inj (hn.symm.trans hid))
        rw [hval j l hl, List.foldl_cons]
        simp only [List.mem_cons, hji, false_or]

theorem mirrors_start {n root : Nat} (hroot : root < n) :
    Mirrors ((Array.replicate n (0 : α)).setIfInBounds root 1) fun i =>
      if i = root then 1 else 0 := by
  intro i hi
  simp only [Array.size_setIfInBounds, Array.size_replicate] at hi
  rw [Array.getElem?_setIfInBounds]
  by_cases he : root = i
  · subst he
    simp [hroot]
  · have he' : i ≠ root := fun h => he h.symm
    simp [he, he', hi]

/-- The gradient of a complete sweep: every bound variable has the adjoint of its node, added to zero
unless it is zero itself. -/
theorem gradient_spec (hc : s.Complete g vars point) :
    let adjoint := g.adjoints (assignment vars point) s.root.index s.order
    ∃ (partials : Array α) (γ : Nat → α), s.gradient g vars.length = .ok partials.toList ∧
      partials.size = vars.length ∧ Mirrors partials γ ∧ ∀ i k, position vars i = some k →
        γ k = if i ∈ s.order ∧ (adjoint i == 0) = false then 0 + adjoint i else 0 := by
  intro adjoint
  have hroot : s.root.index < s.values.size := by
    rw [hc.values_size]
    omega
  have hzeros : Mirrors (Array.replicate vars.length (0 : α)) fun _ => 0 := by
    intro i hi
    simp only [Array.size_replicate] at hi
    simp [hi]
  obtain ⟨adjoints', γ, hfold, hcount, hg, hval⟩ :=
    foldlM_reverseStep hc s.order.reverse (fun i hi => List.mem_reverse.mp hi)
      (List.pairwise_reverse.mpr hc.ordered.sorted)
      ⟨Array.replicate vars.length 0,
        (Array.replicate s.values.size (0 : α)).setIfInBounds s.root.index 1⟩
      (by simp [hc.values_size]) (mirrors_start hroot) (by simp) hzeros
  refine ⟨adjoints'.gradient, γ, ?_, hcount, hg, fun i k hk => ?_⟩
  · rw [gradient, store_eq_ok (by simpa using hroot), ok_bind, hfold, ok_bind]
    rfl
  · have h := hval i k hk
    simp only [List.mem_reverse] at h
    exact h

/-- The gradient is made of the adjoints of the bound variables. -/
theorem gradient_eq [SumsFromZero α] (hc : s.Complete g vars point) :
    s.gradient g vars.length = .ok (vars.map fun x =>
      g.adjoints (assignment vars point) s.root.index s.order x.expr.index) := by
  obtain ⟨partials, γ, hgradient, hcount, hg, hval⟩ := gradient_spec hc
  have hvalue : ∀ i k, position vars i = some k →
      γ k = g.adjoints (assignment vars point) s.root.index s.order i := by
    intro i k hk
    have hsettled := Graph.settled_adjoints g (assignment vars point)
      s.root.index s.order i
    have h := hval i k hk
    by_cases hmem : i ∈ s.order
    · cases hz : g.adjoints (assignment vars point) s.root.index s.order i == 0 with
      | false => rw [h, if_pos ⟨hmem, hz⟩, hsettled]
      | true =>
        rw [h, if_neg (by simp [hz]), ← hsettled]
        exact (SumsFromZero.zero_add_of_beq _ hz).symm
    · rw [h, if_neg fun hh => hmem hh.1]
      exact (Graph.adjoints_of_notMem hc.ordered hmem).symm
  rw [hgradient]
  refine congrArg Except.ok (List.ext_getElem (by simp [hcount]) fun k hk hk' => ?_)
  have hkv : k < vars.length := by simpa using hk'
  have hpos := position_of_nodup hc.binds.nodup (List.getElem?_eq_getElem hkv)
  have hread := hg k (by omega)
  rw [Array.getElem?_eq_getElem (by omega), hvalue _ k hpos] at hread
  rw [Array.getElem_toList, List.getElem_map, Option.some.inj hread]

end Sweep

end Autodiff
