import Autodiff.Reachability
import Autodiff.Proofs.Storage

namespace Autodiff

namespace Graph

variable {α : Type}

/-- The second node takes part in the first: it is the first itself, or below it through operands
that precede their nodes. -/
inductive Reaches (g : Graph α) : Nat → Nat → Prop where
  | refl (i : Nat) : Reaches g i i
  | step {i j : Nat} {node : Node α} {e : Expr} (hn : g.nodes[i]? = some node)
      (he : e ∈ node.operands) (hlt : e.index < i) (h : Reaches g e.index j) : Reaches g i j

/-- Every node below the root comes after its operands. -/
def Closed (g : Graph α) (root : Nat) : Prop :=
  ∀ i node, g.Reaches root i → g.nodes[i]? = some node → ∀ e ∈ node.operands, e.index < i

/-- The nodes that a root depends on, ascending, where every node comes after its operands. -/
structure Ordered (g : Graph α) (root : Nat) (order : List Nat) : Prop where
  root_lt : root < g.size
  sorted : order.Pairwise (· < ·)
  mem_iff : ∀ i, i ∈ order ↔ g.Reaches root i
  closed : g.Closed root

theorem Reaches.le {g : Graph α} {i j : Nat} (h : g.Reaches i j) : j ≤ i := by
  induction h with
  | refl => exact Nat.le_refl _
  | step _ _ hlt _ ih => omega

theorem Reaches.snoc {g : Graph α} {i j : Nat} {node : Node α} {e : Expr} (h : g.Reaches i j)
    (hn : g.nodes[j]? = some node) (he : e ∈ node.operands) (hlt : e.index < j) :
    g.Reaches i e.index := by
  induction h with
  | refl => exact .step hn he hlt (.refl _)
  | step hn' he' hlt' _ ih => exact .step hn' he' hlt' (ih hn hlt)

theorem Reaches.trans {g : Graph α} {i j k : Nat} (h : g.Reaches i j) (h' : g.Reaches j k) :
    g.Reaches i k := by
  induction h with
  | refl => exact h'
  | step hn he hlt _ ih => exact .step hn he hlt (ih h')

namespace Ordered

variable {g : Graph α} {root : Nat} {order : List Nat}

theorem root_mem (h : g.Ordered root order) : root ∈ order :=
  (h.mem_iff root).mpr (.refl root)

theorem le_root (h : g.Ordered root order) {i : Nat} (hi : i ∈ order) : i ≤ root :=
  ((h.mem_iff i).mp hi).le

theorem node_exists (h : g.Ordered root order) {i : Nat} (hi : i ∈ order) :
    ∃ node, g.nodes[i]? = some node := by
  have hle := h.le_root hi
  have hlt := h.root_lt
  simp only [size] at hlt
  exact ⟨g.nodes[i], Array.getElem?_eq_getElem (by omega)⟩

theorem operand_lt (h : g.Ordered root order) {i : Nat} (hi : i ∈ order) {node : Node α}
    (hn : g.nodes[i]? = some node) {e : Expr} (he : e ∈ node.operands) : e.index < i :=
  h.closed i node ((h.mem_iff i).mp hi) hn e he

theorem operand_mem (h : g.Ordered root order) {i : Nat} (hi : i ∈ order) {node : Node α}
    (hn : g.nodes[i]? = some node) {e : Expr} (he : e ∈ node.operands) : e.index ∈ order :=
  (h.mem_iff _).mpr (((h.mem_iff i).mp hi).snoc hn he (h.operand_lt hi hn he))

/-- What comes before a node in the order contains the operands of the node. -/
theorem operand_before (h : g.Ordered root order) {done todo : List Nat} {i : Nat}
    (hsplit : done ++ i :: todo = order) {node : Node α} (hn : g.nodes[i]? = some node) {e : Expr}
    (he : e ∈ node.operands) : e.index ∈ done := by
  have hi : i ∈ order := by simp [← hsplit]
  have hm := h.operand_mem hi hn he
  have hs := h.sorted
  have hlt := h.operand_lt hi hn he
  rw [← hsplit] at hm hs
  rcases List.mem_append.mp hm with hm | hm
  · exact hm
  · rcases List.mem_cons.mp hm with hm | hm
    · omega
    · have := (List.pairwise_cons.mp (List.pairwise_append.mp hs).2.1).1 _ hm
      omega

theorem lt_of_before (h : g.Ordered root order) {done todo : List Nat} {i : Nat}
    (hsplit : done ++ i :: todo = order) {j : Nat} (hj : j ∈ done) : j < i := by
  have hs := h.sorted
  rw [← hsplit] at hs
  exact (List.pairwise_append.mp hs).2.2 j hj i (by simp)

end Ordered

/-- The search has met the node. -/
def Marked (seen : Array Bool) (i : Nat) : Prop := seen.getD i false = true

theorem marked_setIfInBounds {seen : Array Bool} {i : Nat} (hi : i < seen.size) (j : Nat) :
    Marked (seen.setIfInBounds i true) j ↔ Marked seen j ∨ i = j := by
  simp only [Marked, Array.getD_eq_getD_getElem?, Array.getElem?_setIfInBounds]
  by_cases hj : i = j
  · subst hj
    simp [hi]
  · simp [hj]

theorem count_setIfInBounds {seen : Array Bool} {i : Nat} (hi : i < seen.size)
    (hs : ¬Marked seen i) : (seen.setIfInBounds i true).count true = seen.count true + 1 := by
  have hf : seen[i] = false := by simpa [Marked, hi] using hs
  simp [Array.setIfInBounds, hi, Array.count_set, hf]

/-- Pushing operands marks them and puts the new ones on the stack. -/
theorem pushUnseen_spec (operands : List Expr) {stack stack' : List Nat} {seen seen' : Array Bool}
    (hlt : ∀ e ∈ operands, e.index < seen.size)
    (h : pushUnseen operands stack seen = (stack', seen')) :
    seen'.size = seen.size ∧
      (∀ j, Marked seen' j ↔ Marked seen j ∨ ∃ e ∈ operands, e.index = j) ∧
      (∀ j, j ∈ stack' ↔ j ∈ stack ∨ (¬Marked seen j ∧ ∃ e ∈ operands, e.index = j)) ∧
      seen'.count true + stack.length = seen.count true + stack'.length := by
  induction operands generalizing stack seen with
  | nil =>
    obtain ⟨rfl, rfl⟩ := Prod.mk.inj h
    simp
  | cons e rest ih =>
    have he : e.index < seen.size := hlt e (by simp)
    have hrest : ∀ e' ∈ rest, e'.index < seen.size := fun e' he' => hlt e' (by simp [he'])
    simp only [pushUnseen, List.foldl_cons] at h
    by_cases hs : Marked seen e.index
    · rw [if_pos (show seen.getD e.index false = true from hs)] at h
      obtain ⟨hsize, hmarked, hstack, hcount⟩ := ih hrest h
      refine ⟨hsize, fun j => ?_, fun j => ?_, hcount⟩
      · rw [hmarked j]
        grind
      · rw [hstack j]
        grind
    · rw [if_neg (show ¬seen.getD e.index false = true from hs)] at h
      obtain ⟨hsize, hmarked, hstack, hcount⟩ := ih (by simpa using hrest) h
      have hmark := marked_setIfInBounds he
      refine ⟨by simpa using hsize, fun j => ?_, fun j => ?_, ?_⟩
      · rw [hmarked j, hmark j]
        grind
      · rw [hstack j, hmark j]
        grind
      · rw [count_setIfInBounds he hs, List.length_cons] at hcount
        omega

/-- What holds between two steps of the search. One step of the budget is spent on every node that
was taken from the stack, so that the budget lasts until the stack is empty. -/
structure Searching (g : Graph α) (root budget : Nat) (stack : List Nat) (seen : Array Bool) :
    Prop where
  size_eq : seen.size = root + 1
  root_seen : Marked seen root
  stack_seen : ∀ i ∈ stack, Marked seen i
  reached : ∀ i, Marked seen i → g.Reaches root i
  done : ∀ i node, Marked seen i → i ∉ stack → g.nodes[i]? = some node →
    ∀ e ∈ node.operands, e.index < i ∧ Marked seen e.index
  spent : seen.count true + budget = root + 1 + stack.length

/-- A search that leaves nothing on the stack has seen what the root reaches. -/
theorem Searching.exact {g : Graph α} {root budget : Nat} {seen : Array Bool}
    (h : g.Searching root budget [] seen) :
    (∀ i, Marked seen i ↔ g.Reaches root i) ∧ g.Closed root := by
  have hall : ∀ i j, g.Reaches i j → Marked seen i → Marked seen j := by
    intro i j hr
    induction hr with
    | refl => exact id
    | step hn he _ _ ih => exact fun hs => ih (h.done _ _ hs (by simp) hn _ he).2
  have hiff : ∀ i, Marked seen i ↔ g.Reaches root i :=
    fun i => ⟨h.reached i, fun hr => hall root i hr h.root_seen⟩
  refine ⟨hiff, fun i node hr hn e he => ?_⟩
  exact (h.done i node ((hiff i).mpr hr) (by simp) hn e he).1

theorem Searching.next {g : Graph α} {root budget i : Nat} {stack stack' : List Nat}
    {seen seen' : Array Bool} {node : Node α} (h : g.Searching root (budget + 1) (i :: stack) seen)
    (hn : g.nodes[i]? = some node) (hlt : ∀ e ∈ node.operands, e.index < i)
    (hp : pushUnseen node.operands stack seen = (stack', seen')) :
    g.Searching root budget stack' seen' := by
  have hi : Marked seen i := h.stack_seen i (by simp)
  have hle := (h.reached i hi).le
  have hsize := h.size_eq
  have hbound : ∀ e ∈ node.operands, e.index < seen.size := fun e he => by
    have := hlt e he
    omega
  obtain ⟨hsize', hmarked, hstack, hcount⟩ := pushUnseen_spec node.operands hbound hp
  refine ⟨by omega, (hmarked root).mpr (Or.inl h.root_seen), ?_, ?_, ?_, ?_⟩
  · intro j hj
    rcases (hstack j).mp hj with hj | ⟨-, he⟩
    · exact (hmarked j).mpr (Or.inl (h.stack_seen j (by simp [hj])))
    · exact (hmarked j).mpr (Or.inr he)
  · intro j hj
    rcases (hmarked j).mp hj with hj | ⟨e, he, rfl⟩
    · exact h.reached j hj
    · exact (h.reached i hi).snoc hn he (hlt e he)
  · intro j node' hj hjs hn' e he
    have hold : Marked seen j := Classical.byContradiction fun hs =>
      hjs ((hstack j).mpr (Or.inr ⟨hs, ((hmarked j).mp hj).resolve_left hs⟩))
    by_cases hji : j = i
    · subst hji
      obtain rfl : node = node' := Option.some.inj (hn.symm.trans hn')
      exact ⟨hlt e he, (hmarked _).mpr (Or.inr ⟨e, he, rfl⟩)⟩
    · have hjstack : j ∉ i :: stack := by
        simp only [List.mem_cons, not_or]
        exact ⟨hji, fun hm => hjs ((hstack j).mpr (Or.inl hm))⟩
      obtain ⟨hel, hes⟩ := h.done j node' hold hjstack hn' e he
      exact ⟨hel, (hmarked _).mpr (Or.inl hes)⟩
  · have hspent := h.spent
    simp only [List.length_cons] at hspent
    omega

/-- The search either sees exactly what the root reaches, or meets a node with an operand that
does not precede it. -/
theorem visit_spec {g : Graph α} {root : Nat} (hroot : root < g.size) (budget : Nat)
    {stack : List Nat} {seen : Array Bool} (h : g.Searching root budget stack seen) :
    (∃ seen', g.visit budget stack seen = .ok seen' ∧
      (∀ i, Marked seen' i ↔ g.Reaches root i) ∧ g.Closed root) ∨
    (∃ i node e, g.visit budget stack seen = .error (.refused (.foreignNode e.index g.size)) ∧
      g.Reaches root i ∧ g.nodes[i]? = some node ∧ e ∈ node.operands ∧ i ≤ e.index) := by
  induction budget generalizing stack seen with
  | zero =>
    have hcount : seen.count true ≤ seen.size := Array.count_le_size
    have hsize := h.size_eq
    have hspent := h.spent
    obtain rfl : stack = [] := List.eq_nil_of_length_eq_zero (by omega)
    exact Or.inl ⟨seen, rfl, h.exact⟩
  | succ budget ih =>
    cases stack with
    | nil => exact Or.inl ⟨seen, rfl, h.exact⟩
    | cons i stack =>
      have hr := h.reached i (h.stack_seen i (by simp))
      have hi : i < g.nodes.size := Nat.lt_of_le_of_lt hr.le hroot
      have hn : g.nodes[i]? = some g.nodes[i] := Array.getElem?_eq_getElem hi
      have hfetch : fetch (α := α) g.nodes i = .ok g.nodes[i] := by simp only [fetch, hn]
      rw [visit, hfetch, ok_bind]
      dsimp only
      cases hf : g.nodes[i].operands.reverse.find? (fun e => i ≤ e.index) with
      | some foreign =>
        have hm := List.mem_of_find?_eq_some hf
        have hp := List.find?_some hf
        exact Or.inr ⟨i, g.nodes[i], foreign, rfl, hr, hn, by simpa using hm, by simpa using hp⟩
      | none =>
        have hlt : ∀ e ∈ g.nodes[i].operands, e.index < i := by simpa using hf
        exact ih (h.next hn hlt rfl)

theorem searching_start {g : Graph α} (root : Nat) :
    g.Searching root (root + 1) [root]
      ((Array.replicate (root + 1) false).setIfInBounds root true) := by
  have hlt : root < (Array.replicate (root + 1) false).size := by simp
  have hempty : ∀ i, ¬Marked (Array.replicate (root + 1) false) i := by
    intro i
    by_cases hi : i < root + 1 <;>
      simp [Marked, Array.getD_eq_getD_getElem?, hi]
  have hmarked := marked_setIfInBounds hlt
  have honly : ∀ i, Marked ((Array.replicate (root + 1) false).setIfInBounds root true) i → i = root :=
    fun i hi => (((hmarked i).mp hi).resolve_left (hempty i)).symm
  refine ⟨by simp, (hmarked root).mpr (Or.inr rfl), ?_, ?_, ?_, ?_⟩
  · intro i hi
    obtain rfl : i = root := by simpa using hi
    exact (hmarked i).mpr (Or.inr rfl)
  · intro i hi
    rw [honly i hi]
    exact .refl root
  · intro i node hi hs
    exact absurd (honly i hi) (by simpa using hs)
  · rw [count_setIfInBounds hlt (hempty root)]
    simp [Array.count_replicate, Nat.add_comm]

/-- What keeps a root from being listed with the nodes below it: the root itself when it lies outside
the graph, or an operand of a node that the root reaches when it does not precede that node. -/
inductive Intruder (g : Graph α) (root : Nat) : Nat → Prop where
  | root (h : g.size ≤ root) : Intruder g root root
  | operand {i : Nat} {node : Node α} {e : Expr} (hroot : root < g.size) (hr : g.Reaches root i)
      (hn : g.nodes[i]? = some node) (he : e ∈ node.operands) (hle : i ≤ e.index) :
      Intruder g root e.index

theorem Intruder.not_closed {g : Graph α} {root k : Nat} (h : g.Intruder root k)
    (hroot : root < g.size) : ¬g.Closed root := by
  intro hc
  cases h with
  | root h => omega
  | operand _ hr hn he hle =>
    have := hc _ _ hr hn _ he
    omega

/-- The nodes below a root are listed, or what keeps them from it is reported. -/
theorem reachable_spec (g : Graph α) (root : Expr) :
    (∃ order, g.reachable root = .ok order ∧ g.Ordered root.index order) ∨
    (∃ k, g.reachable root = .error (.refused (.foreignNode k g.size)) ∧
      g.Intruder root.index k) := by
  by_cases hroot : root.index < g.size
  · have hnode : g.node root = .ok g.nodes[root.index] := by
      simp only [node, Array.getElem?_eq_getElem hroot]
    rcases visit_spec hroot _ (searching_start root.index) with
      ⟨seen, hv, hiff, hc⟩ | ⟨i, n, e, hv, hr, hn, he, hle⟩
    · refine Or.inl ⟨(List.range (root.index + 1)).filter (seen.getD · false), ?_, hroot, ?_, ?_, hc⟩
      · simp only [reachable, hnode, hv]
        rfl
      · exact List.pairwise_lt_range.filter _
      · intro i
        rw [List.mem_filter, List.mem_range]
        constructor
        · exact fun h => (hiff i).mp h.2
        · exact fun h => ⟨by have := h.le; omega, (hiff i).mpr h⟩
    · refine Or.inr ⟨e.index, ?_, .operand hroot hr hn he hle⟩
      simp only [reachable, hnode, hv]
      rfl
  · refine Or.inr ⟨root.index, ?_, .root (Nat.le_of_not_lt hroot)⟩
    have hnode : g.node root = .error (.refused (.foreignNode root.index g.size)) := by
      simp only [node, Array.getElem?_eq_none (by simpa [size] using hroot)]
    simp only [reachable, hnode]
    rfl

theorem reachable_ordered {g : Graph α} {root : Expr} {order : List Nat}
    (h : g.reachable root = .ok order) : g.Ordered root.index order := by
  rcases g.reachable_spec root with ⟨order', h', ho⟩ | ⟨k, h', -⟩
  · obtain rfl : order = order' := Except.ok.inj (h.symm.trans h')
    exact ho
  · cases h.symm.trans h'

theorem reachable_of_closed {g : Graph α} {root : Expr} (hroot : root.index < g.size)
    (hc : g.Closed root.index) : ∃ order, g.reachable root = .ok order := by
  rcases g.reachable_spec root with ⟨order, h, -⟩ | ⟨k, -, h⟩
  · exact ⟨order, h⟩
  · exact absurd hc (h.not_closed hroot)

theorem varAt?_eq_some {g : Graph α} {i : Nat} {x : Var} :
    g.varAt? i = some x ↔ x.expr.index = i ∧ g.nodes[i]? = some (.variable x.id) := by
  obtain ⟨id, ⟨j⟩⟩ := x
  unfold varAt?
  split
  next id' hn => simp [hn, and_comm, eq_comm]
  next hn => simpa using fun _ h => hn id h

/-- The variables of an expression are those whose nodes take part in it. -/
theorem mem_variablesOf {g : Graph α} {root : Expr} {xs : List Var}
    (h : g.variablesOf root = .ok xs) (x : Var) :
    x ∈ xs ↔ g.Reaches root.index x.expr.index ∧
      g.nodes[x.expr.index]? = some (.variable x.id) := by
  obtain ⟨order, horder, hxs⟩ := bind_eq_ok.mp h
  obtain rfl : order.filterMap g.varAt? = xs := Except.ok.inj hxs
  have ho := reachable_ordered horder
  simp only [List.mem_filterMap, varAt?_eq_some]
  constructor
  · rintro ⟨i, hi, rfl, hn⟩
    exact ⟨(ho.mem_iff _).mp hi, hn⟩
  · rintro ⟨hr, hn⟩
    exact ⟨_, (ho.mem_iff _).mpr hr, rfl, hn⟩

theorem variablesOf_of_closed {g : Graph α} {root : Expr} (hroot : root.index < g.size)
    (hc : g.Closed root.index) : ∃ xs, g.variablesOf root = .ok xs := by
  obtain ⟨order, horder⟩ := reachable_of_closed hroot hc
  exact ⟨order.filterMap g.varAt?, by rw [variablesOf, horder]; rfl⟩

end Graph

end Autodiff
