import Autodiff.Proofs.TapeAgreement

namespace Autodiff

variable {α β γ ε σ : Type}

/-- The same error, reported for a graph of another size. -/
def Error.inSize (size : Nat) : Error α → Error α
  | .foreignNode index _ => .foreignNode index size
  | e => e

def Failure.inSize (size : Nat) : Failure α → Failure α
  | .refused cause => .refused (cause.inSize size)
  | .fault cause => .fault cause

theorem mapError_bind (f : ε → ε) (act : Except ε β) (k : β → Except ε γ) :
    (act >>= k).mapError f = act.mapError f >>= fun x => (k x).mapError f := by
  cases act <;> rfl

theorem mapM_congr_mem {f f' : β → Except ε γ} {xs : List β} (h : ∀ x ∈ xs, f' x = f x) :
    xs.mapM f' = xs.mapM f := by
  induction xs with
  | nil => rfl
  | cons x xs ih =>
    rw [List.mapM_cons, List.mapM_cons, h x (by simp), ih fun y hy => h y (by simp [hy])]

theorem foldlM_congr_mem {f f' : σ → β → Except ε σ} {xs : List β}
    (h : ∀ s, ∀ x ∈ xs, f' s x = f s x) (s : σ) : xs.foldlM f' s = xs.foldlM f s := by
  induction xs generalizing s with
  | nil => rfl
  | cons x xs ih =>
    rw [List.foldlM_cons, List.foldlM_cons, h s x (by simp)]
    congr 1
    funext s'
    exact ih (fun s y hy => h s y (by simp [hy])) s'

namespace Graph

variable {g g' : Graph α}

/-- The second graph has the same nodes as the first below a root, and the same listed variables. All
other nodes are free. -/
structure Alike (g g' : Graph α) (root : Nat) (vars : List Var) : Prop where
  nodes : ∀ i, g.Reaches root i → g'.nodes[i]? = g.nodes[i]?
  listed : ∀ x ∈ vars, g'.nodes[x.expr.index]? = some (.variable x.id) ↔
    g.nodes[x.expr.index]? = some (.variable x.id)

theorem visit_congr {root : Nat} (hn : ∀ i, g.Reaches root i → g'.nodes[i]? = g.nodes[i]?)
    (hroot : root < g.size) (budget : Nat) {stack : List Nat} {seen : Array Bool}
    (h : g.Searching root budget stack seen) :
    g'.visit budget stack seen = (g.visit budget stack seen).mapError (.inSize g'.size) := by
  induction budget generalizing stack seen with
  | zero => rfl
  | succ budget ih =>
    cases stack with
    | nil => rfl
    | cons i stack =>
      have hr := h.reached i (h.stack_seen i (by simp))
      have hi : i < g.nodes.size := Nat.lt_of_le_of_lt hr.le hroot
      have hnode : g.nodes[i]? = some g.nodes[i] := Array.getElem?_eq_getElem hi
      rw [visit, visit, fetch_eq_ok hnode, fetch_eq_ok ((hn i hr).trans hnode), ok_bind, ok_bind]
      dsimp only
      cases hf : g.nodes[i].operands.reverse.find? (fun e => i ≤ e.index) with
      | some foreign => rfl
      | none => exact ih (h.next hnode (by simpa using hf) rfl)

theorem reachable_congr {root : Expr}
    (hn : ∀ i, g.Reaches root.index i → g'.nodes[i]? = g.nodes[i]?) :
    g'.reachable root = (g.reachable root).mapError (.inSize g'.size) := by
  have hsame := hn root.index (.refl _)
  unfold reachable node
  rw [hsame]
  by_cases hroot : root.index < g.size
  · have hvisit := visit_congr hn hroot _ (searching_start root.index)
    simp only [Array.getElem?_eq_getElem hroot, ok_bind, hvisit, mapError_bind]
    rfl
  · rw [Array.getElem?_eq_none (Nat.le_of_not_lt hroot)]
    rfl

/-- Two arrays give the same slots to all nodes, though they may differ in length. -/
structure SameSlots (g g' : Graph α) (slots slots' : Slots) : Prop where
  size : slots.size = g.size
  size' : slots'.size = g'.size
  at_eq : ∀ i, slots'.at i = slots.at i

theorem SameSlots.bindVar {slots slots' : Slots} (hs : g.SameSlots g' slots slots') {x : Var}
    (hx : g'.nodes[x.expr.index]? = some (.variable x.id) ↔
      g.nodes[x.expr.index]? = some (.variable x.id)) (slot : Nat) :
    (∃ s s', g.bindVar slots x slot = .ok s ∧ g'.bindVar slots' x slot = .ok s' ∧
      g.SameSlots g' s s') ∨
    ∃ e, g.bindVar slots x slot = .error e ∧ g'.bindVar slots' x slot = .error (e.inSize g'.size) := by
  by_cases hn : g.nodes[x.expr.index]? = some (.variable x.id)
  · have hi : x.expr.index < slots.size := hs.size ▸ (Array.getElem?_eq_some_iff.mp hn).1
    have hi' : x.expr.index < slots'.size := hs.size' ▸ (Array.getElem?_eq_some_iff.mp (hx.mpr hn)).1
    rw [bindVar_eq hs.size slot hn, bindVar_eq hs.size' slot (hx.mpr hn), hs.at_eq]
    cases slots.at x.expr.index with
    | some k => exact Or.inr ⟨_, rfl, rfl⟩
    | none =>
      refine Or.inl ⟨_, _, rfl, rfl, by simpa using hs.size, by simpa using hs.size', fun j => ?_⟩
      rw [Slots.at_setIfInBounds hi, Slots.at_setIfInBounds hi', hs.at_eq]
  · rw [bindVar_foreign slot hn, bindVar_foreign slot (mt hx.mp hn)]
    exact Or.inr ⟨_, rfl, rfl⟩

theorem SameSlots.bind {vars : List Var} {slots slots' : Slots} (hs : g.SameSlots g' slots slots')
    (hx : ∀ x ∈ vars, g'.nodes[x.expr.index]? = some (.variable x.id) ↔
      g.nodes[x.expr.index]? = some (.variable x.id)) (first : Nat) :
    (∃ s s', g.bind vars slots first = .ok s ∧ g'.bind vars slots' first = .ok s' ∧
      g.SameSlots g' s s') ∨
    ∃ e, g.bind vars slots first = .error e ∧ g'.bind vars slots' first = .error (e.inSize g'.size) := by
  induction vars generalizing slots slots' first with
  | nil => exact Or.inl ⟨slots, slots', rfl, rfl, hs⟩
  | cons x vars ih =>
    rw [bind_cons, bind_cons]
    rcases hs.bindVar (hx x (by simp)) first with ⟨s, s', h, h', hs'⟩ | ⟨e, h, h'⟩
    · rw [h, h', ok_bind, ok_bind]
      exact ih hs' (fun y hy => hx y (by simp [hy])) (first + 1)
    · rw [h, h']
      exact Or.inr ⟨e, rfl, rfl⟩

theorem sameSlots_unbound (g g' : Graph α) : g.SameSlots g' g.unbound g'.unbound where
  size := by simp [unbound]
  size' := by simp [unbound]
  at_eq i := by rw [Slots.at_unbound, Slots.at_unbound]

/-- The slot of a node that both graphs have. -/
theorem SameSlots.fetch_eq {slots slots' : Slots} (hs : g.SameSlots g' slots slots') {i : Nat}
    (hi : i < g.size) (hi' : i < g'.size) :
    fetch (α := α) slots' i = fetch slots i := by
  have hat := hs.at_eq i
  have hlt : i < slots.size := hs.size ▸ hi
  have hlt' : i < slots'.size := hs.size' ▸ hi'
  simp only [Slots.at, Array.getElem?_eq_getElem hlt, Array.getElem?_eq_getElem hlt',
    Option.join_some] at hat
  rw [fetch_eq_ok (Array.getElem?_eq_getElem hlt), fetch_eq_ok (Array.getElem?_eq_getElem hlt'), hat]

end Graph

theorem Node.value_slots [Scalar α] {slots slots' : Graph.Slots} {point values : Array α} {i : Nat}
    (h : fetch (α := α) slots' i = fetch slots i) (node : Node α) :
    node.value slots' point values i = node.value slots point values i := by
  cases node with
  | «variable» id => simp only [Node.value, h]
  | _ => rfl

namespace Sweep

variable [Scalar α] {g g' : Graph α} {root : Expr} {vars : List Var} {point : List α}

/-- Two sweeps over the same nodes, with the same values. -/
structure Matches (g g' : Graph α) (s s' : Sweep α) : Prop where
  root_eq : s'.root = s.root
  order_eq : s'.order = s.order
  values_eq : s'.values = s.values
  nodes_eq : ∀ i ∈ s.order, g'.nodes[i]? = g.nodes[i]?
  slots_eq : ∀ i ∈ s.order, fetch (α := α) s'.slots i = fetch s.slots i

theorem forwardStep_congr {slots slots' : Graph.Slots} {i : Nat} {node : Node α}
    (hn : g.nodes[i]? = some node) (hn' : g'.nodes[i]? = some node)
    (hslots : fetch (α := α) slots' i = fetch slots i) (point values : Array α) :
    forwardStep g' slots' point values i = forwardStep g slots point values i := by
  rw [forwardStep, forwardStep, fetch_eq_ok hn, fetch_eq_ok hn', ok_bind, ok_bind,
    Node.value_slots hslots]

theorem forward_eq (hl : vars.length = point.length) :
    forward g root vars point = (do
      let order ← g.reachable root
      let slots ← g.bind vars g.unbound 0
      let values ← order.foldlM (forwardStep g slots point.toArray)
        (Array.replicate (root.index + 1) 0)
      return ⟨root, order, slots, values⟩) := by
  rw [forward, if_neg (not_not.mpr hl)]

/-- The errors of a sweep that got as far as the values are not about the graph as a whole. -/
theorem inSize_of_forward {order : List Nat} {slots : Graph.Slots} {e : Failure α}
    (horder : g.reachable root = .ok order) (hslots : g.bind vars g.unbound 0 = .ok slots)
    (hl : vars.length = point.length) (he : forward g root vars point = .error e) (size : Nat) :
    e.inSize size = e := by
  rcases forward_spec hl horder (Graph.binds_of_bind hslots).1 with ⟨e', hfound, h⟩ | ⟨-, s, h, -⟩
  · obtain rfl := Except.error.inj (he.symm.trans h)
    obtain ⟨i, -, hi⟩ := List.exists_of_findSome?_eq_some hfound
    rcases Graph.errorAt?_cases hi with ⟨id, -, -, rfl⟩ | ⟨b, n, rfl⟩ | ⟨a, rfl⟩ <;> rfl
  · cases he.symm.trans h

/-- A forward sweep reads nothing but the nodes below its root and what the listed handles name. -/
theorem forward_congr (h : g.Alike g' root.index vars) (point : List α) :
    (∃ s s', forward g root vars point = .ok s ∧ forward g' root vars point = .ok s' ∧
      Matches g g' s s') ∨
    ∃ e, forward g root vars point = .error e ∧
      forward g' root vars point = .error (e.inSize g'.size) := by
  by_cases hl : vars.length = point.length
  · rw [forward_eq hl, forward_eq hl, Graph.reachable_congr h.nodes]
    cases horder : g.reachable root with
    | error e => exact Or.inr ⟨e, rfl, rfl⟩
    | ok order =>
      rw [Except.mapError, ok_bind, ok_bind]
      rcases (Graph.sameSlots_unbound g g').bind h.listed 0 with
        ⟨slots, slots', hs, hs', hsame⟩ | ⟨e, hs, hs'⟩
      · have ho := Graph.reachable_ordered horder
        have hnodes : ∀ i ∈ order, g'.nodes[i]? = g.nodes[i]? := fun i hi =>
          h.nodes i ((ho.mem_iff i).mp hi)
        have hslots : ∀ i ∈ order, fetch (α := α) slots' i = fetch slots i := by
          intro i hi
          obtain ⟨node, hn⟩ := ho.node_exists hi
          have hn' := (hnodes i hi).trans hn
          exact hsame.fetch_eq (Array.getElem?_eq_some_iff.mp hn).1
            (Array.getElem?_eq_some_iff.mp hn').1
        have hfold : ∀ values, order.foldlM (forwardStep g' slots' point.toArray) values =
            order.foldlM (forwardStep g slots point.toArray) values :=
          foldlM_congr_mem fun values i hi => by
            obtain ⟨node, hn⟩ := ho.node_exists hi
            exact forwardStep_congr hn ((hnodes i hi).trans hn) (hslots i hi) _ _
        rw [hs, hs', ok_bind, ok_bind, hfold]
        cases hrun : order.foldlM (forwardStep g slots point.toArray)
            (Array.replicate (root.index + 1) 0) with
        | error e =>
          have hfail : forward g root vars point = .error e := by
            rw [forward_eq hl, horder, ok_bind, hs, ok_bind, hrun, error_bind]
          exact Or.inr ⟨e, rfl, by rw [inSize_of_forward horder hs hl hfail]; rfl⟩
        | ok values => exact Or.inl ⟨_, _, rfl, rfl, rfl, rfl, rfl, hnodes, hslots⟩
      · rw [hs, hs']
        exact Or.inr ⟨e, rfl, rfl⟩
  · simp only [forward, ne_eq, hl, not_false_eq_true, ↓reduceIte]
    exact Or.inr ⟨_, rfl, rfl⟩

namespace Matches

variable {s s' : Sweep α}

omit [Scalar α] in
theorem value_eq (h : Matches g g' s s') : s'.value = s.value := by
  rw [value, value, h.values_eq, h.root_eq]

theorem reverseStep_eq (h : Matches g g' s s') (adjoints : Adjoints α) {i : Nat} {node : Node α}
    (hi : i ∈ s.order) (hn : g.nodes[i]? = some node) :
    reverseStep g' s' adjoints i = reverseStep g s adjoints i := by
  rw [reverseStep, reverseStep, fetch_eq_ok hn, fetch_eq_ok ((h.nodes_eq i hi).trans hn),
    h.slots_eq i hi, h.values_eq]

theorem gradient_eq (h : Matches g g' s s') (ho : g.Ordered s.root.index s.order) (count : Nat) :
    s'.gradient g' count = s.gradient g count := by
  have hfold : ∀ adjoints, s.order.reverse.foldlM (reverseStep g' s') adjoints =
      s.order.reverse.foldlM (reverseStep g s) adjoints :=
    foldlM_congr_mem fun adjoints i hi => by
      have hi := List.mem_reverse.mp hi
      obtain ⟨node, hn⟩ := ho.node_exists hi
      exact h.reverseStep_eq adjoints hi hn
  rw [gradient, gradient, h.values_eq, h.root_eq, h.order_eq]
  simp only [hfold]

end Matches

end Sweep

namespace Graph

variable [Scalar α] {g g' : Graph α} {root : Expr} {vars : List Var}

/-- What is computed from a sweep depends on the graph only as far as the sweep does. -/
theorem Alike.sweep_congr (h : g.Alike g' root.index vars) (point : List α)
    {f : Graph α → Sweep α → Except (Failure α) β}
    (hf : ∀ s s', Sweep.Matches g g' s s' → s.Complete g vars point → ∃ r, f g s = .ok r ∧ f g' s' = .ok r) :
    (Sweep.forward g' root vars point >>= f g') =
      (Sweep.forward g root vars point >>= f g).mapError (.inSize g'.size) := by
  rcases Sweep.forward_congr h point with ⟨s, s', hs, hs', hm⟩ | ⟨e, he, he'⟩
  · obtain ⟨-, -, -, hc⟩ := Sweep.complete_of_forward hs
    obtain ⟨r, hr, hr'⟩ := hf s s' hm hc
    rw [hs, hs', ok_bind, ok_bind, hr, hr']
    rfl
  · rw [he, he']
    rfl

end Graph

end Autodiff
