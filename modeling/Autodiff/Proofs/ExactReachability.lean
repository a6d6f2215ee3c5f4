import Autodiff.Proofs.GraphHistory

namespace Autodiff

variable {α : Type}

namespace Graph

/-- The search as a loop that goes on until the stack is empty: the nodes that it takes from the
stack one after the other, and what it ends with. -/
inductive Searches (g : Graph α) : List Nat → Array Bool → List Nat →
    Except (Failure α) (Array Bool) → Prop where
  | done (seen : Array Bool) : Searches g [] seen [] (.ok seen)
  | stray {i : Nat} {stack : List Nat} {seen : Array Bool} {node : Node α} {e : Expr}
      (hn : g.nodes[i]? = some node)
      (hf : node.operands.reverse.find? (fun e => i ≤ e.index) = some e) :
      Searches g (i :: stack) seen [i] (.error (.refused (.foreignNode e.index g.size)))
  | next {i : Nat} {stack stack' taken : List Nat} {seen seen' : Array Bool} {node : Node α}
      {result : Except (Failure α) (Array Bool)} (hn : g.nodes[i]? = some node)
      (hlt : ∀ e ∈ node.operands, e.index < i)
      (hp : pushUnseen node.operands stack seen = (stack', seen'))
      (h : Searches g stack' seen' taken result) :
      Searches g (i :: stack) seen (i :: taken) result

/-- The nodes that a search below a root has seen at its start. -/
def seenFirst (root : Nat) : Array Bool :=
  (Array.replicate (root + 1) false).setIfInBounds root true

/-- The budget of the search never runs out: it does what the loop without a budget does. -/
theorem visit_searches {g : Graph α} {root : Nat} (hroot : root < g.size) (budget : Nat)
    {stack : List Nat} {seen : Array Bool} (h : g.Searching root budget stack seen) :
    ∃ taken, g.Searches stack seen taken (g.visit budget stack seen) := by
  induction budget generalizing stack seen with
  | zero =>
    have hcount : seen.count true ≤ seen.size := Array.count_le_size
    have hsize := h.size_eq
    have hspent := h.spent
    obtain rfl : stack = [] := List.eq_nil_of_length_eq_zero (by omega)
    exact ⟨[], .done seen⟩
  | succ budget ih =>
    cases stack with
    | nil => exact ⟨[], .done seen⟩
    | cons i stack =>
      have hr := h.reached i (h.stack_seen i (by simp))
      have hi : i < g.nodes.size := Nat.lt_of_le_of_lt hr.le hroot
      have hn : g.nodes[i]? = some g.nodes[i] := Array.getElem?_eq_getElem hi
      have hfetch : fetch (α := α) g.nodes i = .ok g.nodes[i] := by simp only [fetch, hn]
      rw [visit, hfetch, ok_bind]
      dsimp only
      cases hf : g.nodes[i].operands.reverse.find? (fun e => i ≤ e.index) with
      | some foreign => exact ⟨[i], .stray hn hf⟩
      | none =>
        have hlt : ∀ e ∈ g.nodes[i].operands, e.index < i := by simpa using hf
        obtain ⟨taken, ht⟩ := ih (h.next hn hlt rfl)
        exact ⟨i :: taken, .next hn hlt rfl ht⟩

theorem Marked.lt_size {seen : Array Bool} {i : Nat} (h : Marked seen i) : i < seen.size := by
  by_contra hi
  simp [Marked, hi] at h

/-- What is pushed has not been seen, so nothing is put on the stack twice. -/
theorem pushUnseen_nodup (operands : List Expr) {stack stack' : List Nat} {seen seen' : Array Bool}
    (hlt : ∀ e ∈ operands, e.index < seen.size) (hmarked : ∀ i ∈ stack, Marked seen i)
    (hnodup : stack.Nodup) (h : pushUnseen operands stack seen = (stack', seen')) :
    stack'.Nodup := by
  induction operands generalizing stack seen with
  | nil =>
    obtain ⟨rfl, rfl⟩ := Prod.mk.inj h
    exact hnodup
  | cons e rest ih =>
    have he : e.index < seen.size := hlt e (by simp)
    have hrest : ∀ e' ∈ rest, e'.index < seen.size := fun e' he' => hlt e' (by simp [he'])
    simp only [pushUnseen, List.foldl_cons] at h
    by_cases hs : Marked seen e.index
    · rw [if_pos (show seen.getD e.index false = true from hs)] at h
      exact ih hrest hmarked hnodup h
    · rw [if_neg (show ¬seen.getD e.index false = true from hs)] at h
      refine ih (by simpa using hrest) (fun i hi => ?_) ?_ h
      · rw [marked_setIfInBounds he]
        rcases List.mem_cons.mp hi with rfl | hi
        · exact .inr rfl
        · exact .inl (hmarked i hi)
      · exact List.nodup_cons.mpr ⟨fun hm => hs (hmarked _ hm), hnodup⟩

namespace Searches

variable {g : Graph α} {stack taken : List Nat} {seen : Array Bool}
  {result : Except (Failure α) (Array Bool)}

/-- What holds of the stack when a node has been taken from it and its operands have been pushed. -/
theorem pushed {i : Nat} {stack' : List Nat} {seen' : Array Bool} {node : Node α}
    (hlt : ∀ e ∈ node.operands, e.index < i)
    (hp : pushUnseen node.operands stack seen = (stack', seen'))
    (hmarked : ∀ j ∈ i :: stack, Marked seen j) (hnodup : (i :: stack).Nodup) :
    stack'.Nodup ∧ (∀ j ∈ stack', Marked seen' j) ∧
      (∀ j, Marked seen' j ↔ Marked seen j ∨ ∃ e ∈ node.operands, e.index = j) ∧
      ∀ j, j ∈ stack' ↔ j ∈ stack ∨ (¬Marked seen j ∧ ∃ e ∈ node.operands, e.index = j) := by
  have hi := (hmarked i (by simp)).lt_size
  have hbound : ∀ e ∈ node.operands, e.index < seen.size := fun e he => Nat.lt_trans (hlt e he) hi
  have hrest : ∀ j ∈ stack, Marked seen j := fun j hj => hmarked j (by simp [hj])
  obtain ⟨-, hseen, hstack, -⟩ := pushUnseen_spec node.operands hbound hp
  refine ⟨pushUnseen_nodup _ hbound hrest (List.nodup_cons.mp hnodup).2 hp, fun j hj => ?_, hseen,
    hstack⟩
  rcases (hstack j).mp hj with hj | ⟨-, he⟩
  · exact (hseen j).mpr (.inl (hrest j hj))
  · exact (hseen j).mpr (.inr he)

/-- Every node is taken from the stack once at most, because what is pushed has not been seen and is
then marked. -/
theorem nodup (h : g.Searches stack seen taken result) (hmarked : ∀ i ∈ stack, Marked seen i)
    (hnodup : stack.Nodup) : taken.Nodup ∧ ∀ i ∈ taken, i ∈ stack ∨ ¬Marked seen i := by
  induction h with
  | done => simp
  | stray => simp
  | @next i stack stack' taken seen seen' node result hn hlt hp h ih =>
    obtain ⟨hnodup', hmarked', hseen, hstack⟩ := pushed hlt hp hmarked hnodup
    obtain ⟨htaken, hfresh⟩ := ih hmarked' hnodup'
    have hold : ∀ j ∈ taken, j ∈ stack ∨ ¬Marked seen j := by
      intro j hj
      rcases hfresh j hj with hj | hj
      · exact ((hstack j).mp hj).imp_right And.left
      · exact .inr fun hs => hj ((hseen j).mpr (.inl hs))
    refine ⟨List.nodup_cons.mpr ⟨fun hi => ?_, htaken⟩, fun j hj => ?_⟩
    · rcases hold i hi with hi | hi
      · exact (List.nodup_cons.mp hnodup).1 hi
      · exact hi (hmarked i (by simp))
    · rcases List.mem_cons.mp hj with rfl | hj
      · exact .inl (by simp)
      · exact (hold j hj).imp_left (List.mem_cons_of_mem i)

/-- A search that gets to its end has taken what was on the stack and what it has marked since. -/
theorem mem_taken {marked : Array Bool} (h : g.Searches stack seen taken (.ok marked))
    (hmarked : ∀ i ∈ stack, Marked seen i) (hnodup : stack.Nodup) :
    (∀ i, Marked seen i → Marked marked i) ∧
      ∀ i, i ∈ taken ↔ i ∈ stack ∨ (Marked marked i ∧ ¬Marked seen i) := by
  generalize hr : (.ok marked : Except (Failure α) (Array Bool)) = result at h
  induction h with
  | done =>
    obtain rfl := Except.ok.inj hr
    exact ⟨fun _ hi => hi, fun i => by simp⟩
  | stray => cases hr
  | @next i stack stack' taken seen seen' node result hn hlt hp h ih =>
    obtain ⟨hnodup', hmarked', hseen, hstack⟩ := pushed hlt hp hmarked hnodup
    obtain ⟨hkept, hmem⟩ := ih hmarked' hnodup' hr
    have hold : ∀ j, Marked seen j → Marked marked j := fun j hj => hkept j ((hseen j).mpr (.inl hj))
    refine ⟨hold, fun j => ?_⟩
    have hnew : (∃ e ∈ node.operands, e.index = j) → Marked marked j :=
      fun he => hkept j ((hseen j).mpr (.inr he))
    rw [List.mem_cons, List.mem_cons, hmem j, hstack j, hseen j]
    grind

/-- What is taken from the stack lies below the root. -/
theorem reaches {root : Nat} (h : g.Searches stack seen taken result)
    (hstack : ∀ i ∈ stack, Marked seen i) (hreached : ∀ i, Marked seen i → g.Reaches root i) :
    ∀ i ∈ taken, g.Reaches root i := by
  induction h with
  | done => simp
  | @stray i stack => simpa using hreached i (hstack i (by simp))
  | @next i stack stack' taken seen seen' node result hn hlt hp h ih =>
    have hi := hstack i (by simp)
    have hbound : ∀ e ∈ node.operands, e.index < seen.size := fun e he =>
      Nat.lt_trans (hlt e he) hi.lt_size
    obtain ⟨-, hseen, hpushed, -⟩ := pushUnseen_spec node.operands hbound hp
    have hbelow := ih (fun j hj => ?_) fun j hj => ?_
    · intro j hj
      rcases List.mem_cons.mp hj with rfl | hj
      · exact hreached _ hi
      · exact hbelow j hj
    · rcases (hpushed j).mp hj with hj | ⟨-, he⟩
      · exact (hseen j).mpr (.inl (hstack j (by simp [hj])))
      · exact (hseen j).mpr (.inr he)
    · rcases (hseen j).mp hj with hj | ⟨e, he, rfl⟩
      · exact hreached j hj
      · exact (hreached i hi).snoc hn he (hlt e he)

end Searches

/-- What the search below a root amounts to, in a graph that may be malformed. -/
structure Explored (g : Graph α) (root : Expr) : Prop where
  /-- The loop comes to an end without a budget and takes no node from its stack twice. -/
  ends : root.index < g.size → ∃ taken result,
    g.Searches [root.index] (seenFirst root.index) taken result ∧ taken.Nodup ∧
    (∀ i ∈ taken, g.Reaches root.index i) ∧
    (∀ order, g.reachable root = .ok order → taken.Perm order) ∧
    g.reachable root =
      result.map fun seen => (List.range (root.index + 1)).filter (seen.getD · false)
  refuses_iff : (∃ k, g.reachable root = .error (.refused (.foreignNode k g.size))) ↔
    g.size ≤ root.index ∨ ∃ i node, g.Reaches root.index i ∧ g.nodes[i]? = some node ∧
      ∃ e ∈ node.operands, i ≤ e.index
  error : ∀ failure, g.reachable root = .error failure →
    ∃ k, failure = .refused (.foreignNode k g.size) ∧ g.Intruder root.index k
  sorted : ∀ order, g.reachable root = .ok order → order.Pairwise (· < ·)
  mem_iff : ∀ order, g.reachable root = .ok order → ∀ i, i ∈ order ↔ g.Reaches root.index i
  operands_before : ∀ before i after, g.reachable root = .ok (before ++ i :: after) →
    ∃ node, g.nodes[i]? = some node ∧ ∀ e ∈ node.operands, e.index ∈ before

theorem reachable_eq_visit {g : Graph α} {root : Expr} (hroot : root.index < g.size) :
    g.reachable root =
      (g.visit (root.index + 1) [root.index] (seenFirst root.index)).map
        fun seen => (List.range (root.index + 1)).filter (seen.getD · false) := by
  have hnode : g.node root = .ok g.nodes[root.index] := by
    simp only [node, Array.getElem?_eq_getElem hroot]
  simp only [reachable, hnode, seenFirst]
  cases g.visit (root.index + 1) [root.index]
      ((Array.replicate (root.index + 1) false).setIfInBounds root.index true) <;> rfl

theorem marked_seenFirst (root i : Nat) : Marked (seenFirst root) i ↔ i = root := by
  have hlt : root < (Array.replicate (root + 1) false).size := by simp
  rw [seenFirst, marked_setIfInBounds hlt]
  by_cases hi : i < root + 1 <;>
    simp [Marked, Array.getD_eq_getD_getElem?, hi, eq_comm]

theorem explored (g : Graph α) (root : Expr) : g.Explored root where
  ends hroot := by
    have hstart : g.Searching root.index (root.index + 1) [root.index] (seenFirst root.index) :=
      searching_start root.index
    obtain ⟨taken, ht⟩ := visit_searches hroot _ hstart
    have hnodup := (ht.nodup hstart.stack_seen (by simp)).1
    refine ⟨taken, _, ht, hnodup, ht.reaches hstart.stack_seen hstart.reached, fun order horder => ?_,
      reachable_eq_visit hroot⟩
    have ho := reachable_ordered horder
    rw [List.perm_ext_iff_of_nodup hnodup (ho.sorted.imp Nat.ne_of_lt)]
    intro i
    rcases visit_spec hroot _ hstart with ⟨seen, hv, hseen, -⟩ | ⟨_, _, e, hv, -⟩
    · rw [hv] at ht
      have hmem := (ht.mem_taken hstart.stack_seen (by simp)).2 i
      rw [hmem, ho.mem_iff, hseen, marked_seenFirst, List.mem_singleton]
      constructor
      · rintro (rfl | ⟨hi, -⟩)
        · exact .refl _
        · exact hi
      · intro hi
        by_cases h : i = root.index
        · exact .inl h
        · exact .inr ⟨hi, h⟩
    · rw [reachable_eq_visit hroot, hv] at horder
      cases horder
  refuses_iff := by
    constructor
    · rintro ⟨k, hk⟩
      rcases g.reachable_spec root with ⟨order, h, -⟩ | ⟨k', h, hi⟩
      · cases hk.symm.trans h
      · cases hi with
        | root hsize => exact .inl hsize
        | operand _ hr hn he hle => exact .inr ⟨_, _, hr, hn, _, he, hle⟩
    · intro h
      rcases g.reachable_spec root with ⟨order, -, ho⟩ | ⟨k, hk, -⟩
      · rcases h with h | ⟨i, node, hr, hn, e, he, hle⟩
        · have := ho.root_lt
          omega
        · have := ho.closed i node hr hn e he
          omega
      · exact ⟨k, hk⟩
  error failure hf := by
    rcases g.reachable_spec root with ⟨order, h, -⟩ | ⟨k, h, hi⟩
    · cases hf.symm.trans h
    · exact ⟨k, Except.error.inj (hf.symm.trans h), hi⟩
  sorted _ h := (reachable_ordered h).sorted
  mem_iff _ h := (reachable_ordered h).mem_iff
  operands_before before i after h := by
    have ho := reachable_ordered h
    obtain ⟨node, hn⟩ := ho.node_exists (i := i) (by simp)
    exact ⟨node, hn, fun e he => ho.operand_before rfl hn he⟩

/-- The variables below a root are the variable nodes that it reaches, with the identities that the
nodes have, in the order of the nodes. There are none to be had just when the nodes cannot be
listed, for the same reason. -/
structure VariablesListed (g : Graph α) (root : Expr) : Prop where
  error_iff : ∀ failure, g.variablesOf root = .error failure ↔ g.reachable root = .error failure
  sorted : ∀ xs, g.variablesOf root = .ok xs → xs.Pairwise fun x y => x.expr.index < y.expr.index
  mem_iff : ∀ xs, g.variablesOf root = .ok xs → ∀ x, x ∈ xs ↔
    g.Reaches root.index x.expr.index ∧ g.nodes[x.expr.index]? = some (.variable x.id)

theorem variablesListed (g : Graph α) (root : Expr) : g.VariablesListed root where
  error_iff failure := by
    unfold variablesOf
    cases g.reachable root with
    | error e =>
      rw [error_bind]
      exact ⟨fun h => by cases h; rfl, fun h => by cases h; rfl⟩
    | ok order =>
      rw [ok_bind]
      exact ⟨nofun, nofun⟩
  sorted xs hxs := by
    obtain ⟨order, horder, h⟩ := bind_eq_ok.mp hxs
    obtain rfl : order.filterMap g.varAt? = xs := Except.ok.inj h
    refine (reachable_ordered horder).sorted.filterMap _ fun i j hij x hx y hy => ?_
    rw [(varAt?_eq_some.mp hx).1, (varAt?_eq_some.mp hy).1]
    exact hij
  mem_iff xs hxs := mem_variablesOf hxs

section

variable [Scalar α]

/-- Later variable nodes of a well-formed graph have higher numbers. -/
theorem WellFormed.number_lt {g : Graph α} (h : g.WellFormed) {i j : Nat} {a b : VarId}
    (hij : i < j) (hi : g.nodes[i]? = some (.variable a)) (hj : g.nodes[j]? = some (.variable b)) :
    a.number < b.number := by
  have hids : (g.nodes.toList.filterMap Node.varId?).Pairwise (fun a b => a.number < b.number) := by
    rw [h.ids, List.pairwise_map]
    exact List.pairwise_lt_range
  obtain ⟨hi', hni⟩ := Array.getElem?_eq_some_iff.mp hi
  obtain ⟨hj', hnj⟩ := Array.getElem?_eq_some_iff.mp hj
  have hnodes := List.pairwise_iff_getElem.mp (List.pairwise_filterMap.mp hids) i j hi' hj' hij
  rw [Array.getElem_toList, Array.getElem_toList, hni, hnj] at hnodes
  exact hnodes a rfl b rfl

/-- In a well-formed graph the variables below an expression are listed in the order of their
allocation, and none twice. -/
theorem WellFormed.variablesOf {g : Graph α} (h : g.WellFormed) {root : Expr}
    (hroot : root.index < g.size) :
    ∃ xs, g.variablesOf root = .ok xs ∧ xs.Pairwise fun x y => x.id.number < y.id.number := by
  have hclosed : g.Closed root.index := fun i node _ hn => h.operand_lt i node hn
  obtain ⟨xs, hxs⟩ := variablesOf_of_closed hroot hclosed
  have hlisted := g.variablesListed root
  refine ⟨xs, hxs, (hlisted.sorted xs hxs).imp_of_mem fun hx hy hxy => ?_⟩
  exact h.number_lt hxy ((hlisted.mem_iff xs hxs _).mp hx).2 ((hlisted.mem_iff xs hxs _).mp hy).2

/-- Reachability is exact in every graph: the search ends, having taken no node twice, it refuses
the root just when a node that the root reaches has an operand that does not precede it, and else
it lists the nodes that the root reaches, and the variables among them. After any history of a
graph the variables come in the order of their allocation. -/
theorem reachable_exact (g : Graph α) (root : Expr) :
    g.Explored root ∧ g.VariablesListed root ∧
    ∀ steps name, g = (Workspace.after steps).graphAt name → root.index < g.size →
      ∃ xs, g.variablesOf root = .ok xs ∧ xs.Pairwise fun x y => x.id.number < y.id.number := by
  refine ⟨g.explored root, g.variablesListed root, fun steps name hg hroot => ?_⟩
  have hwf : g.WellFormed := hg ▸ Workspace.after_wellFormed steps name
  exact hwf.variablesOf hroot

/-- A node that is its own operand is reported, a node above the root is not looked at. -/
example :
    let g : Graph α := ⟨#[.variable ⟨0⟩, .unary .exp ⟨0⟩, .binary .add ⟨1⟩ ⟨2⟩], 1⟩
    g.reachable ⟨1⟩ = .ok [0, 1] ∧ g.reachable ⟨2⟩ = .error (.refused (.foreignNode 2 3)) :=
  ⟨rfl, rfl⟩

end

end Graph

end Autodiff
