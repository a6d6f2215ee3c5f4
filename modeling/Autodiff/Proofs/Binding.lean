import Autodiff.Binding
import Autodiff.Proofs.Storage

namespace Autodiff

/-- Where the variable of a node stands in a list of variables. -/
def position (vars : List Var) (i : Nat) : Option Nat :=
  vars.findIdx? fun x => x.expr.index == i

/-- The value that a point gives to the variable of a node. -/
def assignment {α : Type} (vars : List Var) (point : List α) (i : Nat) : Option α :=
  (position vars i).bind (point[·]?)

theorem position_lt {vars : List Var} {i k : Nat} (h : position vars i = some k) :
    k < vars.length := by
  obtain ⟨hk, -⟩ := List.findIdx?_eq_some_iff_getElem.mp h
  exact hk

theorem getElem_of_position {vars : List Var} {i k : Nat} (h : position vars i = some k) :
    ∃ x, vars[k]? = some x ∧ x.expr.index = i := by
  obtain ⟨hk, he, -⟩ := List.findIdx?_eq_some_iff_getElem.mp h
  exact ⟨vars[k], List.getElem?_eq_getElem hk, by simpa using he⟩

theorem position_inj {vars : List Var} {i j k : Nat} (hi : position vars i = some k)
    (hj : position vars j = some k) : i = j := by
  obtain ⟨x, hx, rfl⟩ := getElem_of_position hi
  obtain ⟨y, hy, rfl⟩ := getElem_of_position hj
  rw [Option.some.inj (hx.symm.trans hy)]

theorem position_cons (x : Var) (vars : List Var) (i : Nat) :
    position (x :: vars) i =
      if x.expr.index = i then some 0 else (position vars i).map (· + 1) := by
  simp only [position, List.findIdx?_cons, beq_iff_eq]

theorem position_append (xs ys : List Var) (i : Nat) :
    position (xs ++ ys) i = (position xs i).or ((position ys i).map (xs.length + ·)) := by
  simp only [position, List.findIdx?_append]
  congr 2
  funext k
  exact Nat.add_comm _ _

theorem position_eq_none_iff {vars : List Var} {i : Nat} :
    position vars i = none ↔ ∀ x ∈ vars, x.expr.index ≠ i := by
  simp [position, List.findIdx?_eq_none_iff]

theorem position_of_nodup {vars : List Var} (hn : (vars.map fun x => x.expr.index).Nodup) {k : Nat}
    {x : Var} (hk : vars[k]? = some x) : position vars x.expr.index = some k := by
  induction vars generalizing k with
  | nil => simp at hk
  | cons y vars ih =>
    rw [List.map_cons, List.nodup_cons] at hn
    rw [position_cons]
    cases k with
    | zero =>
      obtain rfl : y = x := by simpa using hk
      simp
    | succ k =>
      rw [List.getElem?_cons_succ] at hk
      have hne : y.expr.index ≠ x.expr.index := fun he =>
        hn.1 (List.mem_map.mpr ⟨x, List.mem_of_getElem? hk, he.symm⟩)
      rw [if_neg hne, ih hn.2 hk]
      rfl

theorem assignment_isSome {α : Type} {vars : List Var} {point : List α}
    (hl : vars.length = point.length) (i : Nat) :
    (assignment vars point i).isSome = (position vars i).isSome := by
  cases hp : position vars i with
  | none => simp [assignment, hp]
  | some k =>
    have hk : k < point.length := hl ▸ position_lt hp
    simp [assignment, hp, List.getElem?_eq_getElem hk]

/-- Variables in front of a list take their values from the front of the point. -/
theorem assignment_append {α : Type} {xs ys : List Var} {p q : List α}
    (hl : xs.length = p.length) {i : Nat} (hi : position ys i = none) :
    assignment (xs ++ ys) (p ++ q) i = assignment xs p i := by
  rw [assignment, assignment, position_append, hi]
  cases hp : position xs i with
  | none => rfl
  | some k =>
    have hk : k < p.length := hl ▸ position_lt hp
    simp [List.getElem?_append_left hk]

namespace Graph

variable {α : Type}

/-- The slot of the variable of a node, if it has one. -/
def Slots.at (slots : Slots) (i : Nat) : Option Nat := slots[i]?.join

/-- The listed variables name different variable nodes of the graph, with their identities. -/
structure Binds (g : Graph α) (vars : List Var) : Prop where
  node_eq : ∀ x ∈ vars, g.nodes[x.expr.index]? = some (.variable x.id)
  nodup : (vars.map fun x => x.expr.index).Nodup

theorem Binds.of_append {g : Graph α} {xs ys : List Var} (h : g.Binds (xs ++ ys)) : g.Binds xs := by
  have hnodup := h.nodup
  rw [List.map_append, List.nodup_append] at hnodup
  exact ⟨fun x hx => h.node_eq x (List.mem_append_left _ hx), hnodup.1⟩

/-- A variable that is bound in the second part of a list is not bound in the first. -/
theorem Binds.position_left {g : Graph α} {xs ys : List Var} (h : g.Binds (xs ++ ys)) {i k : Nat}
    (hp : position ys i = some k) : position xs i = none := by
  obtain ⟨y, hy, rfl⟩ := getElem_of_position hp
  have hnodup := h.nodup
  rw [List.map_append, List.nodup_append] at hnodup
  rw [position_eq_none_iff]
  intro x hx heq
  exact hnodup.2.2 _ (List.mem_map.mpr ⟨x, hx, rfl⟩) _
    (List.mem_map.mpr ⟨y, List.mem_of_getElem? hy, rfl⟩) heq

theorem Slots.at_unbound (g : Graph α) (i : Nat) : g.unbound.at i = none := by
  by_cases hi : i < g.size
  · simp [Slots.at, unbound, hi]
  · simp [Slots.at, unbound, hi]

theorem Slots.at_setIfInBounds {slots : Slots} {i : Nat} (hi : i < slots.size) (k j : Nat) :
    Slots.at (slots.setIfInBounds i (some k)) j = if i = j then some k else slots.at j := by
  simp only [Slots.at, Array.getElem?_setIfInBounds]
  by_cases hj : i = j
  · subst hj
    simp [hi]
  · simp [hj]

/-- Different nodes keep different slots when one of them takes a new slot. -/
theorem Slots.setIfInBounds_inj {slots : Slots} {i s : Nat} (hi : i < slots.size)
    (hlt : ∀ j k, slots.at j = some k → k < s)
    (hinj : ∀ j j' k, slots.at j = some k → slots.at j' = some k → j = j') {j j' k : Nat}
    (hj : Slots.at (slots.setIfInBounds i (some s)) j = some k)
    (hj' : Slots.at (slots.setIfInBounds i (some s)) j' = some k) : j = j' := by
  rw [at_setIfInBounds hi] at hj hj'
  split at hj
  next he =>
    split at hj'
    next he' => exact he.symm.trans he'
    next =>
      have := hlt j' k hj'
      cases hj
      omega
  next =>
    split at hj'
    next =>
      have := hlt j k hj
      cases hj'
      omega
    next => exact hinj j j' k hj hj'

theorem bind_cons (g : Graph α) (x : Var) (vars : List Var) (slots : Slots) (first : Nat) :
    g.bind (x :: vars) slots first =
      g.bindVar slots x first >>= fun slots => g.bind vars slots (first + 1) := rfl

theorem bind_append (g : Graph α) (xs ys : List Var) (slots : Slots) (first : Nat) :
    g.bind (xs ++ ys) slots first =
      g.bind xs slots first >>= fun slots => g.bind ys slots (first + xs.length) := by
  induction xs generalizing slots first with
  | nil => rfl
  | cons x xs ih =>
    simp only [List.cons_append, bind_cons]
    cases g.bindVar slots x first with
    | error e => rfl
    | ok slots' =>
      simp only [ok_bind, ih, List.length_cons]
      congr 2
      funext s
      congr 1
      omega

section

variable {g : Graph α} {slots : Slots} {x : Var}

theorem bindVar_eq (hsize : slots.size = g.size) (slot : Nat)
    (hn : g.nodes[x.expr.index]? = some (.variable x.id)) :
    g.bindVar slots x slot =
      match slots.at x.expr.index with
      | some _ => .error (.refused (.duplicateVariable x.id))
      | none => .ok (slots.setIfInBounds x.expr.index (some slot)) := by
  have hx : x.expr.index < slots.size := hsize ▸ (Array.getElem?_eq_some_iff.mp hn).1
  have hnode : g.node x.expr = .ok (.variable x.id) := by simp only [node, hn]
  have hfetch : fetch (α := α) slots x.expr.index = .ok slots[x.expr.index] :=
    fetch_eq_ok (Array.getElem?_eq_getElem hx)
  have hat : slots.at x.expr.index = slots[x.expr.index] := by
    simp [Slots.at, Array.getElem?_eq_getElem hx]
  simp only [bindVar, hnode, ok_bind, ↓reduceIte, hfetch, hat]
  cases slots[x.expr.index] with
  | none => exact store_eq_ok hx _
  | some k => rfl

/-- A handle that does not name its variable is foreign, whatever its slot. -/
theorem bindVar_foreign (slot : Nat) (hn : g.nodes[x.expr.index]? ≠ some (.variable x.id)) :
    g.bindVar slots x slot = .error (.refused (.foreignNode x.expr.index g.size)) := by
  unfold bindVar node
  split
  next n hn' =>
    rw [hn'] at hn
    cases n with
    | «variable» id =>
      have hid : ¬id = x.id := fun he => hn (he ▸ rfl)
      simp only [ok_bind, if_neg hid]
      rfl
    | _ => rfl
  next => rfl

end

/-- A variable gets a slot, or it is foreign, or it has a slot already. -/
theorem bindVar_spec (g : Graph α) {slots : Slots} (hsize : slots.size = g.size) (x : Var)
    (slot : Nat) :
    (g.nodes[x.expr.index]? = some (.variable x.id) ∧ slots.at x.expr.index = none ∧
      g.bindVar slots x slot = .ok (slots.setIfInBounds x.expr.index (some slot))) ∨
    (¬(g.nodes[x.expr.index]? = some (.variable x.id) ∧ slots.at x.expr.index = none) ∧
      (g.bindVar slots x slot = .error (.refused (.foreignNode x.expr.index g.size)) ∨
        g.bindVar slots x slot = .error (.refused (.duplicateVariable x.id)))) := by
  by_cases hn : g.nodes[x.expr.index]? = some (.variable x.id)
  · have hbind := bindVar_eq hsize slot hn
    cases hs : slots.at x.expr.index with
    | none => exact Or.inl ⟨hn, rfl, by rw [hbind, hs]⟩
    | some k => exact Or.inr ⟨by simp, Or.inr (by rw [hbind, hs])⟩
  · exact Or.inr ⟨fun h => hn h.1, Or.inl (bindVar_foreign slot hn)⟩

/-- A variable can be put in front of a list when the rest can be bound after it. -/
theorem bindable_cons {g : Graph α} {slots : Slots} {x : Var} {vars : List Var}
    (hx : x.expr.index < slots.size) (hn : g.nodes[x.expr.index]? = some (.variable x.id))
    (hfree : slots.at x.expr.index = none) (first : Nat) :
    (g.Binds vars ∧ ∀ y ∈ vars,
      Slots.at (slots.setIfInBounds x.expr.index (some first)) y.expr.index = none) ↔
      g.Binds (x :: vars) ∧ ∀ y ∈ x :: vars, slots.at y.expr.index = none := by
  have hset := Slots.at_setIfInBounds hx first
  constructor
  · rintro ⟨hbinds, hunset⟩
    have hne : ∀ y ∈ vars, x.expr.index ≠ y.expr.index := by
      intro y hy he
      have := hunset y hy
      rw [hset, if_pos he] at this
      cases this
    refine ⟨⟨List.forall_mem_cons.mpr ⟨hn, hbinds.node_eq⟩, ?_⟩,
      List.forall_mem_cons.mpr ⟨hfree, fun y hy => ?_⟩⟩
    · rw [List.map_cons, List.nodup_cons]
      refine ⟨fun hm => ?_, hbinds.nodup⟩
      obtain ⟨y, hy, he⟩ := List.mem_map.mp hm
      exact hne y hy he.symm
    · have := hunset y hy
      rwa [hset, if_neg (hne y hy)] at this
  · rintro ⟨hbinds, hunset⟩
    have hnodup := hbinds.nodup
    rw [List.map_cons, List.nodup_cons] at hnodup
    refine ⟨⟨fun y hy => hbinds.node_eq y (by simp [hy]), hnodup.2⟩, fun y hy => ?_⟩
    have hne : x.expr.index ≠ y.expr.index := fun he =>
      hnodup.1 (List.mem_map.mpr ⟨y, hy, he.symm⟩)
    rw [hset, if_neg hne]
    exact hunset y (by simp [hy])

/-- Binding succeeds for different variables of the graph that have no slot yet, and numbers them
from the first slot on; any other list is refused. -/
theorem bind_spec (g : Graph α) (vars : List Var) (slots : Slots) (hsize : slots.size = g.size)
    (first : Nat) :
    (g.Binds vars ∧ (∀ x ∈ vars, slots.at x.expr.index = none) ∧
      ∃ slots', g.bind vars slots first = .ok slots' ∧ slots'.size = g.size ∧
        ∀ i, slots'.at i = (slots.at i).or ((position vars i).map (first + ·))) ∨
    (¬(g.Binds vars ∧ ∀ x ∈ vars, slots.at x.expr.index = none) ∧
      ∃ e, g.bind vars slots first = .error (.refused e) ∧
        ((∃ k, e = .foreignNode k g.size) ∨ ∃ id, e = .duplicateVariable id)) := by
  induction vars generalizing slots first with
  | nil =>
    exact Or.inl ⟨⟨by simp, by simp⟩, by simp, slots, rfl, hsize, fun i => by simp [position]⟩
  | cons x vars ih =>
    rw [bind_cons]
    rcases g.bindVar_spec hsize x first with ⟨hn, hfree, hb⟩ | ⟨hbad, hb⟩
    · have hx : x.expr.index < slots.size :=
        hsize ▸ (Array.getElem?_eq_some_iff.mp hn).1
      have hset := Slots.at_setIfInBounds hx first
      have hcons := @bindable_cons _ g slots x vars hx hn hfree first
      rw [hb, ok_bind]
      rcases ih (slots.setIfInBounds x.expr.index (some first)) (by simpa using hsize)
          (first + 1) with
        ⟨hbinds, hunset, slots', hb', hsize', hat⟩ | ⟨hbad, e, hb', he⟩
      · obtain ⟨hbinds', hunset'⟩ := hcons.mp ⟨hbinds, hunset⟩
        refine Or.inl ⟨hbinds', hunset', slots', hb', hsize', fun i => ?_⟩
        rw [hat, hset, position_cons]
        by_cases hi : x.expr.index = i
        · subst hi
          simp [hfree]
        · simp only [if_neg hi, Option.map_map]
          congr 2
          funext k
          simp only [Function.comp_apply]
          omega
      · exact Or.inr ⟨fun h => hbad (hcons.mpr h), e, hb', he⟩
    · refine Or.inr ⟨fun h => hbad ⟨h.1.node_eq x (by simp), h.2 x (by simp)⟩, ?_⟩
      rcases hb with hb | hb
      · exact ⟨_, by rw [hb, error_bind], Or.inl ⟨_, rfl⟩⟩
      · exact ⟨_, by rw [hb, error_bind], Or.inr ⟨_, rfl⟩⟩

theorem bind_unbound_of_binds {g : Graph α} {vars : List Var} (h : g.Binds vars) :
    ∃ slots, g.bind vars g.unbound 0 = .ok slots ∧ slots.size = g.size ∧
      ∀ i, slots.at i = position vars i := by
  rcases g.bind_spec vars g.unbound (by simp [unbound]) 0 with
    ⟨-, -, slots, hb, hsize, hat⟩ | ⟨hbad, -⟩
  · refine ⟨slots, hb, hsize, fun i => ?_⟩
    rw [hat, Slots.at_unbound]
    simp
  · exact absurd ⟨h, fun x _ => Slots.at_unbound g _⟩ hbad

theorem binds_of_bind {g : Graph α} {vars : List Var} {slots : Slots}
    (h : g.bind vars g.unbound 0 = .ok slots) :
    g.Binds vars ∧ slots.size = g.size ∧ ∀ i, slots.at i = position vars i := by
  rcases g.bind_spec vars g.unbound (by simp [unbound]) 0 with
    ⟨hb, -, -⟩ | ⟨-, e, he, -⟩
  · obtain ⟨slots', h', hsize, hat⟩ := bind_unbound_of_binds hb
    obtain rfl : slots = slots' := Except.ok.inj (h.symm.trans h')
    exact ⟨hb, hsize, hat⟩
  · cases h.symm.trans he

end Graph

end Autodiff
