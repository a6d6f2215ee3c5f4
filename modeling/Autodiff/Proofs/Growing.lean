import Mathlib.Data.List.Forall2
import Autodiff.TermVector
import Autodiff.Proofs.Storage

namespace Autodiff

variable {α β γ : Type}

/-- A node that has a value wherever its operands have one, unless it is a power of one of the
first `n` nodes. -/
def Node.Tame (n : Nat) : Node α → Prop
  | .unary _ _ => False
  | .power base _ => base.index < n
  | .constant _ | .variable _ | .binary _ _ _ | .sum _ => True

namespace Graph

/-- The second graph has the nodes of the first at the same places. -/
structure Extends (g g' : Graph α) : Prop where
  size_le : g.size ≤ g'.size
  kept : ∀ i < g.size, g'.nodes[i]? = g.nodes[i]?

/-- The second graph keeps the nodes of the first and has only tame nodes besides. -/
structure Grows (n : Nat) (g g' : Graph α) : Prop where
  size_le : g.size ≤ g'.size
  kept : ∀ i < g.size, g'.nodes[i]? = g.nodes[i]?
  tame : ∀ i node, g.size ≤ i → g'.nodes[i]? = some node → node.Tame n

theorem size_of_node {g : Graph α} {i : Nat} {node : Node α} (h : g.nodes[i]? = some node) :
    i < g.size := (Array.getElem?_eq_some_iff.mp h).1

theorem Extends.refl (g : Graph α) : g.Extends g := ⟨Nat.le_refl _, fun _ _ => rfl⟩

theorem Extends.trans {g g' g'' : Graph α} (h : g.Extends g') (h' : g'.Extends g'') :
    g.Extends g'' := by
  have hle := h.size_le
  refine ⟨Nat.le_trans hle h'.size_le, fun i hi => ?_⟩
  rw [h'.kept i (by omega), h.kept i hi]

theorem Extends.node {g g' : Graph α} (h : g.Extends g') {i : Nat} {node : Node α}
    (hn : g.nodes[i]? = some node) : g'.nodes[i]? = some node := by
  rw [h.kept i (size_of_node hn), hn]

theorem extends_push (g : Graph α) (node : Node α) (next : Nat) :
    g.Extends ⟨g.nodes.push node, next⟩ :=
  ⟨by simp [size], fun _ hi =>
    Array.getElem?_push_lt hi |>.trans (Array.getElem?_eq_getElem hi).symm⟩

theorem Grows.extension {n : Nat} {g g' : Graph α} (h : g.Grows n g') : g.Extends g' :=
  ⟨h.size_le, h.kept⟩

theorem Grows.refl (n : Nat) (g : Graph α) : g.Grows n g := by
  refine ⟨Nat.le_refl _, fun i _ => rfl, fun i node hi hn => ?_⟩
  have := size_of_node hn
  omega

theorem Grows.trans {n : Nat} {g g' g'' : Graph α} (h : g.Grows n g') (h' : g'.Grows n g'') :
    g.Grows n g'' := by
  have hle := h.extension.trans h'.extension
  refine ⟨hle.size_le, hle.kept, fun i node hi hn => ?_⟩
  by_cases hi' : i < g'.size
  · rw [h'.kept i hi'] at hn
    exact h.tame i node hi hn
  · exact h'.tame i node (by omega) hn

theorem Grows.node {n : Nat} {g g' : Graph α} (h : g.Grows n g') {i : Nat} {node : Node α}
    (hn : g.nodes[i]? = some node) : g'.nodes[i]? = some node := h.extension.node hn

theorem grows_push {n : Nat} (g : Graph α) {node : Node α} (hn : node.Tame n) (next : Nat) :
    g.Grows n ⟨g.nodes.push node, next⟩ := by
  have hext := extends_push g node next
  refine ⟨hext.size_le, hext.kept, fun i node' hi hn' => ?_⟩
  rw [Array.getElem?_push] at hn'
  split at hn'
  next =>
    obtain rfl := Option.some.inj hn'
    exact hn
  next =>
    have := size_of_node hn'
    omega

/-- The value of a constant node. -/
def constantAt? (g : Graph α) (i : Nat) : Option α := g.nodes[i]?.bind Node.constant?

theorem constantAt?_eq_some {g : Graph α} {i : Nat} {x : α} :
    g.constantAt? i = some x ↔ g.nodes[i]? = some (.constant x) := by
  rw [constantAt?]
  cases g.nodes[i]? with
  | none => simp
  | some node =>
    cases node with
    | constant value => simp [Node.constant?]
    | _ => simp [Node.constant?]

theorem Extends.constantAt? {g g' : Graph α} (h : g.Extends g') {i : Nat} (hi : i < g.size) :
    g'.constantAt? i = g.constantAt? i := by
  rw [Graph.constantAt?, h.kept i hi, Graph.constantAt?]

/-- The terms of a list that are no constants. -/
def variablePart (g : Graph α) (terms : List Expr) : List Expr :=
  terms.filter fun t => (g.constantAt? t.index).isNone

end Graph

namespace Build

theorem bind_eq_ok {act : Build α β} {f : β → Build α γ} {g g'' : Graph α} {y : γ} :
    (act >>= f) g = .ok y g'' ↔ ∃ x g', act g = .ok x g' ∧ f x g' = .ok y g'' :=
  bind_at_eq_ok

theorem pure_eq_ok {x y : β} {g g' : Graph α} :
    (pure x : Build α β) g = .ok y g' ↔ x = y ∧ g = g' := by
  simp [pure, EStateM.pure]

theorem lookup_eq_ok {e : Expr} {g g' : Graph α} {node : Node α} :
    lookup e g = .ok node g' ↔ g = g' ∧ g.nodes[e.index]? = some node := by
  have hget : (get : Build α (Graph α)) g = .ok g g := rfl
  simp only [lookup, bind, EStateM.bind, hget]
  cases g.nodes[e.index]? with
  | some node' =>
    have hpure : (pure node' : Build α (Node α)) g = .ok node' g := rfl
    simp [hpure, and_comm]
  | none =>
    have hthrow : (throw (.fault (.foreignHandle e.index g.size)) : Build α (Node α)) g =
        .error (.fault (.foreignHandle e.index g.size)) g := rfl
    simp [hthrow]

theorem push_eq_ok {node : Node α} {e : Expr} {g g' : Graph α} :
    push node g = .ok e g' ↔ e = ⟨g.size⟩ ∧ g' = ⟨g.nodes.push node, g.nextVar⟩ := by
  have hrun : push node g = .ok ⟨g.size⟩ ⟨g.nodes.push node, g.nextVar⟩ := rfl
  rw [hrun]
  simp [eq_comm]

theorem node_of_push {node : Node α} {e : Expr} {g g' : Graph α} (h : push node g = .ok e g') :
    g'.nodes[e.index]? = some node := by
  obtain ⟨rfl, rfl⟩ := push_eq_ok.mp h
  exact Array.getElem?_push_size

theorem grows_of_push {n : Nat} {node : Node α} {e : Expr} {g g' : Graph α} (hn : node.Tame n)
    (h : push node g = .ok e g') : g.Grows n g' := by
  obtain ⟨rfl, rfl⟩ := push_eq_ok.mp h
  exact Graph.grows_push g hn _

theorem lt_of_push {node : Node α} {e : Expr} {g g' : Graph α} (h : push node g = .ok e g')
    {i : Nat} (hi : i < g.size) : i < e.index := by
  obtain ⟨rfl, rfl⟩ := push_eq_ok.mp h
  exact hi

theorem newVar_eq_ok {x : Var} {g g' : Graph α} :
    newVar g = .ok x g' ↔
      x = ⟨⟨g.nextVar⟩, ⟨g.size⟩⟩ ∧
        g' = ⟨g.nodes.push (.variable ⟨g.nextVar⟩), g.nextVar + 1⟩ := by
  have hrun : newVar g = .ok ⟨⟨g.nextVar⟩, ⟨g.size⟩⟩
      ⟨g.nodes.push (.variable ⟨g.nextVar⟩), g.nextVar + 1⟩ := rfl
  rw [hrun]
  simp [eq_comm]

/-- New variables have variable nodes of their own. -/
structure Fresh (n : Nat) (g : Graph α) (x : Var) : Prop where
  le : n ≤ x.expr.index
  node : g.nodes[x.expr.index]? = some (.variable x.id)

theorem newVar_spec {x : Var} {g g' : Graph α} (n : Nat) (h : newVar g = .ok x g') :
    g.Grows n g' ∧ Fresh g.size g' x := by
  obtain ⟨rfl, rfl⟩ := newVar_eq_ok.mp h
  exact ⟨Graph.grows_push g (by trivial) _, ⟨Nat.le_refl _, Array.getElem?_push_size⟩⟩

theorem newVars_spec (n : Nat) {count : Nat} {xs : List Var} {g g' : Graph α}
    (h : newVars count g = .ok xs g') :
    g.Grows n g' ∧ xs.length = count ∧ ∀ x ∈ xs, Fresh g.size g' x := by
  induction count generalizing g xs with
  | zero =>
    obtain ⟨rfl, rfl⟩ := pure_eq_ok.mp h
    exact ⟨.refl n g, rfl, by simp⟩
  | succ count ih =>
    obtain ⟨x, g₁, hx, h⟩ := bind_eq_ok.mp h
    obtain ⟨rest, g₂, hrest, h⟩ := bind_eq_ok.mp h
    obtain ⟨rfl, rfl⟩ := pure_eq_ok.mp h
    obtain ⟨hgrow, hfresh⟩ := newVar_spec n hx
    obtain ⟨hgrow', hlen, hfresh'⟩ := ih hrest
    refine ⟨hgrow.trans hgrow', by rw [List.length_cons, hlen], fun y hy => ?_⟩
    rcases List.mem_cons.mp hy with rfl | hy
    · exact ⟨hfresh.le, hgrow'.node hfresh.node⟩
    · exact ⟨Nat.le_trans hgrow.size_le (hfresh' y hy).le, (hfresh' y hy).node⟩

/-- Doing something for each entry of a list, where every single action lets the graph grow and
brings about a relation that growing preserves. -/
theorem mapM_spec {n : Nat} {f : β → Build α γ} (rel : Graph α → β → γ → Prop) {xs : List β}
    {ys : List γ} {g g' : Graph α}
    (hf : ∀ x ∈ xs, ∀ g₁ y g₂, f x g₁ = .ok y g₂ → g₁.Grows n g₂ ∧ rel g₂ x y)
    (hrel : ∀ x y (g₁ g₂ : Graph α), g₁.Grows n g₂ → rel g₁ x y → rel g₂ x y)
    (h : xs.mapM f g = .ok ys g') : g.Grows n g' ∧ List.Forall₂ (rel g') xs ys := by
  induction xs generalizing g ys with
  | nil =>
    rw [List.mapM_nil] at h
    obtain ⟨rfl, rfl⟩ := pure_eq_ok.mp h
    exact ⟨.refl n g, .nil⟩
  | cons x xs ih =>
    rw [List.mapM_cons] at h
    obtain ⟨y, g₁, hx, h⟩ := bind_eq_ok.mp h
    obtain ⟨rest, g₂, hrest, h⟩ := bind_eq_ok.mp h
    obtain ⟨rfl, rfl⟩ := pure_eq_ok.mp h
    obtain ⟨hgrow, hy⟩ := hf x (by simp) g y g₁ hx
    obtain ⟨hgrow', hall⟩ := ih (fun x' hx' => hf x' (by simp [hx'])) hrest
    exact ⟨hgrow.trans hgrow', .cons (hrel x y g₁ g₂ hgrow' hy) hall⟩

theorem nodes_of_mapM_lookup {terms : List Expr} {nodes : List (Node α)} {g g' : Graph α}
    (h : terms.mapM lookup g = .ok nodes g') :
    g = g' ∧ (∀ t ∈ terms, t.index < g.size) ∧
      nodes.filterMap Node.constant? = (terms.filterMap fun t => g.constantAt? t.index) ∧
      ((terms.zip nodes).filter fun t => t.2.constant?.isNone).map Prod.fst =
        g.variablePart terms := by
  induction terms generalizing nodes with
  | nil =>
    rw [List.mapM_nil] at h
    obtain ⟨rfl, rfl⟩ := pure_eq_ok.mp h
    exact ⟨rfl, by simp, rfl, rfl⟩
  | cons t terms ih =>
    rw [List.mapM_cons] at h
    obtain ⟨node, g₁, ht, h⟩ := bind_eq_ok.mp h
    obtain ⟨rest, g₂, hrest, h⟩ := bind_eq_ok.mp h
    obtain ⟨rfl, rfl⟩ := pure_eq_ok.mp h
    obtain ⟨rfl, hnode⟩ := lookup_eq_ok.mp ht
    obtain ⟨rfl, hlt, hconst, hvar⟩ := ih hrest
    have hat : g.constantAt? t.index = node.constant? := by
      rw [Graph.constantAt?, hnode, Option.bind_some]
    refine ⟨rfl, fun t' ht' => ?_, ?_, ?_⟩
    · rcases List.mem_cons.mp ht' with rfl | ht'
      · exact Graph.size_of_node hnode
      · exact hlt t' ht'
    · rw [List.filterMap_cons, List.filterMap_cons, hat, hconst]
    · rw [Graph.variablePart] at hvar ⊢
      rw [List.zip_cons_cons, List.filter_cons, List.filter_cons, hat, ← hvar]
      split
      next => rfl
      next => rfl

end Build

end Autodiff
