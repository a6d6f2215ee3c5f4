import Autodiff.Substitution
import Autodiff.Proofs.GrownValues

namespace Autodiff

variable {α β γ : Type}

/-- The node with other operands. -/
def Node.relocate (f : Expr → Expr) : Node α → Node α
  | .constant c => .constant c
  | .variable id => .variable id
  | .unary op arg => .unary op (f arg)
  | .binary op lhs rhs => .binary op (f lhs) (f rhs)
  | .power base n => .power (f base) n
  | .sum terms => .sum (terms.map f)

theorem Node.operands_relocate (f : Expr → Expr) (node : Node α) :
    (node.relocate f).operands = node.operands.map f := by
  cases node with
  | _ => rfl

theorem Node.relocate_ne_variable {node : Node α} (h : ∀ id, node ≠ .variable id)
    (f : Expr → Expr) (id : VarId) : node.relocate f ≠ .variable id := by
  cases node with
  | «variable» id => exact absurd rfl (h id)
  | _ => simp [Node.relocate]

theorem Node.power_of_relocate {node : Node α} {f : Expr → Expr} {base : Expr} {n : α}
    (h : node.relocate f = .power base n) : ∃ b, node = .power b n := by
  cases node with
  | power b m =>
    cases h
    exact ⟨b, rfl⟩
  | _ => cases h

namespace Graph

/-- Every node that takes part in a node has a property, which may depend on its place. -/
def Throughout (g : Graph α) (p : Nat → Node α → Prop) (i : Nat) : Prop :=
  ∀ j node, g.Reaches i j → g.nodes[j]? = some node → p j node

variable {g g' : Graph α} {p : Nat → Node α → Prop} {i : Nat} {node : Node α}

theorem throughout_node (hn : g.nodes[i]? = some node) (hlt : ∀ e ∈ node.operands, e.index < i) :
    g.Throughout p i ↔ p i node ∧ ∀ e ∈ node.operands, g.Throughout p e.index := by
  constructor
  · intro h
    exact ⟨h i node (.refl i) hn, fun e he j node' hr => h j node' (.step hn he (hlt e he) hr)⟩
  · rintro ⟨hp, hops⟩ j node' hr hn'
    cases hr with
    | refl =>
      obtain rfl : node = node' := Option.some.inj (hn.symm.trans hn')
      exact hp
    | step hn'' he _ hr =>
      obtain rfl := Option.some.inj (hn.symm.trans hn'')
      exact hops _ he j node' hr hn'

theorem throughout_constant {c : α} (hn : g.nodes[i]? = some (.constant c)) :
    g.Throughout p i ↔ p i (.constant c) := by
  rw [throughout_node hn (by simp [Node.operands])]
  simp [Node.operands]

/-- What takes part in an old node of an extended graph took part in it before. -/
theorem Reaches.retract (hg : g.Extends g') {j : Nat} (hi : i < g.size) (h : g'.Reaches i j) :
    g.Reaches i j := by
  induction h with
  | refl => exact .refl _
  | step hn he hlt _ ih =>
    rw [hg.kept _ hi] at hn
    exact .step hn he hlt (ih (Nat.lt_trans hlt hi))

theorem throughout_extend (hg : g.Extends g') (hi : i < g.size) :
    g'.Throughout p i ↔ g.Throughout p i := by
  constructor
  · exact fun h j node hr hn => h j node (hr.extend hg) (hg.node hn)
  · intro h j node hr hn
    have hr' := hr.retract hg hi
    rw [hg.kept j (Nat.lt_of_le_of_lt hr'.le hi)] at hn
    exact h j node hr' hn

theorem Throughout.mono {p' : Nat → Node α → Prop} (h : g.Throughout p i)
    (hp : ∀ j node, p j node → p' j node) : g.Throughout p' i :=
  fun j node hr hn => hp j node (h j node hr hn)

/-- A node comes after its operands, and if it is a variable, it is a permitted one. -/
def InOrder (permitted : Nat → Prop) (i : Nat) (node : Node α) : Prop :=
  (∀ e ∈ node.operands, e.index < i) ∧ ∀ id, node = .variable id → permitted i

/-- An expression of the graph whose nodes come after their operands and which depends on permitted
variables only. -/
structure Confined (g : Graph α) (permitted : Nat → Prop) (e : Expr) : Prop where
  lt : e.index < g.size
  nodes : g.Throughout (InOrder permitted) e.index

namespace Confined

variable {permitted permitted' : Nat → Prop} {e : Expr}

theorem extend (hg : g.Extends g') (h : g.Confined permitted e) : g'.Confined permitted e :=
  ⟨Nat.lt_of_lt_of_le h.lt hg.size_le, (throughout_extend hg h.lt).mpr h.nodes⟩

theorem mono (h : g.Confined permitted e) (hp : ∀ i, permitted i → permitted' i) :
    g.Confined permitted' e :=
  ⟨h.lt, h.nodes.mono fun i _ hi => ⟨hi.1, fun id hid => hp i (hi.2 id hid)⟩⟩

theorem operand_lt (h : g.Confined permitted e) (hn : g.nodes[e.index]? = some node) {a : Expr}
    (ha : a ∈ node.operands) : a.index < e.index := (h.nodes _ node (.refl _) hn).1 a ha

theorem operand (h : g.Confined permitted e) (hn : g.nodes[e.index]? = some node) {a : Expr}
    (ha : a ∈ node.operands) : g.Confined permitted a := by
  have hlt := h.operand_lt hn ha
  exact ⟨Nat.lt_trans hlt h.lt, fun j node' hr => h.nodes j node' (.step hn ha hlt hr)⟩

theorem closed (h : g.Confined permitted e) : g.Closed e.index :=
  fun i node hr hn => (h.nodes i node hr hn).1

theorem of_node (hn : g.nodes[e.index]? = some node) (hlt : ∀ a ∈ node.operands, a.index < e.index)
    (hvar : ∀ id, node = .variable id → permitted e.index)
    (hops : ∀ a ∈ node.operands, g.Confined permitted a) : g.Confined permitted e :=
  ⟨size_of_node hn, (throughout_node hn hlt).mpr ⟨⟨hlt, hvar⟩, fun a ha => (hops a ha).nodes⟩⟩

theorem of_constant {c : α} (hn : g.nodes[e.index]? = some (.constant c)) :
    g.Confined permitted e :=
  of_node hn (by simp [Node.operands]) (by simp) (by simp [Node.operands])

end Confined

/-- The terms that are no constants are all that matters for a property that constants have. -/
theorem forall_terms {q : Expr → Prop} (hq : ∀ t c, g.nodes[t.index]? = some (.constant c) → q t)
    (terms : List Expr) : (∀ t ∈ terms, q t) ↔ ∀ t ∈ g.variablePart terms, q t := by
  refine ⟨fun h t ht => h t (List.mem_of_mem_filter ht), fun h t ht => ?_⟩
  cases hc : g.constantAt? t.index with
  | some c => exact hq t c (constantAt?_eq_some.mp hc)
  | none => exact h t (List.mem_filter.mpr ⟨ht, by simp [hc]⟩)

variable [Scalar α]

/-- An expression stands for an operation on another one. -/
inductive IsUnary (g : Graph α) (op : UnaryOp) (a e : Expr) : Prop
  | folded {x : α} (ha : g.nodes[a.index]? = some (.constant x)) (hx : op = .log → 0 < x)
      (he : g.nodes[e.index]? = some (.constant (op.result x)))
  | undone (hop : op = .negate) (ha : g.nodes[a.index]? = some (.unary .negate e))
  | node (he : g.nodes[e.index]? = some (.unary op a)) (ha : a.index < e.index)

/-- An expression stands for what would be a node. -/
def StandsFor (g : Graph α) (e : Expr) : Node α → Prop
  | .constant c => g.nodes[e.index]? = some (.constant c)
  | .variable id => g.nodes[e.index]? = some (.variable id)
  | .unary op arg => g.IsUnary op arg e
  | .binary op lhs rhs => g.IsJoin op lhs rhs e
  | .power base n => g.IsPower base n e
  | .sum terms => g.IsSum terms e

/-- What stands for a node depends on nothing that its operands do not depend on. -/
theorem StandsFor.confined {permitted : Nat → Prop} {e : Expr} (h : g.StandsFor e node)
    (hvar : ∀ id, node ≠ .variable id) (hops : ∀ a ∈ node.operands, g.Confined permitted a) :
    g.Confined permitted e := by
  cases node with
  | constant c => exact .of_constant h
  | «variable» id => exact absurd rfl (hvar id)
  | unary op arg =>
    have harg := hops arg (by simp [Node.operands])
    cases h with
    | folded _ _ he => exact .of_constant he
    | undone _ ha => exact harg.operand ha (by simp [Node.operands])
    | node he ha => exact .of_node he (by simp [Node.operands, ha]) (by simp) hops
  | binary op lhs rhs =>
    cases h with
    | folded _ _ he => exact .of_constant he
    | right _ _ he => exact he ▸ hops rhs (by simp [Node.operands])
    | left _ _ he => exact he ▸ hops lhs (by simp [Node.operands])
    | node he ha hb => exact .of_node he (by simp [Node.operands, ha, hb]) (by simp) hops
  | power base n =>
    cases h with
    | one _ he => exact he ▸ hops base (by simp [Node.operands])
    | zero _ he => exact .of_constant he
    | folded _ _ he => exact .of_constant he
    | node he hb => exact .of_node he (by simp [Node.operands, hb]) (by simp) hops
  | sum terms =>
    have hkept : ∀ t ∈ g.variablePart terms, g.Confined permitted t := fun t ht =>
      hops t (List.mem_of_mem_filter ht)
    cases h with
    | constant _ he => exact .of_constant he
    | single hv _ => exact hkept e (by simp [hv])
    | node _ he hlt => exact .of_node he hlt (by simp) hkept
    | nodeWith hc he hlt =>
      refine .of_node he hlt (by simp) fun t ht => ?_
      rcases List.mem_append.mp ht with ht | ht
      · exact hkept t ht
      · obtain rfl := List.mem_singleton.mp ht
        exact .of_constant hc

end Graph

namespace Build

variable {g : Graph α}

theorem extends_of_push {node : Node α} {e : Expr} {g' : Graph α} (h : push node g = .ok e g') :
    g.Extends g' := by
  obtain ⟨-, rfl⟩ := push_eq_ok.mp h
  exact Graph.extends_push g node _

/-- Run from a graph, the action has an answer. -/
def Succeeds (act : Build α β) (g : Graph α) : Prop := ∃ x g', act g = .ok x g'

theorem succeeds_pure (x : β) : Succeeds (pure x) g := ⟨x, g, rfl⟩

theorem succeeds_push (node : Node α) : Succeeds (push node) g := ⟨_, _, rfl⟩

theorem Succeeds.bind {act : Build α β} {f : β → Build α γ} (h : act.Succeeds g)
    (hf : ∀ x g', act g = .ok x g' → (f x).Succeeds g') : Succeeds (act >>= f) g := by
  obtain ⟨x, g', hx⟩ := h
  obtain ⟨y, g'', hy⟩ := hf x g' hx
  exact ⟨y, g'', bind_eq_ok.mpr ⟨x, g', hx, hy⟩⟩

/-- Looking up an expression of the graph finds its node. -/
theorem lookup_of_lt {e : Expr} (he : e.index < g.size) :
    ∃ node, g.nodes[e.index]? = some node ∧ lookup e g = .ok node g :=
  ⟨_, Array.getElem?_eq_getElem he, lookup_eq_ok.mpr ⟨rfl, Array.getElem?_eq_getElem he⟩⟩

theorem mapM_lookup_of_lt {terms : List Expr} (hterms : ∀ t ∈ terms, t.index < g.size) :
    ∃ nodes, terms.mapM lookup g = .ok nodes g := by
  induction terms with
  | nil => exact ⟨[], rfl⟩
  | cons t terms ih =>
    obtain ⟨node, -, ht⟩ := lookup_of_lt (hterms t (by simp))
    obtain ⟨nodes, hnodes⟩ := ih fun t' ht' => hterms t' (by simp [ht'])
    refine ⟨node :: nodes, ?_⟩
    rw [List.mapM_cons]
    exact bind_eq_ok.mpr ⟨node, g, ht, bind_eq_ok.mpr ⟨nodes, g, hnodes, rfl⟩⟩

theorem succeeds_lookup_bind {e : Expr} (he : e.index < g.size) {f : Node α → Build α γ}
    (hf : ∀ node, (f node).Succeeds g) : Succeeds (lookup e >>= f) g := by
  obtain ⟨node, -, hrun⟩ := lookup_of_lt he
  refine Succeeds.bind ⟨node, g, hrun⟩ fun node' g' h => ?_
  obtain ⟨rfl, -⟩ := lookup_eq_ok.mp h
  exact hf node'

variable [Scalar α]

theorem succeeds_join {op : BinaryOp} {a b : Expr} (ha : a.index < g.size) (hb : b.index < g.size) :
    (join op a b).Succeeds g := by
  refine succeeds_lookup_bind ha fun na => succeeds_lookup_bind hb fun nb => ?_
  split
  next => exact succeeds_push _
  next =>
    split
    next => exact succeeds_pure b
    next => exact succeeds_push _
  next =>
    split
    next => exact succeeds_pure a
    next => exact succeeds_push _
  next => exact succeeds_push _

theorem succeeds_pow {base : Expr} (hb : base.index < g.size) (n : α) :
    (pow base n).Succeeds g := by
  refine succeeds_lookup_bind hb fun node => ?_
  split
  next => exact succeeds_pure base
  next =>
    split
    next => exact succeeds_push _
    next =>
      split
      next => exact succeeds_push _
      next => exact succeeds_push _

theorem succeeds_sum {terms : List Expr} (hterms : ∀ t ∈ terms, t.index < g.size) :
    (sum terms).Succeeds g := by
  obtain ⟨nodes, hnodes⟩ := mapM_lookup_of_lt hterms
  refine Succeeds.bind ⟨nodes, g, hnodes⟩ fun nodes' g' _ => ?_
  dsimp only
  split
  next => exact succeeds_push _
  next =>
    split
    next =>
      refine (succeeds_push _).bind fun c g₁ _ => (succeeds_pure _).bind fun summands g₂ _ => ?_
      split
      next => exact succeeds_pure _
      next => exact succeeds_push _
    next =>
      refine (succeeds_pure _).bind fun summands g₁ _ => ?_
      split
      next => exact succeeds_pure _
      next => exact succeeds_push _

/-- Builds what would be a node by the operation that is meant for it. -/
def ofNode : Node α → Build α Expr
  | .constant c => constant c
  | .variable id => push (.variable id)
  | .unary .negate arg => neg arg
  | .unary .exp arg => exp arg
  | .unary .log arg => log arg
  | .binary op lhs rhs => join op lhs rhs
  | .power base n => pow base n
  | .sum terms => sum terms

theorem succeeds_ofNode {node : Node α} (hops : ∀ a ∈ node.operands, a.index < g.size) :
    (ofNode node).Succeeds g := by
  cases node with
  | constant c => exact succeeds_push _
  | «variable» id => exact succeeds_push _
  | unary op arg =>
    have harg := hops arg (by simp [Node.operands])
    cases op with
    | negate =>
      refine succeeds_lookup_bind harg fun node => ?_
      split
      next => exact succeeds_push _
      next => exact succeeds_pure _
      next => exact succeeds_push _
    | exp =>
      refine succeeds_lookup_bind harg fun node => ?_
      split
      next => exact succeeds_push _
      next => exact succeeds_push _
    | log =>
      refine succeeds_lookup_bind harg fun node => ?_
      split
      next =>
        split
        next => exact succeeds_push _
        next => exact succeeds_push _
      next => exact succeeds_push _
  | binary op lhs rhs =>
    exact succeeds_join (hops lhs (by simp [Node.operands])) (hops rhs (by simp [Node.operands]))
  | power base n => exact succeeds_pow (hops base (by simp [Node.operands])) n
  | sum terms => exact succeeds_sum hops

/-- An operation on one expression that makes a node for it. -/
theorem push_unary_spec {op : UnaryOp} {a e : Expr} {node : Node α} {g' : Graph α}
    (ha : g.nodes[a.index]? = some node) (h : push (.unary op a) g = .ok e g') :
    g.Extends g' ∧ g'.IsUnary op a e :=
  ⟨extends_of_push h, .node (node_of_push h) (lt_of_push h (Graph.size_of_node ha))⟩

theorem push_folded_spec {op : UnaryOp} {a e : Expr} {x : α} {g' : Graph α}
    (ha : g.nodes[a.index]? = some (.constant x)) (hx : op = .log → 0 < x)
    (h : push (.constant (op.result x)) g = .ok e g') : g.Extends g' ∧ g'.IsUnary op a e := by
  have hext := extends_of_push h
  exact ⟨hext, .folded (hext.node ha) hx (node_of_push h)⟩

theorem neg_spec {a e : Expr} {g' : Graph α} (h : neg a g = .ok e g') :
    g.Extends g' ∧ g'.IsUnary .negate a e := by
  obtain ⟨node, g₁, hl, h⟩ := bind_eq_ok.mp h
  obtain ⟨rfl, ha⟩ := lookup_eq_ok.mp hl
  split at h
  next x => exact push_folded_spec ha (by simp) h
  next arg =>
    obtain ⟨rfl, rfl⟩ := pure_eq_ok.mp h
    exact ⟨.refl g, .undone rfl ha⟩
  next => exact push_unary_spec ha h

theorem exp_spec {a e : Expr} {g' : Graph α} (h : exp a g = .ok e g') :
    g.Extends g' ∧ g'.IsUnary .exp a e := by
  obtain ⟨node, g₁, hl, h⟩ := bind_eq_ok.mp h
  obtain ⟨rfl, ha⟩ := lookup_eq_ok.mp hl
  split at h
  next x => exact push_folded_spec ha (by simp) h
  next => exact push_unary_spec ha h

theorem log_spec {a e : Expr} {g' : Graph α} (h : log a g = .ok e g') :
    g.Extends g' ∧ g'.IsUnary .log a e := by
  obtain ⟨node, g₁, hl, h⟩ := bind_eq_ok.mp h
  obtain ⟨rfl, ha⟩ := lookup_eq_ok.mp hl
  split at h
  next x =>
    split at h
    next hx => exact push_folded_spec ha (fun _ => hx) h
    next => exact push_unary_spec ha h
  next => exact push_unary_spec ha h

/-- Building keeps the nodes that exist, and its answer stands for the node. -/
theorem ofNode_spec {node : Node α} {e : Expr} {g' : Graph α} (h : ofNode node g = .ok e g') :
    g.Extends g' ∧ g'.StandsFor e node := by
  cases node with
  | constant c => exact ⟨extends_of_push h, node_of_push h⟩
  | «variable» id => exact ⟨extends_of_push h, node_of_push h⟩
  | unary op arg =>
    cases op with
    | negate => exact neg_spec h
    | exp => exact exp_spec h
    | log => exact log_spec h
  | binary op lhs rhs => exact (join_spec 0 h).imp_left Graph.Grows.extension
  | power base n =>
    exact (pow_spec (Nat.lt_succ_self base.index) h).imp_left Graph.Grows.extension
  | sum terms =>
    obtain ⟨hgrow, hsum, -⟩ := sum_spec 0 h
    exact ⟨hgrow.extension, hsum⟩

end Build

end Autodiff
