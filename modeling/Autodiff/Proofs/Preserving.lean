import Autodiff.Recording
import Autodiff.TermVector
import Autodiff.Proofs.Rebuilding

namespace Autodiff

variable {α β γ ε σ : Type}

/-- A condition on the state that an action has led to, whether it has succeeded or failed. -/
def EndsIn (inv : σ → Prop) : EStateM.Result ε σ β → Prop
  | .ok _ s | .error _ s => inv s

/-- An action that keeps up an invariant of the state. -/
def Preserves (inv : σ → Prop) (act : EStateM ε σ β) : Prop :=
  ∀ s, inv s → EndsIn inv (act s)

theorem EndsIn.get_bind {inv : σ → Prop} {f : σ → EStateM ε σ β} {s : σ} (h : EndsIn inv (f s s)) :
    EndsIn inv ((get >>= f) s) := h

namespace Preserves

variable {inv : σ → Prop}

theorem pure (x : β) : Preserves inv (Pure.pure x : EStateM ε σ β) := fun _ hs => hs

theorem throw (e : ε) : Preserves inv (MonadExcept.throw e : EStateM ε σ β) := fun _ hs => hs

theorem get : Preserves inv (MonadState.get : EStateM ε σ σ) := fun _ hs => hs

theorem bind {act : EStateM ε σ β} {f : β → EStateM ε σ γ} (h : Preserves inv act)
    (hf : ∀ x, Preserves inv (f x)) : Preserves inv (act >>= f) := by
  intro s hs
  have hact := h s hs
  simp only [Bind.bind, EStateM.bind]
  cases hrun : act s with
  | ok x s' =>
    rw [hrun] at hact
    exact hf x s' hact
  | error e s' =>
    rw [hrun] at hact
    exact hact

theorem returning {act : EStateM ε σ β} (h : Preserves inv act) (f : β → γ) :
    Preserves inv (do return f (← act)) := h.bind fun x => .pure (f x)

theorem mapM {f : β → EStateM ε σ γ} (hf : ∀ x, Preserves inv (f x)) (xs : List β) :
    Preserves inv (xs.mapM f) := by
  induction xs with
  | nil => exact .pure []
  | cons x xs ih =>
    rw [List.mapM_cons]
    exact (hf x).bind fun y => ih.returning (y :: ·)

theorem foldlM {f : γ → β → EStateM ε σ γ} (hf : ∀ x y, Preserves inv (f x y)) (ys : List β)
    (x : γ) : Preserves inv (ys.foldlM f x) := by
  induction ys generalizing x with
  | nil => exact .pure x
  | cons y ys ih =>
    rw [List.foldlM_cons]
    exact (hf x y).bind fun x' => ih x'

end Preserves

namespace Graph

variable [Scalar α]

/-- A node is no logarithm or power of a constant that could have been worked out at once. -/
def Irreducible (g : Graph α) : Node α → Prop
  | .unary .log arg =>
    ∃ node, g.nodes[arg.index]? = some node ∧ ∀ c, node = .constant c → ¬0 < c
  | .power base n =>
    ∃ node, g.nodes[base.index]? = some node ∧ ∀ c v, node = .constant c → powerValue c n ≠ .ok v
  | _ => True

/-- An invariant of graphs that does not mind the nodes which builder operations add, new variables
apart. -/
class Admitting (inv : Graph α → Prop) : Prop where
  pushed (g : Graph α) (node : Node α) : inv g → (∀ id, node ≠ .variable id) →
    g.Irreducible node → inv ⟨g.nodes.push node, g.nextVar⟩

end Graph

namespace Build

open Autodiff.Graph

variable {inv : Graph α → Prop}

/-- Where an action starts with a lookup, what follows may use the node in the graph as it was. -/
theorem lookup_bind_preserves (e : Expr) {f : Node α → Build α β}
    (hf : ∀ node (g : Graph α), inv g → g.nodes[e.index]? = some node → EndsIn inv (f node g)) :
    Preserves inv (lookup e >>= f) := by
  intro g hg
  unfold lookup
  rw [bind_assoc]
  refine .get_bind ?_
  split
  next node hn => exact hf node g hg hn
  next => exact hg

theorem lookup_preserves (e : Expr) : Preserves inv (lookup e : Build α (Node α)) := by
  rw [← bind_pure (lookup e)]
  exact lookup_bind_preserves e fun node g hg _ => hg

theorem ofExcept_preserves (r : Except (Failure α) β) : Preserves inv (ofExcept r) := by
  cases r with
  | ok x => exact .pure x
  | error e => exact .throw e

variable [Scalar α] [Admitting inv]

theorem push_preserves {node : Node α} (hvar : ∀ id, node ≠ .variable id)
    (hn : ∀ g : Graph α, g.Irreducible node) : Preserves inv (push node) := fun g hg =>
  Admitting.pushed g node hg hvar (hn g)

theorem constant_preserves (c : α) : Preserves inv (constant c) :=
  push_preserves (by simp) fun _ => trivial

theorem join_preserves (op : BinaryOp) (a b : Expr) :
    Preserves inv (join op a b : Build α Expr) := by
  have hpush : Preserves inv (push (.binary op a b) : Build α Expr) :=
    push_preserves (by simp) fun _ => trivial
  refine (lookup_preserves a).bind fun na => (lookup_preserves b).bind fun nb => ?_
  split
  next => exact constant_preserves _
  next =>
    split
    next => exact .pure b
    next => exact hpush
  next =>
    split
    next => exact .pure a
    next => exact hpush
  next => exact hpush

theorem add_preserves (a b : Expr) : Preserves inv (add a b : Build α Expr) := by
  rw [add_eq_join]
  exact join_preserves .add a b

theorem mul_preserves (a b : Expr) : Preserves inv (mul a b : Build α Expr) := by
  rw [mul_eq_join]
  exact join_preserves .multiply a b

theorem neg_preserves (a : Expr) : Preserves inv (neg a : Build α Expr) := by
  refine (lookup_preserves a).bind fun node => ?_
  split
  next => exact constant_preserves _
  next => exact .pure _
  next => exact push_preserves (by simp) fun _ => trivial

theorem sub_preserves (a b : Expr) : Preserves inv (sub a b : Build α Expr) :=
  (neg_preserves b).bind fun negative => add_preserves a negative

theorem exp_preserves (a : Expr) : Preserves inv (exp a : Build α Expr) := by
  refine (lookup_preserves a).bind fun node => ?_
  split
  next => exact constant_preserves _
  next => exact push_preserves (by simp) fun _ => trivial

/-- A logarithm of a constant is left only if the constant is not positive. -/
theorem log_preserves (a : Expr) : Preserves inv (log a : Build α Expr) := by
  have hpush (g : Graph α) (hg : inv g) (hn : g.Irreducible (.unary .log a)) :
      EndsIn inv (push (.unary .log a) g) :=
    Admitting.pushed g _ hg (by simp) hn
  refine lookup_bind_preserves a fun node g hg hn => ?_
  split
  next x =>
    split
    next => exact constant_preserves _ g hg
    next hx => exact hpush g hg ⟨_, hn, fun c hc => Node.constant.inj hc ▸ hx⟩
  next hnot => exact hpush g hg ⟨node, hn, fun c hc => (hnot c hc).elim⟩

/-- A power of a constant is left only if it has no value. -/
theorem pow_preserves (base : Expr) (n : α) : Preserves inv (pow base n) := by
  refine lookup_bind_preserves base fun node g hg hn => ?_
  split
  next => exact hg
  next =>
    split
    next => exact constant_preserves 1 g hg
    next =>
      have hpush (hv : ∀ v, node.constant?.map (powerValue · n) ≠ some (.ok v)) :
          EndsIn inv (push (.power base n) g) := by
        have hleft : g.Irreducible (.power base n) := by
          refine ⟨node, hn, fun c v hc hcv => hv v ?_⟩
          rw [hc, Node.constant?, Option.map_some, hcv]
        exact Admitting.pushed g _ hg (by simp) hleft
      rcases hfold : node.constant?.map (powerValue · n) with _ | _ | v
      · exact hpush (by simp [hfold])
      · exact hpush (by simp [hfold])
      · exact constant_preserves v g hg

theorem div_preserves (a b : Expr) : Preserves inv (div a b : Build α Expr) :=
  (pow_preserves b (-1)).bind fun reciprocal => mul_preserves a reciprocal

theorem sum_preserves (terms : List Expr) : Preserves inv (sum terms : Build α Expr) := by
  refine (Preserves.mapM lookup_preserves terms).bind fun nodes => ?_
  dsimp only
  split
  next => exact constant_preserves _
  next =>
    split
    next =>
      refine (constant_preserves _).bind fun c => (Preserves.pure _).bind fun summands => ?_
      split
      next => exact .pure _
      next => exact push_preserves (by simp) fun _ => trivial
    next =>
      refine (Preserves.pure _).bind fun summands => ?_
      split
      next => exact .pure _
      next => exact push_preserves (by simp) fun _ => trivial

theorem ofNode_preserves {node : Node α} (hvar : ∀ id, node ≠ .variable id) :
    Preserves inv (ofNode node) := by
  cases node with
  | constant c => exact constant_preserves c
  | «variable» id => exact absurd rfl (hvar id)
  | unary op arg =>
    cases op with
    | negate => exact neg_preserves arg
    | exp => exact exp_preserves arg
    | log => exact log_preserves arg
  | binary op lhs rhs => exact join_preserves op lhs rhs
  | power base n => exact pow_preserves base n
  | sum terms => exact sum_preserves terms

theorem rebuild_preserves (slots : Graph.Slots) (values : Array α) (image : Array Expr) (i : Nat)
    (node : Node α) : Preserves inv (rebuild slots values image i node) := by
  cases node with
  | constant c => exact .pure none
  | «variable» id =>
    refine (ofExcept_preserves _).bind fun slot => ?_
    cases slot with
    | none => exact .pure none
    | some slot => exact (ofExcept_preserves _).bind fun c => (constant_preserves c).returning some
  | unary op arg =>
    refine (ofExcept_preserves _).bind fun a => ?_
    split
    next => exact .pure none
    next =>
      cases op with
      | negate => exact (neg_preserves a).returning some
      | exp => exact (exp_preserves a).returning some
      | log => exact (log_preserves a).returning some
  | binary op lhs rhs =>
    refine (ofExcept_preserves _).bind fun a => (ofExcept_preserves _).bind fun b => ?_
    split
    next => exact .pure none
    next =>
      cases op with
      | add => exact (add_preserves a b).returning some
      | multiply => exact (mul_preserves a b).returning some
  | power base n =>
    refine (ofExcept_preserves _).bind fun b => ?_
    split
    next => exact .pure none
    next => exact (pow_preserves b n).returning some
  | sum terms =>
    refine (Preserves.mapM (fun t => ofExcept_preserves _) terms).bind fun mapped => ?_
    split
    next => exact .pure none
    next => exact (sum_preserves mapped).returning some

theorem substitute_preserves (root : Expr) (vars : List Var) (values : List α) :
    Preserves inv (substitute root vars values) := by
  have hstep (slots : Graph.Slots) (image : Array Expr) (i : Nat) :
      Preserves inv (substituteStep slots values.toArray image i) := by
    refine Preserves.get.bind fun g => (ofExcept_preserves _).bind fun node => ?_
    refine (rebuild_preserves slots _ image i node).bind fun r => ?_
    cases r with
    | none => exact .pure image
    | some e => exact ofExcept_preserves _
  unfold substitute
  split
  next => exact .throw _
  next =>
    refine Preserves.get.bind fun g => (ofExcept_preserves _).bind fun order => ?_
    refine (ofExcept_preserves _).bind fun slots => ?_
    exact (Preserves.foldlM (hstep slots) order _).bind fun image => ofExcept_preserves _

end Build

open Autodiff.Graph

variable {inv : Graph α → Prop}

theorem TermVector.zipWith_preserves {f : Expr → Expr → Build α Expr}
    (hf : ∀ x y, Preserves inv (f x y)) (a b : TermVector) :
    Preserves inv (TermVector.zipWith f a b) := by
  unfold TermVector.zipWith
  split
  next => exact (Preserves.mapM (fun p : Expr × Expr => hf p.1 p.2) _).returning TermVector.mk
  next => exact .throw _

variable [Scalar α] [Admitting inv]

theorem TermVector.dot_preserves (a b : TermVector) :
    Preserves inv (a.dot b : Build α Expr) :=
  (a.zipWith_preserves Build.mul_preserves b).bind fun _ => Build.sum_preserves _

theorem TermVector.normSquared_preserves (a : TermVector) :
    Preserves inv (a.normSquared : Build α Expr) :=
  (Preserves.mapM (fun e => Build.pow_preserves e Scalar.two) a.components).bind fun squares =>
    Build.sum_preserves squares

theorem TermVector.cross_preserves (a b : TermVector) :
    Preserves inv (a.cross b : Build α TermVector) := by
  have hminor (p q r s : Expr) : Preserves inv (cross.minor p q r s : Build α Expr) :=
    (Build.mul_preserves p q).bind fun first => (Build.mul_preserves r s).bind fun second =>
      Build.sub_preserves first second
  unfold TermVector.cross
  split
  next a0 a1 a2 b0 b1 b2 _ _ =>
    refine (hminor a1 b2 a2 b1).bind fun x => (hminor a2 b0 a0 b2).bind fun y => ?_
    exact (hminor a0 b1 a1 b0).returning _
  next => exact .throw _

theorem BinaryOperator.build_preserves (op : BinaryOperator) (a b : Expr) :
    Preserves inv (op.build a b : Build α Expr) := by
  cases op with
  | add => exact Build.add_preserves a b
  | sub => exact Build.sub_preserves a b
  | mul => exact Build.mul_preserves a b
  | div => exact Build.div_preserves a b

theorem UnaryOperator.build_preserves (op : UnaryOperator) (a : Expr) :
    Preserves inv (op.build a : Build α Expr) := by
  cases op with
  | neg => exact Build.neg_preserves a
  | exp => exact Build.exp_preserves a
  | log => exact Build.log_preserves a
  | square => exact Build.pow_preserves a Scalar.two

theorem Operand.toExpr_preserves (a : Operand α) : Preserves inv a.toExpr := by
  cases a with
  | number value => exact Build.constant_preserves value
  | expr e => exact .pure e

end Autodiff
