import Autodiff.Proofs.Folding

namespace Autodiff

variable {α β γ : Type}

instance : WholeSquares ℝ where
  isInteger_two := @decide_eq_true _ (Classical.propDecidable _) ⟨2, by
    change (1 + 1 : ℝ) = 2
    norm_num⟩

instance : WholeSquares ℚ where
  isInteger_two := by decide +kernel

namespace Build

/-- Run from a graph, an action has an answer, which meets a condition in an extended graph. -/
def Gives (act : Build α β) (g : Graph α) (post : Graph α → β → Prop) : Prop :=
  ∃ x g', act g = .ok x g' ∧ g.Extends g' ∧ post g' x

variable {g : Graph α} {post : Graph α → β → Prop} {post' : Graph α → γ → Prop}

theorem Gives.pure {x : β} (h : post g x) : Gives (Pure.pure x) g post := ⟨x, g, rfl, .refl g, h⟩

theorem Gives.bind {act : Build α β} {f : β → Build α γ} (h : act.Gives g post)
    (hf : ∀ x g', g.Extends g' → post g' x → (f x).Gives g' post') : (act >>= f).Gives g post' := by
  obtain ⟨x, g₁, hact, hext, hx⟩ := h
  obtain ⟨y, g₂, hrest, hext', hy⟩ := hf x g₁ hext hx
  exact ⟨y, g₂, bind_eq_ok.mpr ⟨x, g₁, hact, hrest⟩, hext.trans hext', hy⟩

theorem Gives.mono {act : Build α β} {post' : Graph α → β → Prop} (h : act.Gives g post)
    (himp : ∀ g' x, g.Extends g' → post g' x → post' g' x) : act.Gives g post' := by
  obtain ⟨x, g', hact, hext, hx⟩ := h
  exact ⟨x, g', hact, hext, himp g' x hext hx⟩

end Build

namespace Graph

variable [Scalar α] {g g' : Graph α} {inputs : List Expr} {e : Expr} {value : (Expr → α) → α}

theorem Yields.retract {env : Nat → Option α} (hg : g.Extends g') {a : Expr} (ha : g.Sound a)
    {x : α} (h : g'.Yields env a.index (.ok x)) : g.Yields env a.index (.ok x) := by
  refine ⟨(defined_extend hg ha.lt ha.closed fun _ _ => rfl).mp h.1, ?_⟩
  rw [← valueAt_extend hg ha.lt fun _ _ => rfl, h.2]

/-- An expression has a value wherever some inputs have values, and the given one in terms of
theirs. -/
structure Denotes (g : Graph α) (inputs : List Expr) (value : (Expr → α) → α) (e : Expr) :
    Prop where
  inputs_sound : ∀ a ∈ inputs, g.Sound a
  sound : g.Sound e
  yields : ∀ env v, (∀ a ∈ inputs, g.Yields env a.index (.ok (v a))) →
    g.Yields env e.index (.ok (value v))

theorem Denotes.input (hs : ∀ a ∈ inputs, g.Sound a) (he : e ∈ inputs) :
    g.Denotes inputs (fun v => v e) e := ⟨hs, hs e he, fun _ _ hv => hv e he⟩

theorem Denotes.congr {value' : (Expr → α) → α} (h : g.Denotes inputs value e)
    (hv : ∀ v, value v = value' v) : g.Denotes inputs value' e := funext hv ▸ h

theorem Denotes.extend (hg : g.Extends g') (h : g.Denotes inputs value e) :
    g'.Denotes inputs value e where
  inputs_sound a ha := (h.inputs_sound a ha).extend hg
  sound := h.sound.extend hg
  yields env v hv := Yields.extend hg h.sound
    (h.yields env v fun a ha => (hv a ha).retract hg (h.inputs_sound a ha))

/-- Where the inputs can be evaluated, so can the expression. -/
theorem Denotes.evaluate_eq (h : g'.Denotes inputs value e) (hg : g.Extends g')
    (hs : ∀ a ∈ inputs, g.Sound a) {vars : List Var} {point : List α} (hb : g.Binds vars)
    (hl : vars.length = point.length) {v : Expr → α}
    (hv : ∀ a ∈ inputs, g.evaluate a vars point = .ok (v a)) :
    g'.evaluate e vars point = .ok (value v) := by
  refine Yields.evaluate_eq (r := .ok (value v)) (h.yields _ v fun a ha => ?_) h.sound
    (hb.extend hg) hl
  have hsound := hs a ha
  exact Yields.extend hg hsound
    ((evaluate_eq_ok hsound.lt hsound.closed hb).mp (hv a ha)).2

end Graph

namespace Graph

variable [ExactScalar α] {g : Graph α} {env : Nat → Option α} {a b e : Expr} {x y : α}

theorem IsUnary.yields_negate (h : g.IsUnary .negate a e) (hc : g.Closed a.index)
    (ha : g.Yields env a.index (.ok x)) : g.Yields env e.index (.ok (-x)) := by
  obtain ⟨hdefined, rfl⟩ := ha
  cases h with
  | folded hn _ he =>
    refine ⟨defined_constant he, ?_⟩
    rw [valueAt_constant he, valueAt_constant hn]
    rfl
  | undone _ hn =>
    have hlt := hc _ _ (.refl _) hn
    have hvalue : g.valueAt env a.index = -g.valueAt env e.index := valueAt_node hn hlt
    refine ⟨((defined_node hn hlt).mp hdefined).1 e (by simp [Node.operands]), ?_⟩
    rw [hvalue, neg_neg]
  | node he hlt =>
    have hlt : ∀ t ∈ (Node.unary .negate a : Node α).operands, t.index < e.index := by
      simpa [Node.operands] using hlt
    refine ⟨(defined_node he hlt).mpr ⟨by simpa [Node.operands] using hdefined, rfl⟩, ?_⟩
    exact valueAt_node he hlt

theorem IsJoin.yields_value {op : BinaryOp} (h : g.IsJoin op a b e)
    (ha : g.Yields env a.index (.ok x)) (hb : g.Yields env b.index (.ok y)) :
    g.Yields env e.index (.ok (op.value x y)) :=
  ⟨h.defined_iff.mpr ⟨ha.1, hb.1⟩, by rw [h.valueAt_eq, ha.2, hb.2]⟩

theorem IsPower.yields_square [SquarePowers α] [WholeSquares α] (h : g.IsPower a Scalar.two e)
    (ha : g.Yields env a.index (.ok x)) : g.Yields env e.index (.ok (x * x)) :=
  ⟨h.defined_square ha.1, by rw [h.valueAt_eq, ha.2]⟩

end Graph

namespace Build

open Autodiff.Graph

variable [ExactScalar α] {g : Graph α} {inputs : List Expr} {a b : Expr} {va vb : (Expr → α) → α}

/-- What is built for a node denotes what follows from standing for the node. -/
theorem gives_ofNode (node : Node α) (hvar : ∀ id, node ≠ .variable id)
    (hs : ∀ a ∈ inputs, g.Sound a) (hops : ∀ a ∈ node.operands, g.Sound a)
    {value : (Expr → α) → α}
    (hyields : ∀ g' e, g.Extends g' → g'.StandsFor e node → ∀ env v,
      (∀ a ∈ inputs, g'.Yields env a.index (.ok (v a))) → g'.Yields env e.index (.ok (value v))) :
    (ofNode node).Gives g fun g' e => g'.Denotes inputs value e := by
  obtain ⟨e, g', hrun, hleaves, hstands⟩ := leaves_ofNode node hvar hops
  have hext := hleaves.extension
  exact ⟨e, g', hrun, hext, fun a ha => (hs a ha).extend hext, hleaves.sound,
    hyields g' e hext hstands⟩

theorem neg_gives (ha : g.Denotes inputs va a) :
    (neg a).Gives g fun g' e => g'.Denotes inputs (fun v => -va v) e := by
  refine gives_ofNode (.unary .negate a) (by simp) ha.inputs_sound
    (by simpa [Node.operands] using ha.sound) fun g' e hext h env v hv => ?_
  have ha' := ha.extend hext
  exact IsUnary.yields_negate h ha'.sound.closed (ha'.yields env v hv)

theorem join_gives (op : BinaryOp) (ha : g.Denotes inputs va a) (hb : g.Denotes inputs vb b) :
    (join op a b).Gives g fun g' e => g'.Denotes inputs (fun v => op.value (va v) (vb v)) e := by
  refine gives_ofNode (.binary op a b) (by simp) ha.inputs_sound
    (by simp [Node.operands, ha.sound, hb.sound]) fun g' e hext h env v hv => ?_
  exact IsJoin.yields_value h ((ha.extend hext).yields env v hv) ((hb.extend hext).yields env v hv)

theorem add_gives (ha : g.Denotes inputs va a) (hb : g.Denotes inputs vb b) :
    (add a b).Gives g fun g' e => g'.Denotes inputs (fun v => va v + vb v) e := by
  rw [add_eq_join]
  exact join_gives .add ha hb

theorem mul_gives (ha : g.Denotes inputs va a) (hb : g.Denotes inputs vb b) :
    (mul a b).Gives g fun g' e => g'.Denotes inputs (fun v => va v * vb v) e := by
  rw [mul_eq_join]
  exact join_gives .multiply ha hb

theorem sub_gives (ha : g.Denotes inputs va a) (hb : g.Denotes inputs vb b) :
    (sub a b).Gives g fun g' e => g'.Denotes inputs (fun v => va v - vb v) e := by
  refine (neg_gives hb).bind fun n g₁ hext hn => ?_
  refine (add_gives (ha.extend hext) hn).mono fun g₂ e _ he => he.congr fun v => ?_
  exact (sub_eq_add_neg _ _).symm

theorem square_gives [SquarePowers α] [WholeSquares α] (ha : g.Denotes inputs va a) :
    (square a).Gives g fun g' e => g'.Denotes inputs (fun v => va v * va v) e := by
  refine gives_ofNode (.power a Scalar.two) (by simp) ha.inputs_sound
    (by simpa [Node.operands] using ha.sound) fun g' e hext h env v hv => ?_
  exact IsPower.yields_square h ((ha.extend hext).yields env v hv)

variable {terms : List Expr} {values : List ((Expr → α) → α)}

theorem sum_gives (hs : ∀ a ∈ inputs, g.Sound a)
    (h : List.Forall₂ (g.Denotes inputs) values terms) :
    (sum terms).Gives g fun g' e => g'.Denotes inputs (fun v => (values.map (· v)).sum) e := by
  have hsound : ∀ t ∈ terms, g.Sound t := by
    intro t ht
    obtain ⟨value, -, hvalue⟩ := exists_of_forall₂ h.flip ht
    exact hvalue.sound
  refine gives_ofNode (.sum terms) (by simp) hs hsound fun g' e hext hsum env v hv => ?_
  have hyields : List.Forall₂ (fun value t => g'.Yields env t.index (.ok (value v))) values terms :=
    h.imp fun value t ht => (ht.extend hext).yields env v hv
  refine ⟨(IsSum.defined_iff hsum).mpr fun t ht => ?_, ?_⟩
  · obtain ⟨value, -, hvalue⟩ := exists_of_forall₂ hyields.flip ht
    exact hvalue.1
  · rw [IsSum.valueAt_eq hsum, map_eq_of_forall₂ hyields fun value t ht => ht.2]

/-- Building something for each entry of a list, when each entry goes on to mean what it means. -/
theorem mapM_gives {f : β → Build α Expr} (rel : Graph α → γ → β → Prop)
    {value : γ → (Expr → α) → α} {ds : List γ} {xs : List β}
    (hrel : ∀ (g g' : Graph α) d x, g.Extends g' → rel g d x → rel g' d x)
    (hf : ∀ g d x, rel g d x → (f x).Gives g fun g' e => g'.Denotes inputs (value d) e)
    (h : List.Forall₂ (rel g) ds xs) :
    (xs.mapM f).Gives g fun g' es => List.Forall₂ (g'.Denotes inputs) (ds.map value) es := by
  induction xs generalizing ds g with
  | nil =>
    cases h
    exact .pure .nil
  | cons x xs ih =>
    obtain _ | ⟨hd, h⟩ := h
    rw [List.mapM_cons]
    refine (hf g _ x hd).bind fun e g₁ hext he => ?_
    refine (ih (h.imp fun d x => hrel g g₁ d x hext)).bind fun es g₂ hext' hes => ?_
    exact .pure (.cons (he.extend hext') hes)

end Build

end Autodiff
