import Autodiff.Proofs.Denotations
import Autodiff.TermVector

namespace Autodiff

variable {α β γ : Type}

theorem forall₂_pairs {δ : Type} {r : β → δ → Prop} {r' : γ → δ → Prop} {as : List β} {bs : List γ}
    {xs ys : List δ} (h : List.Forall₂ r as xs) (h' : List.Forall₂ r' bs ys) :
    List.Forall₂ (fun d x => r d.1 x.1 ∧ r' d.2 x.2) (as.zip bs) (xs.zip ys) := by
  induction h generalizing bs ys with
  | nil => exact .nil
  | cons hx _ ih =>
    cases h' with
    | nil => exact .nil
    | cons hy h' => exact .cons ⟨hx, hy⟩ (ih h')

namespace TermVector

open Autodiff.Graph Build

variable [ExactScalar α] {g : Graph α} {inputs : List Expr} {a b : TermVector}
  {as bs : List ((Expr → α) → α)}

/-- The components of a vector have the given values in terms of those of the inputs. -/
abbrev Denotes (g : Graph α) (inputs : List Expr) (values : List ((Expr → α) → α))
    (a : TermVector) : Prop := List.Forall₂ (g.Denotes inputs) values a.components

theorem Denotes.extend {g' : Graph α} (hg : g.Extends g') (h : a.Denotes g inputs as) :
    a.Denotes g' inputs as := List.Forall₂.imp (fun _ _ he => Graph.Denotes.extend hg he) h

theorem Denotes.input (hs : ∀ e ∈ inputs, g.Sound e) (ha : ∀ e ∈ a.components, e ∈ inputs) :
    a.Denotes g inputs (a.components.map fun e v => v e) := by
  rw [Denotes, List.forall₂_map_left_iff, List.forall₂_same]
  exact fun e he => .input hs (ha e he)

theorem zipWith_gives {f : Expr → Expr → Build α Expr} {op : α → α → α}
    (hf : ∀ (g : Graph α) x y vx vy, g.Denotes inputs vx x → g.Denotes inputs vy y →
      (f x y).Gives g fun g' e => g'.Denotes inputs (fun v => op (vx v) (vy v)) e)
    (ha : a.Denotes g inputs as) (hb : b.Denotes g inputs bs) (hsize : a.size = b.size) :
    (zipWith f a b).Gives g fun g' c =>
      c.Denotes g' inputs ((as.zip bs).map fun d v => op (d.1 v) (d.2 v)) := by
  rw [zipWith, if_pos hsize]
  have hpairs := forall₂_pairs ha hb
  refine Gives.bind (mapM_gives (fun g (d : _ × _) (x : Expr × Expr) =>
    g.Denotes inputs d.1 x.1 ∧ g.Denotes inputs d.2 x.2) ?_ ?_ hpairs) fun es g' _ hes => .pure hes
  · exact fun _ _ _ _ hext h => ⟨h.1.extend hext, h.2.extend hext⟩
  · exact fun g d x h => hf g x.1 x.2 d.1 d.2 h.1 h.2

theorem map_gives {f : Expr → Build α Expr} (op : (Expr → α) → α → α)
    (hf : ∀ (g' : Graph α) x vx, g.Extends g' → g'.Denotes inputs vx x →
      (f x).Gives g' fun g'' e => g''.Denotes inputs (fun v => op v (vx v)) e)
    (ha : a.Denotes g inputs as) :
    (a.components.mapM f).Gives g fun g' es =>
      List.Forall₂ (g'.Denotes inputs) (as.map fun d v => op v (d v)) es := by
  refine mapM_gives (fun g' d x => g.Extends g' ∧ g'.Denotes inputs d x) ?_ ?_ ?_
  · exact fun _ _ d x hext h => ⟨h.1.trans hext, h.2.extend hext⟩
  · exact fun g' d x h => hf g' x d h.1 h.2
  · exact ha.imp fun d x h => ⟨.refl g, h⟩

theorem dot_gives (hs : ∀ e ∈ inputs, g.Sound e) (ha : a.Denotes g inputs as)
    (hb : b.Denotes g inputs bs) (hsize : a.size = b.size) :
    (dot a b).Gives g fun g' e =>
      g'.Denotes inputs (fun v => ((as.zip bs).map fun d => d.1 v * d.2 v).sum) e := by
  refine (zipWith_gives (fun g x y vx vy => mul_gives) ha hb hsize).bind fun c g' hext hc => ?_
  refine (sum_gives (fun e he => (hs e he).extend hext) hc).mono fun g'' e _ he => ?_
  simpa only [List.map_map, Function.comp_def] using he

theorem minor_gives {p q r s : Expr} {vp vq vr vs : (Expr → α) → α} (hp : g.Denotes inputs vp p)
    (hq : g.Denotes inputs vq q) (hr : g.Denotes inputs vr r) (hs : g.Denotes inputs vs s) :
    (cross.minor p q r s).Gives g fun g' e =>
      g'.Denotes inputs (fun v => vp v * vq v - vr v * vs v) e := by
  refine (mul_gives hp hq).bind fun first g₁ hext hfirst => ?_
  refine (mul_gives (hr.extend hext) (hs.extend hext)).bind fun second g₂ hext' hsecond => ?_
  exact sub_gives (hfirst.extend hext') hsecond

/-- The components of a cross product in terms of those of its factors, which are given in terms of the
inputs. -/
def crossValues (x0 x1 x2 y0 y1 y2 : (Expr → α) → α) : List ((Expr → α) → α) :=
  [fun v => x1 v * y2 v - x2 v * y1 v, fun v => x2 v * y0 v - x0 v * y2 v,
    fun v => x0 v * y1 v - x1 v * y0 v]

variable {x0 x1 x2 y0 y1 y2 : (Expr → α) → α}

theorem cross_gives (ha : a.Denotes g inputs [x0, x1, x2]) (hb : b.Denotes g inputs [y0, y1, y2]) :
    (cross a b).Gives g fun g' c => c.Denotes g' inputs (crossValues x0 x1 x2 y0 y1 y2) := by
  obtain ⟨xs⟩ := a
  obtain ⟨ys⟩ := b
  obtain _ | ⟨hx0, _ | ⟨hx1, _ | ⟨hx2, _ | _⟩⟩⟩ := ha
  obtain _ | ⟨hy0, _ | ⟨hy1, _ | ⟨hy2, _ | _⟩⟩⟩ := hb
  refine (minor_gives hx1 hy2 hx2 hy1).bind fun x g₁ h₁ hx => ?_
  refine (minor_gives (hx2.extend h₁) (hy0.extend h₁) (hx0.extend h₁) (hy2.extend h₁)).bind
    fun y g₂ h₂ hy => ?_
  have h := h₁.trans h₂
  refine (minor_gives (hx0.extend h) (hy1.extend h) (hx1.extend h) (hy0.extend h)).bind
    fun z g₃ h₃ hz => .pure ?_
  exact .cons (hx.extend (h₂.trans h₃)) (.cons (hy.extend h₃) (.cons hz .nil))

end TermVector

/-- Building succeeds with expressions of an extended graph. Wherever the inputs can be evaluated, so
can these, and their values are the given ones in terms of the values of the inputs. -/
def Build.Computes [Scalar α] (act : Build α (List Expr)) (g : Graph α) (inputs : List Expr)
    (values : (Expr → α) → List α) : Prop :=
  act.Gives g fun g' es => ∀ (vars : List Var) (point : List α) (v : Expr → α), g.Binds vars →
    vars.length = point.length → (∀ a ∈ inputs, g.evaluate a vars point = .ok (v a)) →
      es.mapM (fun e => g'.evaluate e vars point) = .ok (values v)

namespace TermVector

open Autodiff.Graph Build

variable [ExactScalar α] {g : Graph α} {inputs : List Expr}

theorem computes_of_gives {act : Build α (List Expr)} (values : List ((Expr → α) → α))
    {results : (Expr → α) → List α} (hs : ∀ a ∈ inputs, g.Sound a)
    (h : act.Gives g fun g' es => List.Forall₂ (g'.Denotes inputs) values es)
    (hresults : ∀ v, values.map (· v) = results v) : act.Computes g inputs results := by
  obtain ⟨es, g', hact, hext, hes⟩ := h
  refine ⟨es, g', hact, hext, fun vars point v hb hl hv => ?_⟩
  rw [← hresults v, mapM_eq_ok_iff]
  refine List.forall₂_map_right_iff.mpr (hes.flip.imp fun e value he => ?_)
  exact he.evaluate_eq hext hs hb hl hv

theorem vector_computes {act : Build α TermVector} {values : List ((Expr → α) → α)}
    {results : (Expr → α) → List α} (hs : ∀ a ∈ inputs, g.Sound a)
    (h : act.Gives g fun g' c => c.Denotes g' inputs values)
    (hresults : ∀ v, values.map (· v) = results v) :
    Computes (return (← act).components) g inputs results :=
  computes_of_gives values hs (h.bind fun _ _ _ hc => .pure hc) hresults

theorem expr_computes {act : Build α Expr} {value : (Expr → α) → α}
    (hs : ∀ a ∈ inputs, g.Sound a) (h : act.Gives g fun g' e => g'.Denotes inputs value e) :
    Computes (return [← act]) g inputs fun v => [value v] :=
  computes_of_gives [value] hs (h.bind fun _ _ _ he => .pure (.cons he .nil))
    fun _ => rfl

section

variable {a b : TermVector} (ha : ∀ e ∈ a.components, g.Sound e)
  (hb : ∀ e ∈ b.components, g.Sound e)

include ha hb

omit [ExactScalar α] in
theorem sound_of_both : ∀ e ∈ a.components ++ b.components, g.Sound e :=
  fun e he => (List.mem_append.mp he).elim (ha e) (hb e)

theorem denotes_both :
    a.Denotes g (a.components ++ b.components) (a.components.map fun e v => v e) ∧
      b.Denotes g (a.components ++ b.components) (b.components.map fun e v => v e) :=
  ⟨.input (sound_of_both ha hb) fun _ he => List.mem_append_left _ he,
    .input (sound_of_both ha hb) fun _ he => List.mem_append_right _ he⟩

theorem zipWith_computes {f : Expr → Expr → Build α Expr} (op : α → α → α)
    (hf : ∀ (g' : Graph α) x y vx vy, g'.Denotes (a.components ++ b.components) vx x →
      g'.Denotes (a.components ++ b.components) vy y → (f x y).Gives g' fun g'' e =>
        g''.Denotes (a.components ++ b.components) (fun v => op (vx v) (vy v)) e)
    (hsize : a.size = b.size) :
    Computes (return (← zipWith f a b).components) g (a.components ++ b.components)
      fun v => (a.components.zip b.components).map fun p => op (v p.1) (v p.2) := by
  obtain ⟨hda, hdb⟩ := denotes_both ha hb
  refine vector_computes (sound_of_both ha hb) (zipWith_gives hf hda hdb hsize) fun v => ?_
  simp only [List.zip_map, List.map_map, Function.comp_def, Prod.map_fst, Prod.map_snd]

theorem dot_computes (hsize : a.size = b.size) :
    Computes (return [← dot a b]) g (a.components ++ b.components)
      fun v => [((a.components.zip b.components).map fun p => v p.1 * v p.2).sum] := by
  obtain ⟨hda, hdb⟩ := denotes_both ha hb
  have hs := sound_of_both ha hb
  refine expr_computes hs ((dot_gives hs hda hdb hsize).mono fun g' e _ he => ?_)
  simpa only [List.zip_map, List.map_map, Function.comp_def, Prod.map_fst, Prod.map_snd] using he

end

variable {a b : TermVector}

theorem map_computes {f : Expr → Build α Expr} (op : (Expr → α) → α → α)
    (hs : ∀ e ∈ inputs, g.Sound e) (ha : ∀ e ∈ a.components, e ∈ inputs)
    (hf : ∀ (g' : Graph α) x vx, g.Extends g' → g'.Denotes inputs vx x →
      (f x).Gives g' fun g'' e => g''.Denotes inputs (fun v => op v (vx v)) e) :
    Computes (return (← (return ⟨← a.components.mapM f⟩ : Build α TermVector)).components) g inputs
      fun v => a.components.map fun e => op v (v e) := by
  have hmap := map_gives op hf (.input hs ha)
  refine vector_computes hs (hmap.bind fun es g' _ hes => .pure hes) fun v => ?_
  simp only [List.map_map, Function.comp_def]

theorem neg_computes (ha : ∀ e ∈ a.components, g.Sound e) :
    Computes (return (← neg a).components) g a.components
      fun v => a.components.map fun e => -v e :=
  map_computes (fun _ x => -x) ha (fun _ he => he) fun _ _ _ _ => neg_gives

theorem scale_computes {k : Expr} (ha : ∀ e ∈ a.components, g.Sound e) (hk : g.Sound k) :
    Computes (return (← scale a k).components) g (k :: a.components)
      fun v => a.components.map fun e => v k * v e := by
  have hs : ∀ e ∈ k :: a.components, g.Sound e := by
    simpa using ⟨hk, ha⟩
  refine map_computes (fun v x => v k * x) hs (fun _ he => List.mem_cons_of_mem k he) ?_
  intro g' x vx hext hx
  exact mul_gives ((Graph.Denotes.input hs List.mem_cons_self).extend hext) hx

variable [SquarePowers α] [WholeSquares α]

theorem normSquared_computes (ha : ∀ e ∈ a.components, g.Sound e) :
    Computes (return [← normSquared a]) g a.components
      fun v => [(a.components.map fun e => v e * v e).sum] := by
  have hmap := map_gives (fun _ x => x * x) (fun _ _ _ _ => square_gives)
    (Denotes.input ha fun _ he => he)
  have hsum : (normSquared a).Gives g fun g' e =>
      g'.Denotes a.components (fun v => (a.components.map fun e => v e * v e).sum) e := by
    refine hmap.bind fun es g' hext hes => ?_
    refine (sum_gives (fun e he => (ha e he).extend hext) hes).mono fun g'' e _ he => ?_
    simpa only [List.map_map, Function.comp_def] using he
  exact expr_computes ha hsum

end TermVector

/-- The cross product of two lists of three numbers. -/
def crossProduct [Scalar α] : List α → List α → List α
  | [a0, a1, a2], [b0, b1, b2] => [a1 * b2 - a2 * b1, a2 * b0 - a0 * b2, a0 * b1 - a1 * b0]
  | _, _ => []

namespace TermVector

open Autodiff.Graph Build

variable [ExactScalar α] {g : Graph α} {a b : TermVector}

omit [ExactScalar α] in
theorem zipWith_error [Scalar α] {f : Expr → Expr → Build α Expr} (h : a.size ≠ b.size)
    (g : Graph α) : zipWith f a b g = .error (.fault (.lengthsDiffer a.size b.size)) g := by
  rw [zipWith, if_neg h]
  rfl

theorem dot_error (h : a.size ≠ b.size) (g : Graph α) :
    dot a b g = .error (.fault (.lengthsDiffer a.size b.size)) g := by
  show (zipWith Build.mul a b >>= fun products => Build.sum products.components) g = _
  simp only [Bind.bind, EStateM.bind, zipWith_error h g]

theorem cross_error (h : ¬(a.size = 3 ∧ b.size = 3)) (g : Graph α) :
    cross a b g = .error (.fault (.notThreeVectors a.size b.size)) g := by
  have hcross : (cross a b : Build α TermVector) =
      throw (.fault (.notThreeVectors a.size b.size)) := by
    unfold cross
    split
    next ha hb => exact absurd ⟨congrArg List.length ha, congrArg List.length hb⟩ h
    next => rfl
  rw [hcross]
  rfl

/-- A vector with three components. -/
theorem exists_components (ha : a.size = 3) : ∃ x y z, a = ⟨[x, y, z]⟩ := by
  obtain ⟨xs⟩ := a
  obtain ⟨x, y, z, rfl⟩ := List.length_eq_three.mp ha
  exact ⟨x, y, z, rfl⟩

section

variable (ha : ∀ e ∈ a.components, g.Sound e) (hb : ∀ e ∈ b.components, g.Sound e)
  (h : a.size = 3 ∧ b.size = 3)

include ha hb h

theorem cross_computes :
    Computes (return (← cross a b).components) g (a.components ++ b.components)
      fun v => crossProduct (a.components.map v) (b.components.map v) := by
  obtain ⟨a0, a1, a2, rfl⟩ := exists_components h.1
  obtain ⟨b0, b1, b2, rfl⟩ := exists_components h.2
  obtain ⟨hda, hdb⟩ := denotes_both ha hb
  exact vector_computes (sound_of_both ha hb) (cross_gives hda hdb) fun v => rfl

/-- A cross product is orthogonal to its first factor. -/
theorem dot_cross_computes :
    Computes (return [← dot a (← cross a b)]) g (a.components ++ b.components) fun _ => [0] := by
  obtain ⟨a0, a1, a2, rfl⟩ := exists_components h.1
  obtain ⟨b0, b1, b2, rfl⟩ := exists_components h.2
  have hs := sound_of_both ha hb
  obtain ⟨hda, hdb⟩ := denotes_both ha hb
  refine computes_of_gives [fun _ => 0] hs
    ((cross_gives hda hdb).bind fun c g' hext hc => ?_) fun _ => rfl
  have hdot := dot_gives (fun e he => (hs e he).extend hext) (hda.extend hext) hc hc.length_eq
  refine hdot.bind fun e g'' _ he => .pure (.cons (he.congr fun v => ?_) .nil)
  simp only [crossValues, List.map_cons, List.map_nil, List.zip_cons_cons, List.zip_nil_right,
    List.sum_cons, List.sum_nil]
  ring

/-- Changing the factors negates a cross product. -/
theorem cross_swap_computes :
    Computes (do
      let c ← cross a b
      let d ← cross b a
      return c.components ++ d.components) g (a.components ++ b.components) fun v =>
        crossProduct (a.components.map v) (b.components.map v) ++
          (crossProduct (a.components.map v) (b.components.map v)).map (-·) := by
  obtain ⟨a0, a1, a2, rfl⟩ := exists_components h.1
  obtain ⟨b0, b1, b2, rfl⟩ := exists_components h.2
  have hs := sound_of_both ha hb
  obtain ⟨hda, hdb⟩ := denotes_both ha hb
  let x : Expr → (Expr → α) → α := fun e v => v e
  refine computes_of_gives (crossValues (x a0) (x a1) (x a2) (x b0) (x b1) (x b2) ++
    crossValues (x b0) (x b1) (x b2) (x a0) (x a1) (x a2)) hs
    ((cross_gives hda hdb).bind fun c g' hext hc => ?_) fun v => ?_
  · refine (cross_gives (hdb.extend hext) (hda.extend hext)).bind fun d g'' hext' hd => ?_
    exact .pure (List.rel_append (hc.extend hext') hd)
  · simp [crossValues, crossProduct, x, mul_comm]

end

variable [SquarePowers α] [WholeSquares α]

/-- Vector operations mean what they say, whatever the builder folds. On vectors of sound expressions, as
all expressions of a well-formed graph are, they succeed, and what they give evaluates to the sums,
differences, negatives, multiples, inner products and cross products of the components' values. So a
cross product is orthogonal to its first factor, and changing the factors negates it. Vectors whose
lengths do not fit are turned away before anything is built. -/
theorem operations_compute (g : Graph α) (a b : TermVector) (k : Expr)
    (ha : ∀ e ∈ a.components, g.Sound e) (hb : ∀ e ∈ b.components, g.Sound e) (hk : g.Sound k) :
    (a.size = b.size →
      Computes (return (← add a b).components) g (a.components ++ b.components)
        (fun v => (a.components.zip b.components).map fun p => v p.1 + v p.2) ∧
      Computes (return (← sub a b).components) g (a.components ++ b.components)
        (fun v => (a.components.zip b.components).map fun p => v p.1 - v p.2) ∧
      Computes (return [← dot a b]) g (a.components ++ b.components)
        fun v => [((a.components.zip b.components).map fun p => v p.1 * v p.2).sum]) ∧
    Computes (return (← neg a).components) g a.components
      (fun v => a.components.map fun e => -v e) ∧
    Computes (return (← scale a k).components) g (k :: a.components)
      (fun v => a.components.map fun e => v k * v e) ∧
    Computes (return [← normSquared a]) g a.components
      (fun v => [(a.components.map fun e => v e * v e).sum]) ∧
    (a.size = 3 ∧ b.size = 3 →
      Computes (return (← cross a b).components) g (a.components ++ b.components)
        (fun v => crossProduct (a.components.map v) (b.components.map v)) ∧
      Computes (return [← dot a (← cross a b)]) g (a.components ++ b.components) (fun _ => [0]) ∧
      Computes (do
        let c ← cross a b
        let d ← cross b a
        return c.components ++ d.components) g (a.components ++ b.components) fun v =>
          crossProduct (a.components.map v) (b.components.map v) ++
            (crossProduct (a.components.map v) (b.components.map v)).map (-·)) ∧
    (a.size ≠ b.size →
      add a b g = .error (.fault (.lengthsDiffer a.size b.size)) g ∧
      sub a b g = .error (.fault (.lengthsDiffer a.size b.size)) g ∧
      dot a b g = .error (.fault (.lengthsDiffer a.size b.size)) g) ∧
    (¬(a.size = 3 ∧ b.size = 3) →
      cross a b g = .error (.fault (.notThreeVectors a.size b.size)) g) := by
  refine ⟨fun h => ⟨?_, ?_, ?_⟩, ?_, ?_, ?_, fun h => ⟨?_, ?_, ?_⟩, fun h => ⟨?_, ?_, ?_⟩, fun h => ?_⟩
  · exact zipWith_computes ha hb (· + ·) (fun _ _ _ _ _ => add_gives) h
  · exact zipWith_computes ha hb (· - ·) (fun _ _ _ _ _ => sub_gives) h
  · exact dot_computes ha hb h
  · exact neg_computes ha
  · exact scale_computes ha hk
  · exact normSquared_computes ha
  · exact cross_computes ha hb h
  · exact dot_cross_computes ha hb h
  · exact cross_swap_computes ha hb h
  · exact zipWith_error h g
  · exact zipWith_error h g
  · exact dot_error h g
  · exact cross_error h g

/-- Two variables, the negative of the first one, and two constants. -/
def mixed : Graph ℚ :=
  ⟨#[.variable ⟨0⟩, .variable ⟨1⟩, .unary .negate ⟨0⟩, .constant 2, .constant 0], 2⟩

theorem operations_compute_mixed : ∃ es g',
    (return (← cross ⟨[⟨0⟩, ⟨2⟩, ⟨3⟩]⟩ ⟨[⟨4⟩, ⟨1⟩, ⟨0⟩]⟩).components : Build ℚ (List Expr)) mixed =
      .ok es g' ∧
    es.mapM (fun e => g'.evaluate e [⟨⟨0⟩, ⟨0⟩⟩, ⟨⟨1⟩, ⟨1⟩⟩] [3, 5]) = .ok [-19, -9, 15] := by
  have hclosed : ∀ i, mixed.Closed i := by
    intro i j node _ hn
    match j with
    | 0 | 1 | 2 | 3 | 4 =>
      obtain rfl : _ = node := by simpa [mixed] using hn
      simp [Node.operands]
    | j + 5 => simp [mixed] at hn
  have hsound : ∀ e : Expr, e.index < 5 → mixed.Sound e :=
    fun e he => .of_closed he (hclosed e.index)
  have hbinds : mixed.Binds [⟨⟨0⟩, ⟨0⟩⟩, ⟨⟨1⟩, ⟨1⟩⟩] := ⟨by simp [mixed], by simp⟩
  obtain ⟨-, -, -, -, hcross, -⟩ := operations_compute mixed ⟨[⟨0⟩, ⟨2⟩, ⟨3⟩]⟩ ⟨[⟨4⟩, ⟨1⟩, ⟨0⟩]⟩ ⟨3⟩
    (by simpa using ⟨hsound ⟨0⟩ (by simp), hsound ⟨2⟩ (by simp), hsound ⟨3⟩ (by simp)⟩)
    (by simpa using ⟨hsound ⟨4⟩ (by simp), hsound ⟨1⟩ (by simp), hsound ⟨0⟩ (by simp)⟩)
    (hsound ⟨3⟩ (by simp))
  obtain ⟨es, g', hrun, -, hvalues⟩ := (hcross ⟨rfl, rfl⟩).1
  let v : Expr → ℚ := fun e => [3, 5, -3, 2, 0].getD e.index 0
  refine ⟨es, g', hrun, (hvalues _ _ v hbinds rfl fun e he => ?_).trans ?_⟩
  · rcases (by simpa using he : e = ⟨0⟩ ∨ e = ⟨2⟩ ∨ e = ⟨3⟩ ∨ e = ⟨4⟩ ∨ e = ⟨1⟩ ∨ e = ⟨0⟩) with
      rfl | rfl | rfl | rfl | rfl | rfl <;> exact toOption_eq_some.mp (by decide +kernel)
  · exact congrArg Except.ok (by decide +kernel)

end TermVector

end Autodiff
