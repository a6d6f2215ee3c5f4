import Autodiff.Lagrangian
import Autodiff.Proofs.Building

namespace Autodiff

variable {α : Type} [Scalar α]

/-- The expressions that make up the augmented Lagrangian. -/
structure Assembly where
  penalty : Var
  multipliers : List Var
  products : List Expr
  weighted : Expr
  squares : List Expr
  total : Expr
  half : Expr
  halfPenalty : Expr
  penaltyTerm : Expr

/-- What the parts of the augmented Lagrangian stand for in the extended graph. -/
structure Assembly.Stands (a : Assembly) (g extended : Graph α) (objective : Expr)
    (constraints : List Expr) (root : Expr) : Prop where
  grows : g.Grows g.size extended
  penalty : Build.Fresh g.size extended a.penalty
  multipliers : ∀ x ∈ a.multipliers, Build.Fresh g.size extended x
  length : a.multipliers.length = constraints.length
  products : List.Forall₂ (fun p e => extended.IsProduct p.1 p.2 e)
    ((a.multipliers.map Var.expr).zip constraints) a.products
  weighted : extended.IsSum a.products a.weighted
  squares : List.Forall₂ (fun c e => extended.IsPower c Scalar.two e) constraints a.squares
  folds : List.Forall₂ (fun c e => extended.FoldsPower c Scalar.two e) constraints a.squares
  total : extended.IsSum a.squares a.total
  half : extended.nodes[a.half.index]? = some (.constant Scalar.half)
  halfPenalty : extended.IsProduct a.half a.penalty.expr a.halfPenalty
  penaltyTerm : extended.IsProduct a.halfPenalty a.total a.penaltyTerm
  root : extended.IsSum [objective, a.weighted, a.penaltyTerm] root

theorem dot_spec (n : Nat) {as bs : List Expr} {e : Expr} {g g' : Graph α}
    (h : TermVector.dot ⟨as⟩ ⟨bs⟩ g = .ok e g') :
    g.Grows n g' ∧ ∃ products, g'.IsSum products e ∧ (∀ p ∈ products, p.index < g'.size) ∧
      List.Forall₂ (fun p e => g'.IsProduct p.1 p.2 e) (as.zip bs) products := by
  obtain ⟨v, g₁, hv, hsum⟩ := Build.bind_eq_ok.mp h
  have hzip : ∃ products, (as.zip bs).mapM (fun p => Build.mul p.1 p.2) g = .ok products g₁ ∧
      v = ⟨products⟩ := by
    unfold TermVector.zipWith at hv
    split at hv
    next =>
      obtain ⟨products, g₂, hm, hp⟩ := Build.bind_eq_ok.mp hv
      obtain ⟨rfl, rfl⟩ := Build.pure_eq_ok.mp hp
      exact ⟨products, hm, rfl⟩
    next => cases hv
  obtain ⟨products, hm, rfl⟩ := hzip
  have hall : g.Grows n g₁ ∧ List.Forall₂ (fun p e => g₁.IsProduct p.1 p.2 e) (as.zip bs) products :=
    Build.mapM_spec (fun h (p : Expr × Expr) e => h.IsProduct p.1 p.2 e)
      (fun p _ _ _ _ hmul => Build.mul_spec n hmul) (fun p e g₁ g₂ hg hp => hp.extend hg.extension) hm
  obtain ⟨hgrow', hsum', hlt⟩ := Build.sum_spec n hsum
  refine ⟨hall.1.trans hgrow', products, hsum', fun p hp => ?_, hall.2.imp fun p e hp => hp.extend hgrow'.extension⟩
  exact Nat.lt_of_lt_of_le (hlt p hp) hgrow'.size_le

theorem normSquared_spec {n : Nat} {as : List Expr} {e : Expr} {g g' : Graph α}
    (hn : ∀ a ∈ as, a.index < n) (h : TermVector.normSquared ⟨as⟩ g = .ok e g') :
    g.Grows n g' ∧ ∃ squares, g'.IsSum squares e ∧ (∀ p ∈ squares, p.index < g'.size) ∧
      List.Forall₂ (fun a e => g'.IsPower a Scalar.two e ∧ g'.FoldsPower a Scalar.two e)
        as squares := by
  obtain ⟨squares, g₁, hm, hsum⟩ := Build.bind_eq_ok.mp h
  have hall : g.Grows n g₁ ∧
      List.Forall₂ (fun a e => g₁.IsPower a Scalar.two e ∧ g₁.FoldsPower a Scalar.two e)
        as squares :=
    Build.mapM_spec (fun h a e => h.IsPower a Scalar.two e ∧ h.FoldsPower a Scalar.two e)
      (fun a ha _ _ _ hpow =>
        have hspec := Build.pow_spec (hn a ha) hpow
        ⟨hspec.1, hspec.2, Build.pow_folds hpow⟩)
      (fun a e g₁ g₂ hg hp => ⟨hp.1.extend hg.extension, hp.2.extend hg.extension⟩) hm
  obtain ⟨hgrow', hsum', hlt⟩ := Build.sum_spec n hsum
  refine ⟨hall.1.trans hgrow', squares, hsum', fun p hp => ?_, hall.2.imp fun a e hp =>
    ⟨hp.1.extend hgrow'.extension, hp.2.extend hgrow'.extension⟩⟩
  exact Nat.lt_of_lt_of_le (hlt p hp) hgrow'.size_le

theorem assemble_spec {g extended : Graph α} {objective root : Expr} {constraints : List Expr}
    {params : List Var} (hc : ∀ c ∈ constraints, c.index < g.size)
    (h : (Lagrangian.assemble objective constraints).run g = .ok (root, params) extended) :
    ∃ a : Assembly, params = a.penalty :: a.multipliers ∧
      a.Stands g extended objective constraints root := by
  obtain ⟨penalty, g₁, hpenalty, h⟩ := Build.bind_eq_ok.mp h
  obtain ⟨multipliers, g₂, hmultipliers, h⟩ := Build.bind_eq_ok.mp h
  obtain ⟨weighted, g₃, hweighted, h⟩ := Build.bind_eq_ok.mp h
  obtain ⟨total, g₄, htotal, h⟩ := Build.bind_eq_ok.mp h
  obtain ⟨half, g₅, hhalf, h⟩ := Build.bind_eq_ok.mp h
  obtain ⟨halfPenalty, g₆, hhalfPenalty, h⟩ := Build.bind_eq_ok.mp h
  obtain ⟨penaltyTerm, g₇, hpenaltyTerm, h⟩ := Build.bind_eq_ok.mp h
  obtain ⟨root', g₈, hroot, h⟩ := Build.bind_eq_ok.mp h
  obtain ⟨hpair, rfl⟩ := Build.pure_eq_ok.mp h
  obtain ⟨rfl, rfl⟩ := Prod.mk.inj hpair
  obtain ⟨hg₁, hfresh⟩ := Build.newVar_spec g.size hpenalty
  obtain ⟨hg₂, hlength, hfresh'⟩ := Build.newVars_spec g.size hmultipliers
  obtain ⟨hg₃, products, hsum, hlt, hproducts⟩ := dot_spec g.size hweighted
  obtain ⟨hg₄, squares, hsum', hlt', hsquares⟩ := normSquared_spec hc htotal
  have hg₅ : g₄.Grows g.size g₅ := Build.grows_of_push (by trivial) hhalf
  obtain ⟨hg₆, hproduct⟩ := Build.mul_spec g.size hhalfPenalty
  obtain ⟨hg₇, hproduct'⟩ := Build.mul_spec g.size hpenaltyTerm
  obtain ⟨hg₈, hsum'', -⟩ := Build.sum_spec g.size hroot
  have h₇ := hg₇.trans hg₈
  have h₆ := hg₆.trans h₇
  have h₅ := hg₅.trans h₆
  have h₄ := hg₄.trans h₅
  have h₃ := hg₃.trans h₄
  have h₂ := hg₂.trans h₃
  have hle := (hg₁.trans hg₂).size_le
  refine ⟨⟨penalty, multipliers, products, weighted, squares, total, half, halfPenalty,
    penaltyTerm⟩, rfl, ?_⟩
  exact {
    grows := hg₁.trans h₂
    penalty := ⟨hfresh.le, h₂.node hfresh.node⟩
    multipliers := fun x hx =>
      ⟨Nat.le_trans hg₁.size_le (hfresh' x hx).le, h₃.node (hfresh' x hx).node⟩
    length := hlength
    products := hproducts.imp fun p e hp => hp.extend h₄.extension
    weighted := hsum.extend h₄.extension hlt
    squares := hsquares.imp fun c e hp => hp.1.extend h₅.extension
    folds := hsquares.imp fun c e hp => hp.2.extend h₅.extension
    total := hsum'.extend h₅.extension hlt'
    half := h₆.node (Build.node_of_push hhalf)
    halfPenalty := hproduct.extend h₇.extension
    penaltyTerm := hproduct'.extend hg₈.extension
    root := hsum'' }

end Autodiff
