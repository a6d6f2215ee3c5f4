import Autodiff.Proofs.Growing

namespace Autodiff

variable {α : Type} [Scalar α]

/-- The operand that leaves the other one as it is. -/
def BinaryOp.unit : BinaryOp → α
  | .add => 0
  | .multiply => 1

namespace Graph

/-- An expression stands for two others joined by an operation. -/
inductive IsJoin (g : Graph α) (op : BinaryOp) (a b e : Expr) : Prop
  | folded {x y : α} (ha : g.nodes[a.index]? = some (.constant x))
      (hb : g.nodes[b.index]? = some (.constant y))
      (he : g.nodes[e.index]? = some (.constant (op.value x y)))
  | right {x : α} (ha : g.nodes[a.index]? = some (.constant x)) (hx : (x == op.unit) = true)
      (he : e = b)
  | left {y : α} (hb : g.nodes[b.index]? = some (.constant y)) (hy : (y == op.unit) = true)
      (he : e = a)
  | node (he : g.nodes[e.index]? = some (.binary op a b)) (ha : a.index < e.index)
      (hb : b.index < e.index)

/-- An expression stands for the product of two others. -/
abbrev IsProduct (g : Graph α) (a b e : Expr) : Prop := g.IsJoin .multiply a b e

/-- An expression stands for a power of another. -/
inductive IsPower (g : Graph α) (base : Expr) (n : α) (e : Expr) : Prop
  | one (hn : (n == 1) = true) (he : e = base)
  | zero (hn : (n == 0) = true) (he : g.nodes[e.index]? = some (.constant 1))
  | folded {c v : α} (hb : g.nodes[base.index]? = some (.constant c)) (hv : powerValue c n = .ok v)
      (he : g.nodes[e.index]? = some (.constant v))
  | node (he : g.nodes[e.index]? = some (.power base n)) (hb : base.index < e.index)

/-- An expression stands for a constant if it stands for a power that a constant has. -/
def FoldsPower (g : Graph α) (base : Expr) (n : α) (e : Expr) : Prop :=
  ∃ node, g.nodes[base.index]? = some node ∧
    ∀ c v, node = .constant c → powerValue c n = .ok v →
      ∃ w, g.nodes[e.index]? = some (.constant w)

/-- The sum of the constant terms of a list. -/
def constantPart (g : Graph α) (terms : List Expr) : α :=
  (terms.filterMap fun t => g.constantAt? t.index).foldl (· + ·) 0

/-- The constant terms of a list leave nothing to add. -/
def NoConstantPart (g : Graph α) (terms : List Expr) : Prop :=
  (terms.filterMap fun t => g.constantAt? t.index) = [] ∨ (g.constantPart terms != 0) = false

/-- An expression stands for the sum of others. -/
inductive IsSum (g : Graph α) (terms : List Expr) (e : Expr) : Prop
  | constant (hv : g.variablePart terms = [])
      (he : g.nodes[e.index]? = some (.constant (g.constantPart terms)))
  | single (hv : g.variablePart terms = [e]) (hc : g.NoConstantPart terms)
  | node (hc : g.NoConstantPart terms)
      (he : g.nodes[e.index]? = some (.sum (g.variablePart terms)))
      (hlt : ∀ t ∈ g.variablePart terms, t.index < e.index)
  | nodeWith {c : Expr} (hc : g.nodes[c.index]? = some (.constant (g.constantPart terms)))
      (he : g.nodes[e.index]? = some (.sum (g.variablePart terms ++ [c])))
      (hlt : ∀ t ∈ g.variablePart terms ++ [c], t.index < e.index)

theorem IsJoin.extend {g g' : Graph α} (hg : g.Extends g') {op : BinaryOp} {a b e : Expr}
    (h : g.IsJoin op a b e) : g'.IsJoin op a b e := by
  cases h with
  | folded ha hb he => exact .folded (hg.node ha) (hg.node hb) (hg.node he)
  | right ha hx he => exact .right (hg.node ha) hx he
  | left hb hy he => exact .left (hg.node hb) hy he
  | node he ha hb => exact .node (hg.node he) ha hb

theorem IsPower.extend {g g' : Graph α} (hg : g.Extends g') {base e : Expr} {x : α}
    (h : g.IsPower base x e) : g'.IsPower base x e := by
  cases h with
  | one hn he => exact .one hn he
  | zero hn he => exact .zero hn (hg.node he)
  | folded hb hv he => exact .folded (hg.node hb) hv (hg.node he)
  | node he hb => exact .node (hg.node he) hb

theorem FoldsPower.extend {g g' : Graph α} (hg : g.Extends g') {base e : Expr} {x : α}
    (h : g.FoldsPower base x e) : g'.FoldsPower base x e := by
  obtain ⟨node, hn, hfold⟩ := h
  refine ⟨node, hg.node hn, fun c v hc hv => ?_⟩
  obtain ⟨w, hw⟩ := hfold c v hc hv
  exact ⟨w, hg.node hw⟩

theorem parts_of_extends {g g' : Graph α} (hg : g.Extends g') {terms : List Expr}
    (hterms : ∀ t ∈ terms, t.index < g.size) :
    g'.constantPart terms = g.constantPart terms ∧ g'.variablePart terms = g.variablePart terms ∧
      (g'.NoConstantPart terms ↔ g.NoConstantPart terms) := by
  have hconst : ∀ t ∈ terms, g'.constantAt? t.index = g.constantAt? t.index := fun t ht =>
    hg.constantAt? (hterms t ht)
  have hlist : (terms.filterMap fun t => g'.constantAt? t.index) =
      terms.filterMap fun t => g.constantAt? t.index := List.filterMap_congr hconst
  have hpart : g'.constantPart terms = g.constantPart terms := by
    rw [constantPart, hlist, constantPart]
  refine ⟨hpart, List.filter_congr fun t ht => by rw [hconst t ht], ?_⟩
  rw [NoConstantPart, hlist, hpart, NoConstantPart]

theorem IsSum.extend {g g' : Graph α} (hg : g.Extends g') {terms : List Expr} {e : Expr}
    (hterms : ∀ t ∈ terms, t.index < g.size) (h : g.IsSum terms e) : g'.IsSum terms e := by
  obtain ⟨hpart, hvar, hnone⟩ := parts_of_extends hg hterms
  cases h with
  | constant hv he => exact .constant (hvar ▸ hv) (hpart ▸ hg.node he)
  | single hv hc => exact .single (hvar ▸ hv) (hnone.mpr hc)
  | node hc he hlt => exact .node (hnone.mpr hc) (hvar ▸ hg.node he) (hvar ▸ hlt)
  | nodeWith hc he hlt => exact .nodeWith (hpart ▸ hg.node hc) (hvar ▸ hg.node he) (hvar ▸ hlt)

end Graph

namespace Build

/-- An operation on two expressions that works on constants at once, and that gives one operand back
when the other is the unit. -/
def join (op : BinaryOp) (a b : Expr) : Build α Expr := do
  match ← lookup a, ← lookup b with
  | .constant x, .constant y => constant (op.value x y)
  | .constant x, _ => if x == op.unit then pure b else push (.binary op a b)
  | _, .constant y => if y == op.unit then pure a else push (.binary op a b)
  | _, _ => push (.binary op a b)

theorem add_eq_join (a b : Expr) : (add a b : Build α Expr) = join .add a b := rfl

theorem mul_eq_join (a b : Expr) : (mul a b : Build α Expr) = join .multiply a b := rfl

theorem join_spec (n : Nat) {op : BinaryOp} {a b e : Expr} {g g' : Graph α}
    (h : join op a b g = .ok e g') : g.Grows n g' ∧ g'.IsJoin op a b e := by
  obtain ⟨na, g₁, hla, h⟩ := bind_eq_ok.mp h
  obtain ⟨nb, g₂, hlb, h⟩ := bind_eq_ok.mp h
  obtain ⟨rfl, ha⟩ := lookup_eq_ok.mp hla
  obtain ⟨rfl, hb⟩ := lookup_eq_ok.mp hlb
  have hpush : push (.binary op a b) g = .ok e g' → g.Grows n g' ∧ g'.IsJoin op a b e :=
    fun hp => ⟨grows_of_push (by trivial) hp,
      .node (node_of_push hp) (lt_of_push hp (Graph.size_of_node ha))
        (lt_of_push hp (Graph.size_of_node hb))⟩
  split at h
  next x y =>
    have hg : g.Grows n g' := grows_of_push (by trivial) h
    exact ⟨hg, .folded (hg.node ha) (hg.node hb) (node_of_push h)⟩
  next x _ =>
    split at h
    next hx =>
      obtain ⟨rfl, rfl⟩ := pure_eq_ok.mp h
      exact ⟨.refl n g, .right ha hx rfl⟩
    next => exact hpush h
  next y _ =>
    split at h
    next hy =>
      obtain ⟨rfl, rfl⟩ := pure_eq_ok.mp h
      exact ⟨.refl n g, .left hb hy rfl⟩
    next => exact hpush h
  next => exact hpush h

theorem mul_spec (n : Nat) {a b e : Expr} {g g' : Graph α} (h : mul a b g = .ok e g') :
    g.Grows n g' ∧ g'.IsProduct a b e := by
  rw [mul_eq_join] at h
  exact join_spec n h

theorem pow_spec {n : Nat} {base e : Expr} {x : α} {g g' : Graph α} (hn : base.index < n)
    (h : pow base x g = .ok e g') : g.Grows n g' ∧ g'.IsPower base x e := by
  obtain ⟨nb, g₁, hlb, h⟩ := bind_eq_ok.mp h
  obtain ⟨rfl, hb⟩ := lookup_eq_ok.mp hlb
  by_cases hone : (x == 1) = true
  · rw [if_pos hone] at h
    obtain ⟨rfl, rfl⟩ := pure_eq_ok.mp h
    exact ⟨.refl n g, .one hone rfl⟩
  · rw [if_neg hone] at h
    by_cases hzero : (x == 0) = true
    · rw [if_pos hzero] at h
      exact ⟨grows_of_push (by trivial) h, .zero hzero (node_of_push h)⟩
    · rw [if_neg hzero] at h
      have hpush : push (.power base x) g = .ok e g' → g.Grows n g' ∧ g'.IsPower base x e :=
        fun hp => ⟨grows_of_push (show (Node.power base x).Tame n from hn) hp,
          .node (node_of_push hp) (lt_of_push hp (Graph.size_of_node hb))⟩
      cases nb with
      | constant c =>
        simp only [Node.constant?, Option.map_some] at h
        cases hv : powerValue c x with
        | ok v =>
          rw [hv] at h
          have hg : g.Grows n g' := grows_of_push (by trivial) h
          exact ⟨hg, .folded (hg.node hb) hv (node_of_push h)⟩
        | error cause =>
          rw [hv] at h
          exact hpush h
      | _ => exact hpush h

theorem pow_folds {base e : Expr} {x : α} {g g' : Graph α} (h : pow base x g = .ok e g') :
    g'.FoldsPower base x e := by
  obtain ⟨hgrow, -⟩ := pow_spec (Nat.lt_succ_self base.index) h
  obtain ⟨node, g₁, hlookup, h⟩ := bind_eq_ok.mp h
  obtain ⟨rfl, hb⟩ := lookup_eq_ok.mp hlookup
  refine ⟨node, hgrow.node hb, ?_⟩
  rintro c v rfl hv
  split at h
  next =>
    obtain ⟨rfl, rfl⟩ := pure_eq_ok.mp h
    exact ⟨c, hb⟩
  next =>
    split at h
    next => exact ⟨1, node_of_push h⟩
    next =>
      simp only [Node.constant?, Option.map_some, hv] at h
      exact ⟨v, node_of_push h⟩

theorem push_constantPart (n : Nat) {terms : List Expr} {e : Expr} {g g' : Graph α}
    (hlt : ∀ t ∈ terms, t.index < g.size) (hv : g.variablePart terms = [])
    (h : push (.constant (g.constantPart terms)) g = .ok e g') :
    g.Grows n g' ∧ g'.IsSum terms e := by
  have hg : g.Grows n g' := grows_of_push (by trivial) h
  obtain ⟨hpart, hvariable, -⟩ := Graph.parts_of_extends hg.extension hlt
  exact ⟨hg, .constant (hvariable.trans hv) (hpart ▸ node_of_push h)⟩

theorem push_variablePart (n : Nat) {terms : List Expr} {e : Expr} {g g' : Graph α}
    (hlt : ∀ t ∈ terms, t.index < g.size) (hc : g.NoConstantPart terms)
    (h : push (.sum (g.variablePart terms)) g = .ok e g') :
    g.Grows n g' ∧ g'.IsSum terms e := by
  have hg : g.Grows n g' := grows_of_push (by trivial) h
  obtain ⟨-, hvariable, hnone⟩ := Graph.parts_of_extends hg.extension hlt
  refine ⟨hg, .node (hnone.mpr hc) (hvariable ▸ node_of_push h) fun t ht => ?_⟩
  rw [hvariable] at ht
  exact lt_of_push h (hlt t (List.mem_of_mem_filter ht))

theorem push_bothParts (n : Nat) {terms : List Expr} {c e : Expr} {g g₁ g' : Graph α}
    (hlt : ∀ t ∈ terms, t.index < g.size)
    (hc : push (.constant (g.constantPart terms)) g = .ok c g₁)
    (h : push (.sum (g.variablePart terms ++ [c])) g₁ = .ok e g') :
    g.Grows n g' ∧ g'.IsSum terms e := by
  have hg : g.Grows n g₁ := grows_of_push (by trivial) hc
  have hg' : g₁.Grows n g' := grows_of_push (by trivial) h
  obtain ⟨hpart, hvariable, -⟩ := Graph.parts_of_extends (hg.trans hg').extension hlt
  refine ⟨hg.trans hg', .nodeWith (hpart ▸ hg'.node (node_of_push hc))
    (hvariable ▸ node_of_push h) fun t ht => ?_⟩
  rw [hvariable] at ht
  rcases List.mem_append.mp ht with ht | ht
  · have hsize := hlt t (List.mem_of_mem_filter ht)
    exact lt_of_push h (Nat.lt_of_lt_of_le hsize hg.size_le)
  · obtain rfl : t = c := by simpa using ht
    exact lt_of_push h (Graph.size_of_node (node_of_push hc))

theorem sum_spec (n : Nat) {terms : List Expr} {e : Expr} {g g' : Graph α}
    (h : sum terms g = .ok e g') :
    g.Grows n g' ∧ g'.IsSum terms e ∧ ∀ t ∈ terms, t.index < g.size := by
  obtain ⟨nodes, g₁, hnodes, h⟩ := bind_eq_ok.mp h
  obtain ⟨rfl, hlt, hconst, hvar⟩ := nodes_of_mapM_lookup hnodes
  have hlist : (terms.filterMap fun t => g.constantAt? t.index).foldl (· + ·) 0 =
      g.constantPart terms := rfl
  simp only [hconst, hvar, hlist] at h
  suffices hsum : g.Grows n g' ∧ g'.IsSum terms e from ⟨hsum.1, hsum.2, hlt⟩
  cases hk : g.variablePart terms with
  | nil =>
    rw [hk] at h
    exact push_constantPart n hlt hk h
  | cons k kept =>
    rw [hk, if_neg (by simp)] at h
    split at h
    next hadd =>
      obtain ⟨c, g₂, hc, hrest⟩ := bind_eq_ok.mp h
      obtain ⟨summands, g₃, hs, hp⟩ := bind_eq_ok.mp hrest
      obtain ⟨rfl, rfl⟩ := pure_eq_ok.mp hs
      refine push_bothParts n hlt hc ?_
      obtain ⟨last, more, hlast⟩ : ∃ last more, kept ++ [c] = last :: more := by
        cases kept with
        | nil => exact ⟨c, [], rfl⟩
        | cons k' kept => exact ⟨k', kept ++ [c], rfl⟩
      rw [List.cons_append, hlast] at hp
      rw [hk, List.cons_append, hlast]
      exact hp
    next hadd =>
      obtain ⟨summands, g₁, hs, h⟩ := bind_eq_ok.mp h
      obtain ⟨rfl, rfl⟩ := pure_eq_ok.mp hs
      have hnone : g.NoConstantPart terms := by
        simp only [Bool.and_eq_true, Bool.not_eq_true', List.isEmpty_eq_false_iff, not_and,
          Bool.not_eq_true] at hadd
        by_cases hnil : (terms.filterMap fun t => g.constantAt? t.index) = []
        · exact Or.inl hnil
        · exact Or.inr (hadd hnil)
      cases kept with
      | nil =>
        obtain ⟨rfl, rfl⟩ := pure_eq_ok.mp h
        exact ⟨.refl n g, .single hk hnone⟩
      | cons k' kept => exact push_variablePart n hlt hnone (hk ▸ h)

end Build

end Autodiff
