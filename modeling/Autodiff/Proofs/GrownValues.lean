import Autodiff.Proofs.Building
import Autodiff.Proofs.Meaning

namespace Autodiff

variable {α : Type}

namespace Graph

variable {g : Graph α}

/-- What an old node depends on, it depends on in a grown graph as well. -/
theorem Reaches.extend {extended : Graph α} (hg : g.Extends extended) {i j : Nat}
    (h : g.Reaches i j) : extended.Reaches i j := by
  induction h with
  | refl => exact .refl _
  | step hn he hlt _ ih => exact .step (hg.node hn) he hlt ih

theorem Binds.extend {extended : Graph α} (hg : g.Extends extended) {vars : List Var}
    (h : g.Binds vars) : extended.Binds vars :=
  ⟨fun x hx => hg.node (h.node_eq x hx), h.nodup⟩

theorem eq_of_reaches_constant {i j : Nat} {v : α} (hn : g.nodes[i]? = some (.constant v))
    (h : g.Reaches i j) : j = i := by
  cases h with
  | refl => rfl
  | step hn' he =>
    cases hn'.symm.trans hn
    cases he

variable [Scalar α]

/-- A product with a factor that is no constant is none either, and it depends on its other factor
unless that is one. -/
theorem IsProduct.reaches {a b e : Expr} (h : g.IsProduct a b e)
    (ha : g.constantAt? a.index = none) :
    g.constantAt? e.index = none ∧
      (g.constantAt? b.index = none → g.Reaches e.index b.index) := by
  cases h with
  | folded ha' => cases ha.symm.trans (constantAt?_eq_some.mpr ha')
  | right ha' => cases ha.symm.trans (constantAt?_eq_some.mpr ha')
  | left hb hy he =>
    refine ⟨he ▸ ha, fun hn => ?_⟩
    cases hn.symm.trans (constantAt?_eq_some.mpr hb)
  | node he hae hbe =>
    refine ⟨by simp [constantAt?, he, Node.constant?], fun _ => ?_⟩
    exact .step he (by simp [Node.operands]) hbe (.refl _)

/-- A sum depends on all its terms that are no constants. -/
theorem IsSum.reaches {terms : List Expr} {t e : Expr} (h : g.IsSum terms e) (ht : t ∈ terms)
    (hc : g.constantAt? t.index = none) :
    g.constantAt? e.index = none ∧ g.Reaches e.index t.index := by
  have hmem : t ∈ g.variablePart terms := List.mem_filter.mpr ⟨ht, by simp [hc]⟩
  cases h with
  | constant hv =>
    rw [hv] at hmem
    cases hmem
  | single hv =>
    obtain rfl : t = e := by simpa [hv] using hmem
    exact ⟨hc, .refl _⟩
  | node _ he hlt =>
    refine ⟨by simp [constantAt?, he, Node.constant?], ?_⟩
    exact .step he hmem (hlt t hmem) (.refl _)
  | @nodeWith c _ he hlt =>
    have hmem' : t ∈ g.variablePart terms ++ [c] := List.mem_append_left _ hmem
    refine ⟨by simp [constantAt?, he, Node.constant?], ?_⟩
    exact .step he hmem' (hlt t hmem') (.refl _)

theorem powerValue_eq_ok {x n v : α} (h : powerValue x n = .ok v) : v = Scalar.pow x n := by
  unfold powerValue at h
  split at h
  next => cases h
  next => exact (Except.ok.inj h).symm

variable {extended : Graph α} {env env' : Nat → Option α}

/-- Whether a node of a grown graph can be evaluated depends on the values of the old variables, and
on which of the new variables have values. -/
theorem errorAt?_grows (hg : g.Grows g.size extended) {i : Nat} {node : Node α}
    (hn : extended.nodes[i]? = some node) (hlt : ∀ e ∈ node.operands, e.index < i)
    (hold : ∀ j < g.size, env' j = env j) (hsome : ∀ j, (env' j).isSome = (env j).isSome) :
    extended.errorAt? env' i = extended.errorAt? env i := by
  have hvalue : ∀ j < g.size, extended.valueAt env' j = extended.valueAt env j := fun j hj =>
    valueAt_congr (fun _ _ => rfl) fun k hk => hold k (by omega)
  rw [errorAt?_node hn, errorAt?_node hn]
  by_cases hi : i < g.size
  · exact Node.refusal?_congr (hsome i) fun e he => hvalue _ (Nat.lt_trans (hlt e he) hi)
  · have htame := hg.tame i node (by omega) hn
    cases node with
    | unary op arg => cases htame
    | power base n =>
      refine Node.refusal?_congr (hsome i) fun e he => ?_
      obtain rfl : e = base := by simpa [Node.operands] using he
      exact hvalue _ htame
    | «variable» id => simp only [Node.refusal?, hsome]
    | _ => rfl

theorem errorAt?_extend (hg : g.Extends extended) {i : Nat} {node : Node α}
    (hn : g.nodes[i]? = some node) (hlt : ∀ e ∈ node.operands, e.index < i)
    (hold : ∀ j < g.size, env' j = env j) : extended.errorAt? env' i = g.errorAt? env i := by
  have hi := size_of_node hn
  rw [errorAt?_node (hg.node hn), errorAt?_node hn]
  refine Node.refusal?_congr (by rw [hold i hi]) fun e he => ?_
  have := hlt e he
  exact valueAt_congr (fun j hj => hg.kept j (by omega)) fun j hj => hold j (by omega)

theorem valueAt_extend (hg : g.Extends extended) {i : Nat} (hi : i < g.size)
    (hold : ∀ j < g.size, env' j = env j) : extended.valueAt env' i = g.valueAt env i :=
  valueAt_congr (fun j hj => hg.kept j (by omega)) fun j hj => hold j (by omega)

end Graph

end Autodiff
