import Autodiff.Document
import Autodiff.Proofs.Storage

namespace Autodiff

variable {α β : Type}

/-- The handles and the variable numbers in a node. -/
def Node.words : Node α → List Nat
  | .variable id => [id.number]
  | node => node.operands.map Expr.index

def Node.numbers : Node α → List α
  | .constant value => [value]
  | .power _ exponent => [exponent]
  | _ => []

def Graph.words (g : Graph α) : List Nat := g.nextVar :: g.nodes.toList.flatMap Node.words

def Graph.numbers (g : Graph α) : List α := g.nodes.toList.flatMap Node.numbers

def Var.words (x : Var) : List Nat := [x.id.number, x.expr.index]

def Problem.words (p : Problem α) : List Nat :=
  p.graph.words ++ p.objective.index :: (p.constraints.map Expr.index ++ p.vars.flatMap Var.words)

def Problem.numbers (p : Problem α) : List α := p.graph.numbers ++ p.start

/-- Whole numbers of 32 bits. -/
def InWords (words : List Nat) : Prop := ∀ n ∈ words, n < UInt32.size

/-- No number is infinite or undefined. -/
def AllFinite [Scalar α] (numbers : List α) : Prop := ∀ x ∈ numbers, Scalar.isFinite x = true

/-- What is written reads back, unchanged, exactly when it is storable, and nothing else is ever
read, from any tree of data. -/
structure RoundTrip (write : β → Document α) (read : Document α → Option β)
    (Storable : β → Prop) : Prop where
  reads_back (x y : β) : read (write x) = some y ↔ Storable x ∧ y = x
  storable (d : Document α) (x : β) : read d = some x → Storable x

namespace RoundTrip

variable {write : β → Document α} {read : Document α → Option β} {Storable : β → Prop}

theorem rewrites (h : RoundTrip write read Storable) {d : Document α} {x : β}
    (hread : read d = some x) : read (write x) = some x :=
  (h.reads_back x x).mpr ⟨h.storable d x hread, rfl⟩

theorem list (h : RoundTrip write read Storable) :
    RoundTrip (fun xs => .list (xs.map write)) (Document.listOf? read)
      (fun xs => ∀ x ∈ xs, Storable x) where
  reads_back xs ys := by
    show (xs.map write).mapM read = some ys ↔ _
    induction xs generalizing ys with
    | nil => simp [eq_comm]
    | cons x xs ih =>
      simp only [List.map_cons, List.mapM_cons, Bind.bind, Option.bind_eq_some_iff, h.reads_back,
        ih]
      constructor
      · rintro ⟨y, ⟨hx, rfl⟩, rest, ⟨hxs, rfl⟩, hys⟩
        exact ⟨List.forall_mem_cons.mpr ⟨hx, hxs⟩, (Option.some.inj hys).symm⟩
      · rintro ⟨hall, rfl⟩
        obtain ⟨hx, hxs⟩ := List.forall_mem_cons.mp hall
        exact ⟨x, ⟨hx, rfl⟩, xs, ⟨hxs, rfl⟩, rfl⟩
  storable d ys hread := by
    cases d with
    | list items =>
      induction items generalizing ys with
      | nil =>
        obtain rfl : [] = ys := Option.some.inj hread
        nofun
      | cons d items ih =>
        simp only [Document.listOf?, List.mapM_cons, Bind.bind, Option.bind_eq_some_iff] at hread
        obtain ⟨y, hy, rest, hrest, hread⟩ := hread
        obtain rfl : y :: rest = ys := Option.some.inj hread
        exact List.forall_mem_cons.mpr ⟨h.storable d y hy, ih rest hrest⟩
    | null | bool | integer | real | text | object => cases hread

end RoundTrip

namespace Document

theorem word_roundTrip :
    RoundTrip (α := α) (fun n : Nat => .integer n) word? (· < UInt32.size) where
  reads_back n m := by simp [word?, eq_comm]
  storable d n hread := by
    cases d with
    | integer k =>
      simp only [word?, Option.ite_none_right_eq_some, Option.some.injEq] at hread
      obtain ⟨⟨-, hk⟩, rfl⟩ := hread
      exact hk
    | null | bool | real | text | list | object => cases hread

theorem expr_roundTrip :
    RoundTrip (α := α) Expr.toDocument expr? (·.index < UInt32.size) where
  reads_back e e' := by
    have hword := word_roundTrip (α := α).reads_back e.index
    simp only [expr?, Expr.toDocument, Option.map_eq_some_iff, hword]
    constructor
    · rintro ⟨n, ⟨hn, rfl⟩, rfl⟩
      exact ⟨hn, rfl⟩
    · rintro ⟨hn, rfl⟩
      exact ⟨_, ⟨hn, rfl⟩, rfl⟩
  storable d e hread := by
    obtain ⟨n, hn, rfl⟩ := Option.map_eq_some_iff.mp hread
    exact word_roundTrip.storable d n hn

variable [Scalar α]

theorem number_roundTrip :
    RoundTrip (α := α) ofNumber number? (fun x => Scalar.isFinite x = true) where
  reads_back x y := by
    by_cases hx : Scalar.isFinite x = true
    · simp [ofNumber, number?, hx, eq_comm]
    · simp [ofNumber, number?, hx]
  storable d x hread := by
    cases d with
    | integer n =>
      simp only [number?, Option.ite_none_right_eq_some, Option.some.injEq] at hread
      obtain ⟨hfinite, rfl⟩ := hread
      exact hfinite
    | real a =>
      simp only [number?, Option.ite_none_right_eq_some, Option.some.injEq] at hread
      obtain ⟨hfinite, rfl⟩ := hread
      exact hfinite
    | null | bool | text | list | object => cases hread

end Document

theorem unaryOp_roundTrip : RoundTrip (α := α) (fun op => .text op.name)
    (fun d => d.name?.bind UnaryOp.ofName?) (fun _ => True) where
  reads_back op op' := by
    cases op with
    | negate | exp | log => simp [Document.name?, UnaryOp.name, UnaryOp.ofName?, eq_comm]
  storable _ _ _ := trivial

theorem binaryOp_roundTrip : RoundTrip (α := α) (fun op => .text op.name)
    (fun d => d.name?.bind BinaryOp.ofName?) (fun _ => True) where
  reads_back op op' := by
    cases op with
    | add | multiply => simp [Document.name?, BinaryOp.name, BinaryOp.ofName?, eq_comm]
  storable _ _ _ := trivial

theorem Var.roundTrip : RoundTrip (α := α) toDocument ofDocument? (fun x => InWords x.words) where
  reads_back x x' := by
    simp only [toDocument, ofDocument?, Document.parts?, Document.fields?]
    simp [List.lookup_cons, Option.bind_eq_some_iff, Document.word_roundTrip.reads_back,
      Document.expr_roundTrip.reads_back, InWords, words, and_assoc, @eq_comm _ x']
  storable d x hread := by
    simp only [ofDocument?, Bind.bind, Option.bind_eq_some_iff] at hread
    obtain ⟨parts, -, hread⟩ := hread
    split at hread
    · obtain ⟨id, hid, hread⟩ := Option.bind_eq_some_iff.mp hread
      obtain ⟨e, he, hread⟩ := Option.bind_eq_some_iff.mp hread
      obtain rfl := Option.some.inj hread
      have hid := Document.word_roundTrip.storable _ _ hid
      have he := Document.expr_roundTrip.storable _ _ he
      simp [InWords, words, hid, he]
    · cases hread

variable [Scalar α]

/-- Handles and variable numbers fit their 32 bits, and no number lacks a written form. -/
def Node.Storable (node : Node α) : Prop := InWords node.words ∧ AllFinite node.numbers

def Graph.Storable (g : Graph α) : Prop := InWords g.words ∧ AllFinite g.numbers

def Problem.Storable (p : Problem α) : Prop := InWords p.words ∧ AllFinite p.numbers

namespace Node

@[simp]
theorem storable_constant (value : α) :
    (constant value).Storable ↔ Scalar.isFinite value = true := by
  simp [Storable, InWords, AllFinite, words, operands, numbers]

@[simp]
theorem storable_variable (id : VarId) :
    («variable» id : Node α).Storable ↔ id.number < UInt32.size := by
  simp [Storable, InWords, AllFinite, words, numbers]

@[simp]
theorem storable_unary (op : UnaryOp) (arg : Expr) :
    (unary op arg : Node α).Storable ↔ arg.index < UInt32.size := by
  simp [Storable, InWords, AllFinite, words, operands, numbers]

@[simp]
theorem storable_binary (op : BinaryOp) (lhs rhs : Expr) :
    (binary op lhs rhs : Node α).Storable ↔
      lhs.index < UInt32.size ∧ rhs.index < UInt32.size := by
  simp [Storable, InWords, AllFinite, words, operands, numbers]

@[simp]
theorem storable_power (base : Expr) (exponent : α) :
    (power base exponent).Storable ↔
      base.index < UInt32.size ∧ Scalar.isFinite exponent = true := by
  simp [Storable, InWords, AllFinite, words, operands, numbers]

@[simp]
theorem storable_sum (terms : List Expr) :
    (sum terms : Node α).Storable ↔ ∀ e ∈ terms, e.index < UInt32.size := by
  simp [Storable, InWords, AllFinite, words, operands, numbers]

theorem roundTrip : RoundTrip (α := α) toDocument ofDocument? Storable where
  reads_back node node' := by
    rw [@eq_comm _ node']
    cases node with
    | constant value =>
      simp [toDocument, ofDocument?, Document.variant?, Option.bind_eq_some_iff, and_assoc,
        Document.number_roundTrip.reads_back]
    | «variable» id =>
      simp [toDocument, ofDocument?, Document.variant?, Option.bind_eq_some_iff, and_assoc,
        Document.word_roundTrip.reads_back]
    | unary op arg =>
      simp [toDocument, ofDocument?, Document.variant?, Document.fields?, List.lookup_cons,
        Option.bind_eq_some_iff, and_assoc, unaryOp_roundTrip.reads_back,
        Document.expr_roundTrip.reads_back]
    | binary op lhs rhs =>
      simp [toDocument, ofDocument?, Document.variant?, Document.fields?, List.lookup_cons,
        Option.bind_eq_some_iff, and_assoc, binaryOp_roundTrip.reads_back,
        Document.expr_roundTrip.reads_back]
    | power base exponent =>
      simp [toDocument, ofDocument?, Document.variant?, Document.fields?, List.lookup_cons,
        Option.bind_eq_some_iff, and_assoc, Document.expr_roundTrip.reads_back,
        Document.number_roundTrip.reads_back]
    | sum terms =>
      simp [toDocument, ofDocument?, Document.variant?, Option.bind_eq_some_iff, and_assoc,
        Document.expr_roundTrip.list.reads_back]
  storable d node hread := by
    simp only [ofDocument?, Bind.bind, Option.bind_eq_some_iff] at hread
    obtain ⟨⟨kind, parts⟩, -, hread⟩ := hread
    split at hread
    · obtain ⟨value, hvalue, hread⟩ := Option.bind_eq_some_iff.mp hread
      obtain rfl := Option.some.inj hread
      exact (storable_constant value).mpr (Document.number_roundTrip.storable _ _ hvalue)
    · obtain ⟨n, hn, hread⟩ := Option.bind_eq_some_iff.mp hread
      obtain rfl := Option.some.inj hread
      exact (storable_variable ⟨n⟩).mpr (Document.word_roundTrip.storable _ _ hn)
    · obtain ⟨parts, -, hread⟩ := Option.bind_eq_some_iff.mp hread
      split at hread
      · obtain ⟨op, -, hread⟩ := Option.bind_eq_some_iff.mp hread
        obtain ⟨arg, harg, hread⟩ := Option.bind_eq_some_iff.mp hread
        obtain rfl := Option.some.inj hread
        exact (storable_unary op arg).mpr (Document.expr_roundTrip.storable _ _ harg)
      · cases hread
    · obtain ⟨parts, -, hread⟩ := Option.bind_eq_some_iff.mp hread
      split at hread
      · obtain ⟨op, -, hread⟩ := Option.bind_eq_some_iff.mp hread
        obtain ⟨lhs, hlhs, hread⟩ := Option.bind_eq_some_iff.mp hread
        obtain ⟨rhs, hrhs, hread⟩ := Option.bind_eq_some_iff.mp hread
        obtain rfl := Option.some.inj hread
        exact (storable_binary op lhs rhs).mpr
          ⟨Document.expr_roundTrip.storable _ _ hlhs, Document.expr_roundTrip.storable _ _ hrhs⟩
      · cases hread
    · obtain ⟨parts, -, hread⟩ := Option.bind_eq_some_iff.mp hread
      split at hread
      · obtain ⟨base, hbase, hread⟩ := Option.bind_eq_some_iff.mp hread
        obtain ⟨exponent, hexponent, hread⟩ := Option.bind_eq_some_iff.mp hread
        obtain rfl := Option.some.inj hread
        exact (storable_power base exponent).mpr
          ⟨Document.expr_roundTrip.storable _ _ hbase,
            Document.number_roundTrip.storable _ _ hexponent⟩
      · cases hread
    · obtain ⟨terms, hterms, hread⟩ := Option.bind_eq_some_iff.mp hread
      obtain rfl := Option.some.inj hread
      exact (storable_sum terms).mpr (Document.expr_roundTrip.list.storable _ _ hterms)
    · cases hread

end Node

theorem Graph.storable_iff (g : Graph α) :
    g.Storable ↔ (∀ node ∈ g.nodes.toList, node.Storable) ∧ g.nextVar < UInt32.size := by
  simp only [Storable, InWords, AllFinite, words, numbers, Node.Storable, List.forall_mem_cons,
    List.forall_mem_flatMap, forall_and]
  tauto

theorem Graph.roundTrip : RoundTrip (α := α) toDocument ofDocument? Storable where
  reads_back g g' := by
    have hnodes := Node.roundTrip (α := α).list.reads_back g.nodes.toList
    simp only [toDocument, ofDocument?, Document.parts?, Document.fields?]
    simp [List.lookup_cons, Option.bind_eq_some_iff, hnodes, Document.word_roundTrip.reads_back,
      storable_iff, and_assoc, @eq_comm _ g']
  storable d g hread := by
    simp only [ofDocument?, Bind.bind, Option.bind_eq_some_iff] at hread
    obtain ⟨parts, -, hread⟩ := hread
    split at hread
    · obtain ⟨nodes, hnodes, hread⟩ := Option.bind_eq_some_iff.mp hread
      obtain ⟨nextVar, hnext, hread⟩ := Option.bind_eq_some_iff.mp hread
      obtain rfl := Option.some.inj hread
      exact (storable_iff _).mpr ⟨Node.roundTrip.list.storable _ _ hnodes,
        Document.word_roundTrip.storable _ _ hnext⟩
    · cases hread

theorem Problem.storable_iff (p : Problem α) :
    p.Storable ↔ p.graph.Storable ∧ p.objective.index < UInt32.size ∧
      (∀ c ∈ p.constraints, c.index < UInt32.size) ∧ (∀ x ∈ p.vars, InWords x.words) ∧
      ∀ x ∈ p.start, Scalar.isFinite x = true := by
  simp only [Storable, Graph.Storable, InWords, AllFinite, words, numbers, List.forall_mem_cons,
    List.forall_mem_append, List.forall_mem_flatMap, List.forall_mem_map]
  tauto

theorem Problem.roundTrip : RoundTrip (α := α) toDocument ofDocument? Storable where
  reads_back p p' := by
    have hconstraints := Document.expr_roundTrip (α := α).list.reads_back p.constraints
    have hvars := Var.roundTrip (α := α).list.reads_back p.vars
    have hstart := Document.number_roundTrip (α := α).list.reads_back p.start
    simp only [toDocument, ofDocument?, Document.parts?, Document.fields?]
    simp [List.lookup_cons, Option.bind_eq_some_iff, hconstraints, hvars, hstart,
      Graph.roundTrip.reads_back, Document.expr_roundTrip.reads_back, storable_iff, and_assoc,
      @eq_comm _ p']
  storable d p hread := by
    simp only [ofDocument?, Bind.bind, Option.bind_eq_some_iff] at hread
    obtain ⟨parts, -, hread⟩ := hread
    split at hread
    · obtain ⟨g, hg, hread⟩ := Option.bind_eq_some_iff.mp hread
      obtain ⟨objective, hobjective, hread⟩ := Option.bind_eq_some_iff.mp hread
      obtain ⟨constraints, hconstraints, hread⟩ := Option.bind_eq_some_iff.mp hread
      obtain ⟨vars, hvars, hread⟩ := Option.bind_eq_some_iff.mp hread
      obtain ⟨start, hstart, hread⟩ := Option.bind_eq_some_iff.mp hread
      obtain rfl := Option.some.inj hread
      exact (storable_iff _).mpr ⟨Graph.roundTrip.storable _ _ hg,
        Document.expr_roundTrip.storable _ _ hobjective,
        Document.expr_roundTrip.list.storable _ _ hconstraints,
        Var.roundTrip.list.storable _ _ hvars,
        Document.number_roundTrip.list.storable _ _ hstart⟩
    · cases hread

theorem Graph.run_load (d : Document α) (g : Graph α) :
    (load d).run g = match ofDocument? d with
      | some g' => .ok () g'
      | none => .error () g := by
  unfold load
  cases ofDocument? d with
  | none => rfl
  | some g' => rfl

theorem Graph.load_eq_ok {d : Document α} {g g' : Graph α} :
    (load d).run g = .ok () g' ↔ ofDocument? d = some g' := by
  rw [run_load]
  cases ofDocument? d with
  | none => simp
  | some g'' => simp

theorem Graph.load_eq_error {d : Document α} {g g' : Graph α} :
    (load d).run g = .error () g' ↔ ofDocument? d = none ∧ g' = g := by
  rw [run_load]
  cases ofDocument? d with
  | none => simp [eq_comm]
  | some g'' => simp

/-- A saved graph or problem can be loaded exactly when all its numbers are finite, and it is then
the same down to the position of every node and the number of the next variable. Whatever was
loaded from any tree of data can be saved and loaded again, and a graph that cannot be replaced by
what is read stays as it is. -/
theorem saving_and_loading_are_inverse :
    (∀ g target g' : Graph α, InWords g.words →
      ((Graph.load g.toDocument).run target = .ok () g' ↔ AllFinite g.numbers ∧ g' = g)) ∧
    (∀ p p' : Problem α, InWords p.words →
      (Problem.ofDocument? p.toDocument = some p' ↔ AllFinite p.numbers ∧ p' = p)) ∧
    (∀ (d : Document α) (g target g' : Graph α), (Graph.load d).run g = .ok () g' →
      (Graph.load g'.toDocument).run target = .ok () g') ∧
    (∀ (d : Document α) (p : Problem α), Problem.ofDocument? d = some p →
      Problem.ofDocument? p.toDocument = some p) ∧
    ∀ (d : Document α) (g g' : Graph α), (Graph.load d).run g = .error () g' → g' = g := by
  refine ⟨?_, ?_, ?_, fun d p => Problem.roundTrip.rewrites, ?_⟩
  · intro g target g' hwords
    rw [Graph.load_eq_ok, Graph.roundTrip.reads_back]
    exact and_congr_left' (and_iff_right hwords)
  · intro p p' hwords
    rw [Problem.roundTrip.reads_back]
    exact and_congr_left' (and_iff_right hwords)
  · intro d g target g' hload
    exact Graph.load_eq_ok.mpr (Graph.roundTrip.rewrites (Graph.load_eq_ok.mp hload))
  · intro d g g' hload
    exact (Graph.load_eq_error.mp hload).2

/-- A graph with a node of every kind. The last one has an operand that does not exist. -/
def sampleGraph : Graph Float where
  nodes := #[.constant (-2.5), .variable ⟨0⟩, .unary .log ⟨1⟩, .binary .multiply ⟨1⟩ ⟨2⟩,
    .power ⟨3⟩ 0.5, .sum [⟨4⟩, ⟨1⟩, ⟨9⟩]]
  nextVar := 1

theorem saving_and_loading_are_inverse_sample :
    (Graph.load sampleGraph.toDocument).run {} = .ok () sampleGraph ∧
    ¬(Graph.load (Graph.toDocument ⟨#[.constant (1 / 0 : Float)], 0⟩)).run {} =
      .ok () ⟨#[.constant (1 / 0)], 0⟩ ∧
    (Graph.load (.list [.list [], .integer 7])).run sampleGraph = .ok () ⟨#[], 7⟩ ∧
    (Graph.load (Graph.toDocument (α := Float) ⟨#[], 7⟩)).run sampleGraph = .ok () ⟨#[], 7⟩ ∧
    Problem.ofDocument? (Problem.toDocument ⟨sampleGraph, ⟨5⟩, [], [⟨⟨0⟩, ⟨1⟩⟩], [0.5]⟩) =
      some ⟨sampleGraph, ⟨5⟩, [], [⟨⟨0⟩, ⟨1⟩⟩], [0.5]⟩ := by
  obtain ⟨hgraph, hproblem, hagain, -, -⟩ := saving_and_loading_are_inverse (α := Float)
  have hlist : (Graph.load (.list [.list [], .integer 7])).run sampleGraph = .ok () ⟨#[], 7⟩ := rfl
  refine ⟨(hgraph _ _ _ ?_).mpr ⟨?_, rfl⟩, mt (hgraph _ _ _ ?_).mp ?_, hlist, hagain _ _ _ _ hlist,
    (hproblem _ _ ?_).mpr ⟨?_, rfl⟩⟩
  all_goals simp only [InWords, AllFinite]
  all_goals decide +kernel

end Autodiff
