import Autodiff.Proofs.Operations

namespace Autodiff

variable {α β γ δ ε σ : Type}

/-- What a line of a script names as an operand: a handle that is given, or the result of an earlier
line. -/
inductive Source where
  | given (e : Expr)
  | result (line : Nat)

namespace Source

def expr (results : List Expr) : Source → Expr
  | .given e => e
  | .result line => results.getD line default

def Below (n : Nat) : Source → Prop
  | .given _ => True
  | .result line => line < n

theorem Below.mono {n m : Nat} {s : Source} (h : s.Below n) (hle : n ≤ m) : s.Below m := by
  cases s with
  | given e => trivial
  | result line => exact Nat.lt_of_lt_of_le h hle

theorem expr_append {results : List Expr} {s : Source} (h : s.Below results.length)
    (later : List Expr) : s.expr (results ++ later) = s.expr results := by
  cases s with
  | given e => rfl
  | result line =>
    have hline : line < results.length := h
    simp only [expr, List.getD_eq_getElem?_getD, List.getElem?_append_left hline]

end Source

/-- What an operator is applied to: a number that has no node yet, or what has one already. -/
inductive Use (α : Type) where
  | number (value : α)
  | source (s : Source)

/-- An explicit call of a builder, on the graph of a name if there is one to make it on. -/
structure Statement (α : Type) where
  graph : Option String
  operation : Operation α Source

namespace Use

/-- The line that makes a node for a number. -/
def lines (home : Option String) : Use α → List (Statement α)
  | .number value => [⟨home, .constant value⟩]
  | .source _ => []

def count : Use α → Nat
  | .number _ => 1
  | .source _ => 0

/-- Where to find the node, if the line for it comes after `n` others. -/
def settle (n : Nat) : Use α → Source
  | .number _ => .result n
  | .source s => s

def settleAll : Nat → List (Use α) → List Source
  | _, [] => []
  | n, u :: rest => u.settle n :: settleAll (n + u.count) rest

def operand (results : List Expr) : Use α → Operand α
  | .number value => .number value
  | .source s => .expr (s.expr results)

def Below (n : Nat) : Use α → Prop
  | .number _ => True
  | .source s => s.Below n

end Use

namespace Operation

def map (f : ε → δ) : Operation α ε → Operation α δ
  | .constant value => .constant value
  | .binary op a b => .binary op (f a) (f b)
  | .unary op a => .unary op (f a)
  | .pow base exponent => .pow (f base) exponent
  | .powInt base exponent => .powInt (f base) exponent
  | .sum terms => .sum (terms.map f)

/-- The operation on the nodes of its operands, if the lines for these come after `n` others. -/
def settle (n : Nat) : Operation α (Use α) → Operation α Source
  | .constant value => .constant value
  | .binary op a b => .binary op (a.settle n) (b.settle (n + a.count))
  | .unary op a => .unary op (a.settle n)
  | .pow base exponent => .pow (base.settle n) exponent
  | .powInt base exponent => .powInt (base.settle n) exponent
  | .sum terms => .sum (Use.settleAll n terms)

def constants (home : Option String) (operation : Operation α (Use α)) : List (Statement α) :=
  operation.operands.flatMap (Use.lines home)

/-- The lines for an operation that come after `n` others: just before the operation itself those
for its numbers. -/
def lines (home : Option String) (n : Nat) (operation : Operation α (Use α)) : List (Statement α) :=
  operation.constants home ++ [⟨home, operation.settle n⟩]

end Operation

/-- The lines that a formula stands for, and where its value is found after them. -/
structure Script (α : Type) where
  lines : List (Statement α)
  value : Use α

/-- Adds an operation to the lines for its operands, of which there may be others before. -/
def Script.finish (home : Option String) (n : Nat) (before : List (Statement α))
    (operation : Operation α (Use α)) : Script α :=
  let position := n + before.length
  { lines := before ++ operation.lines home position
    value := .source (.result (position + (operation.constants home).length)) }

namespace Formula

mutual

/-- The lines for a formula that come after `n` others: those for the operands from left to right,
and then those for the operator. The calls are made on the graph named last around the operator,
which is `home` where the formula itself names none. -/
def script (home : Option String) : Formula α → Nat → Script α
  | .number value, _ => ⟨[], .number value⟩
  | .expr e, _ => ⟨[], .source (.given e)⟩
  | .binary op lhs rhs, n =>
    let left := lhs.script home n
    let right := rhs.script home (n + left.lines.length)
    .finish home n (left.lines ++ right.lines) (.binary op left.value right.value)
  | .unary op arg, n =>
    let inner := arg.script home n
    .finish home n inner.lines (.unary op inner.value)
  | .pow base exponent, n =>
    let inner := base.script home n
    .finish home n inner.lines (.pow inner.value exponent)
  | .powInt base exponent, n =>
    let inner := base.script home n
    .finish home n inner.lines (.powInt inner.value exponent)
  | .sum terms, n =>
    let inner := scriptAll home terms n
    .finish home n inner.1 (.sum inner.2)
  | .within graph body, n => body.script (some graph) n

def scriptAll (home : Option String) : List (Formula α) → Nat → List (Statement α) × List (Use α)
  | [], _ => ([], [])
  | t :: rest, n =>
    let first := t.script home n
    let others := scriptAll home rest (n + first.lines.length)
    (first.lines ++ others.1, first.value :: others.2)

end

end Formula

namespace Statement

variable [Scalar α]

/-- Makes the call of a line, when earlier ones had these results. -/
def perform (l : Statement α) (results : List Expr) : EStateM (Failure α) (Workspace α) Expr :=
  match l.graph with
  | some name => Workspace.build name (l.operation.map (Source.expr results)).build
  | none => throw (.fault .noActiveGraph)

def performAll : List (Statement α) → List Expr → EStateM (Failure α) (Workspace α) (List Expr)
  | [], results => pure results
  | l :: rest, results => do
    let e ← l.perform results
    performAll rest (results ++ [e])

end Statement

/-- Builds what a formula stands for with explicit calls. The graph that is active plays no part. -/
def Formula.buildExplicitly [Scalar α] (t : Formula α) (home : Option String) :
    EStateM (Failure α) (Workspace α) Expr := do
  let script := t.script home 0
  let results ← Statement.performAll (script.lines ++ script.value.lines home) []
  return (script.value.settle script.lines.length).expr results

/-- Actions are the same from a state if their first parts are, and what follows a success is. -/
theorem bind_congr_at {act act' : EStateM ε σ β} {f g : β → EStateM ε σ γ} {s : σ}
    (hact : act s = act' s) (hrest : ∀ x s', act' s = .ok x s' → f x s' = g x s') :
    (act >>= f) s = (act' >>= g) s := by
  simp only [bind, EStateM.bind, hact]
  cases hx : act' s with
  | ok x s' => exact hrest x s' hx
  | error e s' => rfl

namespace Workspace

def outcome (act : Build α β) (g : Graph α) : Except (Failure α) β × Graph α :=
  match act g with
  | .ok x g => (.ok x, g)
  | .error e g => (.error e, g)

/-- The graphs and the outcome as the result of an action that leaves the active graph alone. -/
def deliver (r : Except (Failure α) β × List (String × Graph α)) (active : Option String) :
    EStateM.Result (Failure α) (Workspace α) β :=
  match r with
  | (.ok x, graphs) => .ok x ⟨graphs, active⟩
  | (.error e, graphs) => .error e ⟨graphs, active⟩

theorem build_eq (name : String) (act : Build α β) (graphs : List (String × Graph α))
    (active : Option String) :
    build name act ⟨graphs, active⟩ = deliver (update name (outcome act) graphs) active := rfl

theorem update_bind (name : String) (change : Graph α → β × Graph α)
    (next : β → Graph α → γ × Graph α) (graphs : List (String × Graph α)) :
    update name (fun g => next (change g).1 (change g).2) graphs =
      update name (next (update name change graphs).1) (update name change graphs).2 := by
  induction graphs with
  | nil => simp [update]
  | cons entry rest ih =>
    by_cases h : entry.1 = name
    · simp [update, h]
    · simp [update, h, ih]

theorem update_const (name : String) (change : Graph α → β × Graph α) (y : γ)
    (graphs : List (String × Graph α)) :
    update name (fun g => (y, g)) (update name change graphs).2 =
      (y, (update name change graphs).2) := by
  induction graphs with
  | nil => simp [update]
  | cons entry rest ih =>
    by_cases h : entry.1 = name
    · simp [update, h]
    · simp [update, h, ih]

/-- Goes on in a graph after an outcome there, if that is a success. -/
def continued (f : β → Build α γ) (r : Except (Failure α) β) (g : Graph α) :
    Except (Failure α) γ × Graph α :=
  match r with
  | .ok x => outcome (f x) g
  | .error e => (.error e, g)

theorem outcome_bind (act : Build α β) (f : β → Build α γ) :
    outcome (act >>= f) = fun g => continued f (outcome act g).1 (outcome act g).2 := by
  funext g
  simp only [outcome, bind, EStateM.bind]
  cases act g with
  | ok x g' => rfl
  | error e g' => rfl

theorem build_bind (name : String) (act : Build α β) (f : β → Build α γ) (w : Workspace α) :
    build name (act >>= f) w = (build name act >>= fun x => build name (f x)) w := by
  obtain ⟨graphs, active⟩ := w
  have hsame (e : Failure α) :=
    update_const name (outcome act) (Except.error e : Except (Failure α) γ) graphs
  rw [build_eq, outcome_bind, update_bind]
  simp only [bind, EStateM.bind, build_eq]
  rcases hupdate : update name (outcome act) graphs with ⟨r, graphs'⟩
  rw [hupdate] at hsame
  cases r with
  | ok x => rfl
  | error e => exact congrArg (deliver · active) (hsame e)

/-- An action that neither looks at which graph is active nor makes another one active. -/
def Detached (act : EStateM (Failure α) (Workspace α) β) : Prop :=
  ∀ graphs, ∃ r, ∀ active, act ⟨graphs, active⟩ = deliver r active

theorem Detached.pure (x : β) : Detached (Pure.pure x : EStateM (Failure α) (Workspace α) β) :=
  fun graphs => ⟨(.ok x, graphs), fun _ => rfl⟩

theorem Detached.throw (e : Failure α) :
    Detached (MonadExcept.throw e : EStateM (Failure α) (Workspace α) β) :=
  fun graphs => ⟨(.error e, graphs), fun _ => rfl⟩

theorem Detached.build (name : String) (act : Build α β) : Detached (build name act) :=
  fun graphs => ⟨update name (outcome act) graphs, fun _ => rfl⟩

theorem Detached.bind {act : EStateM (Failure α) (Workspace α) β}
    {f : β → EStateM (Failure α) (Workspace α) γ} (hact : Detached act)
    (hf : ∀ x, Detached (f x)) : Detached (act >>= f) := by
  intro graphs
  obtain ⟨⟨r, graphs'⟩, hr⟩ := hact graphs
  cases r with
  | error e =>
    refine ⟨(.error e, graphs'), fun active => ?_⟩
    simp only [Bind.bind, EStateM.bind, hr]
    rfl
  | ok x =>
    obtain ⟨r', hr'⟩ := hf x graphs'
    refine ⟨r', fun active => ?_⟩
    simp only [Bind.bind, EStateM.bind, hr]
    exact hr' active

theorem Detached.scope_eq {act : EStateM (Failure α) (Workspace α) β} (h : Detached act)
    (name : String) (w : Workspace α) : scope name act w = act w := by
  obtain ⟨graphs, active⟩ := w
  obtain ⟨⟨r, graphs'⟩, hr⟩ := h graphs
  simp only [scope, EStateM.run, hr]
  cases r with
  | ok x => rfl
  | error e => rfl

/-- The workspace that is left by an action, whether it fails or not. -/
def left : EStateM.Result (Failure α) (Workspace α) β → Workspace α
  | .ok _ w => w
  | .error _ w => w

theorem Detached.active_left {act : EStateM (Failure α) (Workspace α) β} (h : Detached act)
    (w : Workspace α) : (left (act w)).active = w.active := by
  obtain ⟨graphs, active⟩ := w
  obtain ⟨⟨r, graphs'⟩, hr⟩ := h graphs
  rw [hr]
  cases r with
  | ok x => rfl
  | error e => rfl

theorem active_left_scope (name : String) (act : EStateM (Failure α) (Workspace α) β)
    (w : Workspace α) : (left (scope name act w)).active = w.active := by
  simp only [scope, EStateM.run]
  cases act { w with active := some name } with
  | ok x v => rfl
  | error e v => rfl

theorem scope_congr {act act' : EStateM (Failure α) (Workspace α) β} {name : String}
    {w : Workspace α}
    (h : act { w with active := some name } = act' { w with active := some name }) :
    scope name act w = scope name act' w := by
  simp only [scope, EStateM.run, h]

theorem record_of_some {w : Workspace α} {name : String} (h : w.active = some name)
    (act : Build α β) : record act w = build name act w := by
  obtain ⟨graphs, active⟩ := w
  cases h
  rfl

theorem record_of_none {w : Workspace α} (h : w.active = none) (act : Build α β) :
    record act w = .error (.fault .noActiveGraph) w := by
  obtain ⟨graphs, active⟩ := w
  cases h
  rfl

end Workspace

variable [Scalar α]

namespace Statement

open Workspace

theorem perform_detached (l : Statement α) (results : List Expr) :
    Detached (l.perform results) := by
  unfold perform
  split
  next => exact .build _ _
  next => exact .throw _

theorem performAll_detached (lines : List (Statement α)) (results : List Expr) :
    Detached (performAll lines results) := by
  induction lines generalizing results with
  | nil => exact .pure results
  | cons l rest ih => exact (l.perform_detached results).bind fun e => ih (results ++ [e])

theorem performAll_append (first rest : List (Statement α)) (results : List Expr) :
    performAll (first ++ rest) results = performAll first results >>= performAll rest := by
  induction first generalizing results with
  | nil => exact (pure_bind results (performAll rest)).symm
  | cons l first ih => simp only [List.cons_append, performAll, bind_assoc, ih]

theorem performAll_ok {lines : List (Statement α)} {results results' : List Expr}
    {w w' : Workspace α} (h : performAll lines results w = .ok results' w') :
    ∃ later, results' = results ++ later ∧ later.length = lines.length := by
  induction lines generalizing results w with
  | nil =>
    obtain ⟨rfl, -⟩ := EStateM.Result.ok.inj h
    exact ⟨[], by simp, rfl⟩
  | cons l rest ih =>
    obtain ⟨e, w₁, -, hrest⟩ := bind_at_eq_ok.mp h
    obtain ⟨later, rfl, hlen⟩ := ih hrest
    exact ⟨e :: later, by simp, by simp [hlen]⟩

theorem performAll_none (lines : List (Statement α)) (hne : lines ≠ [])
    (hnone : ∀ l ∈ lines, l.graph = none) (results : List Expr) (w : Workspace α) :
    performAll lines results w = .error (.fault .noActiveGraph) w := by
  cases lines with
  | nil => exact absurd rfl hne
  | cons l rest =>
    have hgraph : l.graph = none := hnone l (by simp)
    have hfail : l.perform results w = .error (.fault .noActiveGraph) w := by
      simp only [perform, hgraph]
      rfl
    simp only [performAll, bind, EStateM.bind, hfail]

theorem bind_of_lines {act : EStateM (Failure α) (Workspace α) β} {lines : List (Statement α)}
    {value : List Expr → β} {f : β → EStateM (Failure α) (Workspace α) γ}
    {g : List Expr → EStateM (Failure α) (Workspace α) γ} {results : List Expr} {w : Workspace α}
    (hact : act w = (do return value (← performAll lines results)) w)
    (hrest : ∀ later w', later.length = lines.length → w'.active = w.active →
      f (value (results ++ later)) w' = g (results ++ later) w') :
    (act >>= f) w = (performAll lines results >>= g) w := by
  have hsplit : (act >>= f) w = ((do return value (← performAll lines results)) >>= f) w :=
    bind_congr_at hact fun _ _ _ => rfl
  rw [hsplit, bind_assoc]
  refine bind_congr_at rfl fun results' w' hok => ?_
  obtain ⟨later, rfl, hlen⟩ := performAll_ok hok
  rw [pure_bind]
  have hactive := (performAll_detached lines results).active_left w
  rw [hok] at hactive
  exact hrest later w' hlen hactive

end Statement

open Statement Workspace

/-- From a workspace, a script does the same as an action if it is run after certain results. -/
def Script.Reproduces (script : Script α) (act : EStateM (Failure α) (Workspace α) (Operand α))
    (results : List Expr) (w : Workspace α) : Prop :=
  act w = (do return script.value.operand (← performAll script.lines results)) w

namespace Use

omit [Scalar α] in
theorem graph_of_mem_lines {home : Option String} {u : Use α} {l : Statement α}
    (h : l ∈ u.lines home) : l.graph = home := by
  cases u with
  | number value =>
    obtain rfl := List.mem_singleton.mp h
    rfl
  | source s => cases h

omit [Scalar α] in
theorem Below.mono {n m : Nat} {u : Use α} (h : u.Below n) (hle : n ≤ m) : u.Below m := by
  cases u with
  | number value => trivial
  | source s => exact Source.Below.mono h hle

omit [Scalar α] in
theorem operand_append {results : List Expr} {u : Use α} (h : u.Below results.length)
    (later : List Expr) : u.operand (results ++ later) = u.operand results := by
  cases u with
  | number value => rfl
  | source s => exact congrArg Operand.expr (Source.expr_append h later)

/-- Making nodes for operands within one call does the same as explicit lines for them. -/
theorem build_operands (name : String) (uses : List (Use α)) {results : List Expr}
    (hbelow : ∀ u ∈ uses, u.Below results.length) (f : List Expr → Build α β) (w : Workspace α) :
    build name ((uses.map (operand results)).mapM Operand.toExpr >>= f) w =
      (do
        let results' ← performAll (uses.flatMap (lines (some name))) results
        build name (f ((settleAll results.length uses).map (Source.expr results')))) w := by
  induction uses generalizing results f w with
  | nil => rfl
  | cons u rest ih =>
    have hrest : ∀ v ∈ rest, v.Below results.length := fun v hv => hbelow v (by simp [hv])
    cases u with
    | number c =>
      simp only [List.map_cons, operand, List.mapM_cons, Operand.toExpr, bind_assoc, pure_bind,
        List.flatMap_cons, lines, List.singleton_append, performAll]
      rw [build_bind]
      refine bind_congr_at rfl fun x w₁ _ => ?_
      have hlen : (results ++ [x]).length = results.length + 1 := by simp
      have hbelow' : ∀ v ∈ rest, v.Below (results ++ [x]).length := fun v hv =>
        (hrest v hv).mono (by omega)
      have hsame : rest.map (operand (results ++ [x])) = rest.map (operand results) :=
        List.map_congr_left fun v hv => operand_append (hrest v hv) [x]
      rw [← hsame]
      refine (ih hbelow' (fun xs => f (x :: xs)) w₁).trans
        (bind_congr_at rfl fun results' w₂ hok => ?_)
      obtain ⟨later, rfl, -⟩ := performAll_ok hok
      have hx : Source.expr (results ++ [x] ++ later) (.result results.length) = x := by
        simp [Source.expr]
      simp only [settleAll, settle, count, List.map_cons, hx, hlen]
    | source s =>
      have hs : s.Below results.length := hbelow (.source s) (by simp)
      simp only [List.map_cons, operand, List.mapM_cons, Operand.toExpr, bind_assoc, pure_bind,
        List.flatMap_cons, lines, List.nil_append]
      refine (ih hrest (fun xs => f (s.expr results :: xs)) w).trans
        (bind_congr_at rfl fun results' w₁ hok => ?_)
      obtain ⟨later, rfl, -⟩ := performAll_ok hok
      simp only [settleAll, settle, count, List.map_cons, Source.expr_append hs, Nat.add_zero]

end Use

namespace Operation

/-- Makes nodes for those operands that are numbers, and calls the builder. -/
def enter : Operation α (Operand α) → Build α Expr
  | .constant value => Build.constant value
  | .binary op a b => do
    let x ← a.toExpr
    let y ← b.toExpr
    op.build x y
  | .unary op a => do op.build (← a.toExpr)
  | .pow base exponent => do Build.pow (← base.toExpr) exponent
  | .powInt base exponent => do Build.powInt (← base.toExpr) exponent
  | .sum terms => do Build.sum (← terms.mapM Operand.toExpr)

theorem build_enter (name : String) (op : Operation α (Use α)) {results : List Expr}
    (hbelow : ∀ u ∈ op.operands, u.Below results.length) (w : Workspace α) :
    Workspace.build name (op.map (Use.operand results)).enter w =
      (do
        let results' ← performAll (op.constants (some name)) results
        Workspace.build name ((op.settle results.length).map (Source.expr results')).build) w := by
  have h (f : List Expr → Build α Expr) := Use.build_operands name op.operands hbelow f w
  cases op with
  | constant value => exact h fun _ => Build.constant value
  | binary op a b =>
    have hab := h fun xs => op.build (xs.getD 0 default) (xs.getD 1 default)
    simpa [operands, enter, map, settle, build, constants, Use.settleAll] using hab
  | unary op a =>
    have ha := h fun xs => op.build (xs.getD 0 default)
    simpa [operands, enter, map, settle, build, constants, Use.settleAll] using ha
  | pow base exponent =>
    have ha := h fun xs => Build.pow (xs.getD 0 default) exponent
    simpa [operands, enter, map, settle, build, constants, Use.settleAll] using ha
  | powInt base exponent =>
    have ha := h fun xs => Build.powInt (xs.getD 0 default) exponent
    simpa [operands, enter, map, settle, build, constants, Use.settleAll] using ha
  | sum terms => exact h Build.sum

omit [Scalar α] in
theorem graph_of_mem_lines {home : Option String} {n : Nat} {op : Operation α (Use α)}
    {l : Statement α} (h : l ∈ op.lines home n) : l.graph = home := by
  rcases List.mem_append.mp h with hl | hl
  · obtain ⟨u, -, hu⟩ := List.mem_flatMap.mp hl
    exact Use.graph_of_mem_lines hu
  · obtain rfl := List.mem_singleton.mp hl
    rfl

theorem record_enter (op : Operation α (Use α)) {home : Option String} {n : Nat}
    {results : List Expr} {w : Workspace α} (hhome : w.active = home) (hn : results.length = n)
    (hbelow : ∀ u ∈ op.operands, u.Below n) :
    record (op.map (Use.operand results)).enter w =
      (do
        let results' ← performAll (op.lines home n) results
        return (Source.result (n + (op.constants home).length)).expr results') w := by
  subst hn
  cases home with
  | none =>
    have hscript := performAll_none (op.lines none results.length) (by simp [lines])
      (fun l hl => graph_of_mem_lines hl) results w
    have hrecord := record_of_none hhome (op.map (Use.operand results)).enter
    simp only [bind, EStateM.bind, hrecord, hscript]
  | some name =>
    refine ((record_of_some hhome _).trans (op.build_enter name hbelow w)).trans ?_
    rw [lines, performAll_append, bind_assoc]
    refine bind_congr_at rfl fun results' w' hok => ?_
    obtain ⟨later, rfl, hlen⟩ := performAll_ok hok
    have hlast (e : Expr) : Source.expr (results ++ later ++ [e])
        (.result (results.length + (op.constants (some name)).length)) = e := by
      rw [← hlen, ← List.length_append, Source.expr]
      simp
    simp only [performAll, Statement.perform, bind_assoc, pure_bind, hlast, bind_pure]

end Operation

namespace Formula

section

omit [Scalar α]

theorem below_finish {home : Option String} {n : Nat} {before : List (Statement α)}
    {op : Operation α (Use α)} :
    (Script.finish home n before op).value.Below
      (n + (Script.finish home n before op).lines.length) := by
  simp only [Script.finish, Operation.lines, List.length_append, List.length_singleton]
  show n + before.length + _ < _
  omega

theorem below_pair {left right : Script α} {n : Nat} (op : BinaryOperator)
    (hleft : left.value.Below (n + left.lines.length))
    (hright : right.value.Below (n + left.lines.length + right.lines.length)) :
    ∀ u ∈ (Operation.binary op left.value right.value : Operation α (Use α)).operands,
      u.Below (n + (left.lines ++ right.lines).length) := by
  simp only [Operation.operands, List.mem_cons, List.not_mem_nil, or_false, forall_eq_or_imp,
    forall_eq, List.length_append]
  exact ⟨hleft.mono (by omega), hright.mono (by omega)⟩

theorem below_single {op : Operation α (Use α)} {u : Use α} {n : Nat} (hop : op.operands = [u])
    (hu : u.Below n) : ∀ v ∈ op.operands, v.Below n := by
  intro v hv
  obtain rfl : v = u := by simpa [hop] using hv
  exact hu

mutual

theorem below_script (home : Option String) :
    (t : Formula α) → (n : Nat) → (t.script home n).value.Below (n + (t.script home n).lines.length)
  | .number _, _ => trivial
  | .expr _, _ => trivial
  | .binary .., _ => below_finish
  | .unary .., _ => below_finish
  | .pow .., _ => below_finish
  | .powInt .., _ => below_finish
  | .sum _, _ => below_finish
  | .within graph body, n => below_script (some graph) body n

theorem below_scriptAll (home : Option String) :
    (terms : List (Formula α)) → (n : Nat) → ∀ u ∈ (scriptAll home terms n).2,
      u.Below (n + (scriptAll home terms n).1.length)
  | [], _ => by simp [scriptAll]
  | t :: rest, n => by
    have hfirst := below_script home t n
    have hothers := below_scriptAll home rest (n + (t.script home n).lines.length)
    intro u hu
    simp only [scriptAll, List.length_append] at hu ⊢
    rcases List.mem_cons.mp hu with rfl | hu
    · exact hfirst.mono (by omega)
    · exact (hothers u hu).mono (by omega)

end

end

section

variable {home : Option String} {n : Nat} {results : List Expr} {w : Workspace α}

/-- Two parts that are recorded one after the other. The lines for the second do not move the
results that the first refers to. -/
theorem both_eq_lines (f : Operand α → β → γ) {act : EStateM (Failure α) (Workspace α) (Operand α)}
    (act' : EStateM (Failure α) (Workspace α) β) {left : Script α} {right : List (Statement α)}
    {value : List Expr → β}
    (hleft : left.Reproduces act results w)
    (hbelow : left.value.Below (results.length + left.lines.length))
    (hright : ∀ later w', later.length = left.lines.length → w'.active = w.active →
      act' w' = (do return value (← performAll right (results ++ later))) w') :
    (do return f (← act) (← act')) w =
      (do
        let results' ← performAll (left.lines ++ right) results
        return f (left.value.operand results') (value results')) w := by
  rw [performAll_append, bind_assoc]
  refine bind_of_lines hleft fun later w' hlen hactive => ?_
  refine bind_of_lines (hright later w' hlen hactive) fun later' w'' _ _ => ?_
  have hsame : left.value.operand (results ++ later ++ later') =
      left.value.operand (results ++ later) :=
    Use.operand_append (by rwa [List.length_append, hlen]) later'
  rw [hsame]

theorem reproduces_finish {act : EStateM (Failure α) (Workspace α) β} {before : List (Statement α)}
    {value : List Expr → β} (enter : β → Build α Expr) {op : Operation α (Use α)}
    (hhome : w.active = home) (hn : results.length = n)
    (hact : act w = (do return value (← performAll before results)) w)
    (hbelow : ∀ u ∈ op.operands, u.Below (n + before.length))
    (henter : ∀ results', enter (value results') = (op.map (Use.operand results')).enter) :
    (Script.finish home n before op).Reproduces
      (do
        let operands ← act
        return .expr (← Workspace.record (enter operands))) results w := by
  simp only [Script.Reproduces, Script.finish, performAll_append, bind_assoc]
  refine bind_of_lines hact fun later w' hlen hactive => ?_
  have hn' : (results ++ later).length = n + before.length := by
    rw [List.length_append, hn, hlen]
  have hrecord := op.record_enter (hactive.trans hhome) hn' hbelow
  rw [henter]
  refine (bind_congr_at hrecord fun _ _ _ => rfl).trans ?_
  simp only [bind_assoc, pure_bind, Use.operand]

end

mutual

/-- Recording a formula does the same as its script, run after any results. -/
theorem script_reproduces (t : Formula α) {home : Option String} {n : Nat} {results : List Expr}
    {w : Workspace α} (hhome : w.active = home) (hn : results.length = n) :
    (t.script home n).Reproduces t.record results w := by
  match t with
  | .number value => rfl
  | .expr e => rfl
  | .binary op lhs rhs =>
    have hboth := both_eq_lines Prod.mk rhs.record (script_reproduces lhs hhome hn)
      (hn ▸ below_script home lhs n) fun later w' hlen hactive =>
        script_reproduces rhs (hactive.trans hhome) (by rw [List.length_append, hn, hlen])
    have hrecord : (Formula.binary op lhs rhs).record = (do
        let ab ← (do return Prod.mk (← lhs.record) (← rhs.record))
        return Operand.expr (← Workspace.record (Operation.binary op ab.1 ab.2).enter)) := by
      simp only [record, Operation.enter, bind_assoc, pure_bind]
    have hbelow := below_pair op (below_script home lhs n)
      (below_script home rhs (n + (lhs.script home n).lines.length))
    have hfinish := reproduces_finish
      (fun ab : Operand α × Operand α => (Operation.binary op ab.1 ab.2).enter) hhome hn hboth
      hbelow fun _ => rfl
    rw [hrecord, script]
    exact hfinish
  | .unary op arg =>
    rw [record, script]
    exact reproduces_finish (fun a => (Operation.unary op a).enter) hhome hn
      (script_reproduces arg hhome hn)
      (below_single rfl (below_script home arg n)) fun _ => rfl
  | .pow base exponent =>
    rw [record, script]
    exact reproduces_finish (fun a => (Operation.pow a exponent).enter) hhome hn
      (script_reproduces base hhome hn)
      (below_single rfl (below_script home base n)) fun _ => rfl
  | .powInt base exponent =>
    rw [record, script]
    exact reproduces_finish (fun a => (Operation.powInt a exponent).enter) hhome hn
      (script_reproduces base hhome hn)
      (below_single rfl (below_script home base n)) fun _ => rfl
  | .sum terms =>
    rw [record, script]
    exact reproduces_finish (fun operands => (Operation.sum operands).enter) hhome hn
      (scriptAll_reproduces terms hhome hn) (below_scriptAll home terms n) fun _ => rfl
  | .within graph body =>
    have hbody := script_reproduces body (w := { w with active := some graph }) rfl hn
    rw [record, script]
    have hdetached := (performAll_detached (body.script (some graph) n).lines results).bind
      fun results' => .pure ((body.script (some graph) n).value.operand results')
    exact (scope_congr hbody).trans (hdetached.scope_eq graph w)

theorem scriptAll_reproduces (terms : List (Formula α)) {home : Option String} {n : Nat}
    {results : List Expr} {w : Workspace α} (hhome : w.active = home) (hn : results.length = n) :
    recordAll terms w = (do
      let results' ← performAll (scriptAll home terms n).1 results
      return (scriptAll home terms n).2.map (Use.operand results')) w := by
  match terms with
  | [] => rfl
  | t :: rest =>
    exact both_eq_lines List.cons (recordAll rest) (script_reproduces t hhome hn)
      (hn ▸ below_script home t n) fun later w' hlen hactive =>
        scriptAll_reproduces rest (hactive.trans hhome) (by rw [List.length_append, hn, hlen])

end

theorem recordExpr_eq (t : Formula α) (w : Workspace α) :
    t.recordExpr w = t.buildExplicitly w.active w := by
  simp only [recordExpr, buildExplicitly, performAll_append, bind_assoc]
  refine bind_of_lines (script_reproduces t rfl rfl) fun results w' hlen hactive => ?_
  have hlength : ([] ++ results).length = (t.script w.active 0).lines.length := hlen
  cases (t.script w.active 0).value with
  | number value =>
    exact (Operation.constant value).record_enter hactive hlength (by simp [Operation.operands])
  | source s => rfl

theorem buildExplicitly_detached (t : Formula α) (home : Option String) :
    Detached (t.buildExplicitly home) :=
  (performAll_detached _ []).bind fun _ => .pure _

/-- Recording a formula does the same to all graphs, and gives the same handle or failure, as
explicit calls of the builders: on the active graph, or on the graph of a scope around the formula.
The graph that was active before is active again afterwards, also after a failure, and so it is
after a scope around anything. An operator without an active graph fails and changes nothing. -/
theorem recording_eq_building (t : Formula α) (w : Workspace α) :
    t.recordExpr w = t.buildExplicitly w.active w ∧
    (∀ name, scope name t.recordExpr w = t.buildExplicitly (some name) w) ∧
    (left (t.recordExpr w)).active = w.active ∧
    (∀ (β : Type) name (act : EStateM (Failure α) (Workspace α) β),
      (left (scope name act w)).active = w.active) ∧
    ∀ op : Operation α (Operand α), Workspace.record op.enter { w with active := none } =
      .error (.fault .noActiveGraph) { w with active := none } := by
  refine ⟨t.recordExpr_eq w, fun name => ?_, ?_, fun β name act => ?_, fun op => ?_⟩
  · exact (scope_congr (t.recordExpr_eq _)).trans
      ((t.buildExplicitly_detached (some name)).scope_eq name w)
  · rw [t.recordExpr_eq w]
    exact (t.buildExplicitly_detached w.active).active_left w
  · exact active_left_scope name act w
  · exact record_of_none rfl op.enter

-- `2 - exp (x * 3)` with the product in a graph of its own: the left number is entered last of all
-- operands, since it is the operator that makes a node of it.
example :
    (script (some "f") (.binary .sub (.number 2)
      (.unary .exp (.within "g" (.binary .mul (.expr ⟨0⟩) (.number 3))))) 0).lines =
      [⟨some "g", .constant 3⟩, ⟨some "g", .binary .mul (.given ⟨0⟩) (.result 0)⟩,
        ⟨some "f", .unary .exp (.result 1)⟩, ⟨some "f", .constant 2⟩,
        ⟨some "f", .binary .sub (.result 3) (.result 2)⟩] := rfl

end Formula

end Autodiff
