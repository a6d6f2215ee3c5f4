import Autodiff.Proofs.NewVariables
import Autodiff.Proofs.StoppedBuilding

namespace Autodiff

variable {α : Type}

namespace Graph

/-- Different variables of the graph, among them all that some expressions depend on. An expression
from elsewhere depends on none. -/
structure Supplies (g : Graph α) (vars : List Var) (es : List Expr) : Prop
    extends g.Binds vars where
  bound : ∀ e ∈ es, ∀ i id, g.Reaches e.index i → g.nodes[i]? = some (.variable id) →
    ∃ v ∈ vars, v.expr.index = i

variable {g extended : Graph α} {root : Expr} {vars params : List Var} {handles es : List Expr}

/-- An expression that rests on some handles reaches nodes of the old graph through them only. -/
theorem Rests.reaches (h : extended.Rests g.size handles) (hext : g.Extends extended) {i j : Nat}
    (hreach : extended.Reaches j i) (hj : g.size ≤ j ∨ ∃ e ∈ handles, g.Reaches e.index j) :
    g.size ≤ i ∨ ∃ e ∈ handles, g.Reaches e.index i := by
  induction hreach with
  | refl => exact hj
  | @step j i node e hn he hlt _ ih =>
    refine ih ?_
    by_cases hnew : g.size ≤ j
    · rcases (h.operands j node hnew hn e he).2 with hmem | hle
      · exact Or.inr ⟨e, hmem, .refl _⟩
      · exact Or.inl hle
    · obtain ⟨base, hmem, hbase⟩ := hj.resolve_left hnew
      rw [hext.kept j (Nat.not_le.mp hnew)] at hn
      exact Or.inr ⟨base, hmem, hbase.snoc hn he hlt⟩

theorem Carries.origin (h : extended.Carries g.size handles root) :
    g.size ≤ root.index ∨ ∃ e ∈ handles, g.Reaches e.index root.index :=
  h.known.symm.imp_right fun hmem => ⟨root, hmem, .refl _⟩

theorem Rests.closed (h : extended.Rests g.size handles) (hext : g.Extends extended)
    (hroot : extended.Carries g.size handles root) (hclosed : ∀ e ∈ handles, g.Closed e.index) :
    extended.Closed root.index := by
  intro i node hi hn e he
  by_cases hnew : g.size ≤ i
  · exact (h.operands i node hnew hn e he).1
  · obtain ⟨base, hmem, hbase⟩ := (h.reaches hext hi hroot.origin).resolve_left hnew
    rw [hext.kept i (Nat.not_le.mp hnew)] at hn
    exact hclosed base hmem i node hbase hn e he

/-- With all variables supplied, an expression compiles, except if the graph does not have it or one
of the operands below it. -/
theorem Supplies.compileParametric (h : g.Supplies (vars ++ params) [root]) :
    (g.Owns root ∧ g.Closed root.index ∧ ∃ t, g.compileParametric root vars params = .ok t) ∨
      (¬(g.Owns root ∧ g.Closed root.index) ∧
        ∃ i, g.compileParametric root vars params = .error (.refused (.foreignNode i g.size))) := by
  rcases g.reachable_spec root with ⟨order, ho, hord⟩ | ⟨i, hi, hopen⟩
  · rcases compileParametric_spec ho h.toBinds with ⟨id, hfree, -⟩ | ⟨-, l, -, hcompile⟩
    · obtain ⟨i, hmem, hfound⟩ := List.exists_of_findSome?_eq_some hfree
      unfold free? at hfound
      split at hfound
      next id' hn =>
        obtain ⟨v, hv, heq⟩ := h.bound root List.mem_cons_self i id' ((hord.mem_iff i).mp hmem) hn
        split at hfound
        next => cases hfound
        next hposition =>
          rw [Option.not_isSome_iff_eq_none, position_eq_none_iff] at hposition
          exact absurd heq (hposition v hv)
      next => cases hfound
    · exact Or.inl ⟨hord.root_lt, hord.closed, _, hcompile⟩
  · refine Or.inr ⟨fun howned => hopen.not_closed howned.1 howned.2, i, ?_⟩
    rw [compileParametric_eq, hi, error_bind]

theorem Supplies.compile (h : g.Supplies vars es) {e : Expr} (he : e ∈ es) :
    (g.Owns e ∧ g.Closed e.index ∧ ∃ t, g.compile e vars = .ok t) ∨
      (¬(g.Owns e ∧ g.Closed e.index) ∧
        ∃ i, g.compile e vars = .error (.refused (.foreignNode i g.size))) := by
  have hvars : g.Supplies (vars ++ []) [e] := by
    rw [List.append_nil]
    exact ⟨h.toBinds, fun e' he' => List.mem_singleton.mp he' ▸ h.bound e he⟩
  exact hvars.compileParametric

/-- Of several expressions, one that the graph does not have is reported. -/
theorem Supplies.compile_foreign (h : g.Supplies vars es) (hforeign : ∃ e ∈ es, ¬g.Owns e) :
    ∃ i, es.mapM (fun e => g.compile e vars) = .error (.refused (.foreignNode i g.size)) := by
  obtain ⟨e, he, hnot⟩ := hforeign
  cases hall : es.mapM fun e => g.compile e vars with
  | ok tapes =>
    obtain ⟨t, -, ht⟩ := exists_of_forall₂ (mapM_eq_ok_iff.mp hall) he
    rcases h.compile he with ⟨howned, -⟩ | ⟨-, i, hi⟩
    · exact absurd howned hnot
    · cases ht.symm.trans hi
  | error cause =>
    obtain ⟨before, e', after, rfl, -, hcause⟩ := mapM_eq_error_iff.mp hall
    rcases h.compile (by simp : e' ∈ before ++ e' :: after) with ⟨-, -, t, ht⟩ | ⟨-, i, hi⟩
    · cases ht.symm.trans hcause
    · exact ⟨i, congrArg _ (Except.error.inj (hcause.symm.trans hi))⟩

theorem Supplies.compile_owned (h : g.Supplies vars es)
    (howned : ∀ e ∈ es, g.Owns e ∧ g.Closed e.index) :
    ∃ tapes, es.mapM (fun e => g.compile e vars) = .ok tapes := by
  cases hall : es.mapM fun e => g.compile e vars with
  | ok tapes => exact ⟨tapes, rfl⟩
  | error cause =>
    obtain ⟨before, e, after, rfl, -, hcause⟩ := mapM_eq_error_iff.mp hall
    have he : e ∈ before ++ e :: after := by simp
    rcases h.compile he with ⟨-, -, t, ht⟩ | ⟨hnot, -⟩
    · cases ht.symm.trans hcause
    · exact absurd (howned e he) hnot

end Graph

namespace Lagrangian

open Autodiff.Graph

variable {g started extended : Graph α} {root : Expr} {vars params : List Var}
  {handles : List Expr} {k : Nat}

/-- The parameters of a Lagrangian supply what was added to the graph. -/
theorem Begun.supplies (h : Begun g started params) (hvars : g.Supplies vars handles)
    (hdrafts : started.Drafts g.size handles k extended)
    (hroot : extended.Carries g.size handles root)
    (hnodes : ∀ i id, extended.nodes[i]? = some (.variable id) →
      g.nodes[i]? = some (.variable id) ∨ ∃ y ∈ params, y.expr.index = i) :
    extended.Supplies (vars ++ params) [root] := by
  have hext := h.toExtends.trans hdrafts.toExtends
  refine ⟨⟨fun x hx => ?_, ?_⟩, fun e he i id hi hn => ?_⟩
  · rcases List.mem_append.mp hx with hx | hx
    · exact hext.node (hvars.node_eq x hx)
    · exact hdrafts.node (h.fresh x hx).node
  · rw [List.map_append, List.nodup_append]
    refine ⟨hvars.nodup, h.nodup, ?_⟩
    intro i hi j hj heq
    obtain ⟨x, hx, rfl⟩ := List.mem_map.mp hi
    obtain ⟨y, hy, rfl⟩ := List.mem_map.mp hj
    have hlt := size_of_node (hvars.node_eq x hx)
    have hle := (h.fresh y hy).le
    omega
  · obtain rfl := List.mem_singleton.mp he
    rcases hnodes i id hn with hold | ⟨y, hy, heq⟩
    · have hlt := size_of_node hold
      obtain ⟨base, hmem, hbase⟩ :=
        (hdrafts.rests.reaches hext hi hroot.origin).resolve_left (Nat.not_le.mpr hlt)
      obtain ⟨v, hv, heq⟩ := hvars.bound base hmem i id hbase hold
      exact ⟨v, List.mem_append_left _ hv, heq⟩
    · exact ⟨y, List.mem_append_right _ hy, heq⟩

variable [Scalar α] {objective : Expr} {constraints : List Expr}

/-- A constraint that the graph does not have always leads to a refusal, if the construction of the
Lagrangian has come to its end. -/
theorem ofGraph_refused
    (h : (assemble objective constraints).run g = .ok (root, params) extended)
    (hforeign : ∃ c ∈ constraints, ¬g.Owns c) :
    ∃ cause, ofGraph g objective constraints vars = .error (.refused cause) := by
  have hsafe := ofGraph_safe_of_ok h vars
  cases hr : ofGraph g objective constraints vars with
  | ok l =>
    rw [ofGraph_eq_of_ok h] at hr
    obtain ⟨tape, -, hrest⟩ := bind_eq_ok.mp hr
    obtain ⟨tapes, htapes, -⟩ := bind_eq_ok.mp hrest
    obtain ⟨c, hc, hnot⟩ := hforeign
    obtain ⟨t, -, ht⟩ := exists_of_forall₂ (mapM_eq_ok_iff.mp htapes) hc
    rcases g.compileParametric_cases c vars [] with
      ⟨_, order, l, -, -, hrenders⟩ | ⟨id, order, hcause, -⟩ | ⟨e, hcause, -⟩
    · exact absurd hrenders.ordered.root_lt hnot
    · cases ht.symm.trans hcause
    · cases ht.symm.trans hcause
  | error cause =>
    rw [hr] at hsafe
    match cause, hsafe with
    | .refused cause, _ => exact ⟨cause, rfl⟩

/-- What becomes of handles that do not belong to the graph. They are looked up on the copy that
gains the parameters, and a handle beyond the copy stops the construction. Otherwise a foreign
constraint is refused when it is compiled alone, but a foreign objective stands for whatever the copy
has at its place. -/
theorem ofGraph_foreign (g : Graph α) (objective : Expr) (constraints : List Expr)
    (vars : List Var) :
    (∃ e ∈ objective :: constraints, ∃ size, g.size + 1 + constraints.length ≤ size ∧
      size ≤ e.index ∧
      ofGraph g objective constraints vars = .error (.fault (.foreignHandle e.index size))) ∨
    ((∀ e ∈ objective :: constraints, e.index < g.size + 3 * constraints.length + 10) ∧
      ((∃ c ∈ constraints, ¬g.Owns c) →
        ∃ cause, ofGraph g objective constraints vars = .error (.refused cause)) ∧
      (g.Supplies vars (objective :: constraints) →
        ((∃ c ∈ constraints, ¬g.Owns c) → ∃ i size,
          ofGraph g objective constraints vars = .error (.refused (.foreignNode i size))) ∧
        ((∀ c ∈ constraints, g.Owns c) →
          (∀ e ∈ objective :: constraints, g.Closed e.index) →
          ∃ l, ofGraph g objective constraints vars = .ok l))) := by
  obtain ⟨params, started, hbegun, hlength, hattempted⟩ :=
    assemble_attempts g objective constraints
  have hsize := hbegun.size_eq
  cases hassemble : (assemble objective constraints).run g with
  | error cause stage =>
    rw [hassemble] at hattempted
    obtain ⟨hdrafts, e, he, hle, rfl⟩ := hattempted
    have hgrown := hdrafts.size_le
    refine Or.inl ⟨e, he, stage.size, by omega, hle, ?_⟩
    rw [ofGraph, hassemble]
  | ok result extended =>
    obtain ⟨root, params'⟩ := result
    rw [hassemble] at hattempted
    obtain ⟨hdrafts, rfl, hroot, howned⟩ := hattempted
    have hlimit := hdrafts.size_le_add
    have hext := hbegun.toExtends.trans hdrafts.toExtends
    refine Or.inr ⟨fun e he => ?_, ofGraph_refused hassemble, fun hvars => ?_⟩
    · have hlt : e.index < extended.size := howned e he
      omega
    have hsupplies := hbegun.supplies hvars hdrafts hroot fun _ _ hi =>
      node_of_assemble hassemble hi
    have hconstraints : g.Supplies vars constraints :=
      ⟨hvars.toBinds, fun c hc => hvars.bound c (List.mem_cons_of_mem _ hc)⟩
    rw [ofGraph_eq_of_ok hassemble]
    constructor
    · intro hforeign
      obtain ⟨i, hi⟩ := hconstraints.compile_foreign hforeign
      rcases hsupplies.compileParametric with ⟨-, -, tape, htape⟩ | ⟨-, j, hj⟩
      · exact ⟨i, g.size, by rw [htape, ok_bind, hi, error_bind]⟩
      · exact ⟨j, extended.size, by rw [hj, error_bind]⟩
    · intro hall hclosed
      obtain ⟨tapes, htapes⟩ := hconstraints.compile_owned fun c hc =>
        ⟨hall c hc, hclosed c (List.mem_cons_of_mem _ hc)⟩
      rcases hsupplies.compileParametric with ⟨-, -, tape, htape⟩ | ⟨hnot, -⟩
      · exact ⟨⟨tape, tapes⟩, by rw [htape, ok_bind, htapes, ok_bind]; rfl⟩
      · exact absurd ⟨hroot.owned, hdrafts.rests.closed hext hroot hclosed⟩ hnot

/-- A graph with nothing but a variable. -/
def variableGraph : Graph Float := ⟨#[.variable ⟨0⟩], 1⟩

/-- An objective from elsewhere is taken for the penalty weight, and a constraint from elsewhere
stops the construction. -/
theorem ofGraph_foreign_unreported :
    (¬variableGraph.Owns ⟨1⟩ ∧ (ofGraph variableGraph ⟨1⟩ [] [⟨⟨0⟩, ⟨0⟩⟩]).isOk = true) ∧
    ¬variableGraph.Owns ⟨99⟩ ∧ ofGraph variableGraph ⟨0⟩ [⟨99⟩] [⟨⟨0⟩, ⟨0⟩⟩] =
      .error (.fault (.foreignHandle 99 3)) :=
  ⟨⟨Nat.lt_irrefl 1, by decide +kernel⟩, fun h => absurd h (by decide : ¬99 < 1), rfl⟩

end Lagrangian

end Autodiff
