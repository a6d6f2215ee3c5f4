import Autodiff.Recording
import Autodiff.TermVector
import Autodiff.Proofs.WellFormed

namespace Autodiff

variable {α β : Type} [Scalar α]

namespace TermVector

open Build

variable {g : Graph α}

/-- Every component belongs to the graph. -/
def Owned (g : Graph α) (a : TermVector) : Prop := ∀ e ∈ a.components, g.Owns e

theorem mapM_keeps (hg : g.WellFormed) (xs : List β) {f : β → Build α Expr}
    (hf : ∀ x (g' : Graph α), g'.WellFormed → Keeps (f x) g' Graph.Owns) :
    Keeps (xs.mapM f) g fun g' es => ∀ e ∈ es, g'.Owns e := by
  have hall : Keeps (xs.mapM f) g fun g' es => List.Forall₂ (fun _ e => g'.Owns e) xs es :=
    Keeps.mapM hg (fun _ _ _ e hext (he : Graph.Owns _ e) => he.extend hext) xs
      fun x _ g' hg' _ => hf x g' hg'
  refine hall.mono fun g' es _ h e he => ?_
  exact (exists_of_forall₂ h.flip he).elim fun _ hx => hx.2

theorem components_keeps {act : Build α (List Expr)}
    (h : Keeps act g fun g' es => ∀ e ∈ es, g'.Owns e) :
    Keeps (do return ⟨← act⟩) g Owned :=
  h.bind fun _ _ hg' _ hes => .pure hg' hes

theorem constants_keeps (hg : g.WellFormed) (values : List α) :
    Keeps (constants values) g Owned :=
  components_keeps (mapM_keeps hg values fun c _ hg' => constant_keeps hg' c)

theorem zipWith_keeps (hg : g.WellFormed) {f : Expr → Expr → Build α Expr}
    (hf : ∀ x y (g' : Graph α), g'.WellFormed → Keeps (f x y) g' Graph.Owns) (a b : TermVector) :
    Keeps (zipWith f a b) g Owned := by
  unfold zipWith
  split
  next => exact components_keeps (mapM_keeps hg _ fun x => hf x.1 x.2)
  next => exact .throw hg _

theorem add_keeps (hg : g.WellFormed) (a b : TermVector) : Keeps (add a b) g Owned :=
  zipWith_keeps hg (fun x y _ hg' => Build.add_keeps hg' x y) a b

theorem sub_keeps (hg : g.WellFormed) (a b : TermVector) : Keeps (sub a b) g Owned :=
  zipWith_keeps hg (fun x y _ hg' => Build.sub_keeps hg' x y) a b

theorem scale_keeps (hg : g.WellFormed) (a : TermVector) (factor : Expr) :
    Keeps (scale a factor) g Owned :=
  components_keeps (mapM_keeps hg _ fun x _ hg' => mul_keeps hg' factor x)

theorem neg_keeps (hg : g.WellFormed) (a : TermVector) : Keeps (neg a) g Owned :=
  components_keeps (mapM_keeps hg _ fun x _ hg' => Build.neg_keeps hg' x)

theorem dot_keeps (hg : g.WellFormed) (a b : TermVector) : Keeps (dot a b) g Graph.Owns :=
  (zipWith_keeps hg (fun x y _ hg' => mul_keeps hg' x y) a b).bind fun products _ hg' _ _ =>
    sum_keeps hg' products.components

theorem normSquared_keeps (hg : g.WellFormed) (a : TermVector) :
    Keeps (normSquared a) g Graph.Owns :=
  (mapM_keeps hg _ fun x _ hg' => pow_keeps hg' x Scalar.two).bind fun squares _ hg' _ _ =>
    sum_keeps hg' squares

theorem minor_keeps (hg : g.WellFormed) (p q r s : Expr) :
    Keeps (cross.minor p q r s) g Graph.Owns :=
  (mul_keeps hg p q).bind fun first _ hg₁ _ _ => (mul_keeps hg₁ r s).bind fun second _ hg₂ _ _ =>
    Build.sub_keeps hg₂ first second

theorem cross_keeps (hg : g.WellFormed) (a b : TermVector) : Keeps (cross a b) g Owned := by
  unfold cross
  split
  next a0 a1 a2 b0 b1 b2 _ _ =>
    refine (minor_keeps hg a1 b2 a2 b1).bind fun x g₁ hg₁ _ hx => ?_
    refine (minor_keeps hg₁ a2 b0 a0 b2).bind fun y g₂ hg₂ hext₂ hy => ?_
    refine (minor_keeps hg₂ a0 b1 a1 b0).bind fun z g₃ hg₃ hext₃ hz => .pure hg₃ fun e he => ?_
    rcases (by simpa using he : e = x ∨ e = y ∨ e = z) with rfl | rfl | rfl
    · exact (hx.extend hext₂).extend hext₃
    · exact hy.extend hext₃
    · exact hz
  next => exact .throw hg _

end TermVector

/-- One call of a builder operation with what goes into it. -/
inductive BuilderCall (α : Type) where
  | constant (value : α)
  | newVar
  | newVars (n : Nat)
  | binary (op : BinaryOperator) (a b : Expr)
  | unary (op : UnaryOperator) (a : Expr)
  | pow (base : Expr) (exponent : α)
  | powInt (base : Expr) (exponent : Int)
  | sum (terms : List Expr)
  | substitute (root : Expr) (vars : List Var) (values : List α)
  | constants (values : List α)
  | addVectors (a b : TermVector)
  | subVectors (a b : TermVector)
  | scale (a : TermVector) (factor : Expr)
  | negVector (a : TermVector)
  | dot (a b : TermVector)
  | normSquared (a : TermVector)
  | cross (a b : TermVector)

/-- Makes the call and gives the handles that it returns. -/
def BuilderCall.perform : BuilderCall α → Build α (List Expr)
  | .constant value => return [← Build.constant value]
  | .newVar => return [(← Build.newVar).expr]
  | .newVars n => return (← Build.newVars n).map Var.expr
  | .binary op a b => return [← op.build a b]
  | .unary op a => return [← op.build a]
  | .pow base exponent => return [← Build.pow base exponent]
  | .powInt base exponent => return [← Build.powInt base exponent]
  | .sum terms => return [← Build.sum terms]
  | .substitute root vars values => return [← Build.substitute root vars values]
  | .constants values => return (← TermVector.constants values).components
  | .addVectors a b => return (← a.add b).components
  | .subVectors a b => return (← a.sub b).components
  | .scale a factor => return (← a.scale factor).components
  | .negVector a => return (← a.neg).components
  | .dot a b => return [← a.dot b]
  | .normSquared a => return [← a.normSquared]
  | .cross a b => return (← a.cross b).components

section

variable {g : Graph α}

theorem BinaryOperator.build_keeps (hg : g.WellFormed) (op : BinaryOperator) (a b : Expr) :
    Keeps (op.build a b) g Graph.Owns := by
  cases op with
  | add => exact Build.add_keeps hg a b
  | sub => exact Build.sub_keeps hg a b
  | mul => exact Build.mul_keeps hg a b
  | div => exact Build.div_keeps hg a b

theorem UnaryOperator.build_keeps (hg : g.WellFormed) (op : UnaryOperator) (a : Expr) :
    Keeps (op.build a) g Graph.Owns := by
  cases op with
  | neg => exact Build.neg_keeps hg a
  | exp => exact Build.exp_keeps hg a
  | log => exact Build.log_keeps hg a
  | square => exact Build.pow_keeps hg a Scalar.two

theorem Operand.toExpr_keeps (hg : g.WellFormed) (a : Operand α) :
    Keeps a.toExpr g fun _ _ => True := by
  cases a with
  | number value => exact (Build.constant_keeps hg value).mono fun _ _ _ _ => trivial
  | expr e => exact .pure hg trivial

namespace BuilderCall

/-- The handles of a result all belong to the graph. -/
theorem handles_keep {act : Build α β} {post : Graph α → β → Prop} {handles : β → List Expr}
    (h : Keeps act g post) (hown : ∀ g' x, post g' x → ∀ e ∈ handles x, g'.Owns e) :
    Keeps (do return handles (← act)) g fun g' es => ∀ e ∈ es, g'.Owns e :=
  h.bind fun x g' hg' _ hx => .pure hg' (hown g' x hx)

theorem perform_keeps (hg : g.WellFormed) (c : BuilderCall α) :
    Keeps c.perform g fun g' es => ∀ e ∈ es, g'.Owns e := by
  have single : ∀ {act : Build α Expr}, Keeps act g Graph.Owns →
      Keeps (do return [← act]) g fun g' es => ∀ e ∈ es, g'.Owns e := fun h =>
    handles_keep h fun g' x hx e he => by
      obtain rfl := List.mem_singleton.mp he
      exact hx
  have several : ∀ {act : Build α TermVector}, Keeps act g TermVector.Owned →
      Keeps (do return (← act).components) g fun g' es => ∀ e ∈ es, g'.Owns e := fun h =>
    handles_keep h fun _ _ hx => hx
  cases c with
  | constant value => exact single (Build.constant_keeps hg value)
  | newVar =>
    refine handles_keep (Build.newVar_keeps hg) fun g' x hx e he => ?_
    obtain rfl := List.mem_singleton.mp he
    exact hx
  | newVars n =>
    refine handles_keep (Build.newVars_keeps hg n) fun g' xs hxs e he => ?_
    obtain ⟨x, hx, rfl⟩ := List.mem_map.mp he
    exact hxs x hx
  | binary op a b => exact single (op.build_keeps hg a b)
  | unary op a => exact single (op.build_keeps hg a)
  | pow base exponent => exact single (Build.pow_keeps hg base exponent)
  | powInt base exponent => exact single (Build.pow_keeps hg base _)
  | sum terms => exact single (Build.sum_keeps hg terms)
  | substitute root vars values => exact single (Build.substitute_keeps hg root vars values)
  | constants values => exact several (TermVector.constants_keeps hg values)
  | addVectors a b => exact several (TermVector.add_keeps hg a b)
  | subVectors a b => exact several (TermVector.sub_keeps hg a b)
  | scale a factor => exact several (TermVector.scale_keeps hg a factor)
  | negVector a => exact several (TermVector.neg_keeps hg a)
  | dot a b => exact single (TermVector.dot_keeps hg a b)
  | normSquared a => exact single (TermVector.normSquared_keeps hg a)
  | cross a b => exact several (TermVector.cross_keeps hg a b)

end BuilderCall

end

namespace Workspace

/-- The graph under a name in a list, which is empty as long as nothing has been recorded. -/
def graphIn (graphs : List (String × Graph α)) (name : String) : Graph α :=
  (graphs.lookup name).getD {}

def graphAt (w : Workspace α) (name : String) : Graph α := graphIn w.graphs name

/-- Every graph is well formed. -/
def WellFormed (w : Workspace α) : Prop := ∀ name, (w.graphAt name).WellFormed

/-- The second workspace records into the same graph, and its graphs extend those of the first. -/
structure Extends (w w' : Workspace α) : Prop where
  active : w'.active = w.active
  graphs : ∀ name, (w.graphAt name).Extends (w'.graphAt name)

instance : Lasting (Workspace α) where
  Sound := WellFormed
  Extends := Extends
  refl w := ⟨rfl, fun name => .refl (w.graphAt name)⟩
  trans h h' := ⟨h'.active.trans h.active, fun name => (h.graphs name).trans (h'.graphs name)⟩

theorem wellFormed_empty : ({} : Workspace α).WellFormed := fun _ => Graph.wellFormed_empty

omit [Scalar α] in
theorem graphIn_cons (key : String) (g : Graph α) (rest : List (String × Graph α))
    (name : String) :
    graphIn ((key, g) :: rest) name = if name = key then g else graphIn rest name := by
  simp only [graphIn, List.lookup_cons]
  by_cases h : name = key
  · simp [h]
  · simp [h, beq_eq_false_iff_ne.mpr h]

omit [Scalar α] in
/-- Changing the graph of one name answers from that graph and leaves the others. -/
theorem update_spec {name : String} {change : Graph α → β × Graph α}
    {graphs : List (String × Graph α)} {r : β × List (String × Graph α)}
    (h : update name change graphs = r) :
    r.1 = (change (graphIn graphs name)).1 ∧ ∀ other, graphIn r.2 other =
      if other = name then (change (graphIn graphs name)).2 else graphIn graphs other := by
  subst h
  induction graphs with
  | nil => exact ⟨rfl, fun other => graphIn_cons name _ [] other⟩
  | cons entry rest ih =>
    obtain ⟨key, g⟩ := entry
    by_cases hkey : key = name
    · subst hkey
      have hname : graphIn ((key, g) :: rest) key = g := by rw [graphIn_cons, if_pos rfl]
      have hupdate : update key change ((key, g) :: rest) =
          ((change g).1, (key, (change g).2) :: rest) := by simp [update]
      rw [hupdate, hname]
      refine ⟨rfl, fun other => ?_⟩
      rw [graphIn_cons, graphIn_cons]
      split
      next => rfl
      next => rfl
    · obtain ⟨hanswer, hgraphs⟩ := ih
      have hname : graphIn ((key, g) :: rest) name = graphIn rest name := by
        rw [graphIn_cons, if_neg (Ne.symm hkey)]
      simp only [update, if_neg hkey, hname]
      refine ⟨hanswer, fun other => ?_⟩
      rw [graphIn_cons, graphIn_cons, hgraphs]
      by_cases h : other = key
      · simp [h, hkey]
      · simp [h]

/-- Putting a longer graph in the place of one leaves the others as they are. -/
theorem extends_of_graphIn {w : Workspace α} (hw : w.WellFormed) {name : String} {g : Graph α}
    {graphs : List (String × Graph α)} (hg : g.WellFormed) (hext : (w.graphAt name).Extends g)
    (h : ∀ other, graphIn graphs other = if other = name then g else w.graphAt other) :
    WellFormed ⟨graphs, w.active⟩ ∧ w.Extends ⟨graphs, w.active⟩ := by
  refine ⟨fun other => ?_, rfl, fun other => ?_⟩
  · rw [graphAt, h]
    split
    next => exact hg
    next => exact hw other
  · rw [show graphAt ⟨graphs, w.active⟩ other = graphIn graphs other from rfl, h]
    split
    next heq => exact heq ▸ hext
    next => exact .refl _

/-- The other graphs stay as they are while one is built in. -/
theorem build_keeps {w : Workspace α} (hw : w.WellFormed) (name : String) {act : Build α β}
    {post : Graph α → β → Prop} (hact : Keeps act (w.graphAt name) post) :
    Keeps (build name act) w fun w' x => post (w'.graphAt name) x := by
  obtain ⟨r, hr⟩ : ∃ r, build name act w = r := ⟨_, rfl⟩
  rw [Keeps, hr]
  unfold Keeps at hact
  cases hrun : act.run (graphIn w.graphs name) with
  | ok y g =>
    rw [show act (w.graphAt name) = .ok y g from hrun] at hact
    simp only [build] at hr
    split at hr
    next x graphs hupdate =>
      obtain ⟨hanswer, hgraphs⟩ := update_spec hupdate
      simp only [hrun] at hanswer hgraphs
      cases hanswer
      subst hr
      obtain ⟨hwf, hext⟩ := extends_of_graphIn hw hact.1 hact.2.1 hgraphs
      refine ⟨hwf, hext, ?_⟩
      rw [graphAt, hgraphs, if_pos rfl]
      exact hact.2.2
    next e graphs hupdate => 
      have hanswer := (update_spec hupdate).1
      simp only [hrun] at hanswer
      cases hanswer
  | error e g =>
    rw [show act (w.graphAt name) = .error e g from hrun] at hact
    simp only [build] at hr
    split at hr
    next x graphs hupdate =>
      have hanswer := (update_spec hupdate).1
      simp only [hrun] at hanswer
      cases hanswer
    next e' graphs hupdate =>
      have hgraphs := (update_spec hupdate).2
      simp only [hrun] at hgraphs
      subst hr
      exact extends_of_graphIn hw hact.1 hact.2 hgraphs

theorem record_keeps {w : Workspace α} (hw : w.WellFormed) {act : Build α β}
    {post : Graph α → β → Prop} (hact : ∀ g : Graph α, g.WellFormed → Keeps act g post) :
    Keeps (record act) w fun w' x => ∀ name, w.active = some name → post (w'.graphAt name) x := by
  refine .get_bind ?_
  cases hactive : w.active with
  | none => exact .throw hw _
  | some name =>
    refine (build_keeps hw name (hact _ (hw name))).mono fun w' x _ hx other hother => ?_
    obtain rfl := Option.some.inj hother
    exact hx

/-- What is done with another graph active keeps the workspace apart from that, and the former graph
is active again. -/
theorem scope_keeps {w : Workspace α} {name : String}
    {act : EStateM (Failure α) (Workspace α) β} {post : Workspace α → β → Prop}
    (hact : Keeps act { w with active := some name } post)
    (hpost : ∀ w' x active, post w' x → post { w' with active } x) :
    Keeps (scope name act) w post := by
  unfold Keeps at hact
  simp only [Keeps, scope, EStateM.run]
  cases hrun : act { w with active := some name } with
  | ok x w' =>
    rw [hrun] at hact
    exact ⟨hact.1, ⟨rfl, hact.2.1.graphs⟩, hpost w' x w.active hact.2.2⟩
  | error e w' =>
    rw [hrun] at hact
    exact ⟨hact.1, ⟨rfl, hact.2.graphs⟩⟩

end Workspace

namespace Formula

omit [Scalar α]

/-- A number, perhaps with graphs named around it, which is recorded only by what uses it. -/
def isNumber : Formula α → Bool
  | .number _ => true
  | .within _ body => body.isNumber
  | _ => false

/-- The graph that a formula's expression is recorded into when one graph is active. A formula that
is a given expression records nothing. -/
def home (active : Option String) : Formula α → Option String
  | .expr _ => none
  | .within graph body => if body.isNumber then active else body.home (some graph)
  | _ => active

theorem home_of_isNumber {t : Formula α} (h : t.isNumber = true) (active : Option String) :
    t.home active = active := by
  cases t with
  | within graph body => exact if_pos h
  | expr e => cases h
  | _ => rfl

/-- A number stands for itself, and what else was recorded belongs to the formula's graph. -/
def Recorded (t : Formula α) (active : Option String) (w : Workspace α) : Operand α → Prop
  | .number _ => t.isNumber = true
  | .expr e => t.isNumber = false ∧ ∀ name, t.home active = some name → (w.graphAt name).Owns e

end Formula

namespace Workspace

/-- An operator that records into the active graph. -/
theorem operator_keeps {w : Workspace α} (hw : w.WellFormed) {t : Formula α}
    (hnum : t.isNumber = false) {active : Option String} (hactive : w.active = active)
    (hhome : t.home active = active) {act : Build α Expr}
    (hact : ∀ g : Graph α, g.WellFormed → Keeps act g Graph.Owns) :
    Keeps (do return .expr (← record act)) w (t.Recorded active) := by
  refine (record_keeps hw hact).bind fun e w' hw' _ he => .pure hw' ⟨hnum, fun name h => ?_⟩
  rw [hhome, ← hactive] at h
  exact he name h

end Workspace

namespace Formula

open Workspace

mutual

theorem record_keeps {w : Workspace α} (hw : w.WellFormed) :
    (t : Formula α) → Keeps t.record w (t.Recorded w.active)
  | .number value => .pure hw rfl
  | .expr e => .pure hw ⟨rfl, fun _ h => by cases h⟩
  | .binary op lhs rhs => by
    refine (record_keeps hw lhs).bind fun a w₁ hw₁ hext₁ _ => ?_
    refine (record_keeps hw₁ rhs).bind fun b w₂ hw₂ hext₂ _ => ?_
    refine operator_keeps hw₂ rfl (hext₂.active.trans hext₁.active) rfl fun g hg => ?_
    refine (a.toExpr_keeps hg).bind fun x g₁ hg₁ _ _ => ?_
    exact (b.toExpr_keeps hg₁).bind fun y g₂ hg₂ _ _ => op.build_keeps hg₂ x y
  | .unary op arg => by
    refine (record_keeps hw arg).bind fun a w₁ hw₁ hext₁ _ => ?_
    refine operator_keeps hw₁ rfl hext₁.active rfl fun g hg => ?_
    exact (a.toExpr_keeps hg).bind fun x g₁ hg₁ _ _ => op.build_keeps hg₁ x
  | .pow base exponent => by
    refine (record_keeps hw base).bind fun a w₁ hw₁ hext₁ _ => ?_
    refine operator_keeps hw₁ rfl hext₁.active rfl fun g hg => ?_
    exact (a.toExpr_keeps hg).bind fun x g₁ hg₁ _ _ => Build.pow_keeps hg₁ x exponent
  | .powInt base exponent => by
    refine (record_keeps hw base).bind fun a w₁ hw₁ hext₁ _ => ?_
    refine operator_keeps hw₁ rfl hext₁.active rfl fun g hg => ?_
    exact (a.toExpr_keeps hg).bind fun x g₁ hg₁ _ _ => Build.pow_keeps hg₁ x _
  | .sum terms => by
    refine (recordAll_keeps hw terms).bind fun operands w₁ hw₁ hext₁ _ => ?_
    refine operator_keeps hw₁ rfl hext₁.active rfl fun g hg => ?_
    have hall := Keeps.mapM hg (fun _ _ _ _ _ h => h) operands fun a _ g' hg' _ => a.toExpr_keeps hg'
    exact hall.bind fun xs g₁ hg₁ _ _ => Build.sum_keeps hg₁ xs
  | .within graph body => by
    have hbody := record_keeps (w := { w with active := some graph }) hw body
    refine (scope_keeps hbody fun w' r active h => h).mono fun w' r _ h => ?_
    cases r with
    | number value => exact h
    | expr e =>
      obtain ⟨hnum, hown⟩ := h
      refine ⟨hnum, fun name hname => hown name ?_⟩
      rwa [home, if_neg (by simp [hnum])] at hname

theorem recordAll_keeps {w : Workspace α} (hw : w.WellFormed) :
    (terms : List (Formula α)) → Keeps (recordAll terms) w fun _ _ => True
  | [] => .pure hw trivial
  | t :: rest =>
    (record_keeps hw t).bind fun _ _ hw₁ _ _ => (recordAll_keeps hw₁ rest).bind
      fun _ _ hw₂ _ _ => .pure hw₂ trivial

end

theorem recordExpr_keeps {w : Workspace α} (hw : w.WellFormed) (t : Formula α) :
    Keeps t.recordExpr w fun w' e =>
      ∀ name, t.home w.active = some name → (w'.graphAt name).Owns e := by
  refine (t.record_keeps hw).bind fun r w₁ hw₁ hext₁ hr => ?_
  cases r with
  | expr e => exact .pure hw₁ hr.2
  | number value =>
    refine (Workspace.record_keeps hw₁ fun g hg => Build.constant_keeps hg value).mono
      fun w' e _ he name hname => he name ?_
    rw [hext₁.active, ← hname, home_of_isNumber hr]

end Formula

namespace Workspace

/-- What can be done to the graphs of a workspace: a call of a builder operation, formulas recorded
one after the other while a graph is active, or dropping all nodes of a graph. -/
inductive Step (α : Type) where
  | call (graph : String) (c : BuilderCall α)
  | scope (graph : String) (terms : List (Formula α))
  | clear (graph : String)

/-- Takes a step and gives the handles that it returns. -/
def perform : Step α → EStateM (Failure α) (Workspace α) (List Expr)
  | .call graph c => build graph c.perform
  | .scope graph terms => scope graph (terms.mapM Formula.recordExpr)
  | .clear graph => do
    modify fun w => w.setGraph graph {}
    return []

/-- The workspace after a step, which may have failed. -/
def next (w : Workspace α) (s : Step α) : Workspace α :=
  match perform s w with
  | .ok _ w' | .error _ w' => w'

/-- The workspace after a sequence of steps, whether they fail or not, starting without graphs. -/
def after (steps : List (Step α)) : Workspace α := steps.foldl next {}

/-- The returned handles belong to the graphs that they were asked of. -/
def Hands (w : Workspace α) : Step α → List Expr → Prop
  | .call graph _, handles => ∀ e ∈ handles, (w.graphAt graph).Owns e
  | .scope graph terms, handles => List.Forall₂
      (fun t e => ∀ name, t.home (some graph) = some name → (w.graphAt name).Owns e) terms handles
  | .clear _, handles => handles = []

/-- Clearing one graph leaves the others. -/
theorem clear_spec {w : Workspace α} (hw : w.WellFormed) (graph : String) :
    (w.setGraph graph {}).WellFormed ∧
      ∀ name, name ≠ graph → (w.setGraph graph {}).graphAt name = w.graphAt name := by
  have hgraphs := (update_spec (rfl : update graph (fun _ => ((), ({} : Graph α))) w.graphs = _)).2
  refine ⟨fun name => ?_, fun name hne => ?_⟩
  · rw [graphAt, setGraph, hgraphs]
    split
    next => exact Graph.wellFormed_empty
    next => exact hw name
  · rw [graphAt, setGraph, hgraphs, if_neg hne, graphAt]

/-- A step that does not clear a graph keeps all graphs well formed and all nodes in their places,
also when it fails part-way. -/
theorem perform_keeps {w : Workspace α} (hw : w.WellFormed) (s : Step α)
    (hs : ∀ graph, s ≠ .clear graph) :
    Keeps (perform s) w fun w' handles => w'.Hands s handles := by
  cases s with
  | call graph c => exact build_keeps hw graph (c.perform_keeps (hw graph))
  | scope graph terms =>
    refine scope_keeps (w := w) ?_ fun _ _ _ h => h
    have hstart : WellFormed { w with active := some graph } := hw
    refine Keeps.mapM hstart (fun w₁ w₂ t e hext h name hname => (h name hname).extend (hext.graphs name))
      terms fun t _ w' hw' hext => ?_
    have hactive : w'.active = some graph := hext.active
    exact hactive ▸ Formula.recordExpr_keeps hw' t
  | clear graph => exact absurd rfl (hs graph)

/-- One step keeps every graph well formed. -/
theorem next_wellFormed {w : Workspace α} (hw : w.WellFormed) (s : Step α) :
    (w.next s).WellFormed := by
  by_cases hs : ∀ graph, s ≠ .clear graph
  · have hkeeps := perform_keeps hw s hs
    unfold Keeps at hkeeps
    unfold next
    split at hkeeps
    next hrun =>
      rw [hrun]
      exact hkeeps.1
    next hrun =>
      rw [hrun]
      exact hkeeps.1
  · obtain ⟨graph, rfl⟩ := not_forall_not.mp hs
    exact (clear_spec hw graph).1

theorem after_wellFormed (steps : List (Step α)) : (after steps).WellFormed := by
  suffices h : ∀ w : Workspace α, w.WellFormed → (steps.foldl next w).WellFormed from
    h {} wellFormed_empty
  induction steps with
  | nil => exact fun w hw => hw
  | cons s steps ih => exact fun w hw => ih (w.next s) (next_wellFormed hw s)

/-- After every sequence of steps the graphs are well formed. Whatever is done next, and whether it
succeeds or fails, changes no node of a graph that it does not clear, and the handles that it
returns belong to the graphs. -/
theorem graphs_stay_wellFormed (steps : List (Step α)) (s : Step α) :
    (∀ name, ((after steps).graphAt name).WellFormed) ∧
    (∀ name, s = .clear name ∨
      ((after steps).graphAt name).Extends (((after steps).next s).graphAt name)) ∧
    ∀ handles w, perform s (after steps) = .ok handles w → w.Hands s handles := by
  have hw := after_wellFormed steps
  refine ⟨hw, ?_⟩
  by_cases hs : ∀ graph, s ≠ .clear graph
  · have hkeeps := perform_keeps hw s hs
    unfold Keeps at hkeeps
    unfold next
    split at hkeeps
    next hrun =>
      rw [hrun]
      refine ⟨fun name => .inr (hkeeps.2.1.graphs name), ?_⟩
      rintro _ _ ⟨⟩
      exact hkeeps.2.2
    next hrun =>
      rw [hrun]
      exact ⟨fun name => .inr (hkeeps.2.graphs name), fun _ _ h => by cases h⟩
  · obtain ⟨graph, rfl⟩ := not_forall_not.mp hs
    refine ⟨fun name => ?_, ?_⟩
    · by_cases hname : name = graph
      · exact .inl (by rw [hname])
      · have hsame : ((after steps).next (.clear graph)).graphAt name = (after steps).graphAt name :=
          (clear_spec hw graph).2 name hname
        exact .inr (hsame ▸ .refl _)
    · rintro _ _ ⟨⟩
      rfl

end Workspace

end Autodiff
