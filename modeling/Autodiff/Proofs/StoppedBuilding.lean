import Autodiff.Lagrangian
import Autodiff.Proofs.Refusals
import Autodiff.Proofs.WellFormed

namespace Autodiff

variable {α β γ : Type}

namespace Graph

variable {n k m : Nat} {handles : List Expr} {g g' g'' : Graph α} {e : Expr}

/-- An expression that a graph has, and that is one of some handles or has no place among the first
`n` nodes. -/
structure Carries (n : Nat) (handles : List Expr) (g : Graph α) (e : Expr) : Prop where
  owned : g.Owns e
  known : e ∈ handles ∨ n ≤ e.index

theorem Carries.extend (h : g.Carries n handles e) (hg : g.Extends g') : g'.Carries n handles e :=
  ⟨h.owned.extend hg, h.known⟩

/-- What stands behind the first `n` nodes rests on the handles and on itself, and every operand
precedes its node. -/
structure Rests (n : Nat) (handles : List Expr) (g : Graph α) : Prop where
  size_le : n ≤ g.size
  operands : ∀ i node, n ≤ i → g.nodes[i]? = some node →
    ∀ e ∈ node.operands, e.index < i ∧ (e ∈ handles ∨ n ≤ e.index)

theorem Rests.push (h : g.Rests n handles) {node : Node α}
    (hnode : ∀ e ∈ node.operands, g.Carries n handles e) (next : Nat) :
    Rests n handles ⟨g.nodes.push node, next⟩ := by
  refine ⟨Nat.le_trans h.size_le (extends_push g node next).size_le, fun i node' hi hn e he => ?_⟩
  rw [Array.getElem?_push] at hn
  split at hn
  next heq =>
    subst heq
    obtain rfl := Option.some.inj hn
    exact ⟨(hnode e he).owned, (hnode e he).known⟩
  next => exact h.operands i node' hi hn e he

/-- The second graph is a stage of building on the first one, with a limit to the nodes added. -/
structure Drafts (n : Nat) (handles : List Expr) (k : Nat) (g g' : Graph α) : Prop
    extends g.Extends g' where
  size_le_add : g'.size ≤ g.size + k
  rests : g'.Rests n handles

theorem Rests.drafts (h : g.Rests n handles) (k : Nat) : g.Drafts n handles k g :=
  ⟨.refl g, Nat.le_add_right _ _, h⟩

theorem Drafts.trans (h : g.Drafts n handles k g') (h' : g'.Drafts n handles m g'') :
    g.Drafts n handles (k + m) g'' := by
  have hle := h.size_le_add
  have hle' := h'.size_le_add
  exact ⟨h.toExtends.trans h'.toExtends, by omega, h'.rests⟩

theorem Drafts.mono (h : g.Drafts n handles k g') (hle : k ≤ m) :
    g.Drafts n handles m g' :=
  ⟨h.toExtends, Nat.le_trans h.size_le_add (Nat.add_le_add_left hle _), h.rests⟩

theorem Rests.drafts_push (h : g.Rests n handles) {node : Node α}
    (hnode : ∀ e ∈ node.operands, g.Carries n handles e) (hk : 0 < k) (next : Nat) :
    g.Drafts n handles k ⟨g.nodes.push node, next⟩ := by
  refine ⟨extends_push g node next, ?_, h.push hnode next⟩
  rw [size, Array.size_push]
  exact Nat.add_le_add_left hk _

end Graph

namespace Build

open Autodiff.Graph

variable {n k m : Nat} {handles : List Expr} {g : Graph α} {post : Graph α → β → Prop}
  {post' : Graph α → γ → Prop}

/-- Building has come to an answer, or it was stopped at a handle that did not belong to the graph
at that stage. -/
def Attempted (n : Nat) (handles : List Expr) (g : Graph α) (k : Nat)
    (post : Graph α → β → Prop) : EStateM.Result (Failure α) (Graph α) β → Prop
  | .ok x g' => g.Drafts n handles k g' ∧ post g' x
  | .error cause g' => g.Drafts n handles k g' ∧
      ∃ e ∈ handles, g'.size ≤ e.index ∧ cause = .fault (.foreignHandle e.index g'.size)

/-- Run from a graph, an action comes to an answer or is stopped at a handle. -/
def Attempts (n : Nat) (handles : List Expr) (act : Build α β) (g : Graph α) (k : Nat)
    (post : Graph α → β → Prop) : Prop :=
  Attempted n handles g k post (act g)

theorem Attempts.pure (hg : g.Rests n handles) {x : β} (h : post g x) (k : Nat) :
    Attempts n handles (Pure.pure x) g k post :=
  ⟨hg.drafts k, h⟩

theorem Attempts.bind {act : Build α β} {f : β → Build α γ} (h : Attempts n handles act g k post)
    (hf : ∀ x g', g.Drafts n handles k g' → post g' x → Attempts n handles (f x) g' m post') :
    Attempts n handles (act >>= f) g (k + m) post' := by
  unfold Attempts at h ⊢
  simp only [Bind.bind, EStateM.bind]
  cases hact : act g with
  | error cause g' =>
    rw [hact] at h
    exact ⟨h.1.mono (Nat.le_add_right _ _), h.2⟩
  | ok x g' =>
    rw [hact] at h
    have hrest : Attempted n handles g' m post' (f x g') := hf x g' h.1 h.2
    dsimp only
    cases hfx : f x g' with
    | error cause g'' =>
      rw [hfx] at hrest
      exact ⟨h.1.trans hrest.1, hrest.2⟩
    | ok y g'' =>
      rw [hfx] at hrest
      exact ⟨h.1.trans hrest.1, hrest.2⟩

theorem Attempts.mono {post' : Graph α → β → Prop} {act : Build α β}
    (h : Attempts n handles act g k post) (hle : k ≤ m)
    (himp : ∀ g' x, g.Extends g' → post g' x → post' g' x) :
    Attempts n handles act g m post' := by
  unfold Attempts at h ⊢
  cases hact : act g with
  | error cause g' =>
    rw [hact] at h
    exact ⟨h.1.mono hle, h.2⟩
  | ok x g' =>
    rw [hact] at h
    exact ⟨h.1.mono hle, himp g' x h.1.toExtends h.2⟩

theorem push_attempts (hg : g.Rests n handles) {node : Node α}
    (hnode : ∀ e ∈ node.operands, g.Carries n handles e) (hk : 0 < k) :
    Attempts n handles (push node) g k (Carries n handles) :=
  ⟨hg.drafts_push hnode hk _, size_of_node (node_of_push rfl), Or.inr hg.size_le⟩

/-- Looking up an operand goes on if the operand belongs to the graph. -/
theorem lookup_bind_attempts {f : Node α → Build α β} {e : Expr} (hg : g.Rests n handles)
    (he : e ∈ handles ∨ g.Carries n handles e)
    (hf : ∀ node, g.nodes[e.index]? = some node → g.Carries n handles e →
      Attempts n handles (f node) g k post) :
    Attempts n handles (lookup e >>= f) g k post := by
  unfold Attempts at hf ⊢
  by_cases hlt : e.index < g.size
  · have hnode : g.nodes[e.index]? = some g.nodes[e.index] := Array.getElem?_eq_getElem hlt
    have hlookup : lookup e g = .ok g.nodes[e.index] g := lookup_eq_ok.mpr ⟨rfl, hnode⟩
    simp only [Bind.bind, EStateM.bind, hlookup]
    exact hf _ hnode ⟨hlt, he.elim Or.inl Carries.known⟩
  · have hmem : e ∈ handles := he.resolve_right fun h => hlt h.owned
    have hnone : g.nodes[e.index]? = none := Array.getElem?_eq_none (Nat.not_lt.mp hlt)
    have hlookup : lookup e g = .error (.fault (.foreignHandle e.index g.size)) g := by
      have hget : (get : Build α (Graph α)) g = .ok g g := rfl
      simp only [lookup, Bind.bind, EStateM.bind, hget, hnone]
      rfl
    simp only [Bind.bind, EStateM.bind, hlookup]
    exact ⟨hg.drafts k, e, hmem, Nat.not_lt.mp hlt, rfl⟩

/-- Doing something for each entry of a list that adds one node at most. -/
theorem Attempts.mapM {f : β → Build α γ} (rel : Graph α → β → γ → Prop) (hg : g.Rests n handles)
    (hrel : ∀ (g₁ g₂ : Graph α) x y, g₁.Extends g₂ → rel g₁ x y → rel g₂ x y) (xs : List β)
    (hf : ∀ x ∈ xs, ∀ g', g.Extends g' → g'.Rests n handles →
      Attempts n handles (f x) g' 1 fun g'' y => rel g'' x y) :
    Attempts n handles (xs.mapM f) g xs.length fun g' ys => List.Forall₂ (rel g') xs ys := by
  induction xs generalizing g with
  | nil => exact .pure hg .nil 0
  | cons x xs ih =>
    rw [List.mapM_cons, List.length_cons, Nat.add_comm]
    refine (hf x (by simp) g (.refl g) hg).bind fun y g₁ hdrafts hy => ?_
    have hrest := ih hdrafts.rests fun x' hx' g' hext hg' =>
      hf x' (by simp [hx']) g' (hdrafts.toExtends.trans hext) hg'
    refine hrest.bind (m := 0) fun ys g₂ hdrafts' hys => .pure hdrafts'.rests ?_ 0
    exact .cons (hrel g₁ g₂ x y hdrafts'.toExtends hy) hys

theorem mapM_lookup_attempts (hg : g.Rests n handles) (terms : List Expr)
    (hterms : ∀ t ∈ terms, t ∈ handles ∨ g.Carries n handles t) :
    Attempts n handles (terms.mapM lookup) g 0 fun g' nodes =>
      g' = g ∧ terms.mapM lookup g = .ok nodes g := by
  induction terms with
  | nil => exact .pure hg ⟨rfl, rfl⟩ 0
  | cons t terms ih =>
    rw [List.mapM_cons]
    refine lookup_bind_attempts hg (hterms t (by simp)) fun node ht _ => ?_
    have hrest := ih fun t' ht' => hterms t' (by simp [ht'])
    refine hrest.bind (m := 0) fun nodes g' _ h => ?_
    obtain ⟨rfl, hnodes⟩ := h
    refine .pure hg ⟨rfl, ?_⟩ 0
    exact bind_eq_ok.mpr ⟨node, g', lookup_eq_ok.mpr ⟨rfl, ht⟩,
      bind_eq_ok.mpr ⟨nodes, g', hnodes, rfl⟩⟩

theorem constant_attempts (hg : g.Rests n handles) (c : α) (hk : 0 < k) :
    Attempts n handles (constant c) g k (Carries n handles) :=
  push_attempts hg (by simp [Node.operands]) hk

variable [Scalar α]

theorem mul_attempts (hg : g.Rests n handles) {a b : Expr}
    (ha : a ∈ handles ∨ g.Carries n handles a) (hb : b ∈ handles ∨ g.Carries n handles b) :
    Attempts n handles (mul a b) g 1 fun g' e => g'.Carries n handles e ∧ g'.Owns b := by
  refine lookup_bind_attempts hg ha fun na _ ha => lookup_bind_attempts hg hb fun nb _ hb => ?_
  have hpush : Attempts n handles (push (.binary .multiply a b)) g 1 (Carries n handles) := by
    refine push_attempts hg (fun e he => ?_) Nat.one_pos
    rcases List.mem_pair.mp he with rfl | rfl
    · exact ha
    · exact hb
  suffices h : Attempts n handles _ g 1 (Carries n handles) from
    h.mono (Nat.le_refl 1) fun g' e hext he => ⟨he, hb.owned.extend hext⟩
  split
  next => exact constant_attempts hg _ Nat.one_pos
  next =>
    split
    next => exact .pure hg hb 1
    next => exact hpush
  next =>
    split
    next => exact .pure hg ha 1
    next => exact hpush
  next => exact hpush

theorem pow_attempts (hg : g.Rests n handles) {base : Expr}
    (hbase : base ∈ handles ∨ g.Carries n handles base) (x : α) :
    Attempts n handles (pow base x) g 1 (Carries n handles) := by
  refine lookup_bind_attempts hg hbase fun node _ hbase => ?_
  split
  next => exact .pure hg hbase 1
  next =>
    split
    next => exact constant_attempts hg 1 Nat.one_pos
    next =>
      split
      next => exact constant_attempts hg _ Nat.one_pos
      next =>
        refine push_attempts hg (fun e he => ?_) Nat.one_pos
        obtain rfl := List.mem_singleton.mp he
        exact hbase

omit [Scalar α] in
/-- A single term stands for itself, and several terms get a sum. -/
theorem summands_attempts (hg : g.Rests n handles) {terms : List Expr}
    (hterms : ∀ t ∈ terms, g.Carries n handles t) :
    Attempts n handles (match terms with
      | [single] => pure single
      | _ => push (.sum terms)) g 1 (Carries n handles) := by
  split
  next single => exact .pure hg (hterms single (by simp)) 1
  next => exact push_attempts hg hterms Nat.one_pos

theorem sum_attempts (hg : g.Rests n handles) (terms : List Expr)
    (hterms : ∀ t ∈ terms, t ∈ handles ∨ g.Carries n handles t) :
    Attempts n handles (sum terms) g 2 fun g' e =>
      g'.Carries n handles e ∧ ∀ t ∈ terms, g'.Owns t := by
  refine (mapM_lookup_attempts hg terms hterms).bind (m := 2) fun nodes g' hdrafts h => ?_
  obtain ⟨rfl, hnodes⟩ := h
  obtain ⟨-, hlt, -, hkept⟩ := nodes_of_mapM_lookup hnodes
  simp only [hkept]
  have hcarried : ∀ t ∈ g'.variablePart terms, g'.Carries n handles t := fun t ht =>
    have hmem := List.mem_of_mem_filter ht
    ⟨hlt t hmem, (hterms t hmem).elim Or.inl Carries.known⟩
  suffices h : Attempts n handles _ g' 2 (Carries n handles) from
    h.mono (Nat.le_refl 2) fun g'' e hext he =>
      ⟨he, fun t ht => Nat.lt_of_lt_of_le (hlt t ht) hext.size_le⟩
  split
  next => exact constant_attempts hg _ Nat.two_pos
  next =>
    split
    next =>
      refine (constant_attempts hg _ Nat.one_pos).bind (m := 1) fun c g₁ hdrafts₁ hc => ?_
      refine summands_attempts hdrafts₁.rests fun t ht => ?_
      rcases List.mem_append.mp ht with ht | ht
      · exact (hcarried t ht).extend hdrafts₁.toExtends
      · obtain rfl := List.mem_singleton.mp ht
        exact hc
    next => exact (summands_attempts hg hcarried).mono (Nat.le_succ 1) fun _ _ _ h => h

theorem dot_attempts (hg : g.Rests n handles) {as bs : List Expr} (hlen : as.length = bs.length)
    (has : ∀ a ∈ as, g.Carries n handles a) (hbs : ∀ b ∈ bs, b ∈ handles) :
    Attempts n handles (TermVector.dot ⟨as⟩ ⟨bs⟩) g (bs.length + 2) fun g' e =>
      g'.Carries n handles e ∧ ∀ b ∈ bs, g'.Owns b := by
  have hsize : TermVector.size ⟨as⟩ = TermVector.size ⟨bs⟩ := hlen
  have hzip : (as.zip bs).length = bs.length := by rw [List.length_zip, hlen, Nat.min_self]
  have hproducts : Attempts n handles (TermVector.zipWith mul ⟨as⟩ ⟨bs⟩) g bs.length
      fun g' (v : TermVector) => (∀ e ∈ v.components, g'.Carries n handles e) ∧
        ∀ b ∈ bs, g'.Owns b := by
    rw [TermVector.zipWith, if_pos hsize, ← hzip]
    have hmul (p : Expr × Expr) (hp : p ∈ as.zip bs) (g' : Graph α) (hext : g.Extends g')
        (hg' : g'.Rests n handles) : Attempts n handles (mul p.1 p.2) g' 1 fun g'' e =>
          g''.Carries n handles e ∧ g''.Owns p.2 := by
      obtain ⟨ha, hb⟩ := List.of_mem_zip hp
      exact mul_attempts hg' (Or.inr ((has p.1 ha).extend hext)) (Or.inl (hbs p.2 hb))
    have hall := Attempts.mapM
      (fun g' (p : Expr × Expr) e => g'.Carries n handles e ∧ g'.Owns p.2) hg
      (fun _ _ _ _ hext h => ⟨h.1.extend hext, h.2.extend hext⟩) (as.zip bs) hmul
    refine hall.bind (m := 0) fun es g' hdrafts hes => .pure hdrafts.rests ⟨?_, ?_⟩ 0
    · intro e he
      obtain ⟨p, -, h⟩ := exists_of_forall₂ hes.flip he
      exact h.1
    · intro b hb
      have hsecond : (as.zip bs).map Prod.snd = bs := List.map_snd_zip (Nat.le_of_eq hlen.symm)
      obtain ⟨p, hp, rfl⟩ := List.mem_map.mp (hsecond.symm ▸ hb)
      obtain ⟨e, -, h⟩ := exists_of_forall₂ hes hp
      exact h.2
  refine hproducts.bind fun v g' hdrafts hv => ?_
  refine (sum_attempts hdrafts.rests v.components fun e he => Or.inr (hv.1 e he)).mono
    (Nat.le_refl 2) fun g'' e hext he => ⟨he.1, fun b hb => (hv.2 b hb).extend hext⟩

theorem normSquared_attempts (hg : g.Rests n handles) {as : List Expr}
    (has : ∀ a ∈ as, a ∈ handles) :
    Attempts n handles (TermVector.normSquared ⟨as⟩) g (as.length + 2) (Carries n handles) := by
  have hall := Attempts.mapM (fun g' _ e => g'.Carries n handles e) hg
    (fun _ _ _ _ hext h => h.extend hext) as
    fun a ha g' _ hg' => pow_attempts hg' (Or.inl (has a ha)) Scalar.two
  refine hall.bind fun es g' hdrafts hes => ?_
  refine (sum_attempts hdrafts.rests es fun e he => ?_).mono (Nat.le_refl 2) fun _ _ _ h => h.1
  obtain ⟨a, -, h⟩ := exists_of_forall₂ hes.flip he
  exact Or.inr h

omit [Scalar α] in
theorem exists_newVar (hg : g.Rests n handles) :
    ∃ x g', newVar g = .ok x g' ∧ g.Extends g' ∧ g'.size = g.size + 1 ∧ g'.Rests n handles ∧
      x.expr.index = g.size ∧ g'.nodes[x.expr.index]? = some (.variable x.id) := by
  have hnone : ∀ e ∈ (Node.variable ⟨g.nextVar⟩ : Node α).operands, g.Carries n handles e := nofun
  exact ⟨_, _, rfl, extends_push g _ _, Array.size_push _, hg.push hnone _, rfl,
    Array.getElem?_push_size⟩

omit [Scalar α] in
/-- New variables are added one after the other, and nothing can stop that. -/
theorem exists_newVars (hg : g.Rests n handles) (count : Nat) :
    ∃ xs g', newVars count g = .ok xs g' ∧ g.Extends g' ∧ g'.size = g.size + count ∧
      g'.Rests n handles ∧ (xs.map fun x => x.expr.index).Nodup ∧
      ∀ x ∈ xs, Fresh g.size g' x := by
  induction count generalizing g with
  | zero => exact ⟨[], g, rfl, .refl g, rfl, hg, .nil, nofun⟩
  | succ count ih =>
    obtain ⟨x, g₁, hx, hext₁, hsize₁, hg₁, hindex, hnode⟩ := exists_newVar hg
    obtain ⟨xs, g₂, hxs, hext₂, hsize₂, hg₂, hnodup, hfresh⟩ := ih hg₁
    refine ⟨x :: xs, g₂, bind_eq_ok.mpr ⟨x, g₁, hx, bind_eq_ok.mpr ⟨xs, g₂, hxs, rfl⟩⟩,
      hext₁.trans hext₂, by omega, hg₂, ?_, ?_⟩
    · rw [List.map_cons, List.nodup_cons]
      refine ⟨fun hmem => ?_, hnodup⟩
      obtain ⟨y, hy, heq⟩ := List.mem_map.mp hmem
      have hle := (hfresh y hy).le
      omega
    · intro y hy
      rcases List.mem_cons.mp hy with rfl | hy
      · exact ⟨Nat.le_of_eq hindex.symm, hext₂.node hnode⟩
      · exact ⟨Nat.le_trans hext₁.size_le (hfresh y hy).le, (hfresh y hy).node⟩

end Build

namespace Lagrangian

/-- The first stage of an augmented Lagrangian: a graph with new variables for the weight and for
the multipliers. -/
structure Begun (g started : Graph α) (params : List Var) : Prop
    extends g.Extends started where
  size_eq : started.size = g.size + params.length
  nodup : (params.map fun x => x.expr.index).Nodup
  fresh : ∀ x ∈ params, Build.Fresh g.size started x

variable [Scalar α]

open Build Autodiff.Graph in
/-- Building an augmented Lagrangian comes to an end or is stopped at one of the handles. -/
theorem assemble_attempts (g : Graph α) (objective : Expr)
    (constraints : List Expr) :
    ∃ params started, Begun g started params ∧ params.length = 1 + constraints.length ∧
      Attempted g.size (objective :: constraints) started (2 * constraints.length + 9)
        (fun extended r => r.2 = params ∧
          extended.Carries g.size (objective :: constraints) r.1 ∧
          ∀ e ∈ objective :: constraints, extended.Owns e)
        ((assemble objective constraints).run g) := by
  have hg : g.Rests g.size (objective :: constraints) := by
    refine ⟨Nat.le_refl _, fun i node hi hn => ?_⟩
    have hlt := size_of_node hn
    omega
  obtain ⟨params, started, hparams, hext, hsize, hstarted, hnodup, hfresh⟩ :=
    exists_newVars hg (constraints.length + 1)
  obtain ⟨penalty, g₁, hpenalty, hrest⟩ := Build.bind_eq_ok.mp hparams
  obtain ⟨multipliers, g₂, hmultipliers, hpure⟩ := Build.bind_eq_ok.mp hrest
  obtain ⟨rfl, rfl⟩ := pure_eq_ok.mp hpure
  obtain ⟨-, hlen, -⟩ := newVars_spec 0 hmultipliers
  have hlen' : (penalty :: multipliers).length = 1 + constraints.length := by
    rw [List.length_cons, hlen, Nat.add_comm]
  refine ⟨penalty :: multipliers, g₂, ⟨hext, by rw [hsize, hlen', Nat.add_comm 1], hnodup, hfresh⟩,
    hlen', ?_⟩
  have hcarried : ∀ x ∈ penalty :: multipliers,
      g₂.Carries g.size (objective :: constraints) x.expr := fun x hx =>
    ⟨size_of_node (hfresh x hx).node, Or.inr (hfresh x hx).le⟩
  have hvars : ∀ e ∈ multipliers.map Var.expr, g₂.Carries g.size (objective :: constraints) e := by
    intro e he
    obtain ⟨x, hx, rfl⟩ := List.mem_map.mp he
    exact hcarried x (List.mem_cons_of_mem _ hx)
  have hsizes : (multipliers.map Var.expr).length = constraints.length := by
    rw [List.length_map, hlen]
  have hconstraints : ∀ c ∈ constraints, c ∈ objective :: constraints := fun c hc =>
    List.mem_cons_of_mem _ hc
  -- The variables cannot fail, so everything that can starts from the graph that has them.
  have hrun : (assemble objective constraints).run g = (do
      let weighted ← (TermVector.ofVars multipliers).dot ⟨constraints⟩
      let squares ← TermVector.normSquared ⟨constraints⟩
      let half ← Build.constant Scalar.half
      let halfPenalty ← Build.mul half penalty.expr
      let penaltyTerm ← Build.mul halfPenalty squares
      let root ← Build.sum [objective, weighted, penaltyTerm]
      return (root, penalty :: multipliers) : Build α (Expr × List Var)) g₂ := by
    simp only [assemble, EStateM.run, Bind.bind, EStateM.bind, hpenalty, hmultipliers]
  rw [hrun]
  suffices h : Attempts g.size (objective :: constraints) _ g₂
      (constraints.length + 2 + (constraints.length + 2 + (1 + (1 + (1 + (2 + 0)))))) _ from
    h.mono (by omega) fun _ _ _ h => h
  refine (dot_attempts hstarted hsizes hvars hconstraints).bind fun weighted g₃ hg₃ hw => ?_
  refine (normSquared_attempts hg₃.rests hconstraints).bind fun squares g₄ hg₄ hsquares => ?_
  refine (constant_attempts hg₄.rests _ Nat.one_pos).bind fun half g₅ hg₅ hhalf => ?_
  have hext₅ := (hg₃.toExtends.trans hg₄.toExtends).trans hg₅.toExtends
  have hpenalty₅ := (hcarried penalty List.mem_cons_self).extend hext₅
  refine (mul_attempts hg₅.rests (Or.inr hhalf) (Or.inr hpenalty₅)).bind
    fun halfPenalty g₆ hg₆ hhalfPenalty => ?_
  have hsquares₆ := (hsquares.extend hg₅.toExtends).extend hg₆.toExtends
  refine (mul_attempts hg₆.rests (Or.inr hhalfPenalty.1) (Or.inr hsquares₆)).bind
    fun penaltyTerm g₇ hg₇ hpenaltyTerm => ?_
  have hext₇ := ((hg₄.toExtends.trans hg₅.toExtends).trans hg₆.toExtends).trans hg₇.toExtends
  have hterms : ∀ t ∈ [objective, weighted, penaltyTerm], t ∈ objective :: constraints ∨
      g₇.Carries g.size (objective :: constraints) t := by
    simp only [List.mem_cons, List.not_mem_nil, or_false, forall_eq_or_imp, forall_eq]
    exact ⟨Or.inl (Or.inl trivial), Or.inr (hw.1.extend hext₇), Or.inr hpenaltyTerm.1⟩
  refine (sum_attempts hg₇.rests _ hterms).bind fun root g₈ hg₈ hroot => .pure hg₈.rests ?_ 0
  refine ⟨rfl, hroot.1, fun e he => ?_⟩
  rcases List.mem_cons.mp he with rfl | hc
  · exact hroot.2 e List.mem_cons_self
  · exact (hw.2 e hc).extend (hext₇.trans hg₈.toExtends)

/-- Once the augmented Lagrangian has been built, the rest is compilation. -/
theorem ofGraph_eq_of_ok {g extended : Graph α} {objective root : Expr} {constraints : List Expr}
    {params : List Var}
    (h : (assemble objective constraints).run g = .ok (root, params) extended) (vars : List Var) :
    ofGraph g objective constraints vars = (do
      let tape ← extended.compileParametric root vars params
      let tapes ← constraints.mapM fun c => g.compile c vars
      return ⟨tape, tapes⟩) := by
  rw [ofGraph, h]

theorem ofGraph_safe_of_ok {g extended : Graph α} {objective root : Expr}
    {constraints : List Expr} {params : List Var}
    (h : (assemble objective constraints).run g = .ok (root, params) extended) (vars : List Var) :
    Safe compileReasons (ofGraph g objective constraints vars) := by
  rw [ofGraph_eq_of_ok h]
  refine (extended.compileParametric_safe root vars params).bind fun tape _ => ?_
  refine (Safe.mapM fun c _ => g.compileParametric_safe c vars []).bind fun tapes _ => ?_
  trivial

end Lagrangian

end Autodiff
