import Autodiff.Dialogue

namespace Autodiff

namespace Dialogue

variable {α β γ σ : Type} {admits : List α → Reply α → Prop} {post : β → List (Call α) → Prop}

/-- Applies a function to the answer. -/
def map (f : β → γ) : Dialogue α β → Dialogue α γ
  | .answer result => .answer (f result)
  | .ask point next => .ask point fun reply => (next reply).map f

theorem map_bind {δ : Type} (f : γ → δ) (d : Dialogue α β) (g : β → Dialogue α γ) :
    (d >>= g).map f = d >>= fun result => (g result).map f := by
  change (d.bind g).map f = d.bind fun result => (g result).map f
  induction d with
  | answer result => rfl
  | ask point next ih => simp only [Dialogue.bind, map, ih]

theorem bind_answer (d : Dialogue α β) (f : β → γ) :
    (d >>= fun result => .answer (f result)) = d.map f := by
  change d.bind _ = d.map f
  induction d with
  | answer result => rfl
  | ask point next ih => simp only [Dialogue.bind, map, ih]

theorem run_map (f : β → γ) (d : Dialogue α β) (objective : σ → List α → Reply α × σ) (state : σ)
    (calls : List (Call α)) :
    (d.map f).run objective state calls =
      (f (d.run objective state calls).1, (d.run objective state calls).2) := by
  induction d generalizing state calls with
  | answer result => rfl
  | ask point next ih => exact ih _ _ _

/-- Whatever admitted replies a dialogue gets, its answer and the calls made until then, the newest
first, meet a condition. -/
def Ensures (admits : List α → Reply α → Prop) (post : β → List (Call α) → Prop) :
    Dialogue α β → List (Call α) → Prop
  | .answer result, calls => post result calls
  | .ask point next, calls =>
    ∀ reply, admits point reply → (next reply).Ensures admits post (⟨point, reply⟩ :: calls)

/-- Earlier calls stay. -/
theorem suffix_run (d : Dialogue α β) (objective : σ → List α → Reply α × σ) (state : σ)
    (calls : List (Call α)) : calls <:+ (d.run objective state calls).2 := by
  induction d generalizing state calls with
  | answer result => exact List.suffix_rfl
  | ask point next ih => exact (List.suffix_cons _ _).trans (ih _ _ _)

/-- The calls of a run have the replies that the objective gives. -/
theorem forall_run {P : List α → Reply α → Prop} {objective : σ → List α → Reply α × σ}
    (ho : ∀ state point, P point (objective state point).1) (d : Dialogue α β) (state : σ)
    {calls : List (Call α)} (hcalls : ∀ c ∈ calls, P c.point c.reply) :
    ∀ c ∈ (d.run objective state calls).2, P c.point c.reply := by
  induction d generalizing state calls with
  | answer result => exact hcalls
  | ask point next ih =>
    refine ih _ _ fun c hc => ?_
    rcases List.mem_cons.mp hc with rfl | hc
    · exact ho state point
    · exact hcalls c hc

theorem ensures_evaluate {post : Reply α → List (Call α) → Prop} (point : List α)
    (calls : List (Call α)) :
    (evaluate point).Ensures admits post calls ↔
      ∀ reply, admits point reply → post reply (⟨point, reply⟩ :: calls) := Iff.rfl

theorem ensures_bind {post : γ → List (Call α) → Prop} (d : Dialogue α β) (f : β → Dialogue α γ)
    (calls : List (Call α)) :
    (d >>= f).Ensures admits post calls ↔
      d.Ensures admits (fun result calls' => (f result).Ensures admits post calls') calls := by
  change (d.bind f).Ensures admits post calls ↔ _
  induction d generalizing calls with
  | answer result => exact Iff.rfl
  | ask point next ih =>
    exact forall_congr' fun reply => imp_congr_right fun _ => ih reply (⟨point, reply⟩ :: calls)

/-- A condition may be weakened, with regard to the calls that were made before and to those that
came in the meantime. -/
theorem Ensures.mono {post' : β → List (Call α) → Prop} {d : Dialogue α β} {calls : List (Call α)}
    (h : d.Ensures admits post calls)
    (himp : ∀ result calls', post result calls' → calls <:+ calls' →
      (∀ c ∈ calls', c ∈ calls ∨ admits c.point c.reply) → post' result calls') :
    d.Ensures admits post' calls := by
  induction d generalizing calls with
  | answer result => exact himp result calls h List.suffix_rfl fun c hc => Or.inl hc
  | ask point next ih =>
    intro reply hreply
    refine ih reply (h reply hreply) fun result calls' hpost hold hnew => ?_
    refine himp result calls' hpost ((List.suffix_cons _ _).trans hold) fun c hc => ?_
    rcases hnew c hc with hc | hc
    · rcases List.mem_cons.mp hc with rfl | hc
      · exact Or.inr hreply
      · exact Or.inl hc
    · exact Or.inr hc

theorem ensures_map {post : γ → List (Call α) → Prop} (f : β → γ) (d : Dialogue α β)
    (calls : List (Call α)) :
    (d.map f).Ensures admits post calls ↔
      d.Ensures admits (fun result calls' => post (f result) calls') calls := by
  induction d generalizing calls with
  | answer result => exact Iff.rfl
  | ask point next ih =>
    exact forall_congr' fun reply => imp_congr_right fun _ => ih reply (⟨point, reply⟩ :: calls)

/-- What a dialogue ensures holds of its run with an objective that gives admitted replies, whatever
these replies depend on. -/
theorem Ensures.run {d : Dialogue α β} {calls : List (Call α)} (h : d.Ensures admits post calls)
    {objective : σ → List α → Reply α × σ}
    (ho : ∀ state point, admits point (objective state point).1) (state : σ) :
    post (d.run objective state calls).1 (d.run objective state calls).2 := by
  induction d generalizing state calls with
  | answer result => exact h
  | ask point next ih => exact ih _ (h _ (ho state point)) _

/-- What a dialogue ensures holds of its run with an objective that is a function of the point. -/
theorem Ensures.runWith {d : Dialogue α β} {calls : List (Call α)}
    (h : d.Ensures admits post calls) {objective : List α → Reply α}
    (ho : ∀ point, admits point (objective point))
    (hcalls : ∀ c ∈ calls, c.reply = objective c.point) :
    ∃ calls', post (d.runWith objective) calls' ∧ ∀ c ∈ calls', c.reply = objective c.point := by
  induction d generalizing calls with
  | answer result => exact ⟨calls, h, hcalls⟩
  | ask point next ih =>
    refine ih (objective point) (h _ (ho point)) fun c hc => ?_
    rcases List.mem_cons.mp hc with rfl | hc
    · rfl
    · exact hcalls c hc

/-- A dialogue begun after some calls can come to an answer with these calls, the newest first. -/
inductive Leads : Dialogue α β → List (Call α) → β → List (Call α) → Prop
  | answer {result : β} {calls : List (Call α)} : Leads (.answer result) calls result calls
  | ask {point : List α} {next : Reply α → Dialogue α β} {reply : Reply α}
      {calls calls' : List (Call α)} {result : β} :
      Leads (next reply) (⟨point, reply⟩ :: calls) result calls' →
      Leads (.ask point next) calls result calls'

theorem ensures_leads (d : Dialogue α β) (calls : List (Call α)) :
    d.Ensures admits (fun result calls' => d.Leads calls result calls') calls := by
  induction d generalizing calls with
  | answer result => exact .answer
  | ask point next ih =>
    intro reply _
    exact (ih reply _).mono fun result calls' h _ _ => .ask h

theorem Leads.suffix {d : Dialogue α β} {calls calls' : List (Call α)} {result : β}
    (h : d.Leads calls result calls') : calls <:+ calls' := by
  induction h with
  | answer => exact List.suffix_rfl
  | ask _ ih => exact (List.suffix_cons _ _).trans ih

/-- What a dialogue ensures holds when it has come to an answer by admitted replies. -/
theorem Ensures.of_leads {d : Dialogue α β} {calls calls' : List (Call α)} {result : β}
    (h : d.Ensures admits post calls) (hleads : d.Leads calls result calls')
    (hadmits : ∀ c ∈ calls', admits c.point c.reply) : post result calls' := by
  induction hleads with
  | answer => exact h
  | ask hnext ih =>
    have hreply := hadmits _ (hnext.suffix.mem List.mem_cons_self)
    exact ih (h _ hreply) hadmits

/-- Where no length was wrong, the checks of lengths have changed nothing. -/
theorem run_checkLengths [Scalar α] {d : Dialogue α β} {dimension : Nat} {wrong : Option Nat}
    {objective : σ → List α → Reply α × σ} {state : σ} {calls calls' : List (Call α)} {result : β}
    (h : (d.checkLengths dimension wrong).run objective state calls = ((result, none), calls')) :
    wrong = none ∧ d.run objective state calls = (result, calls') := by
  induction d generalizing wrong state calls with
  | answer answered =>
    obtain ⟨hanswer, rfl⟩ := Prod.mk.inj h
    obtain ⟨rfl, hwrong⟩ := Prod.mk.inj hanswer
    exact ⟨hwrong, rfl⟩
  | ask point next ih =>
    simp only [checkLengths, Dialogue.run] at h ⊢
    split at h
    next => exact ih _ h
    next =>
      obtain ⟨hwrong, -⟩ := ih _ h
      cases wrong with
      | none => cases hwrong
      | some length => cases hwrong

end Dialogue

end Autodiff
