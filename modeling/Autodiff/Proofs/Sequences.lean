import Autodiff.Multistage

namespace Autodiff

variable {α : Type}

namespace Iterates

/-- Asks a sequence for its next iterate. -/
def next : Iterates α → Except Fault (Option (Iterate α) × Iterates α)
  | .done => .ok (none, .done)
  | .broken cause => .error cause
  | .yield it rest => .ok (some it, rest ())
  | .record _ rest => (rest ()).next

/-- What a sequence answers when it has been asked `n` times before. -/
def reply (its : Iterates α) : Nat → Except Fault (Option (Iterate α))
  | 0 => its.next.map Prod.fst
  | n + 1 =>
    match its.next with
    | .ok (_, rest) => rest.reply n
    | .error cause => .error cause

/-- A sequence without another iterate. -/
inductive Ended : Iterates α → Prop
  | done : Ended .done
  | record {p : Problem α} {rest : Unit → Iterates α} (h : Ended (rest ())) : Ended (.record p rest)

/-- A sequence whose iterates are numbered from `k` on, and of which exactly the last iterate is
final, unless the sequence is broken before by one of some faults. -/
inductive WellFormed (breaks : Fault → Prop) : Nat → Iterates α → Prop
  | last {k : Nat} {it : Iterate α} {rest : Unit → Iterates α} (hk : it.iteration = k)
      (hs : it.status ≠ .inProgress) (h : Ended (rest ())) : WellFormed breaks k (.yield it rest)
  | more {k : Nat} {it : Iterate α} {rest : Unit → Iterates α} (hk : it.iteration = k)
      (hs : it.status = .inProgress) (h : WellFormed breaks (k + 1) (rest ())) :
      WellFormed breaks k (.yield it rest)
  | record {k : Nat} {p : Problem α} {rest : Unit → Iterates α}
      (h : WellFormed breaks k (rest ())) : WellFormed breaks k (.record p rest)
  | broken {k : Nat} {cause : Fault} (h : breaks cause) : WellFormed breaks k (.broken cause)

variable {breaks : Fault → Prop}

theorem collect_yield (it : Iterate α) (rest : Unit → Iterates α) :
    (Iterates.yield it rest).collect.1 = (rest ()).collect.1.map (it :: ·) := rfl

theorem Ended.collect_eq {its : Iterates α} (h : its.Ended) : its.collect.1 = .ok [] := by
  induction h with
  | done => rfl
  | record _ ih => exact ih

theorem Ended.next_eq {its : Iterates α} (h : its.Ended) : its.next = .ok (none, .done) := by
  induction h with
  | done => rfl
  | record _ ih => exact ih

theorem reply_done (n : Nat) : (Iterates.done : Iterates α).reply n = .ok none := by
  induction n with
  | zero => rfl
  | succ n ih => exact ih

theorem Ended.reply_eq {its : Iterates α} (h : its.Ended) (n : Nat) : its.reply n = .ok none := by
  cases n with
  | zero => rw [reply, h.next_eq]; rfl
  | succ n => rw [reply, h.next_eq]; exact reply_done n

theorem reply_record (p : Problem α) (rest : Unit → Iterates α) (n : Nat) :
    (Iterates.record p rest).reply n = (rest ()).reply n := by
  cases n with
  | zero => rfl
  | succ n => rfl

/-- The iterates of a list are numbered from `k` on, and exactly the last one is final. -/
structure Lawful (k : Nat) (list : List (Iterate α)) : Prop where
  nonempty : list ≠ []
  iteration : ∀ (i : Nat) (it : Iterate α), list[i]? = some it → it.iteration = k + i
  status : ∀ (i : Nat) (it : Iterate α), list[i]? = some it →
    (it.status = .inProgress ↔ i + 1 < list.length)

theorem lawful_singleton {k : Nat} {it : Iterate α} (hk : it.iteration = k)
    (hs : it.status ≠ .inProgress) : Lawful k [it] := by
  have hsingle : ∀ (i : Nat) (it' : Iterate α), [it][i]? = some it' → i = 0 ∧ it' = it := by
    intro i it' hi
    rw [List.getElem?_singleton] at hi
    split at hi
    next hzero => exact ⟨hzero, (Option.some.inj hi).symm⟩
    next => cases hi
  refine ⟨by simp, fun i it' hi => ?_, fun i it' hi => ?_⟩
  · obtain ⟨rfl, rfl⟩ := hsingle i it' hi
    exact hk
  · obtain ⟨rfl, rfl⟩ := hsingle i it' hi
    simp [hs]

theorem Lawful.cons {k : Nat} {it : Iterate α} {list : List (Iterate α)} (h : Lawful (k + 1) list)
    (hk : it.iteration = k) (hs : it.status = .inProgress) : Lawful k (it :: list) := by
  have hpos : 0 < list.length := List.length_pos_iff.mpr h.nonempty
  refine ⟨by simp, fun i it' hi => ?_, fun i it' hi => ?_⟩
  · cases i with
    | zero =>
      cases hi
      simpa using hk
    | succ i =>
      have := h.iteration i it' hi
      omega
  · cases i with
    | zero =>
      cases hi
      simpa [hs] using hpos
    | succ i =>
      rw [h.status i it' hi, List.length_cons]
      omega

/-- A sequence comes to its end with some iterates, and gives the same ones by one. -/
structure Completed (k : Nat) (its : Iterates α) (list : List (Iterate α)) : Prop where
  collect : its.collect.1 = .ok list
  lawful : Lawful k list
  reply : ∀ n, its.reply n = .ok list[n]?

/-- A sequence is broken by a fault. The iterates before it are numbered from `k` on, and none of them
is final. -/
structure BreaksOff (k : Nat) (its : Iterates α) (cause : Fault) : Prop where
  collect : its.collect.1 = .error cause
  iterates : ∀ (i : Nat) (it : Iterate α), its.toList[i]? = some it →
    it.iteration = k + i ∧ it.status = .inProgress ∧ its.reply i = .ok (some it)
  reply : ∀ n, its.toList.length ≤ n → its.reply n = .error cause

theorem reply_broken (cause : Fault) (n : Nat) :
    (Iterates.broken cause : Iterates α).reply n = .error cause := by
  cases n with
  | zero => rfl
  | succ n => rfl

theorem breaksOff_broken (k : Nat) (cause : Fault) :
    (Iterates.broken cause : Iterates α).BreaksOff k cause :=
  ⟨rfl, nofun, fun n _ => reply_broken cause n⟩

theorem BreaksOff.yield {k : Nat} {it : Iterate α} {rest : Unit → Iterates α} {cause : Fault}
    (h : (rest ()).BreaksOff (k + 1) cause) (hk : it.iteration = k) (hs : it.status = .inProgress) :
    (Iterates.yield it rest).BreaksOff k cause := by
  refine ⟨by rw [collect_yield, h.collect]; rfl, fun i it' hi => ?_, fun n hn => ?_⟩
  · cases i with
    | zero =>
      obtain rfl := Option.some.inj hi
      exact ⟨hk, hs, rfl⟩
    | succ i =>
      obtain ⟨hnumber, hstatus, hreply⟩ := h.iterates i it' hi
      exact ⟨by omega, hstatus, hreply⟩
  · cases n with
    | zero => exact absurd hn (by simp [toList])
    | succ n => exact h.reply n (Nat.le_of_succ_le_succ hn)

theorem BreaksOff.record {k : Nat} {p : Problem α} {rest : Unit → Iterates α} {cause : Fault}
    (h : (rest ()).BreaksOff k cause) : (Iterates.record p rest).BreaksOff k cause := by
  refine ⟨h.collect, fun i it hi => ?_, fun n hn => ?_⟩
  · rw [reply_record]
    exact h.iterates i it hi
  · rw [reply_record]
    exact h.reply n hn

/-- A well-formed sequence comes to its end or breaks. -/
theorem WellFormed.collect_spec {k : Nat} {its : Iterates α} (h : its.WellFormed breaks k) :
    (∃ list, its.Completed k list) ∨ ∃ cause, breaks cause ∧ its.BreaksOff k cause := by
  induction h with
  | @last k it rest hk hs h =>
    refine .inl ⟨[it], by rw [collect_yield, h.collect_eq]; rfl, lawful_singleton hk hs,
      fun n => ?_⟩
    cases n with
    | zero => rfl
    | succ n => exact h.reply_eq n
  | @more k it rest hk hs _ ih =>
    rcases ih with ⟨list, hc, hl, hr⟩ | ⟨cause, hcause, hbreaks⟩
    · refine .inl ⟨it :: list, by rw [collect_yield, hc]; rfl, hl.cons hk hs, fun n => ?_⟩
      cases n with
      | zero => rfl
      | succ n => exact hr n
    · exact .inr ⟨cause, hcause, hbreaks.yield hk hs⟩
  | @record k p rest _ ih =>
    rcases ih with ⟨list, hc, hl, hr⟩ | ⟨cause, hcause, hbreaks⟩
    · exact .inl ⟨list, hc, hl, fun n => (reply_record p rest n).trans (hr n)⟩
    · exact .inr ⟨cause, hcause, hbreaks.record⟩
  | @broken k cause hcause => exact .inr ⟨cause, hcause, breaksOff_broken k cause⟩

theorem WellFormed.completed {k : Nat} {its : Iterates α} (h : its.WellFormed breaks k)
    {list : List (Iterate α)} (hlist : its.collect.1 = .ok list) : its.Completed k list := by
  rcases h.collect_spec with ⟨list', h'⟩ | ⟨cause, -, h'⟩
  · obtain rfl := Except.ok.inj (hlist.symm.trans h'.collect)
    exact h'
  · cases hlist.symm.trans h'.collect

theorem WellFormed.breaksOff {k : Nat} {its : Iterates α} (h : its.WellFormed breaks k)
    {cause : Fault} (hcause : its.collect.1 = .error cause) :
    breaks cause ∧ its.BreaksOff k cause := by
  rcases h.collect_spec with ⟨list, h'⟩ | ⟨cause', hbreaks, h'⟩
  · cases hcause.symm.trans h'.collect
  · obtain rfl := Except.error.inj (hcause.symm.trans h'.collect)
    exact ⟨hbreaks, h'⟩

theorem take_zero (its : Iterates α) : its.take 0 = .done := by
  cases its <;> rfl

theorem collect_take {its : Iterates α} {list : List (Iterate α)} (h : its.collect.1 = .ok list)
    (n : Nat) : (its.take n).collect.1 = .ok (list.take n) := by
  induction its generalizing list n with
  | done =>
    obtain rfl : [] = list := Except.ok.inj h
    cases n <;> rfl
  | broken cause => cases h
  | yield it rest ih =>
    cases n with
    | zero => rw [take_zero]; rfl
    | succ n =>
      rw [collect_yield] at h
      cases hc : (rest ()).collect.1 with
      | error cause =>
        rw [hc] at h
        cases h
      | ok rest' =>
        rw [hc] at h
        obtain rfl : it :: rest' = list := Except.ok.inj h
        have hrest := ih () hc n
        simp only [take, collect_yield, List.take_succ_cons]
        split
        next hn =>
          subst hn
          rfl
        next => rw [hrest]; rfl
  | record p rest ih =>
    cases n with
    | zero => rw [take_zero]; rfl
    | succ n => exact ih () h (n + 1)

theorem wellFormed_recordAll {k : Nat} {its : Iterates α} (h : its.WellFormed breaks k)
    (problems : List (Problem α)) : (recordAll problems its).WellFormed breaks k := by
  induction problems with
  | nil => exact h
  | cons p problems ih => exact .record ih

end Iterates

namespace Multistage

open Iterates (Ended WellFormed)

variable {breaks : Fault → Prop}

theorem ended_renumber {its : Iterates α} (h : its.Ended) (k : Nat) : (renumber its k).Ended := by
  induction h generalizing k with
  | done => exact .done
  | record _ ih => exact .record (ih k)

theorem wellFormed_renumber {j : Nat} {its : Iterates α} (h : its.WellFormed breaks j) (k : Nat) :
    (renumber its k).WellFormed breaks k := by
  induction h generalizing k with
  | last _ hs h => exact .last rfl hs (ended_renumber h _)
  | more _ hs _ ih => exact .more rfl hs (ih _)
  | record _ ih => exact .record (ih k)
  | broken h => exact .broken h

/-- A launch that breaks by one of some faults at most, and gives a well-formed sequence if it gives
any. -/
def Launch.Sound (breaks : Fault → Prop) (launched : Launch α) : Prop :=
  match launched.iterates with
  | .error cause => breaks cause
  | .ok none => True
  | .ok (some its) => ∃ j, its.WellFormed breaks j

/-- A stage and all that is launched after it make up one well-formed sequence. -/
theorem wellFormed_follow {start : List α} {next : List α → Launch α}
    {continued : Iterates α → Nat → Iterates α} (hnext : ∀ x, (next x).Sound breaks)
    (hcontinued : ∀ its j k, WellFormed breaks j its → (continued its k).WellFormed breaks k)
    {j : Nat} {its : Iterates α} (h : its.WellFormed breaks j) (last : Option (List α)) (k : Nat) :
    (follow start next continued its last k).WellFormed breaks k := by
  induction h generalizing last k with
  | @last j it rest _ hs h =>
    have hsound := hnext it.x
    rw [follow, if_neg hs]
    refine Iterates.wellFormed_recordAll ?_ _
    unfold Launch.Sound at hsound
    cases hlaunched : (next it.x).iterates with
    | error cause =>
      rw [hlaunched] at hsound
      exact .broken hsound
    | ok launched =>
      rw [hlaunched] at hsound
      cases launched with
      | none => exact .last rfl hs (ended_renumber h _)
      | some its' =>
        obtain ⟨j', hwf⟩ := hsound
        exact .more rfl rfl (hcontinued _ _ _ hwf)
  | more _ hs _ ih =>
    rw [follow, if_pos hs]
    exact .more rfl hs (ih _ _)
  | record _ ih => exact .record (ih _ _)
  | broken h => exact .broken h

theorem wellFormed_sequence {p : Problem α} (stages : List (Solver α))
    (hstages : ∀ stage ∈ stages, ∀ x, (launch p stage x).Sound breaks) {j : Nat} {its : Iterates α}
    (h : its.WellFormed breaks j) (last : Option (List α)) (k : Nat) :
    (sequence p stages its last k).WellFormed breaks k := by
  induction stages generalizing j its last k with
  | nil => exact wellFormed_renumber h k
  | cons stage rest ih =>
    refine wellFormed_follow (hstages stage (by simp)) (fun its' j' k' h' => ?_) h last k
    exact ih (fun s hs => hstages s (by simp [hs])) h' none k'

end Multistage

end Autodiff
