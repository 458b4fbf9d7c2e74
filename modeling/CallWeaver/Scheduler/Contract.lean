import CallWeaver.Scheduler.Passes

/-! # What the scheduler guarantees

Every event is queued, in the batch of the pass in progress, or released. A pass starts exactly the
events that were due when it began. A deletion keeps its promise exactly when it finds the event
itself in the queue, not once a pass has detached it.
-/

namespace CallWeaver.Scheduler

open List

def due (now : Timeval) (q : List Sched) : List Sched :=
  q.filter fun e => decide (e.when.micros < now.micros + 1000)

def Inside (_ : State) (a : Action) (_ : State) : Prop :=
  match a with
  | .enter _ => False
  | .leave => False
  | _ => True

instance (s : State) (a : Action) (t : State) : Decidable (Inside s a t) :=
  match a with
  | .enter _ | .leave => .isFalse id
  | .add .. | .del _ | .call | .ret _ => .isTrue trivial

variable {con : SchedContext} {s t s₁ u : State} {a : Action} {as : List Action}

theorem horizon_normal (now : Instant) : (horizon now).Normal :=
  cwTvadd_normal now.normal (by decide)

theorem horizon_micros (now : Instant) : (horizon now).micros = now.tv.micros + 1000 :=
  cwTvadd_micros now.normal (by decide)

theorem detach_eq_due (h : QueueOk con) (now : Instant) :
    (detach con (horizon now)).2 = due now.tv con.schedq := by
  rw [(detach_eq_filter h (horizon_normal now)).1, horizon_micros]
  rfl

def Logged (events : List Sched) (log₀ : List ℕ) (s : State) : Prop :=
  ∃ p ran, s.pass = some p ∧ ran ++ p.runq = events ∧ s.log = log₀ ++ ran.map Sched.uid ∧
    p.x = ran.length

theorem logged_step {events : List Sched} {log₀ : List ℕ} (hl : Logged events log₀ s)
    (h : step s a = some t) (hin : Inside s a t) : Logged events log₀ t := by
  obtain ⟨p, ran, hp, he, hlog, hx⟩ := hl
  cases step_eq_some h with
  | add _ now malloc args | del _ id => exact ⟨p, ran, hp, he, hlog, hx⟩
  | enter con log now => exact hin.elim
  | call con log e runq x =>
    cases hp
    refine ⟨_, ran ++ [e], rfl, by simpa using he, ?_, by simpa using hx⟩
    simp only at hlog
    simp [hlog]
  | ret con log e runq x res =>
    cases hp
    exact ⟨_, ran, rfl, he, hlog, hx⟩
  | leave con log x => exact hin.elim

/-- A whole pass starts the events due at its beginning, in the order of the queue, and returns
their number. -/
theorem pass_log {now : Instant} (hi : Inv s) (h₁ : step s (.enter now) = some s₁)
    (hr : Runs step Inside s₁ as t) (h₂ : step t .leave = some u) :
    u.log = s.log ++ (due now.tv s.con.schedq).map Sched.uid ∧
      ∃ p, t.pass = some p ∧ p.x = (due now.tv s.con.schedq).length := by
  have h₀ : Logged (due now.tv s.con.schedq) s.log s₁ := by
    cases step_eq_some h₁ with
    | enter con log => exact ⟨_, [], rfl, detach_eq_due hi.queue now, by simp, rfl⟩
  obtain ⟨p, ran, hp, he, hlog, hx⟩ :=
    hr.invariant (I := Logged _ _) (fun _ _ _ hl hs hin => logged_step hl hs hin) h₀
  cases step_eq_some h₂ with
  | leave con log x =>
    cases hp
    rw [append_nil] at he
    subst he
    exact ⟨hlog, _, rfl, hx⟩

variable {e : Sched}

theorem uid_lt_of_mem_queue (hi : Inv s) (he : e ∈ s.con.schedq) : e.uid < s.con.added := by
  have hm : e.uid ∈ s.places := mem_append_left _ (mem_map_of_mem he)
  exact mem_range.mp (hi.places.mem_iff.mp hm)

theorem places_nodup (hi : Inv s) : s.places.Nodup :=
  hi.places.nodup_iff.mpr nodup_range

theorem queue_uids_nodup (hi : Inv s) : (s.con.schedq.map Sched.uid).Nodup :=
  (nodup_append.mp (places_nodup hi)).1

/-- In every run the queue is ordered by time with ties in the order of insertion, its length is
counted, every event ever added is in exactly one place, and every pass starts, in order and once
each, exactly the events that were queued at its beginning and expire within one millisecond. -/
theorem scheduler_contract {s : State} (h : Reachable s) :
    s.con.schedq.Pairwise Precedes ∧
    s.con.schedcnt = s.con.schedq.length ∧
    (s.con.schedq.map Sched.uid ++ (s.batch.map Sched.uid ++ s.con.released)).Perm
      (List.range s.con.added) ∧
    ∀ (now : Instant) (as : List Action) (s₁ t u : State),
      step s (.enter now) = some s₁ → Runs step Inside s₁ as t → step t .leave = some u →
      u.log = s.log ++ (due now.tv s.con.schedq).map Sched.uid ∧
      (due now.tv s.con.schedq).Pairwise Precedes ∧
      ((due now.tv s.con.schedq).map Sched.uid).Nodup ∧
      ∀ e ∈ due now.tv s.con.schedq, e.uid < s.con.added := by
  have hi := inv_of_reachable h
  refine ⟨hi.queue.sorted, hi.queue.count, hi.places, ?_⟩
  intro now as s₁ t u h₁ hr h₂
  refine ⟨(pass_log hi h₁ hr h₂).1, hi.queue.sorted.sublist filter_sublist, ?_, ?_⟩
  · exact (queue_uids_nodup hi).sublist (filter_sublist.map _)
  · intro e he
    exact uid_lt_of_mem_queue hi (mem_of_mem_filter he)

def secondEvent : Sched := ⟨2, ⟨10, 900000⟩, 900, false, 8, 2, 1, 1⟩

def twoQueued : State :=
  { con := { eventcnt := 3, schedcnt := 2, added := 2, inserted := 2
             schedq := [⟨1, ⟨10, 500000⟩, 500, true, 7, 1, 0, 0⟩, secondEvent] } }

theorem reachable_twoQueued : Reachable twoQueued :=
  ⟨[.add (.ofSec 10) true ⟨500, 1, 7, true⟩, .add (.ofSec 10) true ⟨900, 2, 8, false⟩],
    exec_eq_some_iff.mp rfl⟩

/-- Both events fall due in one pass, and the first asks to be run again. -/
theorem scheduler_contract_two_due :
    ∃ s₁ t u, step twoQueued (.enter (.ofSec 20)) = some s₁ ∧
      Runs step Inside s₁ [.call, .ret 1, .call, .ret 0] t ∧ step t .leave = some u ∧
      u.log = [0, 1] := by
  obtain ⟨_, _, _, hpass⟩ := scheduler_contract reachable_twoQueued
  let s₁ : State := { con := (detach twoQueued.con (horizon (.ofSec 20))).1
                      pass := some { runq := twoQueued.con.schedq } }
  have hr : Runs step Inside s₁ [.call, .ret 1, .call, .ret 0] _ := exec_eq_some_iff.mp rfl
  exact ⟨s₁, _, _, rfl, hr, rfl, (hpass (.ofSec 20) _ s₁ _ _ rfl hr rfl).1⟩

/-! ## Deletion -/

/-- The event is scheduled: queued, or detached by a pass that has not reached it. -/
def Pending (s : State) (e : Sched) : Prop :=
  e ∈ s.con.schedq ∨ ∃ p, s.pass = some p ∧ e ∈ p.runq

def NeverRuns (s : State) (uid : ℕ) : Prop :=
  ∀ as t, Runs step anyStep s as t → ∃ l, t.log = s.log ++ l ∧ uid ∉ l

/-- What a deletion promises: it succeeds, and the callback is never started again. -/
def Cancels (s : State) (e : Sched) : Prop :=
  (cwSchedDel s.con e.id).2 = 0 ∧ ∀ t, step s (.del e.id) = some t → NeverRuns t e.uid

/-- The event is still queued, and the first one with its identifier. -/
def Found (s : State) (e : Sched) : Prop :=
  ∃ l r, s.con.schedq = l ++ e :: r ∧ ∀ e' ∈ l, e'.id ≠ e.id

variable {uid : ℕ} {l log : List ℕ}

theorem released_mono (h : step s a = some t) (hu : uid ∈ s.con.released) :
    uid ∈ t.con.released := by
  cases step_eq_some h with
  | add _ now malloc args =>
    rcases cwSchedAddVariable_cases s.con now malloc args with he | ⟨n, e, _, _, _, he⟩
    · simpa only [he] using hu
    · simpa only [he, schedule_released] using hu
  | del _ id =>
    simp only [cwSchedDel]
    split
    · exact hu
    · exact mem_append_left _ hu
  | enter con log now => exact hu
  | call con log e runq x => exact hu
  | ret con log e runq x res =>
    simp only [reschedule]
    split
    · exact hu
    · exact mem_append_left _ hu
  | leave con log x => exact hu

theorem log_step (hi : Inv s) (h : step s a = some t) (hu : uid ∈ s.con.released) :
    ∃ l, t.log = s.log ++ l ∧ uid ∉ l := by
  cases step_eq_some h with
  | call con log e runq x =>
    refine ⟨[e.uid], rfl, fun hm => ?_⟩
    rw [mem_singleton] at hm
    have hd := (nodup_append.mp (nodup_append.mp (places_nodup hi)).2.1).2.2
    exact hd e.uid (by simp [State.batch]) uid hu hm.symm
  | _ => exact ⟨[], by simp, by simp⟩

theorem neverRuns_of_released (hi : Inv s) (hu : uid ∈ s.con.released) : NeverRuns s uid := by
  intro as t hr
  refine hr.relation (I := fun s => Inv s ∧ uid ∈ s.con.released)
    (R := fun s t => ∃ l, t.log = s.log ++ l ∧ uid ∉ l) ?_ ?_ ?_ ⟨hi, hu⟩
  · rintro s a t ⟨hi, hu⟩ hs _
    exact ⟨⟨inv_step hi hs, released_mono hs hu⟩, log_step hi hs hu⟩
  · exact fun s => ⟨[], by simp, by simp⟩
  · rintro s t u ⟨l, hl, hn⟩ ⟨l', hl', hn'⟩
    refine ⟨l ++ l', by rw [hl', hl, append_assoc], ?_⟩
    simp [hn, hn']

theorem cancels_of_found (hi : Inv s) (hf : Found s e) : Cancels s e := by
  obtain ⟨l, r, hq, hl⟩ := hf
  have hd : cwSchedDel s.con e.id =
      (schedRelease { s.con with schedq := l ++ r, schedcnt := s.con.schedcnt - 1 } e, 0) := by
    rw [cwSchedDel, hq, unlink_append rfl hl]
  refine ⟨by rw [hd], fun t ht => ?_⟩
  apply neverRuns_of_released (inv_step hi ht)
  cases step_eq_some ht
  simp [hd, schedRelease]

/-! A pending event has a run that starts it: the pass in progress is brought to
its end with every callback returning zero, and a new pass is begun at the time
of the event. -/

def MayRun (s : State) (uid : ℕ) : Prop :=
  ∃ as t l, Runs step anyStep s as t ∧ t.log = s.log ++ l ∧ uid ∈ l

theorem not_neverRuns (h : MayRun s uid) : ¬ NeverRuns s uid := by
  obtain ⟨as, t, l, hr, hl, hm⟩ := h
  intro hn
  obtain ⟨l', hl', hm'⟩ := hn as t hr
  exact hm' (append_cancel_left (hl.symm.trans hl') ▸ hm)

theorem MayRun.of_runs (hr : Runs step anyStep s as t) (hl : t.log = s.log ++ l)
    (h : MayRun t uid) : MayRun s uid := by
  obtain ⟨as', u, l', hr', hl', hm⟩ := h
  exact ⟨as ++ as', u, l ++ l', hr.append hr', by rw [hl', hl, append_assoc], mem_append_right l hm⟩

section

variable (runq : List Sched) (con : SchedContext) (log : List ℕ) (x : ℕ)

theorem mayRun_of_mem_runq (he : e ∈ runq) : MayRun ⟨con, some ⟨runq, none, x⟩, log⟩ e.uid := by
  induction runq generalizing con log x with
  | nil => cases he
  | cons c runq ih =>
    rcases mem_cons.mp he with rfl | he
    · exact ⟨[.call], ⟨con, some ⟨runq, some e, x + 1⟩, log ++ [e.uid]⟩, [e.uid],
        .single rfl trivial, rfl, by simp⟩
    · have hr : Runs step anyStep ⟨con, some ⟨c :: runq, none, x⟩, log⟩ [.call, .ret 0]
          ⟨reschedule con c 0, some ⟨runq, none, x + 1⟩, log ++ [c.uid]⟩ :=
        .cons rfl trivial (.single rfl trivial)
      exact .of_runs hr rfl (ih _ _ _ he)

theorem drain :
    ∃ as con' l, Runs step anyStep ⟨con, some ⟨runq, none, x⟩, log⟩ as ⟨con', none, log ++ l⟩ ∧
      con'.schedq = con.schedq := by
  induction runq generalizing con log x with
  | nil => exact ⟨[.leave], con, [], by simpa using .single rfl trivial, rfl⟩
  | cons c runq ih =>
    obtain ⟨as, con', l, hr, hq⟩ := ih (reschedule con c 0) (log ++ [c.uid]) (x + 1)
    refine ⟨.call :: .ret 0 :: as, con', c.uid :: l, ?_, hq⟩
    rw [show log ++ c.uid :: l = log ++ [c.uid] ++ l by simp]
    exact .cons rfl trivial (.cons rfl trivial hr)

end

theorem mayRun_of_queued_idle (hi : Inv ⟨con, none, log⟩) (he : e ∈ con.schedq) :
    MayRun ⟨con, none, log⟩ e.uid := by
  let now : Instant := ⟨e.when, hi.queue.normal e he⟩
  have hr : Runs step anyStep ⟨con, none, log⟩ [.enter now]
      ⟨(detach con (horizon now)).1, some ⟨(detach con (horizon now)).2, none, 0⟩, log⟩ :=
    .single rfl trivial
  refine .of_runs hr (l := []) (by simp) (mayRun_of_mem_runq _ _ _ _ ?_)
  rw [detach_eq_due hi.queue]
  refine mem_filter.mpr ⟨he, ?_⟩
  simp only [now, decide_eq_true_eq]
  omega

theorem exists_returned (s : State) (hp : s.pass ≠ none) :
    ∃ as con runq x, Runs step anyStep s as ⟨con, some ⟨runq, none, x⟩, s.log⟩ ∧
      con.schedq = s.con.schedq ∧ ∀ p, s.pass = some p → p.runq = runq := by
  obtain ⟨con, _ | ⟨runq, _ | c, x⟩, log⟩ := s
  · exact (hp rfl).elim
  · exact ⟨[], con, runq, x, .nil _, rfl, by rintro p ⟨⟩; rfl⟩
  · exact ⟨[.ret 0], reschedule con c 0, runq, x, .single rfl trivial, rfl, by rintro p ⟨⟩; rfl⟩

theorem mayRun_of_pending (hi : Inv s) (he : Pending s e) : MayRun s e.uid := by
  by_cases hp : s.pass = none
  · obtain ⟨con, pass, log⟩ := s
    subst hp
    rcases he with he | ⟨p, hp, _⟩
    · exact mayRun_of_queued_idle hi he
    · cases hp
  · obtain ⟨as, con, runq, x, hr, hq, hrun⟩ := exists_returned s hp
    refine .of_runs hr (l := []) (by simp) ?_
    rcases he with he | ⟨p, hp', he⟩
    · obtain ⟨as', con', l, hr', hq'⟩ := drain runq con s.log x
      have hi' : Inv ⟨con', none, s.log ++ l⟩ :=
        (hr.append hr').invariant (fun _ _ _ hi hs _ => inv_step hi hs) hi
      exact .of_runs hr' rfl (mayRun_of_queued_idle hi' (by rw [hq', hq]; exact he))
    · exact mayRun_of_mem_runq _ _ _ _ (hrun p hp' ▸ he)

theorem pending_of_not_found (hi : Inv s) (he : Pending s e) (hf : ¬ Found s e)
    (ht : step s (.del e.id) = some t) : Pending t e := by
  cases step_eq_some ht
  rcases he with he | he
  · left
    simp only [cwSchedDel]
    cases hu : unlink e.id s.con.schedq with
    | none => exact he
    | some p =>
      obtain ⟨c, q⟩ := p
      obtain ⟨hid, l, r, hq, rfl, hl⟩ := unlink_eq_some hu
      have hne : e ≠ c := by
        rintro rfl
        exact hf ⟨l, r, hq, hl⟩
      rw [hq] at he
      rcases mem_append.mp he with he | he
      · exact mem_append_left _ he
      · exact mem_append_right _ ((mem_cons.mp he).resolve_left hne)
  · exact .inr he

/-- A deletion of a pending event keeps its promise exactly when the event is still in the queue,
with no event of the same identifier in front of it. -/
theorem cancels_iff_found {s : State} {e : Sched} (h : Reachable s) (he : Pending s e) :
    Cancels s e ↔ Found s e := by
  have hi := inv_of_reachable h
  refine ⟨fun hc => ?_, cancels_of_found hi⟩
  by_contra hf
  have ht : step s (.del e.id) = some { s with con := (cwSchedDel s.con e.id).1 } := rfl
  exact not_neverRuns (mayRun_of_pending (inv_step hi ht) (pending_of_not_found hi he hf ht))
    (hc.2 _ ht)

/-- Deleting the second of two queued events cancels it. -/
theorem cancels_secondEvent : Pending twoQueued secondEvent ∧ Cancels twoQueued secondEvent := by
  have he : Pending twoQueued secondEvent := .inl (by decide)
  refine ⟨he, (cancels_iff_found reachable_twoQueued he).mpr ?_⟩
  exact ⟨twoQueued.con.schedq.take 1, [], rfl, by decide⟩

/-- Both events fall due in one pass, and the callback of the first deletes the second: the deletion
fails and the pass starts the deleted callback. -/
theorem detached_event_not_cancelled :
    ∃ s t u, Reachable s ∧ Pending s secondEvent ∧ ¬ Cancels s secondEvent ∧
      (cwSchedDel s.con secondEvent.id).2 = -1 ∧ step s (.del secondEvent.id) = some t ∧
      Runs step anyStep t [.ret 0, .call] u ∧ u.log = t.log ++ [secondEvent.uid] := by
  let s : State :=
    { con := { eventcnt := 3, added := 2, inserted := 2 }
      pass := some ⟨[secondEvent], twoQueued.con.schedq.head?, 1⟩
      log := [0] }
  have hs : Reachable s := by
    obtain ⟨as, hr⟩ := reachable_twoQueued
    exact ⟨as ++ [.enter (.ofSec 20), .call], hr.append (exec_eq_some_iff.mp rfl)⟩
  have hd : (cwSchedDel s.con secondEvent.id).2 = -1 := rfl
  refine ⟨s, _, _, hs, .inr ⟨_, rfl, by decide⟩,
    fun hc => ?_, hd, rfl, .cons rfl trivial (.single rfl trivial), rfl⟩
  exact absurd (hd.symm.trans hc.1) (by decide)

end CallWeaver.Scheduler
