import CallWeaver.Base.Runs
import CallWeaver.Scheduler.Queue

/-! # Runs of the scheduler

A run interleaves additions and deletions with passes over the queue. A pass detaches the due
events, starts their callbacks one by one, and schedules or releases each event when its callback
returns. Additions and deletions may come at any point, also from inside a callback.
-/

namespace CallWeaver.Scheduler

open List

/-- A call of `cw_sched_runq` in progress: the events detached and not yet started, the event whose
callback is running, and the number of events started. -/
structure Pass where
  runq : List Sched
  current : Option Sched := none
  x : ℕ := 0
  deriving DecidableEq, Repr

/-- A scheduler context, the pass in progress, and the history of the callbacks
started. -/
structure State where
  con : SchedContext := contextCreate
  pass : Option Pass := none
  log : List ℕ := []
  deriving DecidableEq, Repr

inductive Action where
  | add (now : Instant) (malloc : Bool) (args : AddArgs)
  | del (id : ℤ)
  | enter (now : Instant)
  | call
  | ret (res : ℤ)
  | leave

def horizon (now : Instant) : Timeval := cwTvadd now.tv ⟨0, 1000⟩

/-- The steps of `cw_sched_runq`, and calls of `cw_sched_add_variable` and `cw_sched_del` in
between. -/
def step (s : State) : Action → Option State
  | .add now malloc args => some { s with con := (cwSchedAddVariable s.con now.tv malloc args).1 }
  | .del id => some { s with con := (cwSchedDel s.con id).1 }
  | .enter now =>
    match s.pass with
    | none =>
      let d := detach s.con (horizon now)
      some { s with con := d.1, pass := some { runq := d.2 } }
    | some _ => none
  | .call =>
    match s.pass with
    | some ⟨e :: runq, none, x⟩ =>
      some { s with pass := some ⟨runq, some e, x + 1⟩, log := s.log ++ [e.uid] }
    | _ => none
  | .ret res =>
    match s.pass with
    | some ⟨runq, some e, x⟩ =>
      some { s with con := reschedule s.con e res, pass := some ⟨runq, none, x⟩ }
    | _ => none
  | .leave =>
    match s.pass with
    | some ⟨[], none, _⟩ => some { s with pass := none }
    | _ => none

inductive Step : State → Action → State → Prop where
  | add (s : State) (now : Instant) (malloc : Bool) (args : AddArgs) :
      Step s (.add now malloc args)
      { s with con := (cwSchedAddVariable s.con now.tv malloc args).1 }
  | del (s : State) (id : ℤ) : Step s (.del id) { s with con := (cwSchedDel s.con id).1 }
  | enter (con : SchedContext) (log : List ℕ) (now : Instant) :
      Step ⟨con, none, log⟩ (.enter now)
        ⟨(detach con (horizon now)).1, some { runq := (detach con (horizon now)).2 }, log⟩
  | call (con : SchedContext) (log : List ℕ) (e : Sched) (runq : List Sched) (x : ℕ) :
      Step ⟨con, some ⟨e :: runq, none, x⟩, log⟩ .call
        ⟨con, some ⟨runq, some e, x + 1⟩, log ++ [e.uid]⟩
  | ret (con : SchedContext) (log : List ℕ) (e : Sched) (runq : List Sched) (x : ℕ) (res : ℤ) :
      Step ⟨con, some ⟨runq, some e, x⟩, log⟩ (.ret res) ⟨reschedule con e res,
        some ⟨runq, none, x⟩, log⟩
  | leave (con : SchedContext) (log : List ℕ) (x : ℕ) :
      Step ⟨con, some ⟨[], none, x⟩, log⟩ .leave ⟨con, none, log⟩

theorem step_eq_some {s t : State} {a : Action} (h : step s a = some t) : Step s a t := by
  obtain ⟨con, pass, log⟩ := s
  cases a with
  | add now malloc args => cases h; exact .add _ now malloc args
  | del id => cases h; exact .del _ id
  | enter now =>
    cases pass with
    | none => cases h; exact .enter con log now
    | some p => cases h
  | call =>
    rcases pass with _ | ⟨_ | ⟨e, runq⟩, _ | c, x⟩ <;> cases h
    exact .call con log e runq x
  | ret res =>
    rcases pass with _ | ⟨runq, _ | e, x⟩ <;> cases h
    exact .ret con log e runq x res
  | leave =>
    rcases pass with _ | ⟨_ | ⟨e, runq⟩, _ | c, x⟩ <;> cases h
    exact .leave con log x

def Reachable (s : State) : Prop := ∃ as, Runs step anyStep {} as s

/-- The events of the pass in progress that are neither queued nor released. -/
def State.batch (s : State) : List Sched :=
  match s.pass with
  | none => []
  | some p => p.current.toList ++ p.runq

def State.places (s : State) : List ℕ :=
  s.con.schedq.map Sched.uid ++ (s.batch.map Sched.uid ++ s.con.released)

structure Inv (s : State) : Prop where
  queue : QueueOk s.con
  normal : ∀ e ∈ s.batch, e.when.Normal
  places : s.places.Perm (range s.con.added)

theorem inv_init : Inv {} :=
  ⟨queueOk_create, by simp [State.batch], by simp [State.places, State.batch, contextCreate]⟩

section Places

section

variable (con : SchedContext) (s : Sched)

theorem schedule_uids :
    ((schedule con s).schedq.map Sched.uid).Perm (s.uid :: con.schedq.map Sched.uid) :=
  (insertStable_perm _ _ con.schedq).map Sched.uid

@[simp] theorem schedule_added :
    (schedule con s).added = con.added := rfl

@[simp] theorem schedule_released :
    (schedule con s).released = con.released := rfl

@[simp] theorem reschedule_added (res : ℤ) : (reschedule con s res).added = con.added := by
  unfold reschedule; split <;> rfl

end

variable {con : SchedContext} {B R : List ℕ}

theorem places_add (now : Instant) (malloc : Bool) (args : AddArgs)
    (h : (con.schedq.map Sched.uid ++ (B ++ con.released)).Perm (range con.added)) :
    let con' := (cwSchedAddVariable con now.tv malloc args).1
    (con'.schedq.map Sched.uid ++ (B ++ con'.released)).Perm (range con'.added) := by
  intro con'
  rcases cwSchedAddVariable_cases con now malloc args with he | ⟨n, s, hu, _, _, he⟩
  · simp only [con', he]; exact h
  · simp only [con', he, schedule_added, schedule_released, range_succ]
    apply ((schedule_uids _ s).append_right _).trans
    rw [hu]
    exact ((List.Perm.cons _ h).trans (perm_append_singleton _ _).symm)

theorem places_del (id : ℤ)
    (h : (con.schedq.map Sched.uid ++ (B ++ con.released)).Perm (range con.added)) :
    let con' := (cwSchedDel con id).1
    (con'.schedq.map Sched.uid ++ (B ++ con'.released)).Perm (range con'.added) := by
  intro con'
  simp only [con', cwSchedDel]
  cases hu : unlink id con.schedq with
  | none => exact h
  | some p =>
    obtain ⟨s, q⟩ := p
    obtain ⟨_, l, r, hq, rfl, _⟩ := unlink_eq_some hu
    refine List.Perm.trans ?_ h
    simp only [schedRelease, hq, map_append, map_cons]
    rw [← append_assoc B, ← append_assoc, append_assoc _ (s.uid :: _), cons_append]
    exact (perm_append_singleton _ _).trans
      (by simpa using (@perm_middle _ s.uid (l.map Sched.uid) _).symm)

theorem places_detach (con : SchedContext) (tv : Timeval) :
    ((detach con tv).1.schedq.map Sched.uid ++
      ((detach con tv).2.map Sched.uid ++ con.released)).Perm
      (con.schedq.map Sched.uid ++ con.released) := by
  have hq : con.schedq.map Sched.uid =
      (detach con tv).2.map Sched.uid ++ (detach con tv).1.schedq.map Sched.uid := by
    rw [← map_append]
    exact congrArg _ (takeWhile_append_dropWhile ..).symm
  rw [hq, ← append_assoc]
  exact (perm_append_comm).append_right _

theorem places_reschedule (con : SchedContext) (e : Sched) (res : ℤ) (B : List ℕ) :
    ((reschedule con e res).schedq.map Sched.uid ++ (B ++ (reschedule con e res).released)).Perm
      (con.schedq.map Sched.uid ++ (e.uid :: B ++ con.released)) := by
  unfold reschedule
  split
  · apply ((schedule_uids _ _).append_right _).trans
    exact perm_middle.symm
  · apply List.Perm.append_left _
    rw [schedRelease, ← append_assoc]
    exact perm_append_singleton _ _

end Places

theorem inv_step {s t : State} {a : Action} (hi : Inv s) (h : step s a = some t) : Inv t := by
  obtain ⟨hq, hn, hp⟩ := hi
  cases step_eq_some h with
  | add _ now malloc args =>
    exact ⟨queueOk_add hq now malloc args, hn, places_add now malloc args hp⟩
  | del _ id => exact ⟨queueOk_del hq id, hn, places_del id hp⟩
  | enter con log now =>
    refine ⟨queueOk_detach hq _, ?_, ?_⟩
    · intro e he
      exact hq.normal e ((takeWhile_sublist _).subset he)
    · exact (places_detach con (horizon now)).trans hp
  | call con log e runq x => exact ⟨hq, hn, hp⟩
  | ret con log e runq x res =>
    refine ⟨queueOk_reschedule hq (hn e (by simp [State.batch])) res, ?_, ?_⟩
    · intro e' he'
      exact hn e' (by simp only [State.batch] at he' ⊢; simp_all)
    · apply ((places_reschedule con e res (runq.map Sched.uid)).trans hp).trans
      simp
  | leave con log x => exact ⟨hq, hn, hp⟩

theorem inv_of_reachable {s : State} (h : Reachable s) : Inv s := by
  obtain ⟨as, hr⟩ := h
  exact hr.invariant (fun _ _ _ hi hs _ => inv_step hi hs) inv_init

end CallWeaver.Scheduler
