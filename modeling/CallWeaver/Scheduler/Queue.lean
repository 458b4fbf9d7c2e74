import CallWeaver.Base.Sorting
import CallWeaver.Core.Time

/-! # The scheduler queue

A scheduler context with the operations that link an event into its queue, unlink it, and detach
the events that are due. History fields number the events in the order of their addition and the
positions in the order of their insertion; no operation reads them.
-/

namespace CallWeaver.Scheduler

open List Int

/-- The last two fields are history: the number of events added before this one, and the number of
insertions before its latest one. -/
structure Sched where
  id : ℤ
  when : Timeval
  resched : ℤ
  isVariable : Bool
  data : ℕ
  callback : ℕ
  uid : ℕ := 0
  pos : ℕ := 0
  deriving DecidableEq, Repr

/-- Without its lock and thread. The entries of the cache are only counted. The last three fields
are history: the events added, the insertions made, and the events released. -/
structure SchedContext where
  eventcnt : ℤ := 1
  schedcnt : ℤ := 0
  schedq : List Sched := []
  schedccnt : ℕ := 0
  added : ℕ := 0
  inserted : ℕ := 0
  released : List ℕ := []
  deriving DecidableEq, Repr

def schedMaxCache : ℕ := 128

def contextCreate : SchedContext := {}

def schedAlloc (con : SchedContext) (malloc : Bool) : Option SchedContext :=
  if con.schedccnt > 0 then some { con with schedccnt := con.schedccnt - 1 }
  else if malloc then some con
  else none

def schedRelease (con : SchedContext) (tmp : Sched) : SchedContext :=
  { con with
    schedccnt := if con.schedccnt < schedMaxCache then con.schedccnt + 1 else con.schedccnt
    released := con.released ++ [tmp.uid] }

def schedule (con : SchedContext) (s : Sched) : SchedContext :=
  { con with
    schedq :=
      insertStable (fun a b => sooner a.when b.when) { s with pos := con.inserted } con.schedq
    schedcnt := con.schedcnt + 1
    inserted := con.inserted + 1 }

structure AddArgs where
  when : ℤ
  callback : ℕ
  data : ℕ
  isVariable : Bool
  deriving DecidableEq, Repr

/-- The next identifier and the counter after it, a 32-bit `int` that starts again at zero once it
has wrapped. -/
def nextId (eventcnt : ℤ) : ℤ × ℤ :=
  if eventcnt < 0 then (0, 0) else (eventcnt, bmod (eventcnt + 1) 4294967296)

def cwSchedAddVariable (con : SchedContext) (now : Timeval) (malloc : Bool) (args : AddArgs) :
    SchedContext × ℤ :=
  match schedAlloc con malloc with
  | none => (con, -1)
  | some con =>
    let (id, eventcnt) := nextId con.eventcnt
    let tmp : Sched :=
      { id := id
        when := cwTvadd now (cwSamp2tv (toUnsigned args.when) 1000)
        resched := args.when
        isVariable := args.isVariable
        data := args.data
        callback := args.callback
        uid := con.added }
    (schedule { con with eventcnt := eventcnt, added := con.added + 1 } tmp, id)

def unlink (id : ℤ) : List Sched → Option (Sched × List Sched)
  | [] => none
  | s :: q => if s.id = id then some (s, q) else (unlink id q).map fun (t, q') => (t, s :: q')

def cwSchedDel (con : SchedContext) (id : ℤ) : SchedContext × ℤ :=
  match unlink id con.schedq with
  | none => (con, -1)
  | some (s, q) =>
    (schedRelease { con with schedq := q, schedcnt := con.schedcnt - 1 } s, 0)

/-- The first half of a run of the queue: detach the events up to the first that does not expire
before `tv`. -/
def detach (con : SchedContext) (tv : Timeval) : SchedContext × List Sched :=
  let runq := con.schedq.takeWhile fun s => sooner s.when tv
  ({ con with
      schedq := con.schedq.dropWhile fun s => sooner s.when tv
      schedcnt := con.schedcnt - runq.length }, runq)

/-- What a run of the queue does with an event after its callback: schedule it again on a nonzero
result, and release it otherwise. -/
def reschedule (con : SchedContext) (current : Sched) (res : ℤ) : SchedContext :=
  if res ≠ 0 then
    schedule con { current with
      when := cwTvadd current.when
        (cwSamp2tv (toUnsigned (if current.isVariable then res else current.resched)) 1000) }
  else schedRelease con current

/-- Earlier first, and in the order of insertion at equal times. -/
def Precedes (s t : Sched) : Prop :=
  s.when.micros < t.when.micros ∨ (s.when.micros = t.when.micros ∧ s.pos < t.pos)

/-- The shape of the queue: ordered, with its length counted, and with the
history numbers in range. -/
structure QueueOk (con : SchedContext) : Prop where
  normal : ∀ s ∈ con.schedq, s.when.Normal
  sorted : con.schedq.Pairwise Precedes
  count : con.schedcnt = con.schedq.length
  pos_lt : ∀ s ∈ con.schedq, s.pos < con.inserted

theorem queueOk_create : QueueOk contextCreate := by
  constructor <;> simp [contextCreate]

section Shape

variable {con con' : SchedContext} {s : Sched}

variable (h : QueueOk con)

include h

theorem QueueOk.congr (hq : con'.schedq = con.schedq) (hc : con'.schedcnt = con.schedcnt)
    (hi : con'.inserted = con.inserted) : QueueOk con' :=
  ⟨hq ▸ h.normal, hq ▸ h.sorted, by rw [hc, hq, h.count], by rw [hq, hi]; exact h.pos_lt⟩

theorem queueOk_release (s : Sched) : QueueOk (schedRelease con s) :=
  h.congr rfl rfl rfl

theorem queueOk_schedule (hs : s.when.Normal) : QueueOk (schedule con s) := by
  constructor
  · intro t ht
    rcases mem_insertStable.mp ht with rfl | ht
    · exact hs
    · exact h.normal t ht
  · refine pairwise_insertStable h.sorted ?_ ?_ ?_
    -- an event that is not due later keeps its place in front, also on a tie
    · intro t ht hlt
      have hle := (not_sooner_iff hs (h.normal t ht)).mp hlt
      rcases lt_or_eq_of_le hle with hlt' | heq
      · exact .inl hlt'
      · exact .inr ⟨heq, h.pos_lt t ht⟩
    · intro t ht hlt
      exact .inl ((sooner_iff hs (h.normal t ht)).mp hlt)
    · intro t ht u _ hlt htu
      have hlt' := (sooner_iff hs (h.normal t ht)).mp hlt
      rcases htu with htu | ⟨htu, _⟩
      · exact .inl (lt_trans hlt' htu)
      · exact .inl (htu ▸ hlt')
  · simp [schedule, h.count]
  · intro t ht
    rcases mem_insertStable.mp ht with rfl | ht
    · exact Nat.lt_succ_self _
    · exact Nat.lt_succ_of_lt (h.pos_lt t ht)

theorem queueOk_of_sublist {q : List Sched} (hq : q.Sublist con.schedq) {n : ℤ}
    (hn : n = q.length) : QueueOk { con with schedq := q, schedcnt := n } :=
  ⟨fun t ht => h.normal t (hq.subset ht), h.sorted.sublist hq, hn,
    fun t ht => h.pos_lt t (hq.subset ht)⟩

end Shape

variable {con con' : SchedContext}

theorem schedAlloc_eq_some {malloc : Bool} (h : schedAlloc con malloc = some con') :
    ∃ n, con' = { con with schedccnt := n } := by
  unfold schedAlloc at h
  split_ifs at h <;> cases h
  · exact ⟨_, rfl⟩
  · exact ⟨con.schedccnt, rfl⟩

theorem cwSchedAddVariable_cases (con : SchedContext) (now : Instant) (malloc : Bool)
    (args : AddArgs) : (cwSchedAddVariable con now.tv malloc args = (con, -1)) ∨
    ∃ n s, s.uid = con.added ∧ s.when.Normal ∧ s.id = (nextId con.eventcnt).1 ∧
      cwSchedAddVariable con now.tv malloc args =
        (schedule { con with
            schedccnt := n, eventcnt := (nextId con.eventcnt).2, added := con.added + 1 } s,
          s.id) := by
  unfold cwSchedAddVariable
  cases h : schedAlloc con malloc with
  | none => exact .inl rfl
  | some con' =>
    obtain ⟨n, rfl⟩ := schedAlloc_eq_some h
    refine .inr ⟨n, _, rfl, cwTvadd_normal now.normal (cwSamp2tv_millis _).1, rfl, rfl⟩

variable {s : Sched} {id : ℤ} {q q' l r : List Sched} {n : ℕ}

theorem unlink_eq_some (h : unlink id q = some (s, q')) :
    s.id = id ∧ ∃ l r, q = l ++ s :: r ∧ q' = l ++ r ∧ ∀ t ∈ l, t.id ≠ id := by
  induction q generalizing q' with
  | nil => cases h
  | cons t q ih =>
    unfold unlink at h
    split at h
    · cases h
      exact ⟨‹_›, [], q, rfl, rfl, by simp⟩
    · rename_i hne
      obtain ⟨⟨t', q''⟩, hu, he⟩ := Option.map_eq_some_iff.mp h
      cases he
      obtain ⟨hid, l, r, rfl, rfl, hl⟩ := ih hu
      refine ⟨hid, t :: l, r, rfl, rfl, fun u hu => ?_⟩
      rcases mem_cons.mp hu with rfl | hu
      · exact hne
      · exact hl u hu

theorem unlink_append (hs : s.id = id) (hl : ∀ t ∈ l, t.id ≠ id) :
    unlink id (l ++ s :: r) = some (s, l ++ r) := by
  induction l with
  | nil => simp [unlink, hs]
  | cons t l ih =>
    have ht : t.id ≠ id := hl t (by simp)
    simp [unlink, ht, ih fun u hu => hl u (by simp [hu])]

section

variable (h : QueueOk con)

include h

theorem detach_eq_filter {tv : Timeval} (htv : tv.Normal) :
    (detach con tv).2 = con.schedq.filter (fun s => decide (s.when.micros < tv.micros)) ∧
      (detach con tv).1.schedq =
      con.schedq.filter (fun s => !decide (s.when.micros < tv.micros)) := by
  unfold detach
  have hn := h.normal
  have hs := h.sorted
  generalize con.schedq = q at hn hs
  induction q with
  | nil => exact ⟨rfl, rfl⟩
  | cons s q ih =>
    obtain ⟨hsq, hq⟩ := pairwise_cons.mp hs
    obtain ⟨ih₁, ih₂⟩ := ih (fun t ht => hn t (by simp [ht])) hq
    have hsn : s.when.Normal := hn s (by simp)
    by_cases hlt : s.when.micros < tv.micros
    · have hb := (sooner_iff hsn htv).mpr hlt
      simp only [takeWhile_cons, dropWhile_cons, hb, if_true, filter_cons, hlt,
        decide_true, Bool.not_true, Bool.false_eq_true, if_false]
      exact ⟨by rw [← ih₁], ih₂⟩
    · -- nothing behind an event that is not due is due
      have hb := (not_sooner_iff hsn htv).mpr (not_lt.mp hlt)
      have hrest : ∀ t ∈ q, ¬ t.when.micros < tv.micros := by
        intro t ht hlt'
        rcases hsq t ht with h | ⟨h, _⟩ <;> omega
      simp only [takeWhile_cons, dropWhile_cons, hb, Bool.false_eq_true, if_false]
      constructor
      · symm
        rw [filter_eq_nil_iff]
        intro t ht
        rcases mem_cons.mp ht with rfl | ht
        · simpa using hlt
        · simpa using hrest t ht
      · symm
        rw [filter_eq_self]
        intro t ht
        rcases mem_cons.mp ht with rfl | ht
        · simpa using hlt
        · simpa using hrest t ht

theorem queueOk_detach (tv : Timeval) : QueueOk (detach con tv).1 := by
  apply queueOk_of_sublist h (dropWhile_sublist _)
  have hl := congrArg List.length
    (takeWhile_append_dropWhile (p := fun s : Sched => sooner s.when tv) (l := con.schedq))
  rw [length_append] at hl
  rw [h.count]
  omega

theorem queueOk_reschedule (hs : s.when.Normal) (res : ℤ) : QueueOk (reschedule con s res) := by
  unfold reschedule
  split
  · exact queueOk_schedule h (cwTvadd_normal hs (cwSamp2tv_millis _).1)
  · exact queueOk_release h s

theorem queueOk_add (now : Instant) (malloc : Bool) (args : AddArgs) :
    QueueOk (cwSchedAddVariable con now.tv malloc args).1 := by
  rcases cwSchedAddVariable_cases con now malloc args with he | ⟨n, s, _, hn, _, he⟩
  · rw [he]; exact h
  · rw [he]; exact queueOk_schedule (h.congr rfl rfl rfl) hn

theorem queueOk_del (id : ℤ) : QueueOk (cwSchedDel con id).1 := by
  unfold cwSchedDel
  cases hu : unlink id con.schedq with
  | none => exact h
  | some p =>
    obtain ⟨s, q⟩ := p
    obtain ⟨_, l, r, hq, rfl, _⟩ := unlink_eq_some hu
    refine queueOk_release (queueOk_of_sublist h ?_ ?_) s
    · rw [hq]; exact (sublist_cons_self s r).append_left l
    · rw [h.count, hq]; simp; omega

end

/-- A run of `cw_sched_add_variable`, with the time and with whether there is memory at each call.
-/
def addAll (con : SchedContext) (calls : List (Instant × Bool × AddArgs)) : SchedContext :=
  calls.foldl (fun con c => (cwSchedAddVariable con c.1.tv c.2.1 c.2.2).1) con

/-- The event counter of a new context after `n` events. -/
def eventcntAfter : ℕ → ℤ
  | 0 => 1
  | n + 1 => (nextId (eventcntAfter n)).2

/-- Events less than 2^31 additions apart have different identifiers, which are not negative, and
each is cancelled by its own. -/
structure Fresh (con : SchedContext) : Prop where
  nonneg : ∀ s ∈ con.schedq, 0 ≤ s.id
  distinct : ∀ s ∈ con.schedq, ∀ t ∈ con.schedq, s.uid < t.uid →
    t.uid < s.uid + 2 ^ 31 → s.id ≠ t.id
  cancels : ∀ s ∈ con.schedq, ∀ t q, unlink s.id con.schedq = some (t, q) → t.uid = s.uid

structure Numbered (con : SchedContext) : Prop where
  eventcnt : con.eventcnt = eventcntAfter con.added
  events : ∀ n id, (∃ s ∈ con.schedq, s.uid = n ∧ s.id = id) ↔
    n < con.added ∧ id = (nextId (eventcntAfter n)).1

theorem Numbered.add (h : Numbered con) (now : Instant) (malloc : Bool) (args : AddArgs) :
    Numbered (cwSchedAddVariable con now.tv malloc args).1 := by
  rcases cwSchedAddVariable_cases con now malloc args with he | ⟨m, s, huid, -, hid, he⟩
  · rw [he]
    exact h
  rw [he]
  rw [h.eventcnt] at hid
  refine ⟨by simp only [schedule, h.eventcnt, eventcntAfter], fun n id => ?_⟩
  simp only [schedule, mem_insertStable, or_and_right, exists_or, exists_eq_left,
    h.events n id, huid, hid]
  constructor
  · rintro (⟨rfl, rfl⟩ | ⟨hlt, rfl⟩)
    · exact ⟨Nat.lt_succ_self _, rfl⟩
    · exact ⟨Nat.lt_succ_of_lt hlt, rfl⟩
  · rintro ⟨hlt, rfl⟩
    rcases Nat.lt_succ_iff_lt_or_eq.mp hlt with hlt | rfl
    · exact .inr ⟨hlt, rfl⟩
    · exact .inl ⟨rfl, rfl⟩

theorem numbered_addAll (calls : List (Instant × Bool × AddArgs)) :
    Numbered (addAll contextCreate calls) := by
  have hrun : ∀ con, Numbered con → Numbered (addAll con calls) := by
    induction calls with
    | nil => exact fun con h => h
    | cons c calls ih => exact fun con h => ih _ (h.add c.1 c.2.1 c.2.2)
  exact hrun _ ⟨rfl, by simp [contextCreate]⟩

theorem eventcntAfter_eq (hn : n < 2147483647) : eventcntAfter n = n + 1 := by
  induction n with
  | zero => rfl
  | succ n ih =>
    rw [eventcntAfter, ih (by omega), nextId, if_neg (by omega), bmod_def]
    omega

/-- The counter is reset with the identifier, so that the next event gets the same one. -/
theorem nextId_wrapped (hn : n = 2147483647) :
    (nextId (eventcntAfter n)).1 = 0 ∧ (nextId (eventcntAfter (n + 1))).1 = 0 := by
  obtain ⟨k, rfl⟩ : ∃ k, n = k + 1 := ⟨2147483646, hn⟩
  have hcnt : eventcntAfter (k + 1) = -2147483648 := by
    rw [eventcntAfter, eventcntAfter_eq (by omega), nextId, if_neg (by omega), bmod_def]
    omega
  have hnext : eventcntAfter (k + 1 + 1) = 0 := by
    rw [eventcntAfter, hcnt]
    rfl
  rw [hcnt, hnext]
  exact ⟨rfl, rfl⟩

/-- The two events added around the reset of the counter both have the identifier zero. -/
theorem Numbered.exists_repeated (h : Numbered con) (hlt : 2147483648 < con.added) :
    ∃ s ∈ con.schedq, ∃ t ∈ con.schedq, s.uid + 1 = t.uid ∧ s.id = 0 ∧ t.id = 0 := by
  obtain ⟨h₁, h₂⟩ := nextId_wrapped (Eq.refl 2147483647)
  obtain ⟨s, hs, hsn, hs0⟩ := (h.events 2147483647 0).mpr ⟨by omega, h₁.symm⟩
  obtain ⟨t, ht, htn, ht0⟩ := (h.events 2147483648 0).mpr ⟨hlt, h₂.symm⟩
  exact ⟨s, hs, t, ht, by omega, hs0, ht0⟩

/-- Identifiers are fresh for exactly as long as no more than 2^31 events have been added. -/
theorem ids_fresh_iff (calls : List (Instant × Bool × AddArgs)) :
    Fresh (addAll contextCreate calls) ↔ (addAll contextCreate calls).added ≤ 2 ^ 31 := by
  have h := numbered_addAll calls
  generalize addAll contextCreate calls = con at h
  constructor
  · intro hf
    by_contra hlt
    obtain ⟨s, hs, t, ht, hst, hs0, ht0⟩ := h.exists_repeated (by omega)
    exact hf.distinct s hs t ht (by omega) (by omega) (hs0.trans ht0.symm)
  · intro hle
    have hid : ∀ s ∈ con.schedq, s.uid < 2 ^ 31 ∧
        s.id = if s.uid < 2147483647 then (s.uid : ℤ) + 1 else 0 := by
      intro s hs
      obtain ⟨hlt, hid⟩ := (h.events s.uid s.id).mp ⟨s, hs, rfl, rfl⟩
      refine ⟨by omega, ?_⟩
      split_ifs with hn
      · rw [hid, eventcntAfter_eq hn, nextId, if_neg (by omega)]
      · rw [hid, (nextId_wrapped (by omega)).1]
    have hinj : ∀ s ∈ con.schedq, ∀ t ∈ con.schedq, s.id = t.id → s.uid = t.uid := by
      intro s hs t ht he
      obtain ⟨hsn, hs⟩ := hid s hs
      obtain ⟨htn, ht⟩ := hid t ht
      rw [hs, ht] at he
      split_ifs at he <;> omega
    refine ⟨fun s hs => ?_, fun s hs t ht hlt _ he => ?_, fun s hs t q hu => ?_⟩
    · rw [(hid s hs).2]
      split_ifs <;> omega
    · exact absurd (hinj s hs t ht he) (Nat.ne_of_lt hlt)
    · obtain ⟨he, l, r, hq, -⟩ := unlink_eq_some hu
      exact hinj t (by simp [hq]) s hs he

def manyAdditions : List (Instant × Bool × AddArgs) :=
  .replicate 2147483649 (.ofSec 0, true, ⟨20, 0, 0, false⟩)

theorem added_manyAdditions : (addAll contextCreate manyAdditions).added = 2147483649 := by
  have hrun : ∀ n con, (addAll con (.replicate n (.ofSec 0, true, ⟨20, 0, 0, false⟩))).added =
      con.added + n := by
    intro n
    induction n with
    | zero => exact fun con => rfl
    | succ n ih =>
      intro con
      have hadd : ∀ now args, (cwSchedAddVariable con now true args).1.added = con.added + 1 := by
        intro now args
        simp only [cwSchedAddVariable, schedAlloc, if_true]
        split_ifs <;> rfl
      rw [replicate_succ, addAll, foldl_cons, ← addAll, ih, hadd]
      omega
  exact (hrun _ _).trans (Nat.zero_add _)

theorem reset_repeats_id : ∃ s ∈ (addAll contextCreate manyAdditions).schedq,
    ∃ t ∈ (addAll contextCreate manyAdditions).schedq, s.uid + 1 = t.uid ∧ s.id = 0 ∧ t.id = 0 :=
  (numbered_addAll manyAdditions).exists_repeated (by rw [added_manyAdditions]; omega)

end CallWeaver.Scheduler
