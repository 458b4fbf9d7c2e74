import CallWeaver.Base.Runs

/-! # The call counter

The number of calls is limited by `option_maxcalls`. Calls are counted when they are admitted,
before the thread that runs the dialplan for them is there.
-/

namespace CallWeaver.Pbx

inductive PbxResult where
  | success
  | failed
  | callLimit
  deriving DecidableEq, Repr

/-- The counter, and where the admitted calls are: between their admission and the creation of their
thread in `cw_pbx_start`, in their thread, or in `cw_pbx_run`. -/
structure Calls where
  countcalls : ℤ
  starting : ℕ
  threads : ℕ
  runs : ℕ
  deriving DecidableEq, Repr

def Calls.none : Calls := ⟨0, 0, 0, 0⟩

def Calls.active (s : Calls) : ℕ := s.starting + s.threads + s.runs

/-- The new value of the counter, or nothing if a limit is reached. Whether the load average reaches
its limit is known at the call only. -/
def increaseCallCount (maxcalls : ℕ) (overload : Bool) (countcalls : ℤ) : Option ℤ :=
  let failed := decide (maxcalls ≠ 0 ∧ countcalls ≥ maxcalls) || overload
  if failed then .none else some (countcalls + 1)

def decreaseCallCount (countcalls : ℤ) : ℤ := if countcalls > 0 then countcalls - 1 else countcalls

/-- `cw_pbx_start` up to the creation of the thread. It goes on from there if it has no result yet.
-/
def cwPbxStart (maxcalls : ℕ) (channel overload : Bool) (s : Calls) : Option PbxResult × Calls :=
  if !channel then (some .failed, s)
  else match increaseCallCount maxcalls overload s.countcalls with
    | .none => (some .callLimit, s)
    | some countcalls => (.none, { s with countcalls, starting := s.starting + 1 })

/-- The rest of `cw_pbx_start`: `cw_pthread_create` succeeds or fails. -/
def cwPbxStartThread (created : Bool) (s : Calls) : PbxResult × Calls :=
  if created then (.success, { s with starting := s.starting - 1, threads := s.threads + 1 })
  else (.failed, { s with starting := s.starting - 1 })

/-- The end of `pbx_thread`. -/
def pbxThreadEnd (s : Calls) : Calls :=
  { s with threads := s.threads - 1, countcalls := decreaseCallCount s.countcalls }

def cwPbxRun (maxcalls : ℕ) (overload : Bool) (s : Calls) : Option PbxResult × Calls :=
  match increaseCallCount maxcalls overload s.countcalls with
  | .none => (some .callLimit, s)
  | some countcalls => (.none, { s with countcalls, runs := s.runs + 1 })

/-- The end of `cw_pbx_run`. -/
def cwPbxRunEnd (s : Calls) : Calls :=
  { s with runs := s.runs - 1, countcalls := decreaseCallCount s.countcalls }

inductive Event where
  | start (channel overload : Bool)
  | startThread (created : Bool)
  | threadEnd
  | run (overload : Bool)
  | runEnd
  deriving DecidableEq, Repr

/-- A thread can only be created for a call that is being started, and only what runs can end. -/
def callStep (maxcalls : ℕ) (s : Calls) : Event → Option Calls
  | .start channel overload => some (cwPbxStart maxcalls channel overload s).2
  | .startThread created => if 0 < s.starting then some (cwPbxStartThread created s).2 else .none
  | .threadEnd => if 0 < s.threads then some (pbxThreadEnd s) else .none
  | .run overload => some (cwPbxRun maxcalls overload s).2
  | .runEnd => if 0 < s.runs then some (cwPbxRunEnd s) else .none

section Counting

variable {maxcalls : ℕ} {s t : Calls} {e : Event} {overload : Bool} {n n' : ℤ}

/-- The counter is the number of calls that were admitted and have not ended. -/
def Accurate (s : Calls) : Prop := s.countcalls = s.active
  deriving Decidable

def WithinLimit (maxcalls : ℕ) (s : Calls) : Prop := maxcalls ≠ 0 → s.countcalls ≤ maxcalls

theorem increaseCallCount_eq_some (h : increaseCallCount maxcalls overload n = some n') :
    n' = n + 1 ∧ (maxcalls ≠ 0 → n' ≤ maxcalls) := by
  unfold increaseCallCount at h
  simp only at h
  split_ifs at h with hfailed
  cases h
  refine ⟨rfl, fun hne => ?_⟩
  simp only [Bool.or_eq_true, decide_eq_true_eq, not_or, not_and] at hfailed
  omega

theorem increaseCallCount_eq_none (h : increaseCallCount maxcalls overload n = .none) :
    overload = true ∨ (maxcalls ≠ 0 ∧ n ≥ maxcalls) := by
  unfold increaseCallCount at h
  simp only at h
  split_ifs at h with hfailed
  simp only [Bool.or_eq_true, decide_eq_true_eq] at hfailed
  exact hfailed.symm

/-- An event admits a call, ends one, loses one whose thread cannot be created, or does nothing. -/
theorem callStep_cases (h : callStep maxcalls s e = some t) :
    (e ≠ .startThread false ∧
      ((t.countcalls = s.countcalls ∧ t.active = s.active) ∨
        (t.countcalls = s.countcalls + 1 ∧ t.active = s.active + 1 ∧ WithinLimit maxcalls t) ∨
        (t.countcalls = decreaseCallCount s.countcalls ∧ s.active = t.active + 1))) ∨
      (e = .startThread false ∧ t.countcalls = s.countcalls ∧ s.active = t.active + 1) := by
  cases e with
  | start channel overload =>
    refine .inl ⟨nofun, ?_⟩
    cases h
    unfold cwPbxStart
    split_ifs
    · exact .inl ⟨rfl, rfl⟩
    · split
      · exact .inl ⟨rfl, rfl⟩
      · rename_i hn
        obtain ⟨hn, hle⟩ := increaseCallCount_eq_some hn
        refine .inr (.inl ⟨hn, ?_, hle⟩)
        simp only [Calls.active]
        omega
  | startThread created =>
    simp only [callStep] at h
    split_ifs at h with hpos
    cases h
    cases created with
    | true =>
      refine .inl ⟨nofun, .inl ⟨rfl, ?_⟩⟩
      simp only [cwPbxStartThread, Calls.active, if_true]
      omega
    | false =>
      refine .inr ⟨rfl, rfl, ?_⟩
      simp only [cwPbxStartThread, Calls.active, Bool.false_eq_true, if_false]
      omega
  | threadEnd =>
    simp only [callStep] at h
    split_ifs at h with hpos
    cases h
    refine .inl ⟨nofun, .inr (.inr ⟨rfl, ?_⟩)⟩
    simp only [pbxThreadEnd, Calls.active]
    omega
  | run overload =>
    refine .inl ⟨nofun, ?_⟩
    cases h
    unfold cwPbxRun
    split
    · exact .inl ⟨rfl, rfl⟩
    · rename_i hn
      obtain ⟨hn, hle⟩ := increaseCallCount_eq_some hn
      exact .inr (.inl ⟨hn, rfl, hle⟩)
  | runEnd =>
    simp only [callStep] at h
    split_ifs at h with hpos
    cases h
    refine .inl ⟨nofun, .inr (.inr ⟨rfl, ?_⟩)⟩
    simp only [cwPbxRunEnd, Calls.active]
    omega

theorem callStep_accurate (hs : Accurate s) (h : callStep maxcalls s e = some t) :
    Accurate t ↔ e ≠ .startThread false := by
  unfold Accurate at *
  rcases callStep_cases h with ⟨he, h | h | h⟩ | ⟨he, h⟩
  · exact iff_of_true (by omega) he
  · exact iff_of_true (by omega) he
  · rw [decreaseCallCount] at h
    exact iff_of_true (by split_ifs at h <;> omega) he
  · exact iff_of_false (by omega) (not_not.mpr he)

theorem callStep_withinLimit (hs : WithinLimit maxcalls s) (h : callStep maxcalls s e = some t) :
    WithinLimit maxcalls t := by
  unfold WithinLimit at *
  rcases callStep_cases h with ⟨-, h | h | h⟩ | ⟨-, h⟩
  · rw [h.1]
    exact hs
  · exact h.2.2
  · intro hne
    rw [h.1, decreaseCallCount]
    split_ifs <;> omega
  · rw [h.1]
    exact hs

/-- A call is refused without overload only while as many are active as the limit allows. -/
theorem active_of_refused (hs : Accurate s) (hlimit : WithinLimit maxcalls s)
    (h : increaseCallCount maxcalls false s.countcalls = .none) :
    maxcalls ≠ 0 ∧ s.active = maxcalls := by
  rcases increaseCallCount_eq_none h with h | ⟨hne, hge⟩
  · cases h
  · have hle := hlimit hne
    unfold Accurate at hs
    exact ⟨hne, by omega⟩

/-- The counter is accurate after every event if and only if no thread fails to be created. Then,
and without overload, a call is refused only while there are as many as the limit allows. -/
theorem call_count_iff (maxcalls : ℕ) (events : List Event) (t : Calls) :
    (Runs (callStep maxcalls) (fun _ _ t => Accurate t) .none events t ↔
      Runs (callStep maxcalls) (fun _ e _ => e ≠ .startThread false) .none events t) ∧
    (Runs (callStep maxcalls) (fun _ e _ => e ≠ .startThread false) .none events t →
      ((cwPbxStart maxcalls true false t).1 = some .callLimit ∨
        (cwPbxRun maxcalls false t).1 = some .callLimit) → maxcalls ≠ 0 ∧ t.active = maxcalls) := by
  constructor
  · refine Runs.iff_of_invariant (I := Accurate) (fun s e t hs h => ?_) rfl
    exact ⟨callStep_accurate hs h, id⟩
  · intro hr hrefused
    obtain ⟨hacc, hlimit⟩ : Accurate t ∧ WithinLimit maxcalls t := by
      refine hr.invariant (I := fun s => Accurate s ∧ WithinLimit maxcalls s) ?_
        ⟨rfl, fun _ => Int.natCast_nonneg maxcalls⟩
      intro s e t hs h he
      exact ⟨(callStep_accurate hs.1 h).mpr he, callStep_withinLimit hs.2 h⟩
    refine active_of_refused hacc hlimit ?_
    cases hinc : increaseCallCount maxcalls false t.countcalls with
    | none => rfl
    | some n => simp [cwPbxStart, cwPbxRun, hinc] at hrefused

/-- The thread of the only call cannot be created, and no call is admitted any more. -/
theorem failed_start_counts :
    (exec (callStep 1) anyStep .none [.start true false, .startThread false]).map
        (fun s => (s.countcalls, s.active, (cwPbxStart 1 true false s).1)) =
      some (1, 0, some .callLimit) := by
  decide

end Counting

end CallWeaver.Pbx
