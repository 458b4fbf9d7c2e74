import Mathlib.Data.List.Infix
import CallWeaver.Cdr.Invariant

/-! # No record is lost

Whatever the threads do, each record that was linked to the batch is in the current list, in a list
that some thread is about to post, or posted, in one of these places only. The lists keep the order
in which the records were linked.
-/

namespace CallWeaver.Cdr

open Function Option List

variable {c : Config} {s : State} {t u cdr : ℕ} {pc pc' : Pc} {own : Option ℕ → List ℕ}
  {l vals L : List ℕ} {h h' : History}

section Runs

variable {s' : State} {a : Act} {acts bs : List Act}

def Act.hasMemory : Act → Bool
  | .detach _ _ none => false
  | _ => true

def hasMemory (_ : State) (a : Act) (_ : State) : Prop := a.hasMemory = true
  deriving Decidable

/-- The steps of the threads in batch mode. -/
inductive Stepped (s : State) : Act → State → Prop
  | skip {t cdr : ℕ} : Stepped s (.detach t cdr none) s
  | detach {t cdr n : ℕ} (hpc : s.pc t = .idle) (hn : s.allocated n = false) :
    Stepped s (.detach t cdr (some n)) { s.goto t (.detachLock cdr n) with
      item := update s.item n ⟨none, none⟩
      allocated := update s.allocated n true }
  | detachLock {t cdr n : ℕ} (hpc : s.pc t = .detachLock cdr n) (hl : s.lock = none) :
    Stepped s (.run t) { s.goto t (.detachInit cdr n) with lock := some t }
  | detachInit {t cdr n : ℕ} (hpc : s.pc t = .detachInit cdr n) (hb : s.batch ≠ none) :
    Stepped s (.run t) (s.goto t (.detachLink cdr n))
  | malloc {t cdr n : ℕ} {garbage : Batch} (hpc : s.pc t = .detachInit cdr n)
      (hb : s.batch = none) :
    Stepped s (.malloc t garbage) { s.goto t (.detachReset cdr n) with batch := some garbage }
  | detachReset {t cdr n : ℕ} (hpc : s.pc t = .detachReset cdr n) :
    Stepped s (.run t) { s.goto t (.detachLink cdr n) with batch := some resetBatch }
  | link {t cdr n : ℕ} {s' : State} (hpc : s.pc t = .detachLink cdr n)
      (hs : linkItem s t cdr n = some s') :
    Stepped s (.link t cdr) s'
  | detachUnlock {t : ℕ} {curr : ℤ} (hpc : s.pc t = .detachUnlock curr) :
    Stepped s (.run t) (s.release t (.detachCheck curr))
  | detachCheck {t : ℕ} {curr : ℤ} (hpc : s.pc t = .detachCheck curr) (scheduled : Bool) :
    Stepped s (.run t) { s.goto t .idle with scheduled := scheduled }
  | submit {t : ℕ} {sh : Bool} (hpc : s.pc t = .idle) :
      Stepped s (.submit t sh) (s.goto t (.submitBatch sh))
  | noBatch {t : ℕ} {sh : Bool} (hpc : s.pc t = .submitBatch sh) (hb : s.batch = none) :
    Stepped s (.run t) (s.goto t .idle)
  | submitBatch {t : ℕ} {sh : Bool} (hpc : s.pc t = .submitBatch sh) (hb : s.batch ≠ none) :
    Stepped s (.run t) (s.goto t (.submitHead sh))
  | noRecords {t : ℕ} {sh : Bool} {b : Batch} (hpc : s.pc t = .submitHead sh)
      (hb : s.batch = some b)
    (hh : b.head = none) : Stepped s (.run t) (s.goto t .idle)
  | submitHead {t : ℕ} {sh : Bool} (hpc : s.pc t = .submitHead sh) (hb : s.batch ≠ none) :
    Stepped s (.run t) (s.goto t (.submitLock sh))
  | submitLock {t : ℕ} {sh : Bool} (hpc : s.pc t = .submitLock sh) (hl : s.lock = none) :
    Stepped s (.run t) { s.goto t (.submitReset sh) with lock := some t }
  | reset {t : ℕ} {sh : Bool} {b : Batch} (hpc : s.pc t = .submitReset sh) (hb : s.batch = some b) :
    Stepped s (.reset t) { s.goto t (.submitUnlock sh b.head) with batch := some resetBatch }
  | submitUnlock {t : ℕ} {sh : Bool} {old : Option ℕ} (hpc : s.pc t = .submitUnlock sh old) :
    Stepped s (.run t) (s.release t (.submitThread sh old))
  | submitSelf {t : ℕ} {sh : Bool} {old : Option ℕ} (hpc : s.pc t = .submitThread sh old) :
    Stepped s (.thread t none) (s.goto t (.posting old))
  | submitThread {t u : ℕ} {sh : Bool} {old : Option ℕ} (hpc : s.pc t = .submitThread sh old)
      (hu : s.pc u = .idle) :
    Stepped s (.thread t (some u)) ((s.goto u (.posting old)).goto t .idle)
  | post {t n cdr : ℕ} (hpc : s.pc t = .posting (some n)) (hcdr : (s.item n).cdr = some cdr) :
    Stepped s (.post t cdr)
    { s.goto t (.posting (s.item n).next) with allocated := update s.allocated n false }
  | finish {t : ℕ} (hpc : s.pc t = .posting none) : Stepped s (.run t) (s.goto t .idle)

theorem stepped_of_run (hs : run c s t = some s') : Stepped s (.run t) s' := by
  cases hpc : s.pc t <;> simp only [run, hpc, State.acquire, ite_none_left_eq_some,
    ite_none_right_eq_some, some.injEq, reduceCtorEq] at hs
  case detachLock => exact hs.2 ▸ .detachLock hpc hs.1
  case detachInit => exact hs.2 ▸ .detachInit hpc hs.1
  case detachReset => exact hs ▸ .detachReset hpc
  case detachUnlock => exact hs ▸ .detachUnlock hpc
  case detachCheck => exact hs ▸ .detachCheck hpc _
  case submitBatch =>
    subst hs
    split
    · exact .noBatch hpc ‹_›
    · exact .submitBatch hpc ‹_›
  case submitHead =>
    obtain ⟨b, hb, hs⟩ := bind_eq_some_iff.mp hs
    obtain rfl := some.inj hs
    split
    · exact .noRecords hpc hb ‹_›
    · exact .submitHead hpc (by simp [hb])
  case submitLock => exact hs.2 ▸ .submitLock hpc hs.1
  case submitUnlock => exact hs ▸ .submitUnlock hpc
  case posting p =>
    cases p with
    | none => exact some.inj hs ▸ .finish hpc
    | some n => cases hs

theorem stepped_of_step (he : c.enabled = true) (hm : c.batchmode = true)
    (hs : step c s a = some s') : Stepped s a s' := by
  cases a with
  | detach t cdr newtail =>
    simp only [step, ite_none_right_eq_some, detach, he, hm, not_true, if_false] at hs
    obtain ⟨hpc, hs⟩ := hs
    cases newtail with
    | none => exact some.inj hs ▸ .skip
    | some n =>
      simp only [ite_none_left_eq_some, some.injEq] at hs
      exact hs.2 ▸ .detach hpc (by simpa using hs.1)
  | malloc t garbage =>
    cases hpc : s.pc t <;> simp only [step, hpc, reduceCtorEq] at hs
    simp only [ite_none_right_eq_some, some.injEq] at hs
    exact hs.2 ▸ .malloc hpc hs.1
  | link t cdr =>
    cases hpc : s.pc t <;> simp only [step, hpc, reduceCtorEq] at hs
    simp only [ite_none_right_eq_some] at hs
    obtain ⟨rfl, hs⟩ := hs
    exact .link hpc hs
  | submit t sh =>
    simp only [step, ite_none_right_eq_some, some.injEq] at hs
    exact hs.2 ▸ .submit hs.1
  | reset t =>
    cases hpc : s.pc t <;> simp only [step, hpc, reduceCtorEq] at hs
    obtain ⟨b, hb, hs⟩ := bind_eq_some_iff.mp hs
    exact some.inj hs ▸ .reset hpc hb
  | thread t u =>
    cases hpc : s.pc t <;> simp only [step, hpc, reduceCtorEq] at hs
    cases u with
    | none => exact some.inj hs ▸ .submitSelf hpc
    | some u =>
      simp only [ite_none_left_eq_some, ite_none_right_eq_some, some.injEq] at hs
      exact hs.2.2 ▸ .submitThread hpc hs.2.1
  | post t cdr =>
    cases hpc : s.pc t <;> simp only [step, hpc, reduceCtorEq] at hs
    rename_i p
    cases p with
    | none => cases hs
    | some n =>
      simp only [ite_none_right_eq_some, some.injEq] at hs
      exact hs.2 ▸ .post hpc hs.1
  | run t => exact stepped_of_run hs

theorem Inv.step (hi : Inv s h own vals) (hs : Stepped s a s') (hg : a.hasMemory = true) :
    ∃ own' vals', Inv s' (h.record a) own' vals' := by
  -- the places of a thread before and after a step that goes on only
  have hgo : ∀ {t pc pc'} lock scheduled, s.pc t = pc →
      (∀ u, lock = some u ↔ (update s.pc t pc' u).critical = true) →
      (pc'.seen = true → s.batch ≠ none) →
      pc'.resetting = pc.resetting →
      (Chain s h t pc (own (some t)) → Chain s h t pc' (own (some t))) →
      pc'.taking = pc.taking →
      ∃ own' vals', Inv { s.goto t pc' with lock := lock, scheduled := scheduled } h own' vals' :=
    fun lock scheduled hpc hlock hseen hr hc ht =>
      ⟨own, vals, hi.goto hpc lock scheduled hlock hseen hr (hc (hpc ▸ hi.chain _)) ht⟩
  cases hs with
  | skip => cases hg
  | detach hpc hn => exact ⟨_, _, hi.detach hpc hn⟩
  | detachLock hpc hl => exact hgo _ _ hpc (hi.lock_acquire hl rfl) (by simp [Pc.seen]) rfl id rfl
  | detachInit hpc hb | submitBatch hpc hb | submitHead hpc hb =>
    exact hgo _ _ hpc (hi.lock_same hpc rfl) (fun _ => hb) rfl id rfl
  | malloc hpc hb =>
    exact ⟨_, _, hi.setBatch hpc (.detachReset _ _) rfl rfl id (hi.unallocated hb) (.inl rfl)⟩
  | detachReset hpc =>
    have hempty := hi.resetting _ (congrArg Pc.resetting hpc)
    exact ⟨_, _, hi.setBatch hpc (.detachLink _ _) rfl rfl id hempty (.inr rfl)⟩
  | link hpc hs =>
    obtain ⟨s₁, hs₁, hi₁⟩ := hi.link hpc
    obtain rfl := some.inj (hs.symm.trans hs₁)
    exact ⟨_, _, hi₁⟩
  | detachUnlock hpc | submitUnlock hpc =>
    exact hgo _ _ hpc (hi.lock_release hpc rfl rfl) (by simp [Pc.seen]) rfl id rfl
  | detachCheck hpc | submit hpc | noBatch hpc | noRecords hpc | submitSelf hpc =>
    exact hgo _ _ hpc (hi.lock_same hpc rfl) (by simp [Pc.seen]) rfl id rfl
  | submitLock hpc hl =>
    exact hgo _ _ hpc (hi.lock_acquire hl rfl) (fun _ =>
      hi.seen _ (congrArg Pc.seen hpc)) rfl id rfl
  | reset hpc hb =>
    obtain ⟨b, hb', hi₁, -⟩ := hi.reset hpc
    obtain rfl := some.inj (hb.symm.trans hb')
    exact ⟨_, _, hi₁⟩
  | submitThread hpc hu => exact ⟨_, _, hi.thread hpc hu⟩
  | post hpc hcdr =>
    obtain ⟨cdr, l, hcdr', -, hi₁⟩ := hi.post hpc
    obtain rfl := some.inj (hcdr.symm.trans hcdr')
    exact ⟨_, _, hi₁⟩
  | finish hpc => exact ⟨_, _, hi.finish hpc⟩

def Act.actor : Act → ℕ
  | .detach t .. | .malloc t _ | .link t _ | .submit t _ | .reset t | .thread t _ | .post t _
      | .run t => t

/-- A thread that is not idle keeps its place when another thread takes a step. -/
theorem Stepped.pc_cases {P : Pc → Prop} {Q : Prop} (hs : Stepped s a s') (hidle : ¬ P .idle)
    (ht : P (s.pc t)) (hself : a.actor = t → P (s'.pc t) ∨ Q) : P (s'.pc t) ∨ Q := by
  by_cases hactor : a.actor = t
  · exact hself hactor
  have hgo : ∀ pc, P (update s.pc a.actor pc t) ∨ Q :=
    fun pc => .inl (by rwa [update_of_ne (Ne.symm hactor)])
  cases hs with
  | skip => exact .inl ht
  | link hpc hs =>
    obtain ⟨b, -, hs⟩ := bind_eq_some_iff.mp hs
    split at hs
    · exact some.inj hs ▸ hgo _
    · obtain ⟨z, -, hs⟩ := bind_eq_some_iff.mp hs
      exact some.inj hs ▸ hgo _
  | @submitThread _ u _ _ hpc hu =>
    have htu : t ≠ u := by
      rintro rfl
      exact hidle (hu ▸ ht)
    exact .inl
      ((congrArg P ((update_of_ne (Ne.symm hactor) _ _).trans (update_of_ne htu _ _))).mpr ht)
  | _ => exact hgo _

/-- A thread has been called to submit and has not looked at the whole batch yet. -/
def Pc.submitting : Pc → Bool
  | .submitBatch _ | .submitHead _ | .submitLock _ | .submitReset _ => true
  | _ => false

/-- The record that a thread has been called to detach and has not linked yet. -/
def Pc.detaching : Pc → Option ℕ
  | .detachLock cdr _ | .detachInit cdr _ | .detachReset cdr _ | .detachLink cdr _ => some cdr
  | _ => none

theorem record_grows (h : History) (a : Act) :
    h.log <+: (h.record a).log ∧ h.taken <+: (h.record a).taken := by
  cases a with
  | link t cdr => exact ⟨prefix_append _ _, prefix_rfl⟩
  | reset t => exact ⟨prefix_rfl, prefix_append _ _⟩
  | thread t u => cases u <;> exact ⟨prefix_rfl, prefix_rfl⟩
  | _ => exact ⟨prefix_rfl, prefix_rfl⟩

theorem Inv.log_eq (hi : Inv s h own vals) (hempty : own none = []) : h.log = h.taken.flatten := by
  have hvals : vals = [] := by
    have hc := hi.contents
    rw [hempty] at hc
    simpa [State.cdrs] using hc
  rw [hi.log, hvals, append_nil]

/-- A submission that is through with the batch has found nothing linked before, or taken it. -/
theorem Inv.submitting_step (hi : Inv s h own vals) (hs : Stepped s a s')
    (ht : (s.pc t).submitting = true) :
    (s'.pc t).submitting = true ∨ h.log <+: (h.record a).taken.flatten := by
  refine hs.pc_cases (P := fun pc => pc.submitting = true) (by simp [Pc.submitting]) ht ?_
  rintro rfl
  cases hs with
  | skip => exact .inl ht
  | noBatch hpc hb =>
    right
    rw [hi.log_eq (hi.unallocated hb)]
    exact prefix_rfl
  | noRecords hpc hb hhead =>
    right
    have hempty : own none = [] := by
      by_cases hr : ∀ u, (s.pc u).resetting = false
      · have hseg := (hi.filled hr _ hb).list
        rw [hhead] at hseg
        simpa using hseg.start_eq.symm
      · obtain ⟨u, hu⟩ := not_forall.mp hr
        exact hi.resetting u (by simpa using hu)
    rw [hi.log_eq hempty]
    exact prefix_rfl
  | reset hpc hb =>
    obtain ⟨b, -, -, htaken⟩ := hi.reset hpc
    right
    rw [htaken, flatten_append, hi.log]
    simp
  | submitBatch | submitHead | submitLock => simp [Act.actor, State.goto, Pc.submitting]
  | _ => simp_all [Act.actor, Pc.submitting]

theorem detaching_step (hs : Stepped s a s') (ht : (s.pc t).detaching = some cdr) :
    (s'.pc t).detaching = some cdr ∨ a = .link t cdr := by
  refine hs.pc_cases (P := fun pc => pc.detaching = some cdr) (by simp [Pc.detaching]) ht ?_
  rintro rfl
  cases hs with
  | skip => exact .inl ht
  | detachLock hpc | detachInit hpc | malloc hpc | detachReset hpc =>
    left
    simpa [Act.actor, hpc, State.goto, Pc.detaching] using ht
  | link hpc =>
    right
    simpa [Act.actor, hpc, Pc.detaching] using ht
  | _ => simp_all [Act.actor, Pc.detaching]

section

variable {s₀ : State} (he : c.enabled = true) (hm : c.batchmode = true)
  (hr : Runs (step c) hasMemory s₀ bs s)

include he hm hr

theorem inv_runs (hi : ∃ own vals, Inv s₀ h own vals) :
    ∃ own vals, Inv s (bs.foldl History.record h) own vals := by
  refine Runs.simulates (R := fun s h => ∃ own vals, Inv s h own vals) ?_ hr hi
  rintro s h a s' ⟨own, vals, hi⟩ hs hg
  exact hi.step (stepped_of_step he hm hs) hg

theorem log_prefix_of_submitted (hi : ∃ own vals, Inv s₀ h own vals) (hL : L <+: h.log)
    (ht : (s₀.pc t).submitting = true) :
    (s.pc t).submitting = true ∨ L <+: (bs.foldl History.record h).taken.flatten := by
  refine (Runs.simulates (R := fun s h => (∃ own vals, Inv s h own vals) ∧ L <+: h.log ∧
    ((s.pc t).submitting = true ∨ L <+: h.taken.flatten)) ?_ hr ⟨hi, hL, .inl ht⟩).2.2
  rintro s h a s' ⟨⟨own, vals, hi⟩, hL, ht⟩ hs hg
  have hs := stepped_of_step he hm hs
  refine ⟨hi.step hs hg, hL.trans (record_grows h a).1, ?_⟩
  rcases ht with ht | ht
  · exact (hi.submitting_step hs ht).imp id hL.trans
  · exact .inr (ht.trans (record_grows h a).2.flatten)

theorem mem_log_of_detached (ht : (s₀.pc t).detaching = some cdr) :
    (s.pc t).detaching = some cdr ∨
      ∃ pre post, (bs.foldl History.record h).log = h.log ++ pre ++ cdr :: post := by
  refine (Runs.simulates (R := fun s (h' : History) =>
    h.log <+: h'.log ∧ ((s.pc t).detaching = some cdr ∨
    ∃ pre post, h'.log = h.log ++ pre ++ cdr :: post)) ?_ hr ⟨prefix_rfl, .inl ht⟩).2
  rintro s h' a s' ⟨hpre, ht⟩ hs -
  refine ⟨hpre.trans (record_grows h' a).1, ?_⟩
  rcases ht with ht | ⟨pre, post, hlog⟩
  · refine (detaching_step (stepped_of_step he hm hs) ht).imp id ?_
    rintro rfl
    obtain ⟨pre, hpre⟩ := hpre
    exact ⟨pre, [], by rw [History.record, hpre]⟩
  · obtain ⟨more, hmore⟩ := (record_grows h' a).1
    exact .inr ⟨pre, post ++ more, by rw [← hmore, hlog]; simp⟩

end

def Current (s : State) (items : List ℕ) : Prop :=
  s.batch = none ∧ items = [] ∨ ∃ b, s.batch = some b ∧ Filled s b items

def Posts (s : State) (t : ℕ) (items : List ℕ) : Prop :=
  ∃ p, Seg s.next p items none ∧
    (s.pc t = .posting p ∨ ∃ sh, s.pc t = .submitUnlock sh p ∨ s.pc t = .submitThread sh p)

theorem Chain.posts (hc : Chain s h t (s.pc t) l) (ht : (s.pc t).taking = true) :
    Posts s t l ∧ ∃ rest, s.cdrs l = rest.map some ∧
      h.taken[h.batchOf t]? = some (h.posted (h.batchOf t) ++ rest) := by
  cases hpc : s.pc t <;> simp only [hpc, Pc.taking, Bool.false_eq_true] at ht <;> rw [hpc] at hc
  · exact ⟨⟨_, hc.1, .inr ⟨_, .inl hpc⟩⟩, hc.2⟩
  · exact ⟨⟨_, hc.1, .inr ⟨_, .inr hpc⟩⟩, hc.2⟩
  · exact ⟨⟨_, hc.1, .inl hpc⟩, hc.2⟩

/-- In batch mode, whatever the threads do: the records that were linked are those of the batches
that were taken, followed by those of the current list, which ends with its tail and is counted.
Each batch consists of the records posted and those that a thread still has to post, in this order,
and the next one can be posted. A call to detach links its record, and a call to submit leaves
nothing in the list that was linked before it. -/
theorem batch_conservation (he : c.enabled = true) (hm : c.batchmode = true)
    (hr : Runs (step c) hasMemory initial acts s) :
    (s.lock = none → ∃ items vals, Current s items ∧ s.cdrs items = vals.map some ∧
      (history acts).log = (history acts).taken.flatten ++ vals) ∧
    (∀ k batch, (history acts).taken[k]? = some batch →
      ∃ rest, batch = (history acts).posted k ++ rest ∧
      (rest = [] ∨ ∃ t items, Posts s t items ∧ s.cdrs items = rest.map some)) ∧
    (∀ k, (history acts).taken.length ≤ k → (history acts).posted k = []) ∧
    (∀ t a, s.pc t = .posting (some a) → ∃ cdr s', step c s (.post t cdr) = some s') ∧
    (∀ t cdr newtail s₁ bs s₂, step c s (.detach t cdr (some newtail)) = some s₁ →
      Runs (step c) hasMemory s₁ bs s₂ → (s₂.pc t).detaching = none → ∃ pre post,
        (history (acts ++ .detach t cdr (some newtail) :: bs)).log = (history acts).log ++ pre ++
        cdr :: post) ∧
    (∀ t sh s₁ bs s₂, step c s (.submit t sh) = some s₁ → Runs (step c) hasMemory s₁ bs s₂ →
      (s₂.pc t).submitting = false →
      (history acts).log <+: (history (acts ++ .submit t sh :: bs)).taken.flatten) := by
  obtain ⟨own, vals, hi⟩ : ∃ own vals, Inv s (history acts) own vals :=
    inv_runs he hm hr ⟨_, _, inv_initial⟩
  refine ⟨fun hlock => ?_, fun k batch hk => ?_, hi.unposted, fun t a hpc => ?_, ?_, ?_⟩
  · refine ⟨own none, vals, ?_, hi.contents, hi.log⟩
    cases hb : s.batch with
    | none => exact .inl ⟨hb, hi.unallocated hb⟩
    | some b =>
      refine .inr ⟨b, hb, hi.filled (fun u => ?_) b hb⟩
      -- who resets the batch has the lock
      by_contra hu
      have hcrit := (hi.lock u).mpr (Pc.critical_of_resetting (by simpa using hu))
      simp [hlock] at hcrit
  · rcases hi.posted k batch hk with ⟨t, ht, htk⟩ | hposted
    · obtain ⟨hposts, rest, hrest, hbatch⟩ := (hi.chain t).posts ht
      rw [htk, hk] at hbatch
      exact ⟨rest, some.inj hbatch, .inr ⟨t, _, hposts, hrest⟩⟩
    · exact ⟨[], by rw [append_nil]; exact hposted.symm, .inl rfl⟩
  · obtain ⟨cdr, _, hcdr, -, -⟩ := hi.post hpc
    exact ⟨cdr, _, by simp only [step, hpc, hcdr, if_true]; rfl⟩
  · intro t cdr newtail s₁ bs s₂ hs₁ hr₂ ht
    have hpc : (s₁.pc t).detaching = some cdr := by
      simp only [step, ite_none_right_eq_some, detach, he, hm, not_true, if_false,
        ite_none_left_eq_some, some.injEq] at hs₁
      obtain ⟨-, -, rfl⟩ := hs₁
      simp [State.goto, Pc.detaching]
    have hlog := mem_log_of_detached (h := history acts) he hm hr₂ hpc
    rw [ht] at hlog
    simpa [history, History.record] using hlog
  · intro t sh s₁ bs s₂ hs₁ hr₂ ht
    have hpc : (s₁.pc t).submitting = true := by
      simp only [step, ite_none_right_eq_some, some.injEq] at hs₁
      obtain ⟨-, rfl⟩ := hs₁
      simp [State.goto, Pc.submitting]
    have hi₁ : ∃ own vals, Inv s₁ (history acts) own vals := hi.step (stepped_of_step he hm hs₁) rfl
    have hlog := log_prefix_of_submitted he hm hr₂ hi₁ prefix_rfl hpc
    rw [ht] at hlog
    simpa [history, History.record] using hlog

/-- One thread detaches two records, the first into a batch it allocates; another submits them. -/
def oneBatch : List Act :=
  [.detach 0 7 (some 1), .run 0, .malloc 0 ⟨5, some 9, none⟩, .run 0, .link 0 7, .run 0, .run 0,
    .submit 1 false, .detach 0 8 (some 2), .run 0, .run 1, .run 0, .link 0 8, .run 0, .run 1,
    .run 1, .reset 1, .run 1, .thread 1 none,
    .post 1 7, .post 1 8, .run 1, .run 0]

theorem batch_conservation_oneBatch :
    ∃ s, Runs (step ⟨true, true, 100, false⟩) hasMemory initial oneBatch s ∧
    s.lock = none ∧ (history oneBatch).posted 0 = [7, 8] ∧ ∃ items vals, Current s items ∧
      s.cdrs items = vals.map some ∧
      (history oneBatch).log = (history oneBatch).taken.flatten ++ vals :=
  exists_run_of_any (P := fun s => s.lock = none) (by decide +kernel) fun _ hs hlock =>
    ⟨hlock, by decide +kernel, (batch_conservation rfl rfl hs).1 hlock⟩

end Runs

end CallWeaver.Cdr
