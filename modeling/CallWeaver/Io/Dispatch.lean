import CallWeaver.Io.Registry
import Mathlib.Data.List.TakeWhile

/-! # Dispatch of I/O events

A pass calls, in the order of the array, each entry that was there and had an event when it began,
unless an earlier callback of the pass has removed it.
-/

namespace CallWeaver.Io

open Function List Option

variable {ioc : IoContext} {s t : State} {x n id b y m z : ℕ} {a : Act} {acts inner : List Act}
  {revents : List ℤ}

def called (acts : List Act) : List (ℕ × Call) := acts.filterMap fun
  | .call x c => some (x, c)
  | _ => none

def reaches (x : ℕ) : Act → Bool
  | .call y _ => x ≤ y
  | _ => false

def before (x : ℕ) (inner : List Act) : List Act := inner.takeWhile (!reaches x ·)

/-- The call that the entry `e` at `x` gets in a pass, if it has an event and is not removed before.
-/
def due (revents : List ℤ) (inner : List Act) (e : Entry) (x : ℕ) : Option (ℕ × Call) :=
  if revents.getD x 0 ≠ 0 ∧ .remove e.id ∉ before x inner then
    e.callback.map fun callback => (x, ⟨callback, e.id, e.fd, revents.getD x 0, e.data⟩)
  else none

theorem before_append (h : ∃ a ∈ inner, reaches x a = true) (acts : List Act) :
    before x (inner ++ acts) = before x inner := by
  obtain ⟨a, ha, hr⟩ := h
  rw [before, takeWhile_append, if_neg]
  · rfl
  · intro hlen
    have hall := takeWhile_eq_self_iff.mp ((List.takeWhile_prefix _).eq_of_length hlen) a ha
    simp [hr] at hall

theorem before_eq_self (h : ∀ a ∈ inner, reaches x a = false) : before x inner = inner :=
  takeWhile_eq_self_iff.mpr fun a ha => by simp [h a ha]

theorem before_append_call {c : Call} (h : ∀ a ∈ inner, reaches x a = false) (hy : x ≤ y) :
    before x (inner ++ [.call y c]) = inner := by
  have hc : reaches x (.call y c) = true := decide_eq_true hy
  rw [before, takeWhile_append_of_pos fun a ha => by simp [h a ha],
    takeWhile_cons_of_neg (by simp [hc]), append_nil]

variable {now now' : IoContext} {r : Registry} {e : Entry} {c : Call}

def callAt (ioc : IoContext) (x : ℕ) : Option (ℕ × Call) :=
  (ioc.entryAt x).bind fun e =>
    if (ioc.fds x).revents ≠ 0 then
      e.callback.map fun callback => (x, ⟨callback, e.id, e.fd, (ioc.fds x).revents, e.data⟩)
    else none

theorem callAt_eq_none (h : Passed ioc x) : callAt ioc x = none := by
  obtain h | h | h := h
  · simp [callAt, h]
  · simp [callAt, IoContext.entryAt, h]
  · cases hid : (ioc.ior x).id <;> simp [callAt, IoContext.entryAt, h, hid]

/-- What a pass has left of the entry `e` at `x` before its turn. -/
def Pending (revents : List ℤ) (inner : List Act) (e : Entry) (x : ℕ) (now : IoContext) : Prop :=
  if .remove e.id ∈ inner then (now.ior x).id = none
  else now.entryAt x = some e ∧ (now.fds x).revents = revents.getD x 0

theorem Pending.congr (h : Pending revents inner e x now)
    (hr : .remove e.id ∈ acts ↔ .remove e.id ∈ inner) (hf : now'.fds x = now.fds x)
    (hi : now'.ior x = now.ior x) : Pending revents acts e x now' := by
  simpa only [Pending, IoContext.entryAt, hr, hf, hi] using h

/-- A pass over the entries of `ioc` that has looked at those before `b`, and what is left of the
others. -/
structure Pass (ioc : IoContext) (revents : List ℤ) (inner : List Act) (b : ℕ) (now : IoContext) :
    Prop where
  called : called inner = (range b).filterMap fun x => (ioc.entryAt x).bind (due revents inner · x)
  reached : ∀ x < b, ∃ a ∈ inner, reaches x a = true
  beyond : ∀ x, b ≤ x → ∀ a ∈ inner, reaches x a = false
  pending : ∀ x, b ≤ x → x < ioc.fdcnt → ∀ e, ioc.entryAt x = some e → Pending revents inner e x now

theorem Pass.start : Pass ioc revents [] 0 (poll ioc revents) := by
  constructor
  · rfl
  · intro x hx
    exact absurd hx (Nat.not_lt_zero x)
  · intro x _ a ha
    cases ha
  · intro x _ hx e he
    rw [Pending, if_neg not_mem_nil]
    simp only [poll, IoContext.entryAt, if_pos hx] at he ⊢
    exact ⟨he, trivial⟩

theorem Pass.due_eq (h : Pass ioc revents inner b now) (hx : b ≤ x) (hxn : x < ioc.fdcnt)
    (hall : (ioc.ior x).id ≠ none) (hacts : before x acts = inner) :
    (ioc.entryAt x).bind (due revents acts · x) = callAt now x := by
  obtain ⟨id, hid⟩ := ne_none_iff_exists'.mp hall
  have he : ioc.entryAt x = some ⟨id, (ioc.fds x).fd, (ioc.fds x).events, (ioc.ior x).callback,
      (ioc.ior x).data⟩ := by
    simp [IoContext.entryAt, hid]
  have hp := h.pending x hx hxn _ he
  rw [he, bind_some, due, hacts]
  rw [Pending] at hp
  split at hp
  · rename_i hr
    rw [callAt_eq_none (.inr (.inl hp)), if_neg fun hc => hc.2 hr]
  · rename_i hr
    simp only [callAt, hp.1, hp.2, bind_some, hr, not_false_eq_true, and_true]

theorem range_split (h : m ≤ n) : range n = range m ++ range' m (n - m) := by
  have happ := range'_append_1 (s := 0) (m := m) (n := n - m)
  rw [Nat.zero_add, Nat.add_sub_cancel' h] at happ
  rw [range_eq_range', range_eq_range', happ]

theorem Pass.snoc (h : Pass ioc revents inner b now) (ha : ∀ y c, a ≠ .call y c)
    (hp : ∀ x, b ≤ x → x < ioc.fdcnt → ∀ e, Pending revents inner e x now →
      Pending revents (inner ++ [a]) e x now') : Pass ioc revents (inner ++ [a]) b now' := by
  have hreach : ∀ x, reaches x a = false := by
    intro x
    cases a with
    | call y c => exact absurd rfl (ha y c)
    | _ => rfl
  have hcalled : Io.called (inner ++ [a]) = Io.called inner := by
    cases a with
    | call y c => exact absurd rfl (ha y c)
    | _ => simp [Io.called]
  constructor
  · rw [hcalled, h.called]
    apply filterMap_congr
    intro x hx
    simp only [due, before_append (h.reached x (mem_range.mp hx))]
  · intro x hx
    obtain ⟨c, hc, hr⟩ := h.reached x hx
    exact ⟨c, mem_append_left _ hc, hr⟩
  · intro x hx c hc
    obtain hc | hc := mem_append.mp hc
    · exact h.beyond x hx c hc
    · rw [mem_singleton.mp hc]
      exact hreach x
  · intro x hx hxn e he
    exact hp x hx hxn e (h.pending x hx hxn e he)

theorem Pass.call (h : Pass ioc revents inner b now) (hall : ∀ x < ioc.fdcnt, (ioc.ior x).id ≠ none)
    (hy : b ≤ y) (hyn : y < ioc.fdcnt) (hpassed : ∀ z, b ≤ z → z < y → callAt now z = none)
    (hc : callAt now y = some (y, c)) (hsame : now'.fds = now.fds ∧ now'.ior = now.ior) :
    Pass ioc revents (inner ++ [.call y c]) (y + 1) now' := by
  have hbefore : ∀ z, b ≤ z → z ≤ y → before z (inner ++ [.call y c]) = inner :=
    fun z hz hzy => before_append_call (h.beyond z hz) hzy
  constructor
  · have hcalled : Io.called (inner ++ [.call y c]) = Io.called inner ++ [(y, c)] := by
      simp [Io.called]
    rw [hcalled, h.called, range_succ, range_split hy, append_assoc, filterMap_append,
      filterMap_append]
    congr 1
    · apply filterMap_congr
      intro x hx
      simp only [due, before_append (h.reached x (mem_range.mp hx))]
    · have hnone : (range' b (y - b)).filterMap
          (fun x => (ioc.entryAt x).bind (due revents (inner ++ [.call y c]) · x)) = [] := by
        apply filterMap_eq_nil_iff.mpr
        intro z hz
        obtain ⟨hbz, hzy⟩ := mem_range'_1.mp hz
        have hzy : z < y := by omega
        rw [h.due_eq hbz (by omega) (hall z (by omega)) (hbefore z hbz (by omega))]
        exact hpassed z hbz hzy
      rw [hnone, nil_append, filterMap_cons_some, filterMap_nil]
      rw [h.due_eq hy hyn (hall y hyn) (hbefore y hy (Nat.le_refl y)), hc]
  · intro x hx
    exact ⟨.call y c, mem_append_right _ (mem_singleton.mpr rfl), decide_eq_true (by omega)⟩
  · intro x hx a ha
    obtain ha | ha := mem_append.mp ha
    · exact h.beyond x (by omega) a ha
    · rw [mem_singleton.mp ha]
      exact decide_eq_false (by omega)
  · intro x hx hxn e he
    exact (h.pending x (by omega) hxn e he).congr (by simp) (congrFun hsame.1 x)
      (congrFun hsame.2 x)

def Passing (ioc : IoContext) (revents : List ℤ) (inner : List Act) (s : State) : Prop :=
  match s.mode with
  | .idle => False
  | .pass x n => n = ioc.fdcnt ∧ Pass ioc revents inner x s.ioc
  | .callback x n => n = ioc.fdcnt ∧ Pass ioc revents inner (x + 1) s.ioc

theorem Pending.hole (hwf : Wf now) (hz : z < now.fdcnt) (hid : (now.ior z).id = some id)
    (hx : x < now.fdcnt) (h : Pending revents inner e x now) :
    Pending revents (inner ++ [.remove id]) e x (hole now id z) := by
  by_cases hmem : Act.remove e.id ∈ inner
  · have hnone : (now.ior x).id = none := by rwa [Pending, if_pos hmem] at h
    have hxz : x ≠ z := by
      rintro rfl
      cases hid.symm.trans hnone
    exact h.congr (by simp [hmem]) (update_of_ne hxz _ _) (update_of_ne hxz _ _)
  · have hent : now.entryAt x = some e := by
      rw [Pending, if_neg hmem] at h
      exact h.1
    have hide : (now.ior x).id = some e.id := by
      obtain ⟨p, hp, rfl⟩ := map_eq_some_iff.mp hent
      exact hp
    by_cases hxz : x = z
    · subst hxz
      rw [Pending, if_pos (by simp [some.inj (hide.symm.trans hid)])]
      simp [Io.hole]
    · have hne : e.id ≠ id := fun he => hxz (hwf.eq_of_id hx hz (he ▸ hide) hid)
      exact h.congr (by simp [hne]) (update_of_ne hxz _ _) (update_of_ne hxz _ _)

theorem Passing.call (hall : ∀ x < ioc.fdcnt, (ioc.ior x).id ≠ none)
    (h : Passing ioc revents inner s) (hs : Io.step s (.call y c) = some t) :
    Passing ioc revents (inner ++ [.call y c]) t := by
  obtain ⟨x, n, cur, hmode, hz, hid, hcb, hc, -, rfl⟩ := step_call hs
  rw [Passing, hmode] at h
  obtain ⟨rfl, h⟩ := h
  obtain ⟨hfound, hpassed⟩ := nextDue_spec s.ioc (ioc.fdcnt - x) x
  obtain ⟨hle, hlt, hdue⟩ := hfound y hz
  rw [hz] at hpassed
  refine ⟨rfl,
    h.call hall hle (by omega) (fun z hz hzy => callAt_eq_none (hpassed z hz hzy)) ?_ ⟨rfl, rfl⟩⟩
  rw [hc]
  simp [callAt, IoContext.entryAt, hid, hcb, (not_or.mp hdue).1]

/-- A callback adds and removes entries, and returns. -/
theorem Passing.callback (hinv : Inv ⟨now, .callback x n⟩ r)
    (h : Passing ioc revents inner ⟨now, .callback x n⟩)
    (hs : Io.step ⟨now, .callback x n⟩ a = some t) : Passing ioc revents (inner ++ [a]) t := by
  obtain ⟨rfl, h⟩ := h
  obtain ⟨hxn, hn, -⟩ : x < ioc.fdcnt ∧ ioc.fdcnt ≤ now.fdcnt ∧ _ := hinv.mode
  cases a with
  | add fd callback events data id =>
    simp only [Io.step, ite_none_right_eq_some, some.injEq] at hs
    obtain ⟨-, rfl⟩ := hs
    obtain ⟨m, hm⟩ := cwIoAdd_eq fd events callback data now id
    refine ⟨rfl, h.snoc (by simp) fun y _ hy e hp => ?_⟩
    have hne : y ≠ now.fdcnt := by omega
    rw [hm]
    exact hp.congr (by simp) (update_of_ne hne _ _) (update_of_ne hne _ _)
  | remove id =>
    obtain ⟨z, hz, hzid, rfl⟩ := hinv.remove_in_callback hs
    exact ⟨rfl, h.snoc (by simp) fun y _ hy e hp => hp.hole hinv.wf hz hzid (by omega)⟩
  | ret res =>
    obtain ⟨-, rfl⟩ | ⟨-, id, hid, rfl⟩ := hinv.return_cases hs
    · exact ⟨rfl, h.snoc (by simp) fun y _ _ e hp => hp.congr (by simp) rfl rfl⟩
    · refine ⟨rfl, h.snoc (by simp) fun y hxy _ e hp => ?_⟩
      have hyx : y ≠ x := by omega
      exact hp.congr (by simp) (update_of_ne hyx _ _) (update_of_ne hyx _ _)
  | _ => simp [Io.step] at hs

section

variable (hinv : Inv s r) (hall : ∀ x < ioc.fdcnt, (ioc.ior x).id ≠ none)
  (h : Passing ioc revents inner s)

include hinv hall h

theorem Passing.step (hs : step s a = some t) (ha : a ≠ .finish) :
    Passing ioc revents (inner ++ [a]) t := by
  obtain ⟨now, mode⟩ := s
  cases mode with
  | idle => exact h.elim
  | callback x n => exact h.callback hinv hs
  | pass x n =>
    cases a with
    | call y c => exact h.call hall hs
    | finish => exact absurd rfl ha
    | _ => simp [Io.step] at hs

theorem Passing.finish (hs : Io.step s .finish = some t) :
    called inner = (range ioc.fdcnt).filterMap fun x =>
      (ioc.entryAt x).bind (due revents inner · x) := by
  obtain ⟨now, mode⟩ := s
  cases mode with
  | idle => exact h.elim
  | callback x n => simp [Io.step] at hs
  | pass x n =>
    obtain ⟨rfl, h⟩ := h
    simp only [Io.step] at hs
    split at hs
    · rename_i hnone
      rw [range_split hinv.mode.1, filterMap_append, ← h.called]
      refine (append_nil _).symm.trans (congrArg _ (filterMap_eq_nil_iff.mpr fun z hz => ?_).symm)
      obtain ⟨hxz, hzn⟩ := mem_range'_1.mp hz
      rw [h.due_eq hxz (by omega) (hall z (by omega)) (before_eq_self (h.beyond z hxz))]
      exact callAt_eq_none ((nextDue_spec ..).2 z hxz (by rwa [hnone]))
    · cases hs

end

def withinPass (_ : State) (a : Act) (_ : State) : Prop := a ≠ .finish
  deriving Decidable

theorem Passing.run (hinv : Inv s r) (hall : ∀ x < ioc.fdcnt, (ioc.ior x).id ≠ none)
    (h : Passing ioc revents acts s) (hr : Runs Io.step withinPass s inner t) :
    Passing ioc revents (acts ++ inner) t ∧ ∃ r, Inv t r := by
  induction hr generalizing r acts with
  | nil s => exact ⟨by rwa [append_nil], r, hinv⟩
  | cons hs ha _ ih =>
    have := ih (hinv.step hs) (h.step hinv hall hs ha)
    rwa [append_assoc] at this

theorem inv_of_runs (h : Runs step anyStep initial acts s) : Inv s (registry acts) :=
  Runs.simulates (fun _ _ _ _ hi hs _ => hi.step hs) h inv_initial

theorem Inv.slots (h : Inv s r) (hidle : s.mode = .idle) :
    (∀ x < s.ioc.fdcnt, (s.ioc.ior x).id ≠ none) ∧
      (range s.ioc.fdcnt).map s.ioc.entryAt = r.entries.map some := by
  have hmode := h.mode
  rw [hidle] at hmode
  have hall := h.wf.dense hmode.1
  refine ⟨hall, ?_⟩
  rw [← h.live, IoContext.live, map_filterMap]
  have hsome : ∀ x ∈ range s.ioc.fdcnt, (s.ioc.entryAt x).map some = some (s.ioc.entryAt x) := by
    intro x hx
    obtain ⟨id, hid⟩ := ne_none_iff_exists'.mp (hall x (mem_range.mp hx))
    simp [IoContext.entryAt, hid]
  rw [filterMap_congr hsome, filterMap_eq_map']

theorem turns_eq {entries : List Entry} (h : (range n).map ioc.entryAt = entries.map some)
    (f : Entry → ℕ → Option (ℕ × Call)) :
    (range n).filterMap (fun x => (ioc.entryAt x).bind (f · x)) =
      entries.zipIdx.filterMap fun p => f p.1 p.2 := by
  have hrange : (range n).zipIdx = (range n).map fun x => (x, x) := by
    apply ext_getElem <;> simp
  have hzip :=
    congrArg (fun l : List (Option Entry) => l.zipIdx.filterMap fun p => p.1.bind (f · p.2)) h
  simp only [zipIdx_map, hrange, filterMap_map] at hzip
  exact hzip

/-- In every run, each address in use holds the index of its own entry, and the entries in use are
those added and neither removed nor given up by their callbacks, in the order of registration. A
pass calls the entries registered at its start that have an event and are not removed before their
turn, in that order, and it always goes on to its end. -/
theorem io_context_invariant (h : Runs step anyStep initial acts s) :
    (∀ id v, s.ioc.ids id = some v ↔ ∃ x < s.ioc.fdcnt, (s.ioc.ior x).id = some id ∧ v = x) ∧
    s.ioc.live = (registry acts).entries ∧
    (s.mode = .idle → (range s.ioc.fdcnt).map s.ioc.entryAt = (registry acts).entries.map some ∧
      ∀ res revents, ∃ s₁, step s (.wait res revents) = some s₁ ∧ (res ≤ 0 → s₁.mode = .idle) ∧
        (res > 0 → s₁.mode = .pass 0 s.ioc.fdcnt ∧
          ∀ inner s₂ s₃, Runs step withinPass s₁ inner s₂ → step s₂ .finish = some s₃ →
            called inner = (registry acts).entries.zipIdx.filterMap fun p =>
            due revents inner p.1 p.2)) ∧
    (∀ x n, s.mode = .pass x n → (∃ t, step s .finish = some t ∧ t.mode = .idle) ∨
      ∃ y c t, x ≤ y ∧ y < n ∧ step s (.call y c) = some t ∧ t.mode = .callback y n) ∧
    ∀ x n, s.mode = .callback x n →
      ∀ res, ∃ t, step s (.ret res) = some t ∧ t.mode = .pass (x + 1) n := by
  have hinv := inv_of_runs h
  refine ⟨fun id v => ⟨hinv.wf.exists_index, ?_⟩, hinv.live,
    fun hidle => ?_, fun x n hmode => ?_, fun x n hmode res => ?_⟩
  · rintro ⟨x, hx, hid, rfl⟩
    exact hinv.wf.index x hx id hid
  · obtain ⟨hall, hslots⟩ := hinv.slots hidle
    refine ⟨hslots, fun res revents =>
      ⟨⟨poll s.ioc revents, if res > 0 then .pass 0 s.ioc.fdcnt else .idle⟩,
      by rw [step, hidle], fun hres => if_neg (by omega), fun hres => ⟨if_pos hres, ?_⟩⟩⟩
    intro inner s₂ s₃ hrun hfin
    have hwait : step s (.wait res revents) = some ⟨poll s.ioc revents, .pass 0 s.ioc.fdcnt⟩ := by
      rw [step, hidle, if_pos hres]
    rw [if_pos hres] at hrun
    have hstart : Passing s.ioc revents [] ⟨poll s.ioc revents, .pass 0 s.ioc.fdcnt⟩ :=
      ⟨rfl, Pass.start⟩
    obtain ⟨hpass, r, hinv₂⟩ := hstart.run (hinv.step hwait) hall hrun
    exact (hpass.finish hinv₂ hall hfin).trans (turns_eq hslots _)
  · have hm := hinv.mode
    rw [hmode] at hm
    cases hdue : nextDue s.ioc (n - x) x with
    | none => exact .inl ⟨_, by simp only [step, hmode, hdue]; rfl, rfl⟩
    | some y =>
      obtain ⟨hle, hlt, hy⟩ := (nextDue_spec ..).1 y hdue
      simp only [Passed, not_or] at hy
      obtain ⟨id, hid⟩ := ne_none_iff_exists'.mp hy.2.1
      obtain ⟨callback, hcb⟩ := ne_none_iff_exists'.mp hy.2.2
      have hindex := hinv.wf.index y (by have := hm.1; have := hm.2.1; omega) id hid
      refine .inr ⟨y, ⟨callback, id, (s.ioc.fds y).fd, (s.ioc.fds y).revents, (s.ioc.ior y).data⟩,
        ⟨{ s.ioc with currentIoc := y }, .callback y n⟩, hle, by have := hm.1; omega, ?_, rfl⟩
      simp [step, hmode, hdue, hid, hcb, hindex]
  · exact ⟨_, by simp only [step, hmode]; rfl, rfl⟩

/-- Three entries are registered, and all have an event in a pass: the first callback removes the
second entry, adds one and gives up its own; the third one is still called. -/
def removal : List Act :=
  [.add 3 (some 50) 1 none 100, .add 4 (some 51) 1 (some 8) 101, .add 5 (some 52) 1 none 102]

def removalPass : List Act :=
  [.call 0 ⟨50, 100, 3, 1, none⟩, .remove 101, .add 6 (some 53) 1 none 103, .ret 0,
    .call 2 ⟨52, 102, 5, 1, none⟩, .ret 1]

theorem io_context_invariant_removal : ∃ s s₁ s₂ s₃, Runs step anyStep initial removal s ∧
    step s (.wait 3 [1, 1, 1]) = some s₁ ∧ Runs step withinPass s₁ removalPass s₂ ∧
    step s₂ .finish = some s₃ ∧ s₃.ioc.live.map (·.id) = [102, 103] ∧
    called removalPass = (registry removal).entries.zipIdx.filterMap fun p =>
      due [1, 1, 1] removalPass p.1 p.2 := by
  obtain ⟨s, hs, hidle, hpass⟩ := exists_runs_of_exec (P := fun s : State => s.mode = .idle ∧
      (((step s (.wait 3 [1, 1, 1])).bind (exec step withinPass · removalPass)).bind
        (step · .finish)).any (fun t => t.ioc.live.map (·.id) = [102, 103]) = true)
    (show (exec step anyStep initial removal).any _ = true by decide +kernel)
  obtain ⟨s₃, hs₃, hlive⟩ := (Option.any_eq_true ..).mp hpass
  obtain ⟨s₂, hs₂, hfin⟩ := bind_eq_some_iff.mp hs₃
  obtain ⟨s₁, hwait, hrun⟩ := bind_eq_some_iff.mp hs₂
  have hrun : Runs step withinPass s₁ removalPass s₂ := exec_eq_some_iff.mp hrun
  obtain ⟨s₁', hwait', -, hcalls⟩ := ((io_context_invariant hs).2.2.1 hidle).2 3 [1, 1, 1]
  obtain rfl := some.inj (hwait.symm.trans hwait')
  exact ⟨s, s₁, s₂, s₃, hs, hwait, hrun, hfin, of_decide_eq_true hlive,
    (hcalls (by decide)).2 _ _ _ hrun hfin⟩

end CallWeaver.Io
