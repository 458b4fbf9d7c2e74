import CallWeaver.Base.Sorting
import CallWeaver.Jitter.Adaptive
import CallWeaver.Jitter.AdaptiveQueue

/-! # The history of the adaptive jitter buffer

The highest and the lowest of the last delays are kept in sorted buffers, which are calculated only
when they are asked for and a delay that touches them has come or gone since. With every get the
target is calculated from them, and clamped if a maximum is configured.
-/

namespace CallWeaver.Jitter.Adaptive

open Function List Option

section History

variable {α : Type} {jb jb' : Jitterbuf α} {delay pad : ℤ} {w buf : List ℤ} {i ptr : ℕ}
  {r : ℤ → ℤ → Prop}

section Buffers

variable {beats : ℤ → ℤ → Bool} {x : ℤ}

def lastOf (buf : List ℤ) : ℤ := buf.getD (historyMaxbufSz - 1) 0

/-- A sorted buffer holds the first delays of a window, filled up with a delay that comes after all.
-/
structure Cached (r : ℤ → ℤ → Prop) (pad : ℤ) (w buf : List ℤ) : Prop where
  length_eq : buf.length = historyMaxbufSz
  extremes : Extremes r (w ++ .replicate historyMaxbufSz pad) buf

theorem Cached.forall_rel [IsTrans ℤ r] (h : Cached r pad w buf) (hx : r (lastOf buf) x) :
    ∀ b ∈ buf, r b x := by
  have hlen := h.length_eq
  rcases buf.eq_nil_or_concat' with rfl | ⟨l, z, rfl⟩
  · simp
  · have hl : l.length = historyMaxbufSz - 1 := by
      rw [length_append, length_singleton] at hlen
      omega
    have hz : lastOf (l ++ [z]) = z := by simp [lastOf, ← hl]
    rw [hz] at hx
    intro b hb
    rcases mem_append.mp hb with hb | hb
    · exact trans_of r ((pairwise_append.mp h.extremes.sorted).2.2 b hb z (mem_singleton_self z)) hx
    · rwa [mem_singleton.mp hb]

theorem Cached.keep [IsTrans ℤ r] (h : Cached r pad w buf) (hx : r (lastOf buf) x) :
    Cached r pad (w ++ [x]) buf := by
  refine ⟨h.length_eq, (h.extremes.keep (h.forall_rel hx)).of_perm ?_⟩
  rw [append_assoc]
  exact perm_middle.symm

theorem Cached.drop [IsTrans ℤ r] [Std.Refl r] (h : Cached r pad (x :: w) buf)
    (hx : ¬ r x (lastOf buf)) : Cached r pad w buf := by
  refine ⟨h.length_eq, h.extremes.drop fun hmem => hx ?_⟩
  exact h.forall_rel (refl_of r _) x hmem

theorem insertBuf_eq (beats : ℤ → ℤ → Bool) (toins : ℤ) (l : List ℤ) :
    insertBuf beats toins l = (insertStable beats toins l).dropLast := by
  induction l with
  | nil => rfl
  | cons b l ih =>
    have hne : insertStable beats toins l ≠ [] := by
      intro h
      simpa [h] using (insertStable_perm beats toins l).length_eq
    unfold insertBuf insertStable
    split
    · rw [dropLast_cons_of_ne_nil (cons_ne_nil b l)]
    · rw [ih, dropLast_cons_of_ne_nil hne]

def calcStep (beats : ℤ → ℤ → Bool) (buf : List ℤ) (toins : ℤ) : List ℤ :=
  if beats toins (lastOf buf) then insertBuf beats toins buf else buf

section

variable (hbeats : ∀ x y, beats x y = false ↔ r y x) (h : Cached r pad w buf)

include hbeats h

theorem Cached.calcStep [IsTrans ℤ r] [Std.Total r] (x : ℤ) :
    Cached r pad (w ++ [x]) (calcStep beats buf x) := by
  unfold Adaptive.calcStep
  split
  · constructor
    · rw [insertBuf_eq, length_dropLast, length_insertStable, h.length_eq]
      rfl
    · rw [insertBuf_eq, append_assoc]
      exact (h.extremes.insert hbeats x).of_perm perm_middle.symm
  · rename_i hx
    exact h.keep ((hbeats _ _).mp (by simpa using hx))

theorem Cached.foldl [IsTrans ℤ r] [Std.Total r] (values : List ℤ) :
    Cached r pad (w ++ values) (values.foldl (Adaptive.calcStep beats) buf) := by
  induction values generalizing w buf with
  | nil => simpa using h
  | cons x values ih => simpa using ih (h.calcStep hbeats x)

end

theorem Cached.init [Std.Refl r] (pad : ℤ) : Cached r pad [] (.replicate historyMaxbufSz pad) := by
  refine ⟨length_replicate, pairwise_replicate.mpr (.inr (refl_of r pad)), [], by simp, by simp⟩

end Buffers

section Window

variable {history : ℕ → ℤ} {start len : ℕ}

def window (history : ℕ → ℤ) (ptr : ℕ) : List ℤ :=
  (range' (ptr - historySz) (min ptr historySz)).map fun i => history (i % historySz)

theorem length_window (history : ℕ → ℤ) (ptr : ℕ) :
    (window history ptr).length = min ptr historySz := by
  simp [window]

theorem map_update_range' (h : ∀ i, start ≤ i → i < start + len → i % historySz ≠ ptr % historySz)
    (delay : ℤ) :
    (range' start len).map (fun i => update history (ptr % historySz) delay (i % historySz)) =
      (range' start len).map fun i => history (i % historySz) := by
  apply map_congr_left
  intro i hi
  obtain ⟨hle, hlt⟩ := mem_range'_1.mp hi
  rw [update_of_ne (h i hle hlt)]

theorem window_store_lt (h : ptr < historySz) (delay : ℤ) :
    window (update history (ptr % historySz) delay) (ptr + 1) = window history ptr ++ [delay] := by
  have hmod : ptr % historySz = ptr := Nat.mod_eq_of_lt h
  have hstart : ptr + 1 - historySz = ptr - historySz := by omega
  have hlen : min (ptr + 1) historySz = min ptr historySz + 1 := by omega
  have hnext : ptr - historySz + min ptr historySz = ptr := by omega
  rw [window, window, hstart, hlen, range'_1_concat, map_append, hnext, map_update_range']
  · simp
  · intro i _ hi
    rw [Nat.mod_eq_of_lt (by omega), hmod]
    omega

theorem window_store_ge (h : historySz ≤ ptr) (delay : ℤ) :
    ∃ rest, window history ptr = history (ptr % historySz) :: rest ∧
      window (update history (ptr % historySz) delay) (ptr + 1) = rest ++ [delay] := by
  refine ⟨(range' (ptr + 1 - historySz) (historySz - 1)).map fun i =>
    history (i % historySz), ?_, ?_⟩
  · have hlen : min ptr historySz = historySz - 1 + 1 := by
      rw [Nat.min_eq_right h]
      rfl
    have hold : (ptr - historySz) % historySz = ptr % historySz := (Nat.mod_eq_sub_mod h).symm
    rw [window, hlen, range'_succ, map_cons, hold, Nat.sub_add_comm h]
  · have hlen : min (ptr + 1) historySz = historySz - 1 + 1 := by
      rw [Nat.min_eq_right (Nat.le_succ_of_le h)]
      rfl
    have hnext : ptr + 1 - historySz + (historySz - 1) = ptr := by
      omega
    rw [window, hlen, range'_1_concat, map_append, hnext, map_update_range']
    · simp
    · intro i _ hi
      unfold historySz at *
      omega

end Window

def Jitterbuf.window (jb : Jitterbuf α) : List ℤ := Adaptive.window jb.history jb.histPtr

/-- While the sorted buffers are marked as valid they are what a calculation would give. The first
places are in order also when they are not. -/
structure HistoryOk (jb : Jitterbuf α) : Prop where
  nonempty : jb.histMaxbufValid = true → 0 < jb.histPtr
  max : jb.histMaxbufValid = true → Cached (· ≥ ·) longmin jb.window jb.histMaxbuf
  min : jb.histMaxbufValid = true → Cached (· ≤ ·) longmax jb.window jb.histMinbuf
  ordered : jb.histMinbuf.getD 0 0 ≤ jb.histMaxbuf.getD 0 0

theorem foldl_calcStep (values : List ℤ) (b : List ℤ × List ℤ) :
    values.foldl (fun (b : List ℤ × List ℤ) toins =>
      (if toins > b.1.getD (historyMaxbufSz - 1) 0 then
          insertBuf (fun x y => decide (x > y)) toins b.1
        else b.1,
        if toins < b.2.getD (historyMaxbufSz - 1) 0 then insertBuf (fun x y => decide (x < y)) toins
        b.2 else b.2)) b =
      (values.foldl (calcStep fun x y => decide (x > y)) b.1,
        values.foldl (calcStep fun x y => decide (x < y)) b.2) := by
  induction values generalizing b with
  | nil => rfl
  | cons x values ih =>
    rw [foldl_cons, ih]
    simp [calcStep, lastOf]

theorem historyCalcMaxbuf_eq (h : jb.histPtr ≠ 0) :
    historyCalcMaxbuf jb = { jb with
      histMaxbuf :=
  jb.window.foldl (calcStep fun x y => decide (x > y)) (.replicate historyMaxbufSz longmin)
      histMinbuf :=
        jb.window.foldl (calcStep fun x y => decide (x < y)) (.replicate historyMaxbufSz longmax)
      histMaxbufValid := true } := by
  have hstart : (if jb.histPtr > historySz then jb.histPtr - historySz else 0) =
      jb.histPtr - historySz := by
    split <;> omega
  have hlen : jb.histPtr - (jb.histPtr - historySz) = min jb.histPtr historySz := by omega
  rw [historyCalcMaxbuf, if_neg h, hstart]
  simp only [foldl_calcStep, hlen]
  rfl

theorem historyCalcMaxbuf_cached (h : jb.histPtr ≠ 0) :
    Cached (· ≥ ·) longmin jb.window (historyCalcMaxbuf jb).histMaxbuf ∧
      Cached (· ≤ ·) longmax jb.window (historyCalcMaxbuf jb).histMinbuf := by
  rw [historyCalcMaxbuf_eq h]
  constructor
  · exact (Cached.init longmin).foldl (by simp) jb.window
  · exact (Cached.init longmax).foldl (by simp) jb.window

theorem Cached.ordered {max min : List ℤ} (hmax : Cached (· ≥ ·) longmin w max)
    (hmin : Cached (· ≤ ·) longmax w min) (hi : i < historyMaxbufSz) (hw : 2 * i < w.length) :
    min.getD i 0 ≤ max.getD i 0 := by
  have hget : ∀ {l : List ℤ}, l.length = historyMaxbufSz → l[i]? = some (l.getD i 0) := by
    intro l hl
    simp [getElem?_eq_getElem (hl ▸ hi)]
  have ha := hget hmax.length_eq
  have hb := hget hmin.length_eq
  generalize max.getD i 0 = a at *
  generalize min.getD i 0 = b at *
  by_contra hlt
  -- at most `i` delays are above the one, at most `i` below the other, and all are one or the other
  have habove := hmax.extremes.countP_le (p := fun x => decide (a < x)) ha (by simp)
  have hbelow := hmin.extremes.countP_le (p := fun x => decide (x < b)) hb (by simp)
  rw [countP_append] at habove hbelow
  have hlen := length_eq_countP_add_countP (fun x => decide (a < x)) (l := w)
  have hle : w.countP (fun x => decide ¬ decide (a < x) = true) ≤ w.countP fun x =>
    decide (x < b) := by
    apply countP_mono_left
    intro x _ hx
    simp only [decide_eq_true_eq, not_lt] at hx ⊢
    omega
  omega

structure Restarts (jb jb' : Jitterbuf α) : Prop where
  history_eq : jb'.history = jb.history
  max_eq : jb'.histMaxbuf = jb.histMaxbuf
  min_eq : jb'.histMinbuf = jb.histMinbuf
  marks : jb'.histPtr = jb.histPtr ∧ jb'.histMaxbufValid = jb.histMaxbufValid ∨
    jb'.histPtr = 0 ∧ jb'.histMaxbufValid = false

theorem HistoryOk.restarts (h : HistoryOk jb) (hr : Restarts jb jb') : HistoryOk jb' := by
  obtain ⟨hhist, hmax, hmin, ⟨hptr, hvalid⟩ | ⟨hptr, hvalid⟩⟩ := hr
  · have hw : jb'.window = jb.window := by rw [Jitterbuf.window, hhist, hptr, Jitterbuf.window]
    constructor
    · rw [hvalid, hptr]
      exact h.nonempty
    · rw [hvalid, hw, hmax]
      exact h.max
    · rw [hvalid, hw, hmin]
      exact h.min
    · rw [hmax, hmin]
      exact h.ordered
  · refine ⟨?_, ?_, ?_, by rw [hmax, hmin]; exact h.ordered⟩ <;> simp [hvalid]

theorem Cached.store [IsTrans ℤ r] [Std.Refl r] {history : ℕ → ℤ}
    (h : Cached r pad (window history ptr) buf)
    (hkicked : ¬ r (history (ptr % historySz)) (lastOf buf)) (hdelay : r (lastOf buf) delay) :
    Cached r pad (window (update history (ptr % historySz) delay) (ptr + 1)) buf := by
  rcases Nat.lt_or_ge ptr historySz with hptr | hptr
  · rw [window_store_lt hptr]
    exact h.keep hdelay
  · obtain ⟨rest, hold, hnew⟩ := @window_store_ge ptr history hptr delay
    rw [hold] at h
    rw [hnew]
    exact (h.drop hkicked).keep hdelay

theorem HistoryOk.store (h : HistoryOk jb) (delay : ℤ) : HistoryOk (historyStore jb delay) := by
  simp only [historyStore]
  split_ifs with hv hslow
  · exact ⟨by simp [hv], by simp [hv], by simp [hv], h.ordered⟩
  · exact ⟨by simp, by simp, by simp, h.ordered⟩
  · simp only [Bool.not_eq_false] at hv
    simp only [not_or, not_lt, not_le] at hslow
    obtain ⟨-, hleast, hmost, hkmin, hkmax⟩ := hslow
    refine ⟨fun _ => Nat.succ_pos _, fun _ => ?_, fun _ => ?_, h.ordered⟩
    · exact (h.max hv).store (not_le.mpr hkmax) hmost
    · exact (h.min hv).store (not_le.mpr hkmin) hleast

theorem historyPut_cases (jb : Jitterbuf α) (ts now : ℤ) : ∃ jb₁, Restarts jb jb₁ ∧
    ((historyPut jb ts now).1 = jb₁ ∨
      ∃ delay, (historyPut jb ts now).1 = historyStore jb₁ delay) := by
  have hforce : ∃ jb₀ delay, (if jb.forceResync then (resync jb ts now, (0 : ℤ))
      else (jb, now - (ts - jb.info.resyncOffset))) = (jb₀, delay) ∧ Restarts jb jb₀ := by
    split
    · exact ⟨_, _, rfl, rfl, rfl, rfl, .inr ⟨rfl, rfl⟩⟩
    · exact ⟨_, _, rfl, rfl, rfl, rfl, .inl ⟨rfl, rfl⟩⟩
  obtain ⟨jb₀, delay, he, hist, hmax, hmin, hmarks⟩ := hforce
  simp only [historyPut, he]
  split_ifs
  · exact ⟨_, ⟨hist, hmax, hmin, hmarks⟩, .inl rfl⟩
  · exact ⟨_, ⟨hist, hmax, hmin, hmarks⟩, .inr ⟨_, rfl⟩⟩
  · refine ⟨resync _ ts now, ⟨hist, hmax, hmin, .inr ⟨rfl, rfl⟩⟩, .inr ⟨_, rfl⟩⟩
  · refine ⟨_, ⟨?_, ?_, ?_, ?_⟩, .inl rfl⟩
    exacts [hist, hmax, hmin, hmarks]
  · refine ⟨_, ⟨?_, ?_, ?_, ?_⟩, .inr ⟨_, rfl⟩⟩
    exacts [hist, hmax, hmin, hmarks]

theorem HistoryOk.historyPut (h : HistoryOk jb) (ts now : ℤ) :
    HistoryOk (historyPut jb ts now).1 := by
  obtain ⟨jb₁, hr, he | ⟨delay, he⟩⟩ := historyPut_cases jb ts now
  · rw [he]
    exact h.restarts hr
  · rw [he]
    exact (h.restarts hr).store delay

theorem HistoryOk.historyCalcMaxbuf (h : HistoryOk jb) : HistoryOk (historyCalcMaxbuf jb) := by
  by_cases hptr : jb.histPtr = 0
  · rwa [Adaptive.historyCalcMaxbuf, if_pos hptr]
  · obtain ⟨hmax, hmin⟩ := historyCalcMaxbuf_cached hptr
    have hlen : 2 * 0 < jb.window.length := by
      rw [Jitterbuf.window, length_window]
      have : 0 < historySz := by decide
      omega
    have hord := hmax.ordered hmin (by decide) hlen
    rw [historyCalcMaxbuf_eq hptr] at hmax hmin hord ⊢
    exact ⟨fun _ => Nat.pos_of_ne_zero hptr, fun _ => hmax, fun _ => hmin, hord⟩

theorem HistoryOk.historyGet (h : HistoryOk jb) : HistoryOk (historyGet jb) := by
  have hcalc : HistoryOk (if jb.histMaxbufValid then jb else Adaptive.historyCalcMaxbuf jb) := by
    split
    · exact h
    · exact h.historyCalcMaxbuf
  exact hcalc.restarts ⟨rfl, rfl, rfl, .inl ⟨rfl, rfl⟩⟩

theorem HistoryOk.jbReset (jb : Jitterbuf α) : HistoryOk (jbReset jb) := by
  refine ⟨?_, ?_, ?_, le_refl _⟩ <;> simp [Adaptive.jbReset]

theorem HistoryOk.historyCalcMaxbuf_eq (h : HistoryOk jb) (hv : jb.histMaxbufValid = true) :
    Adaptive.historyCalcMaxbuf jb = jb := by
  have hptr : jb.histPtr ≠ 0 := Nat.pos_iff_ne_zero.mp (h.nonempty hv)
  obtain ⟨hmax, hmin⟩ := historyCalcMaxbuf_cached hptr
  have hmaxbuf :=
    hmax.extremes.unique (h.max hv).extremes (hmax.length_eq.trans (h.max hv).length_eq.symm)
  have hminbuf :=
    hmin.extremes.unique (h.min hv).extremes (hmin.length_eq.trans (h.min hv).length_eq.symm)
  rw [Adaptive.historyCalcMaxbuf_eq hptr] at hmaxbuf hminbuf ⊢
  dsimp only at hmaxbuf hminbuf
  rw [hmaxbuf, hminbuf, ← hv]

inductive HistoryOp where
  | put (ts now : ℤ)
  | get
  | reset
  | force
  deriving DecidableEq, Repr

def historyStep (jb : Jitterbuf α) : HistoryOp → Option (Jitterbuf α)
  | .put ts now => some (historyPut jb ts now).1
  | .get => some (historyGet jb)
  | .reset => some (jbReset jb)
  | .force => some { jb with forceResync := true }

theorem HistoryOk.step {op : HistoryOp} (h : HistoryOk jb) (hs : historyStep jb op = some jb') :
    HistoryOk jb' := by
  cases op with
  | put ts now =>
    cases hs
    exact h.historyPut ts now
  | get =>
    cases hs
    exact h.historyGet
  | reset =>
    cases hs
    exact .jbReset jb
  | force =>
    cases hs
    exact h.restarts ⟨rfl, rfl, rfl, .inl ⟨rfl, rfl⟩⟩

theorem HistoryOk.runs {conf : JbConf} {ops : List HistoryOp}
    (hr : Runs historyStep anyStep (jbNew conf) ops jb) : HistoryOk jb :=
  hr.invariant (fun _ _ _ h hs _ => h.step hs) (.jbReset _)

theorem Cached.eq_take [DecidableRel r] [IsTrans ℤ r] [Std.Total r] [Std.Antisymm r]
    (h : Cached r pad w buf) (hw : ∀ x ∈ w, r x pad) :
    buf = (w.insertionSort r).take historyMaxbufSz ++
      .replicate (historyMaxbufSz - w.length) pad := by
  apply h.extremes.unique (Extremes.padded historyMaxbufSz hw)
  simp [h.length_eq]
  omega

/-- Whenever the sorted buffers are marked as valid they hold the highest and the lowest delays of
the window, in order, and what is read from them is what would be read after a calculation. -/
theorem history_cached {conf : JbConf} {ops : List HistoryOp}
    (hr : Runs historyStep anyStep (jbNew conf) ops jb) (hv : jb.histMaxbufValid = true)
    (hw : ∀ x ∈ jb.window, x.natAbs < 2 ^ 31) :
    jb.histMaxbuf = (jb.window.insertionSort (· ≥ ·)).take historyMaxbufSz ++
        .replicate (historyMaxbufSz - jb.window.length) longmin ∧
      jb.histMinbuf = (jb.window.insertionSort (· ≤ ·)).take historyMaxbufSz ++
        .replicate (historyMaxbufSz - jb.window.length) longmax ∧
      jb.window.length ≤ historySz ∧ historyGet jb = historyGet (historyCalcMaxbuf jb) := by
  have h := HistoryOk.runs hr
  refine ⟨(h.max hv).eq_take fun x hx => ?_, (h.min hv).eq_take fun x hx => ?_, ?_, ?_⟩
  · have := hw x hx
    unfold longmin longmax
    omega
  · have := hw x hx
    unfold longmax
    omega
  · rw [Jitterbuf.window, length_window]
    exact Nat.min_le_right ..
  · rw [h.historyCalcMaxbuf_eq hv]

/-- After two delays have been looked at the buffer of the highest ones starts with them. -/
theorem history_cached_two :
    ∃ jb : Jitterbuf Unit,
      Runs historyStep anyStep (jbNew ⟨0, 0, -1, 0⟩) [.put 100 125, .put 120 150, .get] jb ∧
      jb.histMaxbufValid = true ∧ jb.window = [25, 30] ∧
      jb.histMaxbuf = (jb.window.insertionSort (· ≥ ·)).take historyMaxbufSz ++
        .replicate (historyMaxbufSz - jb.window.length) longmin :=
  exists_run_of_any (P := fun jb => jb.histMaxbufValid = true ∧ jb.window = [25, 30])
    (by decide +kernel) fun _ hr ⟨hv, hw⟩ => ⟨hv, hw, (history_cached hr hv (by rw [hw]; decide)).1⟩

end History

section AdaptiveTarget

variable {α : Type} {jb jb' jb'' : Jitterbuf α} {frames free mem : Option ℕ} {ms ts now interpl : ℤ}
  {fuel : ℕ} {frame queued : Option (JbFrame α)} {g : GetOutcome α}

structure Keeps (jb jb' : Jitterbuf α) : Prop where
  conf : jb'.conf = jb.conf
  target : jb'.info.target = jb.info.target
  min : jb'.info.min = jb.info.min
  history : Restarts jb jb'

namespace Keeps

theorem trans (h : Keeps jb jb') (h' : Keeps jb' jb'') : Keeps jb jb'' := by
  obtain ⟨hconf, htarget, hmin, hhist, hmaxbuf, hminbuf, hmarks⟩ := h
  obtain ⟨hconf', htarget', hmin', hhist', hmaxbuf', hminbuf', hmarks'⟩ := h'
  refine ⟨hconf'.trans hconf, htarget'.trans htarget, hmin'.trans hmin, hhist'.trans hhist,
    hmaxbuf'.trans hmaxbuf, hminbuf'.trans hminbuf, ?_⟩
  rcases hmarks' with ⟨hptr, hvalid⟩ | h
  · rw [hptr, hvalid]
    exact hmarks
  · exact .inr h

theorem of_queue {heap : Cells (JbFrame α)} {info : JbInfo} (htarget : info.target = jb.info.target)
    (hmin : info.min = jb.info.min) :
    Keeps jb { jb with heap := heap, frames := frames, free := free, info := info } :=
  ⟨rfl, htarget, hmin, rfl, rfl, rfl, .inl ⟨rfl, rfl⟩⟩

theorem queuePut {data : α} {type : FrameType} {out : PutOutcome α}
    (h : queuePut jb data type ms ts mem fuel = some out) : Keeps jb out.jb := by
  obtain ⟨⟨_, _, _, _, _, he⟩, -⟩ := queuePut_frame h
  rw [he]
  exact of_queue rfl rfl

theorem queueGetFirst {all : Bool} (h : queueGetFirst jb ts all = some (jb', frame)) :
    Keeps jb jb' := by
  obtain ⟨_, _, _, _, rfl⟩ := queueGetFirst_frame h
  exact of_queue rfl rfl

theorem of_measured (h : Measured jb frame g) : Keeps jb g.jb := by
  obtain ⟨he, -, htarget, hmin, -⟩ := h
  rw [he]
  exact of_queue htarget hmin

end Keeps

theorem HistoryOk.keeps (h : HistoryOk jb) (hk : Keeps jb jb') :
    HistoryOk jb' := h.restarts hk.history

theorem historyGet_jitter_nonneg (h : HistoryOk jb) : 0 ≤ (historyGet jb).info.jitter := by
  have hpos : 0 < historySz := by decide
  have hcalc : ∃ jb₁, (if jb.histMaxbufValid then jb else historyCalcMaxbuf jb) = jb₁ ∧
      HistoryOk jb₁ ∧ (jb₁.histMaxbufValid = true ∨ jb₁.histPtr = 0) := by
    split
    · exact ⟨_, rfl, h, .inl ‹_›⟩
    · refine ⟨_, rfl, h.historyCalcMaxbuf, ?_⟩
      by_cases hptr : jb.histPtr = 0
      · right
        rwa [historyCalcMaxbuf, if_pos hptr]
      · left
        rw [historyCalcMaxbuf_eq hptr]
  obtain ⟨jb₁, he, h₁, hv⟩ := hcalc
  have hcount : (if jb₁.histPtr < historySz then jb₁.histPtr else historySz) =
      min jb₁.histPtr historySz := by
    split <;> omega
  simp only [historyGet, he, hcount, sub_nonneg]
  rcases hv with hv | hptr
  · have hne := h₁.nonempty hv
    refine (h₁.max hv).ordered (h₁.min hv) ?_ ?_
    · have : historyMaxbufSz - 1 < historyMaxbufSz := by decide
      omega
    · rw [Jitterbuf.window, length_window]
      unfold historyDroppct
      omega
  · simpa [hptr] using h₁.ordered

theorem historyGet_conf (jb : Jitterbuf α) : (historyGet jb).conf = jb.conf := by
  obtain ⟨_, _, _, _, _, he⟩ := historyGet_frame jb
  rw [he]

def targetAbove (maxJitterbuf jitter : ℤ) : ℤ :=
  if maxJitterbuf ≠ 0 ∧ jitter + targetExtra > maxJitterbuf then maxJitterbuf
  else jitter + targetExtra

theorem setTarget_eq (jb : Jitterbuf α) :
    (setTarget jb).info.target = jb.info.min + targetAbove jb.conf.maxJitterbuf jb.info.jitter := by
  have hd : jb.info.jitter + jb.info.min + targetExtra - jb.info.min =
    jb.info.jitter + targetExtra := by omega
  simp only [setTarget, targetAbove, hd]
  split_ifs
  · rfl
  · omega

theorem HistoryOk.jbGet (h : HistoryOk jb) (hg : jbGet jb now interpl = some g) :
    HistoryOk g.jb ∧ g.jb.conf = jb.conf ∧
      ∃ jitter, 0 ≤ jitter ∧
      g.jb.info.target = g.jb.info.min + targetAbove jb.conf.maxJitterbuf jitter := by
  -- everything behind the calculation of the target leaves it alone
  suffices hkeeps : Keeps (setTarget (Adaptive.historyGet jb)) g.jb by
    have hset : HistoryOk (setTarget (Adaptive.historyGet jb)) :=
      h.historyGet.restarts ⟨rfl, rfl, rfl, .inl ⟨rfl, rfl⟩⟩
    refine ⟨hset.keeps hkeeps, hkeeps.conf.trans (historyGet_conf jb), _,
      historyGet_jitter_nonneg h, ?_⟩
    rw [hkeeps.target, hkeeps.min, setTarget_eq, historyGet_conf]
    rfl
  have hraw : ∃ g₀, jbGetRaw jb now interpl = some g₀ ∧ g.jb = g₀.jb := by
    obtain ⟨g₀, hg₀, ⟨⟩⟩ := bind_eq_some_iff.mp hg
    refine ⟨g₀, hg₀, ?_⟩
    split <;> rfl
  obtain ⟨g₀, hg₀, he⟩ := hraw
  rw [he]
  simp only [jbGetRaw] at hg₀
  split at hg₀
  · simp only [bind_eq_bind, bind_eq_some_iff] at hg₀
    obtain ⟨last, -, first, -, hg₀⟩ := hg₀
    split at hg₀
    · cases hg₀
      exact .of_measured (measured_interpolated interpl _ _ rfl rfl rfl)
    · obtain ⟨⟨jb₂, frame⟩, hget, ⟨⟩⟩ := bind_eq_some_iff.mp hg₀
      exact (Keeps.queueGetFirst hget).trans (.of_measured (measured_getVoice ..))
  · obtain ⟨⟨jb₂, frame⟩, hget, ⟨⟩⟩ := bind_eq_some_iff.mp hg₀
    refine .trans ?_ ((Keeps.queueGetFirst hget).trans (.of_measured (measured_getSilent ..)))
    split <;> exact .of_queue rfl rfl

theorem historyPut_conf (jb : Jitterbuf α) (ts now : ℤ) :
    (historyPut jb ts now).1.conf = jb.conf := by
  obtain ⟨_, _, _, _, _, _, _, he⟩ := historyPut_frame jb ts now
  rw [he]

theorem HistoryOk.jbPut {c : PutCall α} {ret : JbRet} (h : HistoryOk jb)
    (hput : jbPut jb c fuel = some (jb', ret, queued)) : HistoryOk jb' ∧ jb'.conf = jb.conf := by
  simp only [Adaptive.jbPut] at hput
  generalize hj :
    { jb with info := { jb.info with framesIn := jb.info.framesIn + 1 } } = jb₁ at hput
  have h₁ : HistoryOk jb₁ ∧ jb₁.conf = jb.conf := by
    rw [← hj]
    exact ⟨h.restarts ⟨rfl, rfl, rfl, .inl ⟨rfl, rfl⟩⟩, rfl⟩
  generalize hp :
    (if c.type = .voice then Adaptive.historyPut jb₁ c.ts c.now else (jb₁, true)) = p at hput
  have h₂ : HistoryOk p.1 ∧ p.1.conf = jb.conf := by
    rw [← hp]
    split
    · exact ⟨h₁.1.historyPut c.ts c.now, (historyPut_conf jb₁ c.ts c.now).trans h₁.2⟩
    · exact h₁
  split at hput
  · simp only [bind_eq_bind, bind_eq_some_iff, some.injEq, Prod.mk.injEq] at hput
    obtain ⟨out, hq, rfl, -, -⟩ := hput
    have hkeeps := Keeps.queuePut hq
    exact ⟨h₂.1.keeps hkeeps, hkeeps.conf.trans h₂.2⟩
  · cases hput
    exact h₂

end AdaptiveTarget

end CallWeaver.Jitter.Adaptive
