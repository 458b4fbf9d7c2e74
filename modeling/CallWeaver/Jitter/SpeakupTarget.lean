import CallWeaver.Jitter.Speakup

/-! # The target of the SpeakUp jitter buffer

The sorted delays stay sorted, so that the delay that is aimed at is not below the minimum, unless
a negative maximum pushes it there.
-/

namespace CallWeaver.Jitter.Speakup

open Function List

variable {α : Type} {array delay : ℕ → ℤ} {value high now interpl diff : ℤ}
  {n fuel low : ℕ}

theorem findPointerLoop_splits (h : SortedTo array n) (hlow : low ≤ n) (hhigh : high < n)
    (hfuel : high < low + fuel) (hb : ∀ i < low, array i ≤ value)
    (ha : ∀ i : ℕ, high < i → i < n → value ≤ array i) :
    Splits array n value (findPointerLoop array value fuel low high) := by
  induction fuel generalizing low high with
  | zero =>
    rw [findPointerLoop]
    exact ⟨hlow, hb, fun i hi hn => ha i (by omega) hn⟩
  | succ fuel ih =>
    rw [findPointerLoop]
    split
    · generalize hm : (((low : ℤ) + high) / 2).toNat = mid
      simp only
      split
      · rename_i hlt
        refine ih (by omega) hhigh (by omega) (fun i hi => ?_) ha
        exact (h i mid (by omega) (by omega)).trans hlt.le
      · split
        · rename_i hgt
          refine ih hlow (by omega) (by omega) hb fun i hi hn => ?_
          exact hgt.le.trans (h mid i (by omega) hn)
        · have he : array mid = value := by omega
          refine ⟨by omega, fun i hi => ?_, fun i hi hn => ?_⟩
          · exact he ▸ h i mid (by omega) (by omega)
          · exact he ▸ h mid i hi hn
    · exact ⟨hlow, hb, fun i hi hn => ha i (by omega) hn⟩

theorem findPointer_splits (h : SortedTo array n) (hn : 0 < n) (value : ℤ) :
    Splits array n value (findPointer array (n - 1) value) :=
  findPointerLoop_splits h (Nat.zero_le _) (by omega) (by omega) (by simp) fun i hi hn => by omega

theorem insertSorted_sorted {maxIndex : ℕ} (h : SortedTo array maxIndex)
    (hm : maxIndex < historySize) (value : ℤ) :
    SortedTo (insertSorted array maxIndex value) (maxIndex + 1) := by
  unfold insertSorted
  split
  · rename_i hend
    exact h.concat hend
  · have hsplit := findPointer_splits h (by omega) value
    exact h.insert hsplit (by omega)

theorem deleteSorted_sorted {maxIndex : ℕ} (h : SortedTo array (maxIndex + 1))
    (hm : maxIndex < historySize) (value : ℤ) :
    SortedTo (deleteSorted array maxIndex value) maxIndex := by
  simp only [deleteSorted]
  split
  · exact h.remove (by omega)
  · exact h.mono (Nat.le_succ _)

def DelaysSorted (jb : Jitterbuffer α) : Prop :=
  SortedTo jb.histSortedDelay (min jb.histPointer historySize)

theorem putHistory_sorted {jb : Jitterbuffer α} (h : DelaysSorted jb) (ts now ms codec : ℤ) :
    DelaysSorted (putHistory jb ts now ms codec) := by
  have hsize : 0 < historySize := by decide
  unfold DelaysSorted at h ⊢
  simp only [putHistory, maxIndex]
  rcases Nat.lt_or_ge jb.histPointer historySize with hptr | hptr
  · rw [if_neg (by omega), if_pos hptr, Nat.min_eq_left (by omega)]
    rw [Nat.min_eq_left hptr.le] at h
    exact insertSorted_sorted h hptr _
  · rw [if_pos (by omega), if_neg (by omega), Nat.min_eq_right (by omega)]
    rw [Nat.min_eq_right hptr] at h
    have hlast : historySize - 1 + 1 = historySize := by omega
    rw [← hlast] at h
    have hdel := deleteSorted_sorted h (by omega) (jb.hist (jb.histPointer % historySize)).delay
    have hins := insertSorted_sorted hdel (by omega) (now - ts)
    rwa [hlast] at hins

section Target

variable {min codec d2 d : ℤ} {size maxN : ℕ}

theorem nextDelay_eq (delay : ℕ → ℤ) (min d1 : ℤ) (maxIndex fuel n : ℕ) :
    ∃ m, nextDelay delay min d1 maxIndex fuel n = (m, delay (maxIndex - m) - min) ∧
      (m = n + 1 ∨ 2 * m ≤ maxIndex + 1) := by
  induction fuel generalizing n with
  | zero => exact ⟨n + 1, rfl, .inl rfl⟩
  | succ fuel ih =>
    simp only [nextDelay]
    split
    · obtain ⟨m, he, hm⟩ := ih (n + 1)
      exact ⟨m, he, .inr (by omega)⟩
    · exact ⟨n + 1, rfl, .inl rfl⟩

theorem optimumDelay_nonneg {a : Float32} (hsize : 10 < size - 1) (hmax : 4 * maxN ≤ size)
    (hdelay : ∀ i, (size - 1) / 4 ≤ i → i < size → min ≤ delay i) (hd2 : 0 ≤ d2) (hd : 0 ≤ d) :
    0 ≤ optimumDelay delay min size maxN codec fuel n d2 d a := by
  induction fuel generalizing n d2 d a with
  | zero => exact hd
  | succ fuel ih =>
    simp only [optimumDelay]
    split
    · obtain ⟨m, he, hm⟩ := nextDelay_eq delay min d2 (size - 1) size n
      rw [he]
      have hmin := hdelay (size - 1 - m) (by omega) (by omega)
      refine ih (by simpa using hmin) ?_
      split
      · exact hd2
      · exact hd
    · exact hd

theorem preferredDelay_nonneg (h : SortedTo delay size) (hsize : 0 < size) (iqr codec : ℤ) :
    0 ≤ preferredDelay delay size iqr (delay ((size - 1) * 2 / 100)) codec := by
  have hmin : ∀ i, (size - 1) / 4 ≤ i → i < size → delay ((size - 1) * 2 / 100) ≤ delay i :=
    fun i hi hn => h _ i (by omega) hn
  have hhighest := hmin (size - 1) (by omega) (by omega)
  simp only [preferredDelay]
  split
  · rename_i hten
    refine optimumDelay_nonneg hten ?_ hmin (by simpa using hhighest) (by simpa using hhighest)
    split_ifs <;> omega
  · simpa using hhighest

def Within (settings : JbSettings) (d : ℤ) : Prop :=
  0 ≤ d ∧ (0 < settings.maxJb → d ≤ settings.maxJb)

/-- The clamp keeps the target above the minimum and below the maximum if the sizes are not at odds.
-/
theorem clampDelay_within {settings : JbSettings} (hd : 0 ≤ d) (hmax : 0 ≤ settings.maxJb)
    (hle : 0 < settings.maxJb → settings.minJb ≤ settings.maxJb) :
    Within settings (clampDelay settings d) := by
  unfold clampDelay Within
  split_ifs <;> omega

end Target

section Calls

variable {jb jb' jb'' : Jitterbuffer α} {g : GetOutcome α} {p : ℕ}

structure SameTarget (jb jb' : Jitterbuffer α) : Prop where
  settings : jb'.settings = jb.settings
  target : jb'.target = jb.target
  min : jb'.min = jb.min
  delays : jb'.histSortedDelay = jb.histSortedDelay
  pointer : jb'.histPointer = jb.histPointer ∨ jb'.histPointer = 0

namespace SameTarget

theorem refl (jb : Jitterbuffer α) : SameTarget jb jb := ⟨rfl, rfl, rfl, rfl, .inl rfl⟩

theorem trans (h : SameTarget jb jb') (h' : SameTarget jb' jb'') : SameTarget jb jb'' := by
  refine ⟨h'.settings.trans h.settings, h'.target.trans h.target, h'.min.trans h.min,
    h'.delays.trans h.delays, ?_⟩
  rcases h'.pointer with hp | hp
  · rw [hp]
    exact h.pointer
  · exact .inr hp

theorem sorted (h : SameTarget jb jb') (hs : DelaysSorted jb) : DelaysSorted jb' := by
  unfold DelaysSorted at *
  rw [h.delays]
  rcases h.pointer with hp | hp
  · rwa [hp]
  · rw [hp]
    exact hs.mono (Nat.zero_le _)

theorem putVoice (jb : Jitterbuffer α) (frame : JbFrame α) : SameTarget jb (putVoice jb frame) := by
  unfold Speakup.putVoice
  split <;> exact ⟨rfl, rfl, rfl, rfl, .inl rfl⟩

theorem getFrame (jb : Jitterbuffer α) (ts : ℤ) : SameTarget jb (getFrame jb ts).1 := by
  unfold Speakup.getFrame
  split
  · exact refl jb
  · split <;> exact ⟨rfl, rfl, rfl, rfl, .inl rfl⟩

theorem getVoicecase {again : Jitterbuffer α → Option (GetOutcome α)}
    (hagain : ∀ jb g, again jb = some g → SameTarget jb g.jb)
    (hg : getVoicecase again jb now interpl diff = some g) : SameTarget jb g.jb := by
  simp only [Speakup.getVoicecase] at hg
  split at hg
  · cases hg
    exact ⟨rfl, rfl, rfl, rfl, .inr rfl⟩
  split at hg
  · refine .trans ?_ (hagain _ _ hg)
    exact ⟨rfl, rfl, rfl, rfl, .inl rfl⟩
  split at hg
  · have hframe := getFrame { jb with lastAdjustment := now } (now - jb.current)
    have hsame : SameTarget jb { jb with lastAdjustment := now } := ⟨rfl, rfl, rfl, rfl, .inl rfl⟩
    split at hg
    all_goals
      rename_i he
      rw [he] at hframe
      refine (hsame.trans hframe).trans (.trans ?_ (hagain _ _ hg))
      exact ⟨rfl, rfl, rfl, rfl, .inl rfl⟩
  split at hg
  · cases hg
    exact refl jb
  · have hframe := getFrame jb (now - jb.current)
    split at hg
    · rename_i he
      rw [he] at hframe
      split at hg
      · refine hframe.trans (.trans ?_ (hagain _ _ hg))
        exact ⟨rfl, rfl, rfl, rfl, .inl rfl⟩
      · cases hg
        exact hframe.trans ⟨rfl, rfl, rfl, rfl, .inl rfl⟩
    · rename_i he
      rw [he] at hframe
      cases hg
      refine hframe.trans ?_
      split <;> exact ⟨rfl, rfl, rfl, rfl, .inl rfl⟩

theorem getVoice (hg : getVoice fuel jb now interpl = some g) : SameTarget jb g.jb := by
  induction fuel generalizing jb g with
  | zero => cases hg
  | succ fuel ih =>
    simp only [Speakup.getVoice] at hg
    split at hg
    · have hframe := getFrame jb (now - jb.current)
      split at hg
      · rename_i he
        rw [he] at hframe
        cases hg
        exact hframe.trans ⟨rfl, rfl, rfl, rfl, .inl rfl⟩
      · cases hg
    split at hg
    · -- in silence the current delay is set to the target first
      generalize hj :
        (if jb.target - jb.current ≠ 0 then { jb with current := jb.target } else jb) = jb₁ at hg
      have hsame : SameTarget jb jb₁ := by
        rw [← hj]
        split <;> exact ⟨rfl, rfl, rfl, rfl, .inl rfl⟩
      have hframe := hsame.trans (getFrame jb₁ (now - jb₁.current))
      split at hg
      · rename_i he
        rw [he] at hframe
        split at hg
        · refine hframe.trans (.trans ?_ (ih hg))
          exact ⟨rfl, rfl, rfl, rfl, .inl rfl⟩
        · cases hg
          exact hframe.trans ⟨rfl, rfl, rfl, rfl, .inl rfl⟩
      · rename_i he
        rw [he] at hframe
        cases hg
        exact hframe
    · exact getVoicecase (fun _ _ h => ih h) hg

theorem jbSpeakupGet (hg : jbSpeakupGet jb now interpl fuel = some g) : SameTarget jb g.jb := by
  unfold Speakup.jbSpeakupGet at hg
  split at hg
  · cases hg
    exact ⟨rfl, rfl, rfl, rfl, .inl rfl⟩
  · exact getVoice hg

end SameTarget

structure TargetOk (jb : Jitterbuffer α) : Prop where
  sorted : DelaysSorted jb
  within : Within jb.settings (jb.target - jb.min)

theorem TargetOk.congr (h : TargetOk jb) (hs : SameTarget jb jb') : TargetOk jb' := by
  refine ⟨hs.sorted h.sorted, ?_⟩
  rw [hs.settings, hs.target, hs.min]
  exact h.within

def Sound (settings : JbSettings) : Prop :=
  0 ≤ settings.maxJb ∧ (0 < settings.maxJb → settings.minJb ≤ settings.maxJb)

theorem calculateInfo_ok (h : DelaysSorted jb) (hptr : 0 < jb.histPointer) (hs : Sound jb.settings)
    (ts now codec : ℤ) : TargetOk (calculateInfo jb ts now codec) := by
  have hsize : (if jb.histPointer < historySize then jb.histPointer else historySize) =
      min jb.histPointer historySize := by
    split <;> omega
  have hpos : 0 < historySize := by decide
  refine ⟨h, ?_⟩
  simp only [calculateInfo, hsize, add_sub_cancel_left]
  exact clampDelay_within (preferredDelay_nonneg h (by omega) _ codec) hs.1 hs.2

theorem jbSpeakupPut_cases (jb : Jitterbuffer α) (c : PutCall α) :
    SameTarget jb (jbSpeakupPut jb c) ∨ ∃ jb₁, SameTarget jb jb₁ ∧
      SameTarget (calculateInfo (putHistory jb₁ c.ts c.now c.ms c.codec) c.ts c.now c.codec)
      (jbSpeakupPut jb c) := by
  generalize hj :
    { jb with info := { jb.info with framesReceived := jb.info.framesReceived + 1 } } = jb₁
  have hsame : SameTarget jb jb₁ := by
    rw [← hj]
    exact ⟨rfl, rfl, rfl, rfl, .inl rfl⟩
  simp only [jbSpeakupPut, hj]
  split
  · split
    · exact .inl (hsame.trans ⟨rfl, rfl, rfl, rfl, .inl rfl⟩)
    · exact .inl hsame
  · split_ifs
    all_goals first
      | exact .inl ⟨rfl, rfl, rfl, rfl, .inl rfl⟩
      | exact .inr ⟨jb₁, hsame, .putVoice _ _⟩
      | exact .inr ⟨jb₁, hsame, .refl _⟩
  · split
    · exact .inl (hsame.trans (.putVoice _ _))
    · exact .inl hsame
  · exact .inl hsame

theorem jbSpeakupPut_settings (jb : Jitterbuffer α) (c : PutCall α) :
    (jbSpeakupPut jb c).settings = jb.settings := by
  rcases jbSpeakupPut_cases jb c with h | ⟨jb₁, h, h'⟩
  · exact h.settings
  · exact h'.settings.trans h.settings

theorem TargetOk.put (h : TargetOk jb) (hs : Sound jb.settings) (c : PutCall α) :
    TargetOk (jbSpeakupPut jb c) := by
  rcases jbSpeakupPut_cases jb c with h' | ⟨jb₁, h₁, h'⟩
  · exact h.congr h'
  · have hsorted := putHistory_sorted (h₁.sorted h.sorted) c.ts c.now c.ms c.codec
    refine (calculateInfo_ok hsorted (Nat.succ_pos _) ?_ c.ts c.now c.codec).congr h'
    rw [← h₁.settings] at hs
    exact hs

theorem jbSpeakupPut_voice (c : PutCall α) (htype : c.type = .voice) (hmem : c.mem = true)
    (hp : findPointer jb.histSortedTimestamp (maxIndex jb) c.ts = p) (hin : p < historySize)
    (hnew : jb.histSortedTimestamp p ≠ c.ts) :
    jbSpeakupPut jb c = putVoice (calculateInfo (putHistory
      { jb with info := { jb.info with framesReceived := jb.info.framesReceived + 1 } } c.ts c.now
      c.ms c.codec) c.ts c.now c.codec) ⟨c.data, c.ts, c.ms, c.type, c.codec⟩ := by
  have hp' : findPointer jb.histSortedTimestamp
      (maxIndex { jb with info := { jb.info with framesReceived := jb.info.framesReceived + 1 } })
      c.ts = p := hp
  simp only [jbSpeakupPut, htype, hmem, hp', if_pos hin, if_neg hnew, if_true]

theorem calculateInfo_first (hptr : jb.histPointer = 0) (ts now ms codec : ℤ) :
    (calculateInfo (putHistory jb ts now ms codec) ts now codec).min = now - ts ∧
      (calculateInfo (putHistory jb ts now ms codec) ts now codec).target =
        now - ts + clampDelay jb.settings 0 := by
  have hsize : ¬ 0 > historySize - 1 ∧ 0 < historySize ∧ 0 + 1 < historySize := by decide
  simp [calculateInfo, putHistory, maxIndex, hptr, hsize, insertSorted, preferredDelay]

theorem calculateInfo_second (hptr : jb.histPointer = 1) (ts now ms codec : ℤ)
    (hle : jb.histSortedDelay 0 ≤ now - ts) :
    (calculateInfo (putHistory jb ts now ms codec) ts now codec).min = jb.histSortedDelay 0 ∧
      (calculateInfo (putHistory jb ts now ms codec) ts now codec).target =
        jb.histSortedDelay 0 + clampDelay jb.settings (now - ts - jb.histSortedDelay 0) := by
  have hsize : ¬ 1 > historySize - 1 ∧ 1 < historySize ∧ 1 + 1 < historySize := by decide
  simp [calculateInfo, putHistory, maxIndex, hptr, hsize, insertSorted, hle, preferredDelay]

structure Waiting (jb : Jitterbuffer α) : Prop where
  control : jb.controlframes = []
  silence : jb.info.silence = true
  current : jb.current = 0
  later : ∀ f ∈ jb.voiceframes, 1 ≤ f.ts

theorem Waiting.putVoice (h : Waiting jb) {frame : JbFrame α} (hf : 1 ≤ frame.ts) :
    Waiting (putVoice jb frame) := by
  obtain ⟨hc, hs, hcur, hv⟩ := h
  unfold Speakup.putVoice
  split
  · exact ⟨hc, hs, hcur, by simpa using hf⟩
  · rename_i p rest he
    rw [he] at hv
    refine ⟨hc, hs, hcur, fun f hm => ?_⟩
    have hmem : f = frame ∨ f ∈ p :: rest := by
      split at hm
      · exact mem_cons.mp hm
      · rcases mem_append.mp hm with hm | hm
        · right
          exact mem_reverse.mp ((dropWhile_sublist _).subset (mem_reverse.mp hm))
        · rcases mem_cons.mp hm with rfl | hm
          · exact .inl rfl
          · right
            exact mem_reverse.mp ((takeWhile_sublist _).subset (mem_reverse.mp hm))
    rcases hmem with rfl | hmem
    · exact hf
    · exact hv f hmem

theorem Waiting.put (h : Waiting jb) (c : PutCall α) (htype : c.type = .voice) (hmem : c.mem = true)
    (hts : 1 ≤ c.ts) (hp : findPointer jb.histSortedTimestamp (maxIndex jb) c.ts = p)
    (hin : p < historySize) (hnew : jb.histSortedTimestamp p ≠ c.ts) :
    Waiting (jbSpeakupPut jb c) ∧ (jbSpeakupPut jb c).histPointer = jb.histPointer + 1 ∧
      (jbSpeakupPut jb c).histSortedTimestamp =
        (putHistory jb c.ts c.now c.ms c.codec).histSortedTimestamp ∧
      (jbSpeakupPut jb c).histSortedDelay =
      (putHistory jb c.ts c.now c.ms c.codec).histSortedDelay ∧
      (jbSpeakupPut jb c).min =
      (calculateInfo (putHistory jb c.ts c.now c.ms c.codec) c.ts c.now c.codec).min ∧
      (jbSpeakupPut jb c).target =
        (calculateInfo (putHistory jb c.ts c.now c.ms c.codec) c.ts c.now c.codec).target := by
  rw [jbSpeakupPut_voice c htype hmem hp hin hnew]
  have hcalc : Waiting (calculateInfo (putHistory { jb with
      info := { jb.info with framesReceived := jb.info.framesReceived + 1 } } c.ts c.now
        c.ms c.codec)
      c.ts c.now c.codec) := { h with }
  refine ⟨hcalc.putVoice hts, ?_⟩
  unfold Speakup.putVoice
  split <;> exact ⟨rfl, rfl, rfl, rfl, rfl⟩

/-- A get at a time before all frames, also with the target as the delay, returns nothing. -/
theorem Waiting.get (h : Waiting jb) (hnow : now ≤ 0) (htarget : now ≤ jb.target) :
    ∃ g, jbSpeakupGet jb now interpl 1 = some g := by
  obtain ⟨hc, hs, hcur, hv⟩ := h
  have hnone : ∀ jb' : Jitterbuffer α, jb'.voiceframes = jb.voiceframes → ∀ ts < 1,
      Speakup.getFrame jb' ts = (jb', none) := by
    intro jb' he ts hts
    unfold Speakup.getFrame
    split
    · rfl
    · rename_i f rest hf
      have := hv f (by rw [← he, hf]; exact mem_cons_self)
      rw [if_neg (by omega)]
  have hdue : silenceDue jb (now - jb.current) = false := by
    unfold silenceDue
    split
    · rfl
    · rename_i f rest hf
      have := hv f (by rw [hf]; exact mem_cons_self)
      simp only [decide_eq_false_iff_not, not_and]
      omega
  simp only [Speakup.jbSpeakupGet, hc, Speakup.getVoice, hdue, hs, Bool.false_eq_true,
    if_false, if_true]
  generalize hj : (if jb.target - jb.current ≠ 0 then
    { jb with current := jb.target, controlframes := [] } else jb) = jb₁
  have h₁ : jb₁.voiceframes = jb.voiceframes ∧ now - jb₁.current < 1 := by
    rw [← hj]
    split
    · exact ⟨rfl, show now - jb.target < 1 by omega⟩
    · exact ⟨rfl, by omega⟩
  rw [hnone jb₁ h₁.1 _ h₁.2]
  exact ⟨_, rfl⟩

end Calls

end CallWeaver.Jitter.Speakup
