import CallWeaver.Jitter.AdaptiveRuns

/-! # Playout of the adaptive jitter buffer

The timestamp expected next never goes back while voice is played, and the silence that follows
starts behind what has been played, unless a late silence frame sets its beginning back.
-/

namespace CallWeaver.Jitter.Adaptive

open List Option

variable {α : Type} {jb jb' jb'' : Jitterbuf α} {l : List (ℕ × JbFrame α)} {fl : List ℕ} {d ts : ℤ}
  {P : List ℤ}

def GetOutcome.played (g : GetOutcome α) : List ℤ :=
  match g.ret, g.out with
  | .ok, .frame f => if f.type = .voice then [f.ts] else []
  | _, _ => []

def JbInfo.expected (info : JbInfo) : ℤ := info.nextVoiceTs - info.current

/-- What has been played is increasing, ends a frame before the timestamp that is expected, and
before the beginning of a silence. -/
structure Playing (d : ℤ) (info : JbInfo) (P : List ℤ) : Prop where
  increasing : P.Pairwise (· < ·)
  voice : info.silenceBeginTs = 0 → info.lastVoiceMs = d ∧ ∀ p ∈ P, p + d ≤ info.expected
  silent : info.silenceBeginTs ≠ 0 → ∀ p ∈ P, p < info.silenceBeginTs

section Info

variable {info info' info'' : JbInfo}

structure SamePlay (info info' : JbInfo) : Prop where
  next : info'.nextVoiceTs = info.nextVoiceTs
  current : info'.current = info.current
  silence : info'.silenceBeginTs = info.silenceBeginTs
  last : info'.lastVoiceMs = info.lastVoiceMs

theorem SamePlay.trans (h : SamePlay info info') (h' : SamePlay info' info'') :
    SamePlay info info'' :=
  ⟨h'.next.trans h.next, h'.current.trans h.current, h'.silence.trans h.silence,
    h'.last.trans h.last⟩

section

variable (h : Playing d info P)

include h

theorem Playing.congr (hs : SamePlay info info') : Playing d info' P := by
  obtain ⟨hinc, hvoice, hsilent⟩ := h
  refine ⟨hinc, ?_, ?_⟩
  · rw [hs.silence, hs.last, JbInfo.expected, hs.next, hs.current]
    exact hvoice
  · rw [hs.silence]
    exact hsilent

theorem Playing.advance (hv : info.silenceBeginTs = 0) (hs : info'.silenceBeginTs = 0)
    (hlast : info'.lastVoiceMs = d) (he : info.expected ≤ info'.expected) : Playing d info' P := by
  refine ⟨h.increasing, fun _ => ⟨hlast, fun p hp => ?_⟩, fun hne => absurd hs hne⟩
  exact ((h.voice hv).2 p hp).trans he

theorem Playing.play (hts : ∀ p ∈ P, p < ts) (hs : info'.silenceBeginTs = 0)
    (hlast : info'.lastVoiceMs = d) (he : info'.expected = ts + d) :
    Playing d info' (P ++ [ts]) := by
  refine ⟨?_, fun _ => ⟨hlast, fun p hp => ?_⟩, fun hne => absurd hs hne⟩
  · exact pairwise_append.mpr ⟨h.increasing, pairwise_singleton .., by simpa using hts⟩
  · rw [he]
    rcases mem_append.mp hp with hp | hp
    · have := hts p hp
      omega
    · rw [mem_singleton.mp hp]

theorem Playing.quiet (hs : info'.silenceBeginTs ≠ 0) (hts : ∀ p ∈ P, p < info'.silenceBeginTs) :
    Playing d info' P :=
  ⟨h.increasing, fun h0 => absurd h0 hs, fun _ => hts⟩

end

theorem Playing.interpolated {conf : JbConf} (hd : 0 < d) (h : Playing d info P)
    (hv : info.silenceBeginTs = 0) (he : info.expected ≤ info'.expected + d)
    (hs : info'.silenceBeginTs = 0) : Playing d (interpolated conf info' d) P := by
  have hnext : info.expected ≤ info'.nextVoiceTs + d - info'.current := by
    unfold JbInfo.expected at he ⊢
    omega
  simp only [Adaptive.interpolated]
  split
  · by_cases hz : info'.nextVoiceTs + d - info'.current = 0
    · exact h.advance hv hz rfl hnext
    · refine h.quiet hz fun p hp => ?_
      have := (h.voice hv).2 p hp
      exact (lt_add_of_pos_right p hd).trans_le (this.trans hnext)
  · exact h.advance hv hs rfl hnext

end Info

section Get

variable {frame : Option (JbFrame α)} {diff now : ℤ}

structure Due (d E : ℤ) (P : List ℤ) (f : JbFrame α) : Prop where
  ts_le : f.ts ≤ E
  ms_eq : f.type = .voice → f.ms = d
  later : f.type = .silence → ∀ p ∈ P, p < f.ts

theorem Playing.getVoice (hd : 0 < d) (h : Playing d jb.info P) (hv : jb.info.silenceBeginTs = 0)
    (hf : ∀ f ∈ frame, Due d jb.info.expected P f) :
    Playing d (getVoice jb frame diff now d).jb.info
      (P ++ (getVoice jb frame diff now d).played) := by
  obtain ⟨hlast, hP⟩ := h.voice hv
  cases frame with
  | none =>
    simp only [Adaptive.getVoice]
    split
    · rw [GetOutcome.played, append_nil]
      refine h.advance hv hv hlast ?_
      simp only [JbInfo.expected, incrementLosspct]
      omega
    · rw [GetOutcome.played, append_nil]
      refine h.interpolated hd hv ?_ hv
      simp only [JbInfo.expected, incrementLosspct]
      omega
  | some f =>
    obtain ⟨hle, hms, hlater⟩ := hf f rfl
    simp only [Adaptive.getVoice]
    split
    · rename_i htype
      simp only [GetOutcome.played, if_neg htype, append_nil]
      split
      · rename_i hsil
        by_cases hz : f.ts = 0
        · exact h.advance hv hz hlast le_rfl
        · exact h.quiet hz (hlater hsil)
      · exact h.congr ⟨rfl, rfl, rfl, rfl⟩
    · rename_i htype
      rw [not_not] at htype
      have hms := hms htype
      have hle : f.ts + jb.info.current ≤ jb.info.nextVoiceTs := by
        unfold JbInfo.expected at hle
        omega
      split
      · split
        · -- the frame is early or was interpolated over, and less than a frame too late
          simp only [GetOutcome.played, if_pos htype]
          refine h.play (fun p hp => ?_) hv hlast ?_
          · have := hP p hp
            unfold JbInfo.expected at this
            omega
          · simp only [JbInfo.expected, decrementLosspct]
            omega
        · rw [GetOutcome.played, append_nil]
          exact h.congr ⟨rfl, rfl, rfl, rfl⟩
      · -- the frame is the expected one
        have hpos : f.ms > 0 := hms ▸ hd
        simp only [if_pos hpos]
        split
        · rw [GetOutcome.played, append_nil]
          refine h.advance hv hv hms ?_
          simp only [JbInfo.expected, decrementLosspct]
          omega
        · simp only [GetOutcome.played, if_pos htype]
          refine h.play (fun p hp => ?_) hv hms ?_
          · have := hP p hp
            unfold JbInfo.expected at this
            omega
          · simp only [JbInfo.expected, decrementLosspct]
            omega

theorem Playing.getSilent (h : Playing d jb.info P) (hs : jb.info.silenceBeginTs ≠ 0)
    (hf : ∀ f ∈ frame, f.type = .voice → f.ms = d) :
    Playing d (getSilent jb frame).jb.info (P ++ (getSilent jb frame).played) := by
  cases frame with
  | none =>
    rw [Adaptive.getSilent, GetOutcome.played, append_nil]
    exact h
  | some f =>
    simp only [Adaptive.getSilent]
    split
    · rename_i htype
      simp only [GetOutcome.played, if_neg htype, append_nil]
      exact h.congr ⟨rfl, rfl, rfl, rfl⟩
    · rename_i htype
      rw [not_not] at htype
      have hms := hf f rfl htype
      split
      · rw [GetOutcome.played, append_nil]
        exact h.congr ⟨rfl, rfl, rfl, rfl⟩
      · simp only [GetOutcome.played, if_pos htype]
        refine h.play (fun p hp => ?_) rfl hms ?_
        · have := h.silent hs p hp
          omega
        · simp only [JbInfo.expected]
          omega

def Jitterbuf.first (jb : Jitterbuf α) : Option (JbFrame α) := do
  let a ← jb.frames
  (jb.heap a).map fun cell => cell.val

theorem first_eq (hq : Queue jb l fl) : jb.first = l.head?.map Prod.snd := by
  cases l with
  | nil =>
    have hfr : jb.frames = none := hq.head
    simp [Jitterbuf.first, hfr]
  | cons c l =>
    have hfr : jb.frames = some c.1 := hq.head
    simp [Jitterbuf.first, hfr, hq.ring.cell]

theorem SamePlay.historyGet (jb : Jitterbuf α) : SamePlay jb.info (historyGet jb).info := by
  obtain ⟨_, _, _, _, _, he⟩ := historyGet_frame jb
  rw [he]
  exact ⟨rfl, rfl, rfl, rfl⟩

theorem queueGet_first (hq : Queue jb l fl) (ts : ℤ) :
    ∃ jb' frame, queueGet jb ts = some (jb', frame) ∧ SamePlay jb.info jb'.info ∧
      ∀ f ∈ frame, f.ts ≤ ts ∧ jb.first = some f := by
  rw [queueGet, first_eq hq]
  rcases queueGetFirst_eq hq ts false with hget | ⟨c, l', h', fr', rfl, hle, hget, -⟩
  · exact ⟨jb, none, hget, ⟨rfl, rfl, rfl, rfl⟩, by simp⟩
  · refine ⟨_, some c.2, hget, ⟨rfl, rfl, rfl, rfl⟩, ?_⟩
    rintro f ⟨⟩
    exact ⟨by simpa using hle, rfl⟩

/-- A queued frame that is due: voice has the length of a frame, and silence does not begin before
what has been played. -/
structure Fit (d : ℤ) (info : JbInfo) (P : List ℤ) (f : JbFrame α) : Prop where
  voice : f.type = .voice → f.ms = d
  silence : info.silenceBeginTs = 0 → f.type = .silence → ∀ p ∈ P, p < f.ts

theorem Playing.jbGet {g : GetOutcome α} (hd : 0 < d) (h : Playing d jb.info P) (hq : Queue jb l fl)
    (hfit : ∀ f ∈ jb.first, Fit d jb.info P f) (hg : jbGet jb now d = some g) :
    Playing d g.jb.info (P ++ g.played) := by
  have hsame : SamePlay jb.info (setTarget (historyGet jb)).info :=
    (SamePlay.historyGet jb).trans ⟨rfl, rfl, rfl, rfl⟩
  have hq₁ := ((SameQueue.historyGet jb).trans (.setTarget _)).queue hq
  have hfirst : (setTarget (historyGet jb)).first = jb.first := by rw [first_eq hq₁, first_eq hq]
  -- an outcome with `JB_INTERP` has played nothing, before and after its length is filled in
  suffices hraw : ∀ g, jbGetRaw jb now d = some g → Playing d g.jb.info (P ++ g.played) by
    obtain ⟨g₀, hg₀, hg⟩ := bind_eq_some_iff.mp hg
    have h₀ := hraw g₀ hg₀
    cases hg
    split
    · rename_i hret
      simpa only [GetOutcome.played, hret] using h₀
    · exact h₀
  intro g hg
  simp only [jbGetRaw] at hg
  generalize setTarget (historyGet jb) = jb₁ at hsame hq₁ hfirst hg
  have h₁ := h.congr hsame
  split at hg
  · rename_i hv
    obtain ⟨first, hnext⟩ := queueNext_eq hq₁
    obtain ⟨last, hlast⟩ := queueLast_eq hq₁
    simp only [hnext, hlast, bind_eq_bind, bind_some] at hg
    split at hg
    · cases hg
      rw [GetOutcome.played, append_nil]
      refine h₁.interpolated hd hv ?_ hv
      simp only [JbInfo.expected]
      omega
    · obtain ⟨jb₂, frame, hget, hs₂, hframe⟩ := queueGet_first hq₁ jb₁.info.expected
      rw [JbInfo.expected] at hget
      simp only [hget, bind_some, some.injEq] at hg
      rw [← hg]
      refine (h₁.congr hs₂).getVoice hd (hs₂.silence.trans hv) fun f hf => ?_
      obtain ⟨hle, hf⟩ := hframe f hf
      have hfit := hfit f (hfirst ▸ hf)
      rw [hsame.silence] at hv
      refine ⟨?_, hfit.voice, hfit.silence hv⟩
      rwa [JbInfo.expected, hs₂.next, hs₂.current]
  · rename_i hs
    generalize hj : (if jb₁.info.target - jb₁.info.current < -targetExtra ∧
      jb₁.info.lastAdjustment + 10 ≤ now then
      { jb₁ with info := { jb₁.info with current := jb₁.info.current - d, lastAdjustment := now } }
      else jb₁) = jb₂ at hg
    have hj₂ : jb₂.info.silenceBeginTs = jb₁.info.silenceBeginTs ∧ SameQueue jb₁ jb₂ := by
      rw [← hj]
      split <;> exact ⟨rfl, rfl, rfl, rfl, rfl⟩
    have hq₂ := hj₂.2.queue hq₁
    have hfirst₂ : jb₂.first = jb.first := by rw [first_eq hq₂, first_eq hq]
    have hs₂ : jb₂.info.silenceBeginTs ≠ 0 := by rwa [hj₂.1]
    have h₂ : Playing d jb₂.info P := by
      apply h₁.quiet hs₂
      rw [hj₂.1]
      exact h₁.silent hs
    obtain ⟨jb₃, frame, hget, hs₃, hframe⟩ := queueGet_first hq₂ (now - jb₂.info.current)
    simp only [hget, bind_eq_bind, bind_some, some.injEq] at hg
    rw [← hg]
    refine (h₂.congr hs₃).getSilent (by rwa [hs₃.silence]) fun f hf => ?_
    exact (hfit f (hfirst₂ ▸ (hframe f hf).2)).voice

end Get

theorem SamePlay.historyPut (jb : Jitterbuf α) (ts now : ℤ) :
    SamePlay jb.info (historyPut jb ts now).1.info := by
  obtain ⟨_, _, _, _, _, _, _, he⟩ := historyPut_frame jb ts now
  rw [he]
  exact ⟨rfl, rfl, rfl, rfl⟩

theorem SamePlay.jbPut {c : PutCall α} {fuel : ℕ} {ret : JbRet} {queued : Option (JbFrame α)}
    (h : jbPut jb c fuel = some (jb', ret, queued)) :
    SamePlay jb.info jb'.info ∧ ∀ f ∈ queued, f.type = c.type ∧ f.ms = c.ms := by
  simp only [Adaptive.jbPut] at h
  generalize hj : { jb with info := { jb.info with framesIn := jb.info.framesIn + 1 } } = jb₁ at h
  generalize hp :
    (if c.type = .voice then Adaptive.historyPut jb₁ c.ts c.now else (jb₁, true)) = p at h
  have hin : SamePlay jb.info jb₁.info := by
    rw [← hj]
    exact ⟨rfl, rfl, rfl, rfl⟩
  have hsame : SamePlay jb.info p.1.info := by
    rw [← hp]
    split
    · exact hin.trans (.historyPut _ c.ts c.now)
    · exact hin
  split at h
  · simp only [bind_eq_bind, bind_eq_some_iff, some.injEq, Prod.mk.injEq] at h
    obtain ⟨out, hput, rfl, -, rfl⟩ := h
    obtain ⟨⟨_, _, _, _, _, he⟩, hq⟩ := queuePut_frame hput
    refine ⟨hsame.trans ?_, hq⟩
    rw [he]
    exact ⟨rfl, rfl, rfl, rfl⟩
  · cases h
    exact ⟨hsame, by simp⟩

section Runs

variable {s t : Session α} {q : List (ℕ × JbFrame (ℕ × α))} {fs : List ℕ}

/-- One call, with the timestamps of the voice frames that `jb_get` returned with `JB_OK`. -/
def playStep (s : Session α × List ℤ) (a : ℕ × Op α) : Option (Session α × List ℤ) := do
  let t ← step s.1 a
  match a.2 with
  | .get now interpl => do
    let g ← jbGet s.1.jb now interpl
    some (t, s.2 ++ g.played)
  | _ => some (t, s.2)

/-- All voice frames have the length of an interpolated one, and the settings are not changed. -/
def Op.Uniform (d : ℤ) : Op α → Prop
  | .put c => c.type = .voice → c.ms = d
  | .get _ interpl => interpl = d
  | .setconf _ => False
  | _ => True

instance (d : ℤ) : (op : Op α) → Decidable (op.Uniform d)
  | .put _ => inferInstanceAs (Decidable (_ → _))
  | .get _ _ => inferInstanceAs (Decidable (_ = _))
  | .getall => inferInstanceAs (Decidable True)
  | .next => inferInstanceAs (Decidable True)
  | .setconf _ => inferInstanceAs (Decidable False)

/-- A silence frame that is returned while voice is played is later than what has been played. -/
def Op.Orderly (s : Session α × List ℤ) : Op α → Prop
  | .get _ _ => s.1.jb.info.silenceBeginTs = 0 → ∀ f ∈ s.1.jb.first, f.type = .silence →
      ∀ p ∈ s.2, p < f.ts
  | _ => True

instance (s : Session α × List ℤ) : (op : Op α) → Decidable (op.Orderly s)
  | .put _ => inferInstanceAs (Decidable True)
  | .get _ _ => inferInstanceAs (Decidable (_ → ∀ f ∈ s.1.jb.first, _ → ∀ p ∈ s.2, p < f.ts))
  | .getall => inferInstanceAs (Decidable True)
  | .next => inferInstanceAs (Decidable True)
  | .setconf _ => inferInstanceAs (Decidable True)

/-- The frames are conserved, queued voice frames have the length `d`, and what has been played is
increasing. -/
structure PlayoutOk (d : ℤ) (s : Session α × List ℤ) (q : List (ℕ × JbFrame (ℕ × α)))
    (fs : List ℕ) : Prop where
  conserved : Conserved s.1 q fs
  length : ∀ f ∈ s.1.queued, f.type = .voice → f.ms = d
  playing : Playing d s.1.jb.info s.2

theorem playoutOk_step (hd : 0 < d) {s t : Session α × List ℤ} {a : ℕ × Op α}
    (h : PlayoutOk d s q fs) (ha : a.2.Allowed s.1) (hu : a.2.Uniform d) (ho : a.2.Orderly s)
    (hs : playStep s a = some t) : ∃ q' fs', PlayoutOk d t q' fs' := by
  obtain ⟨fuel, op⟩ := a
  obtain ⟨t₁, hstep, hs⟩ := bind_eq_some_iff.mp hs
  -- the session's own step conserves the frames
  have hcons : ∃ q' fs', Conserved t₁ q' fs' := by
    obtain ⟨n, t', htotal, hc⟩ := step_total h.conserved ha
    rw [htotal fuel] at hstep
    split at hstep
    · rwa [← some.inj hstep]
    · cases hstep
  obtain ⟨q', fs', hc⟩ := hcons
  cases op with
  | put c =>
    cases hs
    obtain ⟨⟨jb', ret, queued⟩, hput, ⟨⟩⟩ := bind_eq_some_iff.mp hstep
    obtain ⟨hsame, hq⟩ := SamePlay.jbPut hput
    refine ⟨q', fs', hc, fun f hf hv => ?_, h.playing.congr hsame⟩
    rcases mem_append.mp hf with hf | hf
    · exact h.length f hf hv
    · obtain ⟨htype, hms⟩ := hq f (mem_toList.mp hf)
      rw [hms]
      exact hu (htype ▸ hv)
  | get now interpl =>
    obtain rfl : interpl = d := hu
    obtain ⟨g, hg, ⟨⟩⟩ := bind_eq_some_iff.mp hs
    simp only [step, hg, bind_eq_bind, bind_some, some.injEq] at hstep
    subst hstep
    refine ⟨q', fs', hc, h.length,
      h.playing.jbGet hd h.conserved.queue (fun f hf => ⟨?_, fun hv => ho hv f hf⟩) hg⟩
    have hmem : f ∈ s.1.queued := by
      rw [first_eq h.conserved.queue, Option.mem_map] at hf
      obtain ⟨c, hc, rfl⟩ := hf
      refine h.conserved.all.mem_iff.mp (mem_append_right _ (mem_map_of_mem ?_))
      exact mem_of_mem_head? hc
    exact h.length f hmem
  | getall =>
    cases hs
    simp only [step, jbGetall, queueGetall, bind_eq_bind, bind_eq_some_iff, some.injEq] at hstep
    obtain ⟨g, ⟨⟨jb', frame⟩, hget, rfl⟩, rfl⟩ := hstep
    obtain ⟨_, _, _, _, rfl⟩ := queueGetFirst_frame hget
    refine ⟨q', fs', hc, h.length, h.playing.congr ?_⟩
    split <;> exact ⟨rfl, rfl, rfl, rfl⟩
  | next =>
    cases hs
    simp only [step, jbNext, bind_eq_bind, bind_eq_some_iff, some.injEq] at hstep
    obtain ⟨⟨jb', ts⟩, hnext, rfl⟩ := hstep
    refine ⟨q', fs', hc, h.length, h.playing.congr ?_⟩
    split at hnext
    · obtain ⟨first, -, hnext⟩ := bind_eq_some_iff.mp hnext
      split_ifs at hnext <;> cases hnext
      · exact .historyGet _
      · exact .historyGet _
      · exact ⟨rfl, rfl, rfl, rfl⟩
    · cases hnext
      exact ⟨rfl, rfl, rfl, rfl⟩
  | setconf conf => exact hu.elim

/-- The timestamps of the voice frames played are strictly increasing in every run in which no
silence frame is returned that is not later than what has been played. -/
theorem playout_increasing (hd : 0 < d) (conf : JbConf) {ops : List (ℕ × Op α)}
    {s : Session α × List ℤ}
    (hr : Runs playStep (fun s a _ => a.2.Allowed s.1 ∧ a.2.Uniform d ∧ a.2.Orderly s)
      (Session.new conf, []) ops s) : s.2.Pairwise (· < ·) := by
  have hinv : ∃ q fs, PlayoutOk d s q fs := by
    refine hr.invariant (I := fun s => ∃ q fs, PlayoutOk d s q fs) ?_ ⟨[], [],
      conserved_new conf, ?_, ?_⟩
    · rintro s a t ⟨q, fs, h⟩ hs ⟨ha, hu, ho⟩
      exact playoutOk_step hd h ha hu ho hs
    · simp [Session.new]
    · exact ⟨.nil, fun h0 => absurd h0 (show (-1 : ℤ) ≠ 0 by decide), by simp⟩
  obtain ⟨q, fs, h⟩ := hinv
  exact h.playing.increasing

def delayedVoice : List (ℕ × Op ℕ) :=
  [(9, .put ⟨0, .voice, 20, 20, 20, some 0⟩), (9, .get 100 20),
    (9, .put ⟨1, .voice, 20, 60, 60, some 1⟩), (9, .get 120 20), (9, .get 140 20)]

/-- Two frames are played, with an interpolated one in between. -/
theorem playout_increasing_two :
    ∃ s : Session ℕ × List ℤ,
      Runs playStep (fun s a _ => a.2.Allowed s.1 ∧ a.2.Uniform 20 ∧ a.2.Orderly s)
        (Session.new ⟨0, 0, -1, 0⟩, []) delayedVoice s ∧ s.2 = [20, 60] ∧ s.2.Pairwise (· < ·) :=
  exists_run_of_any (P := fun s => s.2 = [20, 60]) (by decide +kernel) fun _ hr hs =>
    ⟨hs, playout_increasing (by decide) _ hr⟩

/-- A silence frame comes late, and then the delayed voice frame: it is played behind a later one.
-/
theorem late_silence_rolls_back :
    ∃ s : Session ℕ × List ℤ, Runs playStep (fun s a _ => a.2.Allowed s.1 ∧ a.2.Uniform 20)
        (Session.new ⟨0, 0, -1, 0⟩, [])
        (delayedVoice ++ [(9, .put ⟨2, .silence, 0, 30, 150, none⟩), (9, .get 160 20),
          (9, .put ⟨3, .voice, 20, 40, 165, none⟩), (9, .get 180 20)]) s ∧
      s.2 = [20, 60, 40] := exists_runs_of_exec (by decide +kernel)

end Runs

end CallWeaver.Jitter.Adaptive
