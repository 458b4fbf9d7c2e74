import CallWeaver.Core.Strings
import CallWeaver.Jitter.AdaptiveRuns
import CallWeaver.Jitter.History
import CallWeaver.Jitter.SpeakupTarget

/-! # The generic layer over the jitter buffers

A channel configures its jitter buffer in general terms, in which a size of -1 stands for the
default. Both adaptive implementations take the sizes as they are, and clamp their target with them.
-/

namespace CallWeaver.Jitter.Generic

open Option Function

variable {α : Type}

structure CwJbConf where
  flags : ℕ
  minSize : ℤ
  maxSize : ℤ
  resyncThreshold : ℤ
  timingCompensation : ℤ
  impl : CStr
  deriving DecidableEq, Repr

def cwJbDefaultConfig : CwJbConf := ⟨0, 60, -1, -1, 5, []⟩

/-- The adaptive implementations among `struct cw_jb_impl`. -/
inductive Kind where
  | stevek
  | speakup
  deriving DecidableEq, Repr

inductive JbObj (α : Type) where
  | stevek (jb : Adaptive.Jitterbuf α)
  | speakup (jb : Speakup.Jitterbuffer α)

def jbCreateStevek (junk : Adaptive.JbConf) (conf : CwJbConf) : Adaptive.Jitterbuf α :=
  Adaptive.jbSetconf (Adaptive.jbNew junk)
    { maxJitterbuf := conf.maxSize, minJitterbuf := conf.minSize
      resyncThreshold := conf.resyncThreshold, maxContigInterp := 10 }

def jbCreateSpeakup (conf : CwJbConf) : Speakup.Jitterbuffer α :=
  Speakup.jbSpeakupSetSettings Speakup.jbSpeakupNew ⟨conf.minSize, conf.maxSize, 10, 0, 0, 0, 0⟩

def create (kind : Kind) (junk : Adaptive.JbConf) (conf : CwJbConf) : JbObj α :=
  match kind with
  | .stevek => .stevek (jbCreateStevek junk conf)
  | .speakup => .speakup (jbCreateSpeakup conf)

/-- A voice frame of a channel, with the node that `malloc` returns and what stands behind the
timestamps of the SpeakUp buffer. -/
structure PutCall (α : Type) where
  data : α
  len : ℤ
  ts : ℤ
  now : ℤ
  codec : ℤ
  mem : Option ℕ
  behind : ℤ
  deriving DecidableEq, Repr

inductive Op (α : Type) where
  | put (c : PutCall α)
  | get (now interpl : ℤ)
  | next
  | remove
  | forceResynch
  | info
  deriving DecidableEq, Repr

/-- The functions `jb_*_stevek`. -/
def stepStevek (jb : Adaptive.Jitterbuf α) : ℕ × Op α → Option (Adaptive.Jitterbuf α)
  | (fuel, .put c) => do
    let (jb, _, _) ← Adaptive.jbPut jb ⟨c.data, .voice, c.len, c.ts, c.now, c.mem⟩ fuel
    some jb
  | (_, .get now interpl) => do
    let out ← Adaptive.jbGet jb now interpl
    some out.jb
  | (_, .next) => do
    let (jb, _) ← Adaptive.jbNext jb
    some jb
  | (_, .remove) => do
    let out ← Adaptive.jbGetall jb
    some out.jb
  | (_, .forceResynch) => some { jb with forceResync := true }
  | (_, .info) => some (Adaptive.historyGet jb)

/-- The functions `jb_*_speakup`. -/
def stepSpeakup (jb : Speakup.Jitterbuffer α) : ℕ × Op α → Option (Speakup.Jitterbuffer α)
  | (_, .put c) =>
    some (Speakup.jbSpeakupPut jb ⟨c.data, .voice, c.len, c.ts, c.now, c.codec,
      c.mem.isSome, c.behind⟩)
  | (fuel, .get now interpl) => do
    let out ← Speakup.jbSpeakupGet jb now interpl fuel
    some { out.jb with next := now + interpl }
  | (_, .next) => some jb
  | (_, .remove) => some (Speakup.jbSpeakupGetAll jb).jb
  | (_, .forceResynch) => some jb
  | (_, .info) => some (Speakup.jbSpeakupGetInfo jb)

def step (b : JbObj α) (a : ℕ × Op α) : Option (JbObj α) :=
  match b with
  | .stevek jb => (stepStevek jb a).map .stevek
  | .speakup jb => (stepSpeakup jb a).map .speakup

def JbObj.target : JbObj α → ℤ
  | .stevek jb => jb.info.target
  | .speakup jb => jb.target

def JbObj.min : JbObj α → ℤ
  | .stevek jb => jb.info.min
  | .speakup jb => jb.min

/-- The target is not below the minimum, and not above it by more than a positive maximum. -/
def Clamped (conf : CwJbConf) (b : JbObj α) : Prop :=
  b.min ≤ b.target ∧ (0 < conf.maxSize → b.target ≤ b.min + conf.maxSize)
  deriving Decidable

def Kind.Sound : Kind → CwJbConf → Prop
  | .stevek, conf => 0 ≤ conf.maxSize
  | .speakup, conf => 0 ≤ conf.maxSize ∧ (0 < conf.maxSize → conf.minSize ≤ conf.maxSize)

variable {a : ℕ × Op α}

section Stevek

variable {jb jb' : Adaptive.Jitterbuf α} {conf : CwJbConf} {junk : Adaptive.JbConf}
  {ops : List (ℕ × Op α)}

structure StevekOk (conf : CwJbConf) (jb : Adaptive.Jitterbuf α) : Prop where
  history : Adaptive.HistoryOk jb
  max : jb.conf.maxJitterbuf = conf.maxSize

theorem StevekOk.step (h : StevekOk conf jb) (hs : stepStevek jb a = some jb') :
    StevekOk conf jb' := by
  obtain ⟨fuel, op⟩ := a
  cases op with
  | put c =>
    obtain ⟨⟨jb₁, ret, queued⟩, hput, ⟨⟩⟩ := bind_eq_some_iff.mp hs
    obtain ⟨hok, hconf⟩ := h.history.jbPut hput
    exact ⟨hok, hconf ▸ h.max⟩
  | get now interpl =>
    obtain ⟨g, hget, ⟨⟩⟩ := bind_eq_some_iff.mp hs
    obtain ⟨hok, hconf, -⟩ := h.history.jbGet hget
    exact ⟨hok, hconf ▸ h.max⟩
  | next =>
    obtain ⟨⟨jb₁, ts⟩, hnext, ⟨⟩⟩ := bind_eq_some_iff.mp hs
    have hget : StevekOk conf (Adaptive.historyGet jb) :=
      ⟨h.history.historyGet, (Adaptive.historyGet_conf jb).symm ▸ h.max⟩
    simp only [Adaptive.jbNext] at hnext
    split at hnext
    · obtain ⟨first, -, hnext⟩ := bind_eq_some_iff.mp hnext
      split_ifs at hnext <;> cases hnext
      · exact hget
      · exact hget
      · exact h
    · cases hnext
      exact h
  | remove =>
    simp only [stepStevek, Adaptive.jbGetall, bind_eq_bind, bind_eq_some_iff, some.injEq] at hs
    obtain ⟨g, ⟨⟨jb₁, frame⟩, hget, rfl⟩, rfl⟩ := hs
    have hkeeps := Adaptive.Keeps.queueGetFirst hget
    have hok : StevekOk conf jb₁ := ⟨h.history.keeps hkeeps, hkeeps.conf ▸ h.max⟩
    split <;> exact hok
  | forceResynch =>
    cases hs
    exact ⟨h.history.restarts ⟨rfl, rfl, rfl, .inl ⟨rfl, rfl⟩⟩, h.max⟩
  | info =>
    cases hs
    exact ⟨h.history.historyGet, (Adaptive.historyGet_conf jb).symm ▸ h.max⟩

theorem stevekOk_create (junk : Adaptive.JbConf) (conf : CwJbConf) :
    StevekOk conf (jbCreateStevek junk conf : Adaptive.Jitterbuf α) :=
  ⟨.jbReset _, rfl⟩

theorem StevekOk.clamped_iff {fuel : ℕ} {now interpl : ℤ} (h : StevekOk conf jb)
    (hs : stepStevek jb (fuel, .get now interpl) = some jb') :
    Clamped conf (.stevek jb') ↔ Kind.Sound .stevek conf := by
  obtain ⟨g, hget, ⟨⟩⟩ := bind_eq_some_iff.mp hs
  obtain ⟨-, -, jitter, hj, ht⟩ := h.history.jbGet hget
  rw [h.max] at ht
  simp only [Clamped, JbObj.min, JbObj.target, Kind.Sound, ht, Adaptive.targetAbove,
    Adaptive.targetExtra]
  split_ifs <;> omega

end Stevek

section SpeakUp

variable {jb jb' : Speakup.Jitterbuffer α} {conf : CwJbConf}

structure SpeakupOk (conf : CwJbConf) (jb : Speakup.Jitterbuffer α) : Prop where
  min : jb.settings.minJb = conf.minSize
  max : jb.settings.maxJb = conf.maxSize
  target : Kind.Sound .speakup conf → Speakup.TargetOk jb

theorem SpeakupOk.same (h : SpeakupOk conf jb) (hs : Speakup.SameTarget jb jb') :
    SpeakupOk conf jb' :=
  ⟨hs.settings ▸ h.min, hs.settings ▸ h.max, fun hsound => (h.target hsound).congr hs⟩

theorem SpeakupOk.step (h : SpeakupOk conf jb) (hs : stepSpeakup jb a = some jb') :
    SpeakupOk conf jb' := by
  obtain ⟨fuel, op⟩ := a
  cases op with
  | put c =>
    cases hs
    have hset := Speakup.jbSpeakupPut_settings jb
      ⟨c.data, .voice, c.len, c.ts, c.now, c.codec, c.mem.isSome, c.behind⟩
    refine ⟨by rw [hset, h.min], by rw [hset, h.max], fun hsound => (h.target hsound).put ?_ _⟩
    rw [Speakup.Sound, h.min, h.max]
    exact hsound
  | get now interpl =>
    obtain ⟨g, hget, ⟨⟩⟩ := bind_eq_some_iff.mp hs
    exact h.same ((Speakup.SameTarget.jbSpeakupGet hget).trans ⟨rfl, rfl, rfl, rfl, .inl rfl⟩)
  | next =>
    cases hs
    exact h
  | remove =>
    cases hs
    refine h.same ?_
    unfold Speakup.jbSpeakupGetAll
    split <;> exact ⟨rfl, rfl, rfl, rfl, .inl rfl⟩
  | forceResynch =>
    cases hs
    exact h
  | info =>
    cases hs
    exact h.same ⟨rfl, rfl, rfl, rfl, .inl rfl⟩

theorem speakupOk_create (conf : CwJbConf) :
    SpeakupOk conf (jbCreateSpeakup conf : Speakup.Jitterbuffer α) := by
  have helse : ∀ x : ℤ, Speakup.orElse x 0 = x := by
    intro x
    unfold Speakup.orElse
    split_ifs <;> simp_all
  refine ⟨helse conf.minSize, helse conf.maxSize, fun hsound => ⟨?_, ?_⟩⟩
  · intro i j _ hj
    exact absurd hj (Nat.not_lt_zero j)
  · refine ⟨le_refl 0, fun hpos => ?_⟩
    exact le_of_lt hpos

theorem SpeakupOk.clamped (h : SpeakupOk conf jb) (hsound : Kind.Sound .speakup conf) :
    Clamped conf (.speakup jb) := by
  obtain ⟨hle, hmax⟩ := (h.target hsound).within
  rw [h.max] at hmax
  simp only [Clamped, JbObj.min, JbObj.target]
  omega

def onTime (a : α) : PutCall α := ⟨a, 20, 1, 1, 0, some 0, 0⟩

def lateBy (a : α) (d : ℤ) : PutCall α := ⟨a, 20, 2, 2 + d, 0, some 1, 0⟩

theorem stepSpeakup_onTime (a : α) (conf : CwJbConf) :
    ∃ jb : Speakup.Jitterbuffer α, stepSpeakup (jbCreateSpeakup conf) (0, .put (onTime a)) =
      some jb ∧ Speakup.Waiting jb ∧ jb.min = 0 ∧
      jb.target = Speakup.clampDelay (jbCreateSpeakup conf : Speakup.Jitterbuffer α).settings 0 ∧
      jb.histPointer = 1 ∧ jb.histSortedDelay 0 = 0 ∧
      jb.histSortedTimestamp = update (fun _ => 0) 0 1 := by
  have hw : Speakup.Waiting (jbCreateSpeakup conf : Speakup.Jitterbuffer α) :=
    ⟨rfl, rfl, rfl, by rintro f ⟨⟩⟩
  obtain ⟨hw', hptr, hts, hdelay, hmin, htarget⟩ :=
    hw.put ⟨a, .voice, 20, 1, 1, 0, true, 0⟩ rfl rfl (le_refl 1)
    (show Speakup.findPointer (fun _ => 0) 0 1 = 1 by decide) (by decide)
      (show (0 : ℤ) ≠ 1 by decide)
  obtain ⟨hmin', htarget'⟩ := Speakup.calculateInfo_first
    (show (jbCreateSpeakup conf : Speakup.Jitterbuffer α).histPointer = 0 from rfl) 1 1 20 0
  refine ⟨_, rfl, hw', hmin.trans hmin', ?_, hptr, ?_, hts⟩
  · rw [sub_self, zero_add] at htarget'
    exact htarget.trans htarget'
  · exact congrFun hdelay 0

theorem stepSpeakup_lateBy (a : α) {d : ℤ} (hd : 0 ≤ d) (hw : Speakup.Waiting jb)
    (hptr : jb.histPointer = 1) (hdelay : jb.histSortedDelay 0 = 0)
    (hts : jb.histSortedTimestamp = update (fun _ => 0) 0 1) :
    ∃ jb', stepSpeakup jb (0, .put (lateBy a d)) = some jb' ∧ Speakup.Waiting jb' ∧ jb'.min = 0 ∧
      jb'.target = Speakup.clampDelay jb.settings d := by
  have hfind : Speakup.findPointer jb.histSortedTimestamp (Speakup.maxIndex jb) 2 = 2 := by
    rw [hts, Speakup.maxIndex, hptr]
    decide
  have hnew : jb.histSortedTimestamp 2 ≠ 2 := by
    rw [hts]
    decide
  obtain ⟨hw', -, -, -, hmin, htarget⟩ := hw.put ⟨a, .voice, 20, 2, 2 + d, 0, true, 0⟩ rfl rfl
    (show (1 : ℤ) ≤ 2 by decide) hfind (by decide) hnew
  obtain ⟨hmin', htarget'⟩ := Speakup.calculateInfo_second hptr 2 (2 + d) 20 0 (by omega)
  refine ⟨_, rfl, hw', ?_, ?_⟩
  · exact hmin.trans (hmin'.trans hdelay)
  · refine htarget.trans (htarget'.trans ?_)
    rw [hdelay, zero_add, sub_zero, add_sub_cancel_left]

theorem stepSpeakup_get (hw : Speakup.Waiting jb) :
    ∃ now jb', stepSpeakup jb (1, .get now 20) = some jb' ∧
    jb'.min = jb.min ∧ jb'.target = jb.target := by
  obtain ⟨g, hg⟩ :=
    @Speakup.Waiting.get _ (min 0 jb.target) 20 _ hw (min_le_left ..) (min_le_right ..)
  have hsame := Speakup.SameTarget.jbSpeakupGet hg
  exact ⟨min 0 jb.target, { g.jb with next := min 0 jb.target + 20 }, by simp [stepSpeakup, hg],
    hsame.min, hsame.target⟩

theorem speakup_unclamped (a : α) (hsound : ¬ Kind.Sound .speakup conf) :
    ∃ ops jb now jb', Runs stepSpeakup anyStep (jbCreateSpeakup conf) ops jb ∧
      stepSpeakup jb (1, .get now 20) = some jb' ∧ ¬ Clamped conf (.speakup jb' : JbObj α) := by
  obtain ⟨jb₁, hs₁, hw₁, hmin₁, htarget₁, hptr, hdelay, hts⟩ := stepSpeakup_onTime a conf
  have hok := speakupOk_create (α := α) conf
  have hr₁ : Runs stepSpeakup anyStep (jbCreateSpeakup conf) [(0, .put (onTime a))] jb₁ :=
    .single hs₁ trivial
  by_cases hmax : conf.maxSize < 0
  · -- a jitter above the minimal size brings the negative maximum into play
    obtain ⟨jb₂, hs₂, hw₂, hmin₂, htarget₂⟩ :=
      stepSpeakup_lateBy a (le_max_left 0 conf.minSize) hw₁ hptr hdelay hts
    obtain ⟨now, jb₃, hs₃, hmin₃, htarget₃⟩ := stepSpeakup_get hw₂
    refine ⟨_, jb₂, now, jb₃, hr₁.append (.single hs₂ trivial), hs₃, ?_⟩
    have hset := (hok.step hs₁)
    simp only [Clamped, JbObj.min, JbObj.target, hmin₃, htarget₃, hmin₂, htarget₂,
      Speakup.clampDelay, hset.min, hset.max]
    split_ifs <;> omega
  · -- the minimal size is above the maximum
    have hodd : 0 < conf.maxSize ∧ conf.maxSize < conf.minSize := by
      simp only [Kind.Sound, not_and] at hsound
      omega
    obtain ⟨now, jb₂, hs₂, hmin₂, htarget₂⟩ := stepSpeakup_get hw₁
    refine ⟨_, jb₁, now, jb₂, hr₁, hs₂, ?_⟩
    simp only [Clamped, JbObj.min, JbObj.target, hmin₂, htarget₂, hmin₁, htarget₁,
      Speakup.clampDelay, hok.min, hok.max]
    split_ifs <;> omega

end SpeakUp

variable {ops : List (ℕ × Op α)}

section Runs

variable {b b' : JbObj α} {kind : Kind} {conf : CwJbConf}

def JbObj.Ok (conf : CwJbConf) : Kind → JbObj α → Prop
  | .stevek, .stevek jb => StevekOk conf jb
  | .speakup, .speakup jb => SpeakupOk conf jb
  | _, _ => False

theorem JbObj.Ok.step (h : b.Ok conf kind) (hs : step b a = some b') : b'.Ok conf kind := by
  cases kind <;> cases b
  · obtain ⟨jb', hs', rfl⟩ := map_eq_some_iff.mp hs
    exact StevekOk.step h hs'
  · exact h.elim
  · exact h.elim
  · obtain ⟨jb', hs', rfl⟩ := map_eq_some_iff.mp hs
    exact SpeakupOk.step h hs'

theorem JbObj.Ok.runs {junk : Adaptive.JbConf}
    (hr : Runs Generic.step anyStep (create kind junk conf) ops b) : b.Ok conf kind := by
  refine hr.invariant (fun _ _ _ h hs _ => h.step hs) ?_
  cases kind with
  | stevek => exact stevekOk_create junk conf
  | speakup => exact speakupOk_create conf

theorem runs_speakup {jb jb' : Speakup.Jitterbuffer α} (hr : Runs stepSpeakup anyStep jb ops jb') :
    Runs step anyStep (.speakup jb) ops (.speakup jb') := by
  induction hr with
  | nil jb => exact .nil _
  | cons hs _ _ ih => exact .cons (map_eq_some_iff.mpr ⟨_, hs, rfl⟩) trivial ih

theorem stevek_first_get (junk : Adaptive.JbConf) (conf : CwJbConf) :
    ∃ jb : Adaptive.Jitterbuf α,
      stepStevek (jbCreateStevek junk conf) (0, .get 0 20) = some jb := by
  have hq : Adaptive.Queue (jbCreateStevek junk conf : Adaptive.Jitterbuf α) [] [] :=
    ⟨.nil, rfl, rfl, by simp, .nil, by simp, rfl⟩
  obtain ⟨g, hg, -⟩ := Adaptive.jbGet_eq hq 0 20
  exact ⟨g.jb, by simp [stepStevek, hg]⟩

/-- After every get of every run the target is clamped, if and only if the maximum is not negative
and, for the SpeakUp buffer, a positive one is not below the minimal size. -/
theorem target_clamped_iff [Inhabited α] (kind : Kind) (junk : Adaptive.JbConf) (conf : CwJbConf) :
    (∀ (ops : List (ℕ × Op α)) b fuel now interpl t,
      Runs step anyStep (create kind junk conf) ops b →
      step b (fuel, .get now interpl) = some t → Clamped conf t) ↔ kind.Sound conf := by
  constructor
  · intro h
    cases kind with
    | stevek =>
      obtain ⟨jb, hs⟩ := stevek_first_get (α := α) junk conf
      have hc := h [] _ 0 0 20 (.stevek jb) (.nil _) (map_eq_some_iff.mpr ⟨jb, hs, rfl⟩)
      exact ((stevekOk_create junk conf).clamped_iff hs).mp hc
    | speakup =>
      by_contra hsound
      obtain ⟨ops, jb, now, jb', hr, hs, hc⟩ := speakup_unclamped (default : α) hsound
      exact hc (h ops _ 1 now 20 _ (runs_speakup hr) (map_eq_some_iff.mpr ⟨jb', hs, rfl⟩))
  · intro hsound ops b fuel now interpl t hr hs
    have hok := JbObj.Ok.runs hr
    have hok' := hok.step hs
    cases kind <;> cases b
    · obtain ⟨jb', hs', rfl⟩ := map_eq_some_iff.mp hs
      exact (StevekOk.clamped_iff hok hs').mpr hsound
    · exact hok.elim
    · exact hok.elim
    · obtain ⟨jb', -, rfl⟩ := map_eq_some_iff.mp hs
      exact SpeakupOk.clamped hok' hsound

/-- With the default configuration the first get of the adaptive buffer sets a target below the
minimum, and so does a jitter of 60 ms in the SpeakUp buffer. -/
theorem default_target_below_minimum :
    (∃ b t : JbObj ℕ, create .stevek ⟨0, 0, 0, 0⟩ cwJbDefaultConfig = b ∧
      step b (0, .get 0 20) = some t ∧ t.min = 0 ∧ t.target = -1) ∧
    ∃ b t : JbObj ℕ, Runs step anyStep (create .speakup ⟨0, 0, 0, 0⟩ cwJbDefaultConfig)
        [(0, .put (onTime 7)), (0, .put (lateBy 8 60))] b ∧
      step b (1, .get (-1) 20) = some t ∧ t.min = 0 ∧ t.target = -1 := by
  constructor
  · refine ⟨_, _, rfl, rfl, ?_, ?_⟩ <;> decide +kernel
  · obtain ⟨b, hr, hb⟩ :
      ∃ b : JbObj ℕ, Runs step anyStep (create .speakup ⟨0, 0, 0, 0⟩ cwJbDefaultConfig)
        [(0, .put (onTime 7)), (0, .put (lateBy 8 60))] b ∧
      (step b (1, .get (-1) 20)).any (fun t => t.min = 0 ∧ t.target = -1) = true :=
      exists_runs_of_exec (by decide +kernel)
    obtain ⟨t, ht, hp⟩ := (any_eq_true ..).mp hb
    exact ⟨b, t, hr, ht, of_decide_eq_true hp⟩

end Runs

end CallWeaver.Jitter.Generic
