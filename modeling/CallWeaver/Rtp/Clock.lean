import CallWeaver.Rtp.Digits

/-! # The clock of sent audio

The time stamp of a packet advances by the milliseconds since the frame before it, and the part of
a millisecond left over is not carried on. What is lost that way adds up.
-/

namespace CallWeaver.Rtp

open List Int

/-- A frame of audio that is clocked by its delivery time. -/
structure OutFrame.Timed (f : OutFrame) : Prop where
  audio : f.subclass < formatMaxAudio
  untimed : f.ts = none
  delivery : cwTvzero f.delivery = false
  normal : f.delivery.Normal

/-- The frames with the time stamps that a receiver finds in their packets. -/
def stamped (s : Sender) : List Writing → List (OutFrame × UInt32)
  | [] => []
  | w :: ws =>
    let r := cwRtpRawWrite s w.frame w.now w.codec
    (w.frame, UInt32.ofNat (headerWord (recvInto (fun _ => 0) r.1.audio) 4)) :: stamped r.2 ws

/-- The time stamp is as far from the first one as the delivery times are apart, give or take less
than 8 samples. -/
def OnTime (first p : OutFrame × UInt32) : Prop :=
  ∃ d : ℤ, p.2 - first.2 = UInt32.ofInt d ∧
    |1000 * d - 8 * (p.1.delivery.micros - first.1.delivery.micros)| < 8000

/-- The microseconds that are left over between consecutive times. -/
def drift : List ℤ → ℤ
  | t :: u :: ts => (u - t) % 1000 + drift (u :: ts)
  | _ => 0

variable {s : Sender} {f : OutFrame} {w : Writing} {ws : List Writing} {first p : OutFrame × UInt32}
  {m g usec : ℤ}

theorem drift_nonneg (ts : List ℤ) : 0 ≤ drift ts := by
  fun_induction drift ts with
  | case1 t u ts ih => exact add_nonneg (emod_nonneg _ (by decide)) ih
  | case2 => exact le_rfl

theorem stamped_cons (hw : w.frame.Timed) (s : Sender) (ws : List Writing) :
    ∃ s', stamped s (w :: ws) = (w.frame, s'.lastts) :: stamped s' ws ∧
      s'.txcore = w.frame.delivery ∧ s'.lastts = nextStamp s w.frame w.now := by
  have hcore : (stamp s w.frame w.now).1.txcore = w.frame.delivery := by
    simp [stamp, calcTxstamp, hw.delivery]
  refine ⟨(cwRtpRawWrite s w.frame w.now w.codec).2, ?_⟩
  rw [stamped, cwRtpRawWrite]
  by_cases hbusy : (stamp s w.frame w.now).1.payload ≠ 0 ∨ (stamp s w.frame w.now).1.sendevent ≠ 0
  · obtain ⟨hlast, hbegun⟩ : (begun s w.frame w.now).lastts = nextStamp s w.frame w.now ∧
        (begun s w.frame w.now).txcore = (stamp s w.frame w.now).1.txcore := by
      unfold begun beginEvent
      dsimp only
      split <;> exact ⟨rfl, rfl⟩
    obtain ⟨seqno, eventSeqno, hcontinue⟩ :=
      continueEvent_eq (begun s w.frame w.now) w.frame.samples
    simp only [if_pos hbusy, cwRtpSenddigitContinue]
    rw [show beginEvent (stamp s w.frame w.now).1 w.frame w.now = begun s w.frame w.now from rfl,
      hcontinue]
    rw [(headerWord_datagram ..).2, UInt32.ofNat_toNat]
    exact ⟨rfl, hbegun.trans hcore, hlast⟩
  · simp only [if_neg hbusy]
    rw [(headerWord_datagram ..).2, UInt32.ofNat_toNat]
    exact ⟨rfl, hcore, rfl⟩

theorem ofInt_cwTvdiffMs {a b : Timeval} (ha : a.Normal) (hb : b.Normal) :
    UInt32.ofInt (cwTvdiffMs b a) = UInt32.ofInt ((b.micros - a.micros) / 1000) := by
  obtain ⟨ha₀, ha₁⟩ := ha
  obtain ⟨hb₀, hb₁⟩ := hb
  have hms : (b.sec - a.sec) * 1000 + ((1000000 + b.usec - a.usec).tdiv 1000 - 1000) =
      (b.micros - a.micros) / 1000 := by
    rw [tdiv_eq_ediv_of_nonneg (by omega), Timeval.micros, Timeval.micros]
    omega
  rw [cwTvdiffMs, hms]
  exact congrArg (fun n : ℤ => UInt32.ofNat n.toNat) bmod_emod

theorem nextStamp_timed (hf : f.Timed) (hcore : s.txcore = f.delivery) (hw : w.frame.Timed) :
    nextStamp s w.frame w.now =
      s.lastts + UInt32.ofInt (8 * ((w.frame.delivery.micros - f.delivery.micros) / 1000)) := by
  rw [mul_comm, UInt32.ofInt_mul, ← ofInt_cwTvdiffMs hf.normal hw.normal]
  simp [nextStamp, hw.untimed, clockStamp, hw.audio, hw.delivery, calcTxstamp, hcore, hf.delivery]
  rfl

/-- A time stamp that is `g` microseconds behind. -/
theorem onTime_iff (hp : p.2 - first.2 = UInt32.ofInt (8 * m))
    (hg : p.1.delivery.micros - first.1.delivery.micros = 1000 * m + g) (h₀ : 0 ≤ g)
    (h₁ : g < 2000) : OnTime first p ↔ g < 1000 := by
  rw [OnTime, hp, hg]
  constructor
  · rintro ⟨d, hd, hlt⟩
    have hmod := congrArg UInt32.toNat hd
    simp only [UInt32.ofInt, UInt32.toNat_ofNat'] at hmod
    rw [abs_lt] at hlt
    omega
  · intro hlt
    refine ⟨8 * m, rfl, ?_⟩
    rw [abs_lt]
    omega

theorem onTime_stamped_iff (hf : f.Timed) (hcore : s.txcore = f.delivery)
    (hws : ∀ w ∈ ws, w.frame.Timed) (hlast : s.lastts - first.2 = UInt32.ofInt (8 * m))
    (hg : f.delivery.micros - first.1.delivery.micros = 1000 * m + g) (h₀ : 0 ≤ g) (h₁ : g < 1000) :
    (∀ p ∈ stamped s ws, OnTime first p) ↔
      g + drift (f.delivery.micros :: ws.map (·.frame.delivery.micros)) < 1000 := by
  induction ws generalizing s f m g with
  | nil => simpa [stamped, drift] using h₁
  | cons w ws ih =>
    obtain ⟨hw, hws⟩ := forall_mem_cons.mp hws
    obtain ⟨s', hcons, hcore', hstamp⟩ := stamped_cons hw s ws
    rw [nextStamp_timed hf hcore hw] at hstamp
    rw [hcons, forall_mem_cons, map_cons, drift]
    have hnonneg := drift_nonneg (w.frame.delivery.micros :: ws.map (·.frame.delivery.micros))
    have hsub : s'.lastts - first.2 =
        UInt32.ofInt (8 * (m + (w.frame.delivery.micros - f.delivery.micros) / 1000)) := by
      rw [hstamp, mul_add, UInt32.ofInt_add, ← hlast]
      grind
    have hg' : w.frame.delivery.micros - first.1.delivery.micros =
        1000 * (m + (w.frame.delivery.micros - f.delivery.micros) / 1000) +
          (g + (w.frame.delivery.micros - f.delivery.micros) % 1000) := by omega
    rw [onTime_iff (p := (w.frame, s'.lastts)) hsub hg' (by omega) (by omega)]
    by_cases hlt : g + (w.frame.delivery.micros - f.delivery.micros) % 1000 < 1000
    · rw [and_iff_right hlt, ih hw hcore' hws hsub hg' (by omega) hlt, add_assoc]
    · exact iff_of_false (fun h => hlt h.1) (by omega)

/-- Every packet of a stream is on time if and only if less than a millisecond is lost over the
stream. -/
theorem transmit_clock_iff (s : Sender) (hws : ∀ w ∈ ws, w.frame.Timed) :
    (∀ first ∈ (stamped s ws).head?, ∀ p ∈ stamped s ws, OnTime first p) ↔
      drift (ws.map (·.frame.delivery.micros)) < 1000 := by
  cases ws with
  | nil => simp [stamped, drift]
  | cons w ws =>
    obtain ⟨hw, hws⟩ := forall_mem_cons.mp hws
    obtain ⟨s', hcons, hcore, -⟩ := stamped_cons hw s ws
    have hzero : s'.lastts - s'.lastts = UInt32.ofInt (8 * 0) := UInt32.sub_self _
    have hg : w.frame.delivery.micros - w.frame.delivery.micros = 1000 * 0 + 0 := Int.sub_self _
    have hself : OnTime (w.frame, s'.lastts) (w.frame, s'.lastts) :=
      (onTime_iff hzero hg le_rfl (by decide)).mpr (by decide)
    have hrest : (∀ p ∈ stamped s' ws, OnTime (w.frame, s'.lastts) p) ↔ _ :=
      onTime_stamped_iff hw hcore hws hzero hg le_rfl (by decide)
    rw [zero_add] at hrest
    rw [hcons, map_cons, ← hrest]
    simp [hself]

theorem timed_frameAt (h : 0 ≤ usec ∧ usec < 1000000) : (frameAt usec).Timed :=
  ⟨show formatUlaw < formatMaxAudio by decide, rfl, rfl, h⟩

theorem transmit_clock_iff_even : (∀ w ∈ [0, 20000, 40250].map writeAt, w.frame.Timed) ∧
    ∀ first ∈ (stamped newLine.snd ([0, 20000, 40250].map writeAt)).head?,
      ∀ p ∈ stamped newLine.snd ([0, 20000, 40250].map writeAt), OnTime first p := by
  have hws : ∀ w ∈ [0, 20000, 40250].map writeAt, w.frame.Timed := by
    simp [writeAt, timed_frameAt]
  exact ⟨hws, (transmit_clock_iff newLine.snd hws).mpr (by decide)⟩

/-- Behind two frames that are 1.5 ms apart, the time stamp has advanced by 2 ms in the place of 3
ms. -/
theorem fractions_add_up :
    stamped newLine.snd ([0, 1500, 3000].map writeAt) = [(frameAt 0, 1000), (frameAt 1500, 1008),
      (frameAt 3000, 1016)] ∧ ¬ OnTime (frameAt 0, 1000) (frameAt 3000, 1016) := by
  refine ⟨rfl, fun h => ?_⟩
  have hlt := (onTime_iff (m := 2) (g := 1000) rfl rfl (by decide) (by decide)).mp h
  exact absurd hlt (by decide)

end CallWeaver.Rtp
