import CallWeaver.Rtp.Line

/-! # One digit

The packets of a digit have the time stamp of the frame with which it began and the same duration;
the sender counts its end packets. The receiver takes a packet for a part of the last digit if it
has the time stamp of that, or one 320 samples behind its end. So what it still has to return
depends on its event only.
-/

namespace CallWeaver.Rtp

open List

section Tracking

def owed (c : UInt8) (t : UInt32) (e : LastEvent) : List Frame :=
  if e.code = 0 ∧ samets e t = true then [] else [frameOf c]

def Follows (c : UInt8) (t : UInt32) (e : LastEvent) : Prop :=
  e.code ≠ 0 → e.code = c ∧ e.startts = t

def Missed (t : UInt32) (e : LastEvent) : Prop := e.code = 0 ∧ e.startts ≠ t ∧ samets e t = true

variable {c : UInt8} {t : UInt32} {e e' : LastEvent} {q : EventPacket}

theorem samets_self (e : LastEvent) : samets e e.startts = true := by simp [samets]

theorem samets_iff :
    samets e t = true ↔ t = e.startts ∨ t = e.startts + e.duration.toUInt32 + 320 := by
  have hzero : ∀ x y : UInt32, x - y ≤ 0 ↔ x = y := by
    intro x y
    constructor
    · intro h
      have : x - y = 0 := UInt32.le_antisymm h (UInt32.zero_le ..)
      rw [← UInt32.sub_add_cancel x y, this, UInt32.zero_add]
    · rintro rfl
      simp
  rw [samets, Bool.or_eq_true, decide_eq_true_eq, decide_eq_true_eq, hzero]
  rfl

structure Continues (c : UInt8) (t : UInt32) (q : EventPacket) (e e' : LastEvent)
    (out : List Frame) : Prop where
  follows : Follows c t e'
  duration : e'.duration = q.duration
  owed_eq : out ++ owed c t e' = owed c t e
  missed : Missed t e' ↔ Missed t e
  /-- an end packet settles the digit -/
  ended : q.isEnd = true → owed c t e' = []
  /-- any other packet returns nothing, and the digit is in progress behind it -/
  started : q.isEnd = false → out = [] ∧ (owed c t e ≠ [] → e'.code ≠ 0)

theorem takeDuration_fields (seqno : UInt32) {d : UInt16} (h : e.code = 0 ∨ e.duration = d) :
    (takeDuration e seqno d).startts = e.startts ∧ (takeDuration e seqno d).code = e.code ∧
      (takeDuration e seqno d).duration = d := by
  unfold takeDuration
  split
  · exact ⟨rfl, rfl, rfl⟩
  · rename_i hold
    exact ⟨rfl, rfl, h.resolve_left fun hcode => hold (.inl hcode)⟩

theorem samets_congr (hstart : e'.startts = e.startts) (hdur : e'.duration = e.duration) :
    samets e' t = samets e t := by
  rw [samets, samets, hstart, hdur]

theorem owed_of_samets (hcode : e.code = 0) (h : samets e t = true) :
    owed c t e = [] := if_pos ⟨hcode, h⟩

theorem owed_of_code (h : e.code ≠ 0) : owed c t e = [frameOf c] := if_neg fun hn => h hn.1

theorem owed_of_new (h : samets e t = false) : owed c t e = [frameOf c] :=
  if_neg fun hn => absurd (h.symm.trans hn.2) Bool.false_ne_true

theorem process_continues (hf : Follows c t e) (hd : e.duration = q.duration)
    (hts : q.timestamp = t) (hc : eventCode q.event = c) (hne : c ≠ 0) :
    Continues c t q e (process e q).2 (process e q).1.toList := by
  subst hts
  cases hs : samets e q.timestamp with
  | true =>
    obtain ⟨hstart, hcode, hdur⟩ := takeDuration_fields q.seqno (.inr hd)
    have hsame : samets (takeDuration e q.seqno q.duration) q.timestamp = true :=
      (samets_congr hstart (hdur.trans hd.symm)).trans hs
    rw [process_same hs]
    by_cases hzero : e.code = 0
    · -- nothing is in progress, and this packet changes nothing
      rw [if_neg fun h => h.1 hzero]
      have hcode' := hcode.trans hzero
      have howed := owed_of_samets (c := c) hzero hs
      have howed' := owed_of_samets (c := c) hcode' hsame
      refine ⟨fun h => absurd hcode' h, hdur, ?_, ?_,
        fun _ => howed', fun _ => ⟨rfl, fun h => absurd howed h⟩⟩
      · rw [howed, howed']
        rfl
      · simp only [Missed, hcode', hzero, hstart, hsame, hs]
    · obtain ⟨hcode_eq, hstart_eq⟩ := hf hzero
      have hmissed : ¬ Missed q.timestamp e := fun h => hzero h.1
      by_cases hend : q.isEnd = true
      · rw [if_pos ⟨hzero, hend⟩]
        have howed' :
            owed c q.timestamp { takeDuration e q.seqno q.duration with code := 0 } = [] :=
          owed_of_samets rfl hsame
        refine ⟨fun h => absurd rfl h, hdur, ?_, ?_,
          fun _ => howed', fun h => absurd hend (by simp [h])⟩
        · rw [howed', owed_of_code hzero, hcode_eq]
          rfl
        · exact iff_of_false (fun h => h.2.1 (hstart.trans hstart_eq)) hmissed
      · rw [if_neg fun h => hend h.2]
        have hcode' : (takeDuration e q.seqno q.duration).code ≠ 0 :=
          fun h => hzero (hcode.symm.trans h)
        refine ⟨fun _ => ⟨hcode.trans hcode_eq, hstart.trans hstart_eq⟩, hdur, ?_, ?_,
          fun h => absurd h hend, fun _ => ⟨rfl, fun _ => hcode'⟩⟩
        · rw [owed_of_code hzero, owed_of_code hcode']
          rfl
        · exact iff_of_false (fun h => hcode' h.1) hmissed
  | false =>
    have hzero : e.code = 0 := by
      by_contra hcode
      obtain ⟨-, hstart⟩ := hf hcode
      rw [← hstart, samets_self] at hs
      cases hs
    have hmissed : ¬ Missed q.timestamp e :=
      fun h => absurd (hs.symm.trans h.2.2) Bool.false_ne_true
    rw [process_new hs, hc]
    by_cases hend : q.isEnd = true
    · rw [if_pos ⟨hzero, hne, hend⟩]
      have howed' : owed c q.timestamp ⟨q.seqno, q.timestamp, q.duration, 0⟩ = [] :=
        owed_of_samets rfl (samets_self ⟨q.seqno, q.timestamp, q.duration, 0⟩)
      refine ⟨fun h => absurd rfl h, rfl, ?_, ?_,
        fun _ => howed', fun h => absurd hend (by simp [h])⟩
      · rw [howed', owed_of_new hs]
        rfl
      · exact iff_of_false (fun h => h.2.1 rfl) hmissed
    · rw [if_neg fun h => hend h.2.2, pending, if_pos hzero]
      refine ⟨fun _ => ⟨rfl, rfl⟩, rfl, ?_, ?_,
        fun h => absurd h hend, fun _ => ⟨rfl, fun _ => hne⟩⟩
      · rw [owed_of_new hs, owed_of_code hne]
        rfl
      · exact iff_of_false (fun h => hne h.1) hmissed

theorem process_starts (hzero : e.code = 0) (hts : q.timestamp = t) (hc : eventCode q.event = c)
    (hne : c ≠ 0) : Follows c t (process e q).2 ∧ (process e q).2.duration = q.duration ∧
      (if t ≠ e.startts ∧
        ¬ (q.duration = e.duration ∧ t = e.startts + e.duration.toUInt32 + 320) then
        (process e q).1.toList ++ owed c t (process e q).2 = [frameOf c] ∧
          ¬ Missed t (process e q).2 ∧ (q.isEnd = false → (process e q).1 = none)
      else (process e q).1 = none ∧ owed c t (process e q).2 = []) := by
  subst hts
  cases hs : samets e q.timestamp with
  | true =>
    obtain ⟨hstart, hcode, hdur⟩ := takeDuration_fields q.seqno (d := q.duration) (.inl hzero)
    rw [process_same hs, if_neg fun h => h.1 hzero]
    have hcode' := hcode.trans hzero
    refine ⟨fun h => absurd hcode' h, hdur, ?_⟩
    split
    · -- the packet moves the end of the last digit away from the time stamp
      rename_i hdistinct
      obtain ⟨hne_start, hne_end⟩ := hdistinct
      have hts := (samets_iff.mp hs).resolve_left hne_start
      have hnew : samets (takeDuration e q.seqno q.duration) q.timestamp = false := by
        by_contra hsame
        rw [Bool.not_eq_false, samets_iff, hstart, hdur] at hsame
        have hend := (hsame.resolve_left hne_start).symm.trans hts
        have hdur_eq : q.duration.toUInt32 = e.duration.toUInt32 := by
          rwa [UInt32.add_left_inj, UInt32.add_right_inj] at hend
        exact hne_end ⟨UInt16.toUInt32_inj.mp hdur_eq, hts⟩
      refine ⟨?_, fun h => absurd (hnew.symm.trans h.2.2) Bool.false_ne_true, fun _ => rfl⟩
      rw [owed_of_new hnew]
      rfl
    · rename_i hmet
      refine ⟨rfl, owed_of_samets hcode' ?_⟩
      rw [samets_iff, hstart, hdur]
      by_cases hstart_eq : q.timestamp = e.startts
      · exact .inl hstart_eq
      · obtain ⟨hd, ht⟩ := not_not.mp fun h => hmet ⟨hstart_eq, h⟩
        exact .inr (hd ▸ ht)
  | false =>
    have hdistinct : q.timestamp ≠ e.startts ∧
        ¬ (q.duration = e.duration ∧ q.timestamp = e.startts + e.duration.toUInt32 + 320) := by
      rw [← Bool.not_eq_true, samets_iff, not_or] at hs
      exact ⟨hs.1, fun h => hs.2 h.2⟩
    rw [process_new hs, hc]
    by_cases hend : q.isEnd = true
    · rw [if_pos ⟨hzero, hne, hend⟩, if_pos hdistinct]
      refine ⟨fun h => absurd rfl h, rfl, ?_,
        fun h => h.2.1 rfl, fun h => absurd hend (by simp [h])⟩
      rw [owed_of_samets rfl (samets_self ⟨q.seqno, q.timestamp, q.duration, 0⟩)]
      rfl
    · rw [if_neg fun h => hend h.2.2, if_pos hdistinct, pending, if_pos hzero]
      refine ⟨fun _ => ⟨rfl, rfl⟩, rfl, ?_, fun h => hne h.1, fun _ => rfl⟩
      rw [owed_of_code hne]
      rfl

theorem hearAudio_follows (dtmftimeout timestamp : UInt32) (hf : Follows c t e) :
    Follows c t (hearAudio dtmftimeout e timestamp).2 ∧
      (hearAudio dtmftimeout e timestamp).2.duration = e.duration ∧
      (hearAudio dtmftimeout e timestamp).1 ++ owed c t (hearAudio dtmftimeout e timestamp).2 =
      owed c t e ∧ (Missed t (hearAudio dtmftimeout e timestamp).2 ↔ Missed t e) ∧
      ((hearAudio dtmftimeout e timestamp).1 = [] ↔
        ¬ (e.code ≠ 0 ∧ timestamp - t > dtmftimeout)) := by
  rw [hearAudio]
  split
  · rename_i hlate
    obtain ⟨hcode, hstart⟩ := hf hlate.1
    have hsame : samets { e with code := 0 } t = true := hstart ▸ samets_self { e with code := 0 }
    refine ⟨fun h => absurd rfl h, rfl, ?_, iff_of_false (fun h => h.2.1 hstart) fun h =>
      hlate.1 h.1, iff_of_false (by simp) fun h => h (hstart ▸ hlate)⟩
    rw [owed_of_samets rfl hsame, owed_of_code hlate.1, hcode]
    rfl
  · rename_i hlate
    refine ⟨hf, rfl, rfl, Iff.rfl, iff_of_true rfl fun h => hlate ⟨h.1, ?_⟩⟩
    rw [(hf h.1).2]
    exact h.2

end Tracking

section Payloads

def eventPayload (c : UInt8) (duration : ℕ) : ℕ :=
  eventcodes.idxOf c * 0x1000000 + 0xA0000 + duration

def stagePayload (c : UInt8) (duration : ℕ) : ℕ → ℕ
  | 0 => eventPayload c duration
  | 1 => eventPayload c duration + 0x800000
  | 2 => eventPayload c duration + 0xC00000
  | _ => 0

def nextEnds (n : ℕ) (last : Bool) : ℕ := if n = 0 ∧ last = false then 0 else n + 1

variable {c : UInt8} {d : UInt16} {n : ℕ} {s : Sender} {q : EventPacket}

section

variable (hc : c ∈ eventcodes)

include hc

theorem idxOf_le :
    eventcodes.idxOf c ≤ 16 := Nat.le_of_lt_succ (idxOf_lt_length_iff.mpr hc)

theorem eventcodes_ne_zero : c ≠ 0 := by
  rintro rfl
  exact absurd hc (by decide)

theorem packet_fields
    (hq : q.word = UInt32.ofNat (eventPayload c d.toNat + if n ≠ 0 then 0x800000 else 0)) :
    eventCode q.event = c ∧ q.duration = d ∧ q.isEnd = decide (n ≠ 0) := by
  have hi := idxOf_le hc
  have hd : d.toNat < 65536 := d.toNat_lt
  have hword : q.word.toNat = eventcodes.idxOf c * 0x1000000 + 0xA0000 + d.toNat +
      if n ≠ 0 then 0x800000 else 0 := by
    rw [hq, UInt32.toNat_ofNat', eventPayload]
    refine Nat.mod_eq_of_lt ?_
    split <;> omega
  have hevent : q.event.toNat = eventcodes.idxOf c := by
    rw [EventPacket.event, UInt32.toNat_shiftRight, hword, Nat.shiftRight_eq_div_pow]
    have : (24 : UInt32).toNat % 32 = 24 := rfl
    rw [this]
    split <;> omega
  refine ⟨?_, ?_, ?_⟩
  · rw [eventCode, hevent, if_pos (Nat.lt_succ_of_lt (idxOf_lt_length_iff.mpr hc)),
      getD_eq_getElem?_getD, getElem?_idxOf hc]
    rfl
  · apply UInt16.toNat_inj.mp
    rw [EventPacket.duration, UInt32.toNat_toUInt16, hword]
    split <;> omega
  · have hbit : ((q.word >>> 23) &&& 1).toNat = if n ≠ 0 then 1 else 0 := by
      rw [UInt32.toNat_and, UInt32.toNat_shiftRight, hword, Nat.shiftRight_eq_div_pow]
      have : (23 : UInt32).toNat % 32 = 23 := rfl
      rw [this, show (1 : UInt32).toNat = 1 from rfl, Nat.and_one_is_mod]
      split <;> omega
    have hzero : (q.word >>> 23) &&& 1 ≠ 0 ↔ n ≠ 0 := by
      rw [ne_eq, ← UInt32.toNat_inj, hbit]
      split <;> simp_all
    exact decide_eq_decide.mpr hzero

end

def reachesEnd (s : Sender) (samples : UInt32) : Bool :=
  s.lastts - s.startts + samples ≥ s.duration.toUInt32

theorem continueEvent_stage (samples : UInt32) (hn : n < 3)
    (hp : s.payload = stagePayload c s.duration.toNat n) :
    (continueEvent s samples).1 =
        eventPayload c s.duration.toNat +
        (if nextEnds n (reachesEnd s samples) ≠ 0 then 0x800000 else 0) ∧
      (continueEvent s samples).2.payload =
      stagePayload c s.duration.toNat (nextEnds n (reachesEnd s samples)) := by
  have hd : s.duration.toNat < 65536 := s.duration.toNat_lt
  have hbase : eventPayload c s.duration.toNat / 0x400000 % 2 = 0 ∧
      eventPayload c s.duration.toNat / 0x800000 % 2 = 0 := by
    rw [eventPayload]
    omega
  unfold continueEvent
  match n, hn with
  | 0, _ =>
    simp only [stagePayload] at hp
    rw [if_neg (by omega), if_neg (by omega)]
    dsimp only
    split
    · rename_i hlast
      have hlast' : reachesEnd s samples = true := decide_eq_true hlast
      simp [hlast', hp, nextEnds, stagePayload]
    · rename_i hlast
      have hlast' : reachesEnd s samples = false := decide_eq_false hlast
      simp [hlast', hp, nextEnds, stagePayload]
  | 1, _ =>
    rw [stagePayload] at hp
    have hnext : nextEnds 1 (reachesEnd s samples) = 2 := if_neg fun h => absurd h.1 one_ne_zero
    rw [if_neg (by omega), if_pos (by omega), hnext, if_pos two_ne_zero, stagePayload]
    exact ⟨hp, by dsimp only; omega⟩
  | 2, _ =>
    rw [stagePayload] at hp
    have hnext : nextEnds 2 (reachesEnd s samples) = 3 := if_neg fun h => absurd h.1 two_ne_zero
    rw [if_pos (by omega), hnext, if_pos three_ne_zero]
    exact ⟨by dsimp only; omega, rfl⟩

end Payloads

end CallWeaver.Rtp
