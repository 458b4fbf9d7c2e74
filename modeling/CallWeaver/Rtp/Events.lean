import Mathlib.Data.List.Chain
import CallWeaver.Rtp.Receive

/-! # Telephone events are received once

The receiver tells events apart by their time stamps. An event is sent up with one of its end
packets, or by the first packet of the next event. So any packets of an event can be lost, repeated
or reordered, as long as one of them arrives.
-/

namespace CallWeaver.Rtp

open List

section Packets

structure EventPacket where
  word : UInt32
  seqno : UInt32
  timestamp : UInt32
  deriving DecidableEq, Repr

namespace EventPacket

def event (q : EventPacket) : UInt32 := q.word >>> 24

def duration (q : EventPacket) : UInt16 := q.word.toUInt16

def isEnd (q : EventPacket) : Bool := (q.word >>> 23) &&& 1 ≠ 0

end EventPacket

def frameOf (code : UInt8) : Frame := if code = chr 'X' then .flash else .dtmf code

def process (e : LastEvent) (q : EventPacket) : Option Frame × LastEvent :=
  processRfc2833 false e q.word q.seqno q.timestamp

def processAll (e : LastEvent) : List EventPacket → List Frame × LastEvent
  | [] => ([], e)
  | q :: qs =>
    ((process e q).1.toList ++ (processAll (process e q).2 qs).1, (processAll (process e q).2 qs).2)

def pending (e : LastEvent) : List Frame := if e.code = 0 then [] else [frameOf e.code]

variable {e : LastEvent} {q : EventPacket} {qs rs : List EventPacket} {timestamp : UInt32}

theorem processAll_cons : processAll e (q :: qs) =
    ((process e q).1.toList ++ (processAll (process e q).2 qs).1,
      (processAll (process e q).2 qs).2) := by
  rw [processAll]

theorem processAll_append : processAll e (qs ++ rs) =
    ((processAll e qs).1 ++ (processAll (processAll e qs).2 rs).1,
      (processAll (processAll e qs).2 rs).2) := by
  induction qs generalizing e with
  | nil => rfl
  | cons q qs ih => simp [processAll, ih]

theorem sendDtmf_unmuted : sendDtmf false e = (frameOf e.code, { e with code := 0 }) := by
  by_cases hx : e.code = chr 'X' <;> simp [sendDtmf, frameOf, hx]

theorem process_same (h : samets e q.timestamp = true) : process e q =
    if e.code ≠ 0 ∧ q.isEnd then
      (some (frameOf e.code), { takeDuration e q.seqno q.duration with code := 0 })
    else (none, takeDuration e q.seqno q.duration) := by
  have hcode : (takeDuration e q.seqno q.duration).code = e.code := by
    unfold takeDuration
    split <;> rfl
  have hset : setUpEvent (takeDuration e q.seqno q.duration) true q.event q.timestamp =
      takeDuration e q.seqno q.duration := by
    simp [setUpEvent]
  simp only [process, processRfc2833, h, flushEvent, Bool.not_true, Bool.false_eq_true,
    and_false, if_false]
  rw [show q.word >>> 24 = q.event from rfl, show q.word.toUInt16 = q.duration from rfl, hset,
    hcode, sendDtmf_unmuted, hcode]
  simp [EventPacket.isEnd]

theorem process_new (h : samets e q.timestamp = false) : process e q =
    if e.code = 0 ∧ eventCode q.event ≠ 0 ∧ q.isEnd then
      (some (frameOf (eventCode q.event)), ⟨q.seqno, q.timestamp, q.duration, 0⟩)
    else ((pending e).head?, ⟨q.seqno, q.timestamp, q.duration, eventCode q.event⟩) := by
  simp only [process, processRfc2833, h, flushEvent, sendDtmf_unmuted, Bool.not_false, and_true]
  rw [show q.word >>> 24 = q.event from rfl, show q.word.toUInt16 = q.duration from rfl]
  by_cases hcode : e.code = 0
  · simp only [hcode, ne_eq, not_true_eq_false, if_false, takeDuration, true_or, if_true,
      setUpEvent, Bool.not_false, and_self, EventPacket.isEnd, true_and, and_true, pending,
      head?_nil, decide_eq_true_eq]
  · simp [hcode, takeDuration, setUpEvent, pending]

theorem process_conserves (hcode : eventCode q.event ≠ 0) :
    (process e q).1.toList ++ pending (process e q).2 =
      pending e ++ if samets e q.timestamp then [] else [frameOf (eventCode q.event)] := by
  cases hs : samets e q.timestamp with
  | true =>
    have hduration : ∀ d, pending (takeDuration e q.seqno d) = pending e := by
      intro d
      unfold takeDuration
      split <;> rfl
    rw [process_same hs]
    split
    · rename_i h
      simp [pending, h.1]
    · simp [hduration]
  | false =>
    rw [process_new hs]
    split
    · rename_i h
      simp [pending, h.1]
    · by_cases hc : e.code = 0 <;> simp [pending, hc, hcode]

theorem process_own (h : q.timestamp = e.startts) :
    (process e q).2.startts = e.startts ∧
      ((process e q).2.duration = q.duration ∨ (process e q).2.duration = e.duration) ∧
      (e.code = 0 ∨ q.isEnd = true → (process e q).2.code = 0) := by
  have hs : samets e q.timestamp = true := by simp [samets, h]
  rw [process_same hs, takeDuration]
  refine ⟨?_, ?_, ?_⟩
  · split <;> split <;> rfl
  · split <;> split <;> simp
  · rintro (h | h)
    · rw [if_neg fun hc => hc.1 h, if_pos (.inl h)]
      exact h
    · by_cases hc : e.code = 0
      · rw [if_neg fun hn => hn.1 hc, if_pos (.inl hc)]
        exact hc
      · rw [if_pos ⟨hc, h⟩]

theorem samets_eq_false (h : e.duration.toNat + 320 < (timestamp - e.startts).toNat) :
    samets e timestamp = false := by
  have hstart : e.startts.toNat < 4294967296 := e.startts.toNat_lt
  have hsub : (timestamp - e.startts).toNat =
      (4294967296 - e.startts.toNat + timestamp.toNat) % 4294967296 :=
    UInt32.toNat_sub ..
  have hsum : (e.startts + e.duration.toUInt32 + 40 * 8).toNat =
      (e.startts.toNat + e.duration.toNat + 320) % 4294967296 := by
    rw [UInt32.toNat_add, UInt32.toNat_add, UInt16.toNat_toUInt32]
    have : (40 * 8 : UInt32).toNat = 320 := by decide
    omega
  have hne : timestamp ≠ e.startts := by
    rintro rfl
    simp at h
  have hdiff : ¬ timestamp - (e.startts + e.duration.toUInt32 + 40 * 8) ≤ 0 := by
    rw [UInt32.le_iff_toNat_le, UInt32.toNat_sub, hsum]
    have : (0 : UInt32).toNat = 0 := rfl
    omega
  rw [samets, decide_eq_false hne, decide_eq_false hdiff]
  rfl

end Packets

section Sequences

/-- A telephone event with those of its packets that arrive, in the order in which they do. -/
structure TelephoneEvent where
  event : UInt32
  timestamp : UInt32
  /-- the duration of the event, which its packets do not exceed -/
  duration : UInt16
  packets : List EventPacket
  known : event ≤ 16
  arrives : packets ≠ []
  own : ∀ q ∈ packets, q.event = event ∧ q.timestamp = timestamp ∧ q.duration ≤ duration

def TelephoneEvent.frame (ev : TelephoneEvent) : Frame := frameOf (eventcodes.getD ev.event.toNat 0)

/-- An event begins more than its duration and 320 samples after the one before it. -/
def Spaced (a b : TelephoneEvent) : Prop :=
  a.duration.toNat + 320 < (b.timestamp - a.timestamp).toNat

variable {e : LastEvent} {ev : TelephoneEvent} {evs : List TelephoneEvent} {qs : List EventPacket}

theorem eventCode_known {event : UInt32} (h : event ≤ 16) :
    eventCode event = eventcodes.getD event.toNat 0 ∧ eventCode event ≠ 0 := by
  have hle : event.toNat ≤ 16 := h
  have hcodes : ∀ n ≤ 16, eventcodes.getD n 0 ≠ 0 := by decide
  have heq : eventCode event = eventcodes.getD event.toNat 0 :=
    if_pos (show event.toNat < 18 by omega)
  exact ⟨heq, heq ▸ hcodes _ hle⟩

theorem processAll_own {d : UInt16}
    (hq : ∀ q ∈ qs, q.event ≤ 16 ∧ q.timestamp = e.startts ∧ q.duration ≤ d) (hd : e.duration ≤ d) :
    (processAll e qs).1 ++ pending (processAll e qs).2 = pending e ∧
      (processAll e qs).2.startts = e.startts ∧ (processAll e qs).2.duration ≤ d ∧
      (e.code = 0 ∨ (∃ q ∈ qs, q.isEnd = true) → (processAll e qs).2.code = 0) := by
  induction qs generalizing e with
  | nil => exact ⟨rfl, rfl, hd, by simp [processAll]⟩
  | cons q qs ih =>
    obtain ⟨hknown, hts, hdur⟩ := hq q mem_cons_self
    obtain ⟨hstart, hduration, hcode⟩ := process_own hts
    have hconserve := process_conserves (e := e) (eventCode_known hknown).2
    rw [show samets e q.timestamp = true by simp [samets, hts], if_pos rfl, append_nil] at hconserve
    obtain ⟨hout, hstart', hdur', hcode'⟩ := ih (e := (process e q).2)
      (fun r hr => by rw [hstart]; exact hq r (mem_cons_of_mem _ hr))
      (by rcases hduration with h | h <;> rw [h] <;> assumption)
    rw [processAll_cons]
    refine ⟨?_, hstart'.trans hstart, hdur', ?_⟩
    · rw [append_assoc, hout, hconserve]
    · rintro (h | ⟨r, hr, hend⟩)
      · exact hcode' (.inl (hcode (.inl h)))
      · rcases mem_cons.mp hr with rfl | hr
        · exact hcode' (.inl (hcode (.inr hend)))
        · exact hcode' (.inr ⟨r, hr, hend⟩)

theorem processAll_event (hnew : samets e ev.timestamp = false) :
    (processAll e ev.packets).1 ++ pending (processAll e ev.packets).2 = pending e ++ [ev.frame] ∧
      (processAll e ev.packets).2.startts = ev.timestamp ∧
      (processAll e ev.packets).2.duration ≤ ev.duration ∧
      (2 ≤ (ev.packets.filter EventPacket.isEnd).length →
        (processAll e ev.packets).2.code = 0) := by
  obtain ⟨q, qs, hpackets⟩ := exists_cons_of_ne_nil ev.arrives
  have hown := ev.own
  rw [hpackets] at hown ⊢
  obtain ⟨hevent, hts, hdur⟩ := hown q mem_cons_self
  obtain ⟨hcode, hne⟩ := eventCode_known (hevent ▸ ev.known)
  rw [← hts] at hnew
  have hconserve := process_conserves (e := e) hne
  rw [hnew, if_neg (by simp), hcode, hevent] at hconserve
  have hfirst : (process e q).2.startts = q.timestamp ∧ (process e q).2.duration = q.duration := by
    rw [process_new hnew]
    split <;> exact ⟨rfl, rfl⟩
  have hrest : ∀ r ∈ qs, r.event ≤ 16 ∧ r.timestamp = (process e q).2.startts ∧
      r.duration ≤ ev.duration := by
    intro r hr
    obtain ⟨hr₁, hr₂, hr₃⟩ := hown r (mem_cons_of_mem _ hr)
    exact ⟨hr₁ ▸ ev.known, hr₂.trans (hts.symm.trans hfirst.1.symm), hr₃⟩
  obtain ⟨hout, hstart, hduration, hend⟩ := processAll_own hrest (hfirst.2 ▸ hdur)
  rw [processAll_cons]
  refine ⟨?_, hstart.trans (hfirst.1.trans hts), hduration, fun htwo => hend (.inr ?_)⟩
  · rw [append_assoc, hout]
    exact hconserve
  · -- one of the two end packets is not the first packet
    have hsome : (qs.filter EventPacket.isEnd) ≠ [] := by
      intro hnil
      rw [filter_cons, hnil] at htwo
      split at htwo <;> simp at htwo
    obtain ⟨r, hr⟩ := exists_mem_of_ne_nil _ hsome
    exact ⟨r, mem_filter.mp hr⟩

def arrivals (evs : List TelephoneEvent) : List EventPacket := evs.flatMap TelephoneEvent.packets

theorem processAll_arrivals (hspaced : evs.IsChain Spaced)
    (hfirst : ∀ ev ∈ evs.head?, samets e ev.timestamp = false) :
    (processAll e (arrivals evs)).1 ++ pending (processAll e (arrivals evs)).2 =
      pending e ++ evs.map TelephoneEvent.frame ∧
      ∀ ev ∈ evs.getLast?, 2 ≤ (ev.packets.filter EventPacket.isEnd).length →
        (processAll e (arrivals evs)).2.code = 0 := by
  induction evs generalizing e with
  | nil => simp [arrivals, processAll]
  | cons ev evs ih =>
    obtain ⟨hout, hstart, hduration, hend⟩ := processAll_event (hfirst ev rfl)
    obtain ⟨hnext, hspaced'⟩ := isChain_cons.mp hspaced
    obtain ⟨hout', hend'⟩ := ih hspaced' fun next hn => by
      have hgap : ev.duration.toNat + 320 < (next.timestamp - ev.timestamp).toNat := hnext next hn
      have hle : (processAll e ev.packets).2.duration.toNat ≤ ev.duration.toNat := hduration
      exact samets_eq_false (by rw [hstart]; omega)
    rw [show arrivals (ev :: evs) = ev.packets ++ arrivals evs from rfl, processAll_append]
    refine ⟨?_, fun last hlast htwo => ?_⟩
    · rw [append_assoc, hout', ← append_assoc, hout, map_cons, append_assoc]
      rfl
    · cases evs with
      | nil =>
        obtain rfl : ev = last := Option.some.inj hlast
        exact hend htwo
      | cons next evs => exact hend' last hlast htwo

/-- Whatever packets of a sequence of spaced events are lost, repeated or reordered within an event,
the receiver returns one frame for each event, in order, if a packet of each event arrives and two
end packets of the last one. -/
theorem events_exactly_once (evs : List TelephoneEvent) (hspaced : evs.IsChain Spaced)
    (hfirst : ∀ ev ∈ evs.head?, 320 < ev.timestamp)
    (hlast : ∀ ev ∈ evs.getLast?, 2 ≤ (ev.packets.filter EventPacket.isEnd).length) :
    (processAll ⟨0, 0, 0, 0⟩ (arrivals evs)).1 = evs.map TelephoneEvent.frame := by
  obtain ⟨hout, hend⟩ := processAll_arrivals (e := ⟨0, 0, 0, 0⟩) hspaced fun ev hev =>
    samets_eq_false (by simpa using UInt32.lt_iff_toNat_lt.mp (hfirst ev hev))
  cases hevs : evs.getLast? with
  | none =>
    obtain rfl := getLast?_eq_none_iff.mp hevs
    rfl
  | some last =>
    have hcode := hend last hevs (hlast last hevs)
    have hnone : ∀ e : LastEvent, e.code = 0 → pending e = [] := fun e he => if_pos he
    rw [hnone _ hcode, append_nil] at hout
    exact hout

def digitOne : TelephoneEvent where
  event := 1
  timestamp := 1000
  duration := 800
  packets := [⟨0x018A0320, 7, 1000⟩, ⟨0x010A0320, 6, 1000⟩]
  known := by decide
  arrives := by decide
  own := by decide

def flashAfter : TelephoneEvent where
  event := 16
  timestamp := 2121
  duration := 800
  packets := [⟨0x108A0320, 20, 2121⟩, ⟨0x108A0320, 20, 2121⟩]
  known := by decide
  arrives := by decide
  own := by decide

theorem events_exactly_once_flash :
    (processAll ⟨0, 0, 0, 0⟩ (arrivals [digitOne, flashAfter])).1 = [.dtmf (chr '1'), .flash] := by
  have hspaced : [digitOne, flashAfter].IsChain Spaced := by
    refine isChain_pair.mpr ?_
    unfold Spaced
    decide
  have hfirst : ∀ ev ∈ [digitOne, flashAfter].head?, 320 < ev.timestamp := by
    rintro ev ⟨⟩
    decide
  have hlast : ∀ ev ∈ [digitOne, flashAfter].getLast?,
      2 ≤ (ev.packets.filter EventPacket.isEnd).length := by
    rintro ev ⟨⟩
    decide
  rw [events_exactly_once _ hspaced hfirst hlast]
  decide

end Sequences

end CallWeaver.Rtp
