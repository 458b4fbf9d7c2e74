import CallWeaver.Udptl.AtMostOnce

/-! # Rejected packets

Secondary packets are parsed to their end before anything is stored. A packet with parity strings
is stored while it is parsed, so one that turns out to be broken behind its message has changed the
ring.
-/

namespace CallWeaver.Udptl

open Function

section Slot

variable {buf msg dst src : List UInt8} {n i ptr span entries : ℕ} {r : RxBuffer}

theorem memcpy_eq_self_iff : memcpy dst src = dst ↔ dst.take src.length = src := by
  constructor
  · intro h
    rw [← h, take_memcpy]
  · intro h
    conv_rhs => rw [← List.take_append_drop src.length dst, h]
    rfl

/-- A slot has the parity strings of a packet from the element `i` on, up to the first broken one.
-/
def HasStrings (buf : List UInt8) : ℕ → ℕ → ℕ → RxBuffer → Prop
  | 0, _, _, _ => True
  | n + 1, i, ptr, r =>
    match decodeOpenType buf ptr with
    | .error k => r.fecLen i = k
    | .ok o => r.fecLen i = o.numOctets ∧ (o.numOctets ≤ localFaxMaxDatagram →
        (r.fec i).take (o.bytes buf).length = o.bytes buf ∧ HasStrings buf n (i + 1) o.ptr r)

def HasPacket (buf msg : List UInt8) (ptr : ℕ) (r : RxBuffer) : Prop :=
  r.bufLen = msg.length ∧ r.buf.take msg.length = msg ∧
    (buf[ptr]? = some 1 → ∀ span, buf[ptr + 1]? = some span → r.fecSpan = span.toNat ∧
      ∀ entries, buf[ptr + 2]? = some entries →
        r.fecEntries = entries.toNat ∧ HasStrings buf entries.toNat 0 (ptr + 3) r)

theorem setFecLen_eq_self_iff {v : ℤ} :
    { r with fecLen := Function.update r.fecLen i v } = r ↔ r.fecLen i = v := by
  constructor
  · intro h
    rw [← h]
    exact update_self ..
  · rintro rfl
    rw [update_eq_self]

theorem decodeFec_eq_self_iff : (decodeFec buf n i ptr r).1 = r ↔ HasStrings buf n i ptr r := by
  induction n generalizing i ptr r with
  | zero => exact iff_of_true rfl trivial
  | succ n ih =>
    rw [decodeFec, HasStrings]
    cases decodeOpenType buf ptr with
    | error k => exact setFecLen_eq_self_iff
    | ok o =>
      simp only
      split_ifs with hlong
      · rw [setFecLen_eq_self_iff]
        exact ⟨fun h => ⟨h, fun hle => absurd hle (Nat.not_le.mpr hlong)⟩, fun h => h.1⟩
      · rw [forall_prop_of_true (Nat.le_of_not_gt hlong)]
        -- the string and its length are not touched again, so both were there before
        constructor
        · intro h
          obtain ⟨hlen, hfec⟩ :=
            (decodeFec_keepsBelow (Prod.ext h rfl)).below i (Nat.lt_succ_self i)
          simp only [update_self] at hlen hfec
          refine ⟨hlen, memcpy_eq_self_iff.mp hfec.symm, ?_⟩
          rw [← hlen, ← hfec, update_eq_self, update_eq_self] at h
          exact ih.mp h
        · rintro ⟨hlen, hfec, hrest⟩
          rw [memcpy_eq_self_iff.mpr hfec, ← hlen, update_eq_self, update_eq_self]
          exact ih.mpr hrest

theorem decodeFec_set_eq_self_iff :
    (decodeFec buf n i ptr { r with fecSpan := span, fecEntries := entries }).1 = r ↔
      r.fecSpan = span ∧ r.fecEntries = entries ∧ HasStrings buf n i ptr r := by
  constructor
  · intro h
    obtain ⟨-, -, hspan, hentries, -⟩ := decodeFec_keepsBelow (Prod.ext h rfl)
    subst hspan hentries
    exact ⟨rfl, rfl, decodeFec_eq_self_iff.mp h⟩
  · rintro ⟨rfl, rfl, h⟩
    exact decodeFec_eq_self_iff.mpr h

theorem storeRest_eq_self_iff : storeRest buf ptr r = r ↔
    (buf[ptr]? = some 1 → ∀ span, buf[ptr + 1]? = some span → r.fecSpan = span.toNat ∧
      ∀ entries, buf[ptr + 2]? = some entries →
        r.fecEntries = entries.toNat ∧ HasStrings buf entries.toNat 0 (ptr + 3) r) := by
  rw [storeRest]
  cases buf[ptr]? with
  | none => simp
  | some one =>
    cases buf[ptr + 1]? with
    | none => simp
    | some span =>
      by_cases hone : one = 1
      · cases buf[ptr + 2]? with
        | none =>
          simp only [hone, ne_eq, not_true_eq_false, if_false, forall_const, Option.some.injEq,
            forall_eq', reduceCtorEq, false_implies, and_true]
          constructor
          · intro h
            rw [← h]
          · rintro h
            rw [← h]
        | some entries => simp [hone, decodeFec_set_eq_self_iff]
      · simp [hone]

theorem storeMessage_eq_self_iff :
    storeRest buf ptr { r with bufLen := msg.length, buf := memcpy r.buf msg } = r ↔
      HasPacket buf msg ptr r := by
  constructor
  · intro h
    obtain ⟨hlen, hbuf⟩ :=
      @storeRest_message { r with bufLen := msg.length, buf := memcpy r.buf msg } buf ptr
    rw [h] at hlen hbuf
    simp only at hlen hbuf
    rw [← hlen, ← hbuf] at h
    exact ⟨hlen, memcpy_eq_self_iff.mp hbuf.symm, storeRest_eq_self_iff.mp h⟩
  · rintro ⟨hlen, hbuf, hrest⟩
    rw [memcpy_eq_self_iff.mpr hbuf, ← hlen]
    exact storeRest_eq_self_iff.mpr hrest

end Slot

section Packet

variable {s t : CwUdptl} {buf msg : List UInt8} {seqNo ptr : ℕ}

def SameRing (s t : CwUdptl) : Prop := t.rxSeqNo = s.rxSeqNo ∧ ∀ x, t.rx x = s.rx x

def FecHarmless (s : CwUdptl) (buf msg : List UInt8) (seqNo ptr : ℕ) : Prop :=
  localFaxMaxDatagram < msg.length ∨ FecSound buf ptr ∨ seqNo ≤ s.rxSeqNo ∧
    HasPacket buf msg ptr (s.rx (bufMask seqNo))

theorem rxFec_unchanged_iff :
    ((rxFec s buf seqNo msg ptr).2 = none → SameRing s (rxFec s buf seqNo msg ptr).1) ↔
      FecHarmless s buf msg seqNo ptr := by
  rw [FecHarmless]
  rcases rxFec_cases s buf seqNo msg ptr with ⟨hlong, he⟩ | ⟨-, hsound, he⟩ | ⟨hmsg, hsound, he⟩
  · rw [he]
    exact iff_of_true (fun _ => ⟨rfl, fun _ => rfl⟩) (.inl hlong)
  · rw [he]
    exact iff_of_true (fun h => nomatch h) (.inr (.inl hsound))
  · rw [he, or_iff_right (Nat.not_lt.mpr hmsg), or_iff_right hsound,
      forall_prop_of_true rfl, SameRing]
    simp only [rxSeqNo_missSlots, storedRing, storedSlot]
    -- a later packet moves the expected number, and no other one marks a slot as missed
    constructor
    · rintro ⟨hseq, hrx⟩
      have hle : seqNo ≤ s.rxSeqNo := by omega
      have hslot := hrx (bufMask seqNo)
      rw [missSlots_of_le hle, update_self] at hslot
      exact ⟨hle, storeMessage_eq_self_iff.mp hslot⟩
    · rintro ⟨hle, hhas⟩
      refine ⟨by omega, fun x => ?_⟩
      rw [missSlots_of_le hle, storeMessage_eq_self_iff.mpr hhas, update_eq_self]

theorem rxRedundancy_unchanged (h : (rxRedundancy s buf seqNo msg ptr).2 = none) :
    SameRing s (rxRedundancy s buf seqNo msg ptr).1 := by
  rw [rxRedundancy] at h ⊢
  cases hdec : decodeSecondaries buf ptr with
  | none => exact ⟨rfl, fun _ => rfl⟩
  | some d =>
    simp only [hdec] at h ⊢
    by_cases hend : d.2 = buf.length
    · rw [if_neg (not_not.mpr hend)] at h
      cases h
    · rw [if_pos hend]
      exact ⟨rfl, fun _ => rfl⟩

/-- A packet that changes nothing when it is rejected: it has no parity strings, or is broken before
its message is stored, or is not broken at all, or all that is stored of it has been in its slot
before. -/
def Harmless (s : CwUdptl) (buf : List UInt8) : Prop :=
  match buf with
  | hi :: lo :: _ =>
    match decodeOpenType buf 2 with
    | .error _ => True
    | .ok o =>
      match buf[o.ptr]? with
      | none => True
      | some b =>
        b &&& 0x80 = 0 ∨ FecHarmless s buf (o.bytes buf) (hi.toNat <<< 8 ||| lo.toNat) (o.ptr + 1)
  | _ => True

/-- A rejected packet leaves the expected number and the ring as they were if and only if it is
harmless. -/
theorem rejected_unchanged_iff (s : CwUdptl) (buf : List UInt8) :
    ((udptlRxPacket s buf).2 = none → (udptlRxPacket s buf).1.rxSeqNo = s.rxSeqNo ∧
      ∀ x, (udptlRxPacket s buf).1.rx x = s.rx x) ↔ Harmless s buf := by
  match buf with
  | [] | [b] => exact iff_of_true (fun _ => ⟨rfl, fun _ => rfl⟩) trivial
  | hi :: lo :: bs =>
    simp only [udptlRxPacket, Harmless]
    cases decodeOpenType (hi :: lo :: bs) 2 with
    | error k => exact iff_of_true (fun _ => ⟨rfl, fun _ => rfl⟩) trivial
    | ok o =>
      simp only
      cases (hi :: lo :: bs)[o.ptr]? with
      | none => exact iff_of_true (fun _ => ⟨rfl, fun _ => rfl⟩) trivial
      | some b =>
        simp only
        split_ifs with hb
        · exact iff_of_true rxRedundancy_unchanged (.inl hb)
        · rw [or_iff_right hb]
          exact rxFec_unchanged_iff

/-- A packet that ends behind its message is rejected, but has moved the expected number, and its
message is in the ring. -/
theorem rejected_packet_stored : (udptlRxPacket (cwUdptlNew .fec 3 3) [0, 5, 1, 7, 0x80]).2 = none ∧
    (udptlRxPacket (cwUdptlNew .fec 3 3) [0, 5, 1, 7, 0x80]).1.rxSeqNo = 5 ∧
    (cwUdptlNew .fec 3 3).rxSeqNo = 0 ∧
    ((udptlRxPacket (cwUdptlNew .fec 3 3) [0, 5, 1, 7, 0x80]).1.rx 5).bufLen = 1 ∧
    ((cwUdptlNew .fec 3 3).rx 5).bufLen = -1 := by
  decide +kernel

end Packet

end CallWeaver.Udptl
