import CallWeaver.Rtp.Receive

/-! # The payload of a packet

The payload is what the fixed header, the contributing sources, the header extension and the
padding leave of a datagram. Here is when `cw_rtp_read` extracts it from a packet of a voice format.
-/

namespace CallWeaver.Rtp

open List

def octet (d : List UInt8) (i : ℕ) : ℕ := (d.getD i 0).toNat

def version (d : List UInt8) : ℕ := octet d 0 / 64

def hasPadding (d : List UInt8) : Bool := octet d 0 / 32 % 2 = 1

def hasExtension (d : List UInt8) : Bool := octet d 0 / 16 % 2 = 1

def csrcCount (d : List UInt8) : ℕ := octet d 0 % 16

def payloadType (d : List UInt8) : ℕ := octet d 1 % 128

def paddingCount (d : List UInt8) : ℕ := if hasPadding d then octet d (d.length - 1) else 0

def extensionLength (d : List UInt8) : ℕ :=
  octet d (4 * csrcCount d + 14) * 256 + octet d (4 * csrcCount d + 15)

def headerLength (d : List UInt8) : ℕ :=
  12 + 4 * csrcCount d + if hasExtension d then 4 + 4 * extensionLength d else 0

def Fits (d : List UInt8) : Prop := headerLength d + paddingCount d ≤ d.length
  deriving Decidable

def payload (d : List UInt8) : List UInt8 :=
  (d.take (d.length - paddingCount d)).drop (headerLength d)

theorem payload_eq (d : List UInt8) :
    payload d = (d.drop (headerLength d)).take (d.length - paddingCount d - headerLength d) := by
  rw [payload, drop_take]

theorem length_payload (d : List UInt8) :
    (payload d).length = d.length - paddingCount d - headerLength d := by
  rw [payload, length_drop, length_take]
  omega

variable {d : List UInt8} {old mem f : ℕ → UInt8} {p : Platform} {s : Session} {inc : Incoming}
  {i hdrlen code seqno : ℕ} {now : Timeval}

theorem recvInto_eq (hi : i < d.length) : recvInto old d i = d.getD i 0 := by
  simp [recvInto, getD_eq_getElem?_getD, getElem?_eq_getElem hi]

theorem octet_lt (i : ℕ) : octet d i < 256 := (d.getD i 0).toNat_lt

theorem headerWord_zero (old : ℕ → UInt8) (hd : 12 ≤ d.length) :
    headerWord (recvInto old d) 0 = octet d 0 * 0x1000000 + octet d 1 * 0x10000 + octet d 2 *
      0x100 + octet d 3 := by
  have hword : ∀ mem, headerWord mem 0 = ntohl (mem 0) (mem 1) (mem 2) (mem 3) := fun _ => rfl
  rw [hword, recvInto_eq (by omega), recvInto_eq (by omega), recvInto_eq (by omega),
    recvInto_eq (by omega)]
  simp only [ntohl, ntohs, octet]
  omega

/-- What `cw_rtp_read` takes for the length of the extension when there are no sources, from a word
that can be left from an earlier datagram. -/
def misreadLength (old : ℕ → UInt8) (d : List UInt8) : ℕ := headerWord (recvInto old d) 16 % 0x10000

theorem extent_eq (hd : 12 ≤ d.length) : extent (recvInto old d) d.length =
    if csrcCount d ≠ 0 ∧ d.length < 12 + 4 * csrcCount d + paddingCount d then none
    else if hasExtension d then
      if csrcCount d = 0 ∧ misreadLength old d = 0 then some ((d.length : ℤ) - paddingCount d, 16)
      else none
    else some ((d.length : ℤ) - paddingCount d, 12 + 4 * csrcCount d) := by
  have h₁ := octet_lt (d := d) 1
  have h₂ := octet_lt (d := d) 2
  have h₃ := octet_lt (d := d) 3
  have hpad : headerWord (recvInto old d) 0 / 0x20000000 % 2 = 1 ↔ hasPadding d = true := by
    rw [headerWord_zero old hd, hasPadding, decide_eq_true_eq]; omega
  have hcsrc : headerWord (recvInto old d) 0 / 0x1000000 % 16 = csrcCount d := by
    rw [headerWord_zero old hd, csrcCount]; omega
  have hext : headerWord (recvInto old d) 0 / 0x10000000 % 2 = 1 ↔ hasExtension d = true := by
    rw [headerWord_zero old hd, hasExtension, decide_eq_true_eq]; omega
  have hlast : recvInto old d (d.length - 1) = d.getD (d.length - 1) 0 := recvInto_eq (by omega)
  have hstop :
      (if hasPadding d = true then (d.length : ℤ) - ((d.getD (d.length - 1) 0).toNat : ℕ)
        else d.length) =
      (d.length : ℤ) - paddingCount d := by
    rw [paddingCount]
    split
    · rfl
    · simp
  have hshort : (d.length : ℤ) - paddingCount d < (12 + 4 * csrcCount d : ℕ) ↔
      d.length < 12 + 4 * csrcCount d + paddingCount d := by omega
  simp only [extent, hpad, hcsrc, hext, hlast, hstop, sockaddrLen, Nat.mul_comm (csrcCount d) 4]
  simp only [hshort]
  by_cases hs : csrcCount d ≠ 0 ∧ d.length < 12 + 4 * csrcCount d + paddingCount d
  · rw [if_pos hs, if_pos hs]
  rw [if_neg hs, if_neg hs]
  by_cases hx : hasExtension d = true
  · rw [if_pos hx, if_pos hx]
    by_cases hc : csrcCount d = 0
    · have hword : headerWord (recvInto old d) (12 + 4 * csrcCount d + 4) % 0x10000 =
          misreadLength old d := by
        rw [hc]; rfl
      rw [if_pos (show 16 ≥ 12 + 4 * csrcCount d + 4 by omega), hword]
      by_cases hm : misreadLength old d = 0
      · simp [hc, hm]
      · rw [if_pos (by omega), if_neg (by omega)]
    · rw [if_neg (show ¬ 16 ≥ 12 + 4 * csrcCount d + 4 by omega), if_pos (by omega),
        if_neg (by omega)]
  · rw [if_neg hx, if_neg hx]

section Swapping

variable {l : List UInt8} {n : ℕ}

def SwapInvariant (l : List UInt8) : Prop :=
  ∀ i < l.length / 2, l.getD (2 * i) 0 = l.getD (2 * i + 1) 0 ∧
    (l.getD (2 * i + 1) 0 < 128 ∨ l.getD (2 * i + 1) 0 = 0xFF)

instance (l : List UInt8) : Decidable (SwapInvariant l) := inferInstanceAs (Decidable (∀ i < _, _))

def Unswapped (p : Platform) (code : ℕ) (l : List UInt8) : Prop :=
  code = formatSlinear ∧ p.littleEndian → SwapInvariant l

theorem map_range_eq_iff : (List.range l.length).map f = l ↔ ∀ i < l.length, f i = l.getD i 0 := by
  constructor
  · intro h i hi
    conv_rhs => rw [← h]
    simp [hi]
  · intro h
    exact ext_getElem (by simp) fun i _ hi => by simp [h i hi, hi]

theorem swap_eq_iff (mem : ℕ → UInt8) (hmem : ∀ i < l.length, mem i = l.getD i 0) :
    (List.range l.length).map (cwSwapcopySamples mem (l.length / 2 : ℕ)) = l ↔ SwapInvariant l := by
  rw [map_range_eq_iff]
  constructor
  · intro h i hi
    have heven := h (2 * i) (by omega)
    have hodd := h (2 * i + 1) (by omega)
    rw [cwSwapcopySamples, if_pos (by omega), if_pos (by omega), hmem _ (by omega)] at heven
    rw [cwSwapcopySamples, if_pos (by omega), if_neg (by omega), hmem _ (by omega)] at hodd
    refine ⟨heven.symm, ?_⟩
    by_cases hsign : l.getD (2 * i + 1) 0 ≥ 128
    · rw [if_pos hsign] at hodd
      exact .inr hodd.symm
    · exact .inl (UInt8.not_le.mp hsign)
  · intro h i hi
    rw [cwSwapcopySamples]
    split
    · obtain ⟨heq, hsign⟩ := h (i / 2) (by omega)
      split
      · rw [hmem _ (by omega), show i + 1 = 2 * (i / 2) + 1 by omega, ← heq]
        congr 1
        omega
      · rw [hmem _ hi, hmem _ (by omega)]
        rw [show 2 * (i / 2) + 1 = i by omega, show 2 * (i / 2) = i - 1 by omega] at heq
        rw [show 2 * (i / 2) + 1 = i by omega] at hsign
        split
        · exact (hsign.resolve_left (UInt8.not_lt.mpr ‹_›)).symm
        · exact heq
    · exact hmem i hi

theorem data_voiceFrame (p : Platform) (now : Timeval) (code seqno : ℕ) (timestamp : UInt32)
    (mark : Bool) (hraw : s.rawdata = recvInto old d) (hle : hdrlen + n ≤ d.length) :
    ∃ m, (voiceFrame p s now hdrlen n code seqno timestamp mark).1 = .media m ∧ m.datalen = n ∧
      (m.data = (d.drop hdrlen).take n ↔ Unswapped p code ((d.drop hdrlen).take n)) := by
  refine ⟨_, rfl, rfl, ?_⟩
  have hlen : ((d.drop hdrlen).take n).length = n := by simp; omega
  have hmem : ∀ i < n, s.rawdata (hdrlen + i) = ((d.drop hdrlen).take n).getD i 0 := by
    intro i hi
    rw [hraw, recvInto_eq (by omega)]
    simp [getD_eq_getElem?_getD, hi]
  simp only [dataAt, Int.toNat_natCast,
    show ∀ i, ¬ hdrlen + i < hdrlen by omega, if_false, Nat.add_sub_cancel_left]
  by_cases hswap : code = formatSlinear ∧ p.littleEndian
  · have hsamples : cwCodecGetSamples p code (fun i => s.rawdata (hdrlen + i)) n =
        ((n / 2 : ℕ) : ℤ) := by
      rw [hswap.1]
      rfl
    rw [Unswapped, if_pos hswap, hsamples, forall_prop_of_true hswap]
    have hiff :=
      swap_eq_iff (l := (d.drop hdrlen).take n) (fun i => s.rawdata (hdrlen + i)) (by rwa [hlen])
    rwa [hlen] at hiff
  · rw [Unswapped, if_neg hswap]
    refine iff_of_true ?_ fun h => absurd h hswap
    have hiff :=
      map_range_eq_iff (l := (d.drop hdrlen).take n) (f := fun i => s.rawdata (hdrlen + i))
    rw [hlen] at hiff
    exact hiff.mpr hmem

end Swapping

/-- The frame is the null frame exactly when the parts do not fit, and has the payload otherwise. -/
def Extracts (f : Frame) (d : List UInt8) : Prop :=
  (f = .null ↔ ¬ Fits d) ∧
    (f = .null ∨ ∃ m, f = .media m ∧ m.datalen = (payload d).length ∧ m.data = payload d)

/-- The payload can be found by `cw_rtp_read`. With an extension it has to be empty, without sources
in front and with a zero length in the word behind it too; without one the parts have to fit if
there are no sources. -/
def Extractable (p : Platform) (s : Session) (inc : Incoming) (d : List UInt8) : Prop :=
  if ¬ inc.them then ¬ Fits d
  else if hasExtension d then
    if csrcCount d = 0 ∧ misreadLength s.rawdata d = 0 then
      Fits d ∧ extensionLength d = 0 ∧ Unswapped p (s.lookupPt (payloadType d)).code (payload d)
    else ¬ Fits d
  else (csrcCount d = 0 → Fits d) ∧
    (Fits d → Unswapped p (s.lookupPt (payloadType d)).code (payload d))

@[simp] theorem extracts_null : Extracts .null d ↔ ¬ Fits d := by simp [Extracts]

theorem extracts_media_iff {m : Media} :
    Extracts (.media m) d ↔ Fits d ∧ m.datalen = (payload d).length ∧ m.data = payload d := by
  simp [Extracts]

theorem extracts_voiceFrame_iff {timestamp : UInt32} {mark : Bool}
    (hraw : s.rawdata = recvInto old d) :
    Extracts (voiceFrame p s now hdrlen ((d.length : ℤ) - paddingCount d - hdrlen) code seqno
      timestamp mark).1 d ↔ Fits d ∧ headerLength d = hdrlen ∧ Unswapped p code (payload d) := by
  by_cases hfits : Fits d
  · by_cases hhdr : headerLength d = hdrlen
    · have hle : headerLength d + paddingCount d ≤ d.length := hfits
      have hpayload : hdrlen + (d.length - paddingCount d - hdrlen) ≤ d.length := by omega
      obtain ⟨m, hm, hdatalen, hdata⟩ :=
        data_voiceFrame p now code seqno timestamp mark hraw hpayload
      have hn : ((d.length - paddingCount d - hdrlen : ℕ) : ℤ) =
        (d.length : ℤ) - paddingCount d - hdrlen := by omega
      rw [← hn, hm, extracts_media_iff, hdatalen, length_payload, hhdr]
      simp only [hfits, true_and]
      rw [payload_eq, hhdr, hdata]
    · refine iff_of_false (fun h => ?_) fun h => hhdr h.2.1
      have hdatalen := (extracts_media_iff.mp h).2.1
      rw [length_payload] at hdatalen
      have hle : headerLength d + paddingCount d ≤ d.length := hfits
      simp only at hdatalen
      omega
  · exact iff_of_false (fun h => hfits (extracts_media_iff.mp h).1) fun h => hfits h.1

theorem readPacket_voice (p : Platform) (now : Timeval) (hraw : s.rawdata = recvInto old d)
    (hlen : 12 ≤ d.length) (hver : version d = 2)
    (hformat : (s.lookupPt (payloadType d)).isCwFormat = true)
    (hvoice : (s.lookupPt (payloadType d)).code < formatMaxAudio) (hcode : s.event.code = 0) :
    ∃ (s' : Session) (seqno : ℕ) (timestamp : UInt32) (mark : Bool), s'.rawdata = recvInto old d ∧
      (readPacket p s now d.length).1 = match extent (recvInto old d) d.length with
        | none => .null
        | some (stop, hdrlen) =>
          (voiceFrame p s' now hdrlen (stop - hdrlen) (s.lookupPt (payloadType d)).code seqno
            timestamp mark).1 := by
  have h₁ := octet_lt (d := d) 1
  have h₂ := octet_lt (d := d) 2
  have h₃ := octet_lt (d := d) 3
  have hword := headerWord_zero old hlen
  have hversion : headerWord (recvInto old d) 0 / 0x40000000 = 2 := by
    rw [version] at hver
    omega
  have hpt : headerWord (recvInto old d) 0 / 0x10000 % 128 = payloadType d := by
    rw [hword, payloadType]; omega
  let timestamp := UInt32.ofNat (headerWord (recvInto old d) 4)
  let seqno := headerWord (recvInto old d) 0 % 0x10000
  refine ⟨{ s with
    lastrxformat := (s.lookupPt (payloadType d)).code, rxseqno := seqno, lastrxts := timestamp },
    seqno, timestamp, headerWord (recvInto old d) 0 / 0x800000 % 2 = 1, hraw, ?_⟩
  simp only [readPacket, hraw, hversion, hpt, hformat, ne_eq, not_true_eq_false, if_false, if_true]
  cases extent (recvInto old d) d.length with
  | none => rfl
  | some r => simp [codecFrame, hcode, hvoice, seqno, timestamp, hraw]

theorem extracts_readPacket_iff (hraw : s.rawdata = recvInto old d) (hlen : 12 ≤ d.length)
    (hver : version d = 2) (hformat : (s.lookupPt (payloadType d)).isCwFormat = true)
    (hvoice : (s.lookupPt (payloadType d)).code < formatMaxAudio) (hcode : s.event.code = 0) :
    Extracts (readPacket p s now d.length).1 d ↔ if hasExtension d then
        if csrcCount d = 0 ∧ misreadLength old d = 0 then
          Fits d ∧ extensionLength d = 0 ∧ Unswapped p (s.lookupPt (payloadType d)).code (payload d)
        else ¬ Fits d
      else (csrcCount d = 0 → Fits d) ∧
      (Fits d → Unswapped p (s.lookupPt (payloadType d)).code (payload d)) := by
  obtain ⟨s', seqno, timestamp, mark, hraw', hread⟩ :=
    readPacket_voice p now hraw hlen hver hformat hvoice hcode
  rw [hread, extent_eq hlen]
  by_cases hx : hasExtension d = true
  · simp only [if_pos hx]
    by_cases hm : csrcCount d = 0 ∧ misreadLength old d = 0
    · have hs : ¬ (csrcCount d ≠ 0 ∧ d.length < 12 + 4 * csrcCount d + paddingCount d) :=
        fun h => h.1 hm.1
      have hhdr : headerLength d = 16 ↔ extensionLength d = 0 := by
        rw [headerLength, if_pos hx, hm.1]; omega
      rw [if_neg hs, if_pos hm, if_pos hm, ← hhdr]
      exact extracts_voiceFrame_iff hraw'
    · rw [if_neg hm, if_neg hm]
      simp
  · simp only [if_neg hx]
    have hhdr : headerLength d = 12 + 4 * csrcCount d := by rw [headerLength, if_neg hx]; omega
    by_cases hs : csrcCount d ≠ 0 ∧ d.length < 12 + 4 * csrcCount d + paddingCount d
    · have hnot : ¬ Fits d := by rw [Fits, hhdr]; omega
      rw [if_pos hs]
      simp [hnot, hs.1]
    · rw [if_neg hs]
      have hfits : csrcCount d ≠ 0 → Fits d := by rw [Fits, hhdr]; omega
      rw [extracts_voiceFrame_iff hraw', and_iff_right hhdr]
      constructor
      · rintro ⟨hf, hu⟩
        exact ⟨fun _ => hf, fun _ => hu⟩
      · rintro ⟨hf, hu⟩
        have hall : Fits d := by
          by_cases hc : csrcCount d = 0
          · exact hf hc
          · exact hfits hc
        exact ⟨hall, hu hall⟩

/-- For every datagram with a packet of a voice format, `cw_rtp_read` returns the null frame exactly
when its parts do not fit and else a frame with the payload, if and only if the payload can be
found. -/
theorem payload_extraction (p : Platform) (s : Session) (inc : Incoming) (datagram d : List UInt8)
    (hdatagram : inc.datagram = some datagram) (hd : d = Incoming.received datagram)
    (hlen : 12 ≤ d.length) (hver : version d = 2)
    (hformat : (s.lookupPt (payloadType d)).isCwFormat = true)
    (hvoice : (s.lookupPt (payloadType d)).code < formatMaxAudio) (hcode : s.event.code = 0) :
    Extracts (cwRtpRead p s inc).1 d ↔ Extractable p s inc d := by
  have hshort : ¬ d.length < 12 := by omega
  simp only [cwRtpRead, hdatagram, ← hd, if_neg hshort, Extractable]
  by_cases hthem : inc.them = true
  · simp only [hthem, Bool.not_true, Bool.false_eq_true, if_false, not_true_eq_false]
    split
    · exact extracts_readPacket_iff rfl hlen hver hformat hvoice hcode
    · exact extracts_readPacket_iff rfl hlen hver hformat hvoice hcode
  · simp [hthem]

def fresh (format : ℕ) : Session :=
  Session.new fun pt => if pt = 0 then ⟨true, format⟩ else ⟨false, 0⟩

def arrival (datagram : List UInt8) : Incoming := ⟨some datagram, true, false, ⟨1, 0⟩⟩

def padded : List UInt8 := [0xA1, 0, 0, 1, 0, 0, 0, 160, 0, 0, 0, 9, 1, 2, 3, 4, 7, 8, 0, 2]

theorem payload_extraction_padded :
    Extracts (cwRtpRead host (fresh formatUlaw) (arrival padded)).1 padded ∧
      payload padded = [7, 8] := by
  refine ⟨(payload_extraction host (fresh formatUlaw) (arrival padded) padded padded rfl ?_ ?_ ?_ ?_
    ?_ ?_).mpr ?_, ?_⟩
  · exact (take_of_length_le (by decide)).symm
  · decide
  · decide
  · decide
  · decide
  · decide
  · have hformat : ¬ ((fresh formatUlaw).lookupPt (payloadType padded)).code = formatSlinear := by
      decide
    have hext : ¬ hasExtension padded = true := by decide
    rw [Extractable, if_neg (by decide), if_neg hext]
    exact ⟨fun _ => by decide, fun _ hs => absurd hs.1 hformat⟩
  · decide

def extended : List UInt8 :=
  [0x90, 0, 0, 1, 0, 0, 0, 160, 0, 0, 0, 9, 0xBE, 0xDE, 0, 1, 1, 2, 3, 4, 7, 8]

def overpadded : List UInt8 := [0xA0, 0, 0, 1, 0, 0, 0, 160, 0, 0, 0, 9, 7, 5]

/-- The null frame is returned for a packet with an extension that fits, and a frame with a negative
length for one whose padding does not. -/
theorem extension_dropped :
    (Fits extended ∧ payload extended = [7, 8] ∧
      (cwRtpRead host (fresh formatUlaw) (arrival extended)).1 = .null) ∧
    ¬ Fits overpadded ∧
      (cwRtpRead host (fresh formatUlaw) (arrival overpadded)).1.datalen = -3 := by
  refine ⟨⟨?_, ?_, ?_⟩, ?_, ?_⟩
  · decide
  · decide
  · decide +kernel
  · decide
  · decide +kernel

end CallWeaver.Rtp
