import CallWeaver.Base.Bytes

/-! # Lengths and open types

The packed encoding of lengths and octet strings in UDPTL packets. Strings of
16384 octets and more are cut into fragments.
-/

namespace CallWeaver.Udptl

open List

/-- A decoded length, whether it announces a fragment, and the offset after it. -/
structure Length where
  value : ℕ
  fragment : Bool
  ptr : ℕ
  deriving DecidableEq, Repr

/-- Reading at the end of the packet fails in every branch. -/
def decodeLength (buf : List UInt8) (ptr : ℕ) : Option Length :=
  match buf[ptr]? with
  | none => none
  | some b =>
    if b &&& 0x80 = 0 then some ⟨b.toNat, false, ptr + 1⟩
    else if b &&& 0x40 = 0 then
      match buf[ptr + 1]? with
      | none => none
      | some b' => some ⟨((b &&& 0x3F).toNat <<< 8) ||| b'.toNat, false, ptr + 2⟩
    else some ⟨(b &&& 0x3F).toNat <<< 14, true, ptr + 1⟩

theorem decodeLength_lt {buf : List UInt8} {ptr : ℕ} {n : Length}
    (h : decodeLength buf ptr = some n) : ptr < n.ptr ∧ n.ptr ≤ buf.length := by
  unfold decodeLength at h
  split at h
  · cases h
  · rename_i b hb
    have hlt : ptr < buf.length := (List.getElem?_eq_some_iff.mp hb).1
    split_ifs at h
    · cases h
      exact ⟨Nat.lt_succ_self ptr, hlt⟩
    · split at h
      · cases h
      · rename_i b' hb'
        have hlt' : ptr + 1 < buf.length := (List.getElem?_eq_some_iff.mp hb').1
        cases h
        exact ⟨by simp, hlt'⟩
    · cases h
      exact ⟨Nat.lt_succ_self ptr, hlt⟩

/-- What `decode_open_type` leaves behind: the pointers it stored, as indices into the array of the
caller with offsets into the packet, the number of octets and the offset after them. -/
structure OpenType where
  stores : List (ℕ × ℕ)
  numOctets : ℕ
  ptr : ℕ
  deriving DecidableEq, Repr

def OpenType.bytes (o : OpenType) (buf : List UInt8) : List UInt8 :=
  match o.stores.lookup 0 with
  | none => []
  | some off => (buf.drop off).take o.numOctets

/-- The loop of `decode_open_type`. -/
def decodeOpenTypeLoop (buf : List UInt8) (octetIdx : ℕ) (o : OpenType) : Except ℕ OpenType :=
  match _h : decodeLength buf o.ptr with
  | none => .error o.numOctets
  | some n =>
    if 0 < n.value then
      if n.ptr + n.value > buf.length then .error (o.numOctets + n.value)
      else
        let o' : OpenType :=
          ⟨o.stores ++ [(octetIdx, n.ptr)], o.numOctets + n.value, n.ptr + n.value⟩
        if n.fragment then decodeOpenTypeLoop buf (octetIdx + n.value) o' else .ok o'
    else if n.fragment then decodeOpenTypeLoop buf octetIdx { o with ptr := n.ptr }
    else .ok { o with ptr := n.ptr }
termination_by buf.length - o.ptr
decreasing_by
  all_goals
    have hlt := decodeLength_lt _h
    omega

def decodeOpenType (buf : List UInt8) (ptr : ℕ) : Except ℕ OpenType :=
  decodeOpenTypeLoop buf 0 ⟨[], 0, ptr⟩

def encodeLength (value : ℕ) : List UInt8 × ℕ :=
  if value < 0x80 then ([UInt8.ofNat value], value)
  else if value < 0x4000 then
    ([UInt8.ofNat (((0x8000 ||| value) >>> 8) &&& 0xFF), UInt8.ofNat (value &&& 0xFF)], value)
  else
    let multiplier := if value < 0x10000 then value >>> 14 else 4
    ([UInt8.ofNat (0xC0 ||| multiplier)], multiplier <<< 14)

theorem encodeLength_of_lt {value : ℕ} (h : value < 0x4000) : (encodeLength value).2 = value := by
  unfold encodeLength
  split_ifs <;> rfl

theorem encodeLength_pos {value : ℕ} (h : (encodeLength value).2 < value) :
    0 < (encodeLength value).2 := by
  have hge : ¬ value < 0x4000 := fun hlt => by rw [encodeLength_of_lt hlt] at h; omega
  have hge' : ¬ value < 0x80 := by omega
  simp only [encodeLength, if_neg hge, if_neg hge', Nat.shiftLeft_eq, Nat.shiftRight_eq_div_pow]
  split_ifs
  · omega
  · decide

/-- The loop of `encode_open_type`. -/
def encodeOpenTypeLoop (data : List UInt8) : List UInt8 :=
  let enclen := (encodeLength data.length).2
  if enclen ≥ data.length then (encodeLength data.length).1 ++ data.take enclen
  else (encodeLength data.length).1 ++ data.take enclen ++ encodeOpenTypeLoop (data.drop enclen)
termination_by data.length
decreasing_by
  have hpos : 0 < (encodeLength data.length).2 := encodeLength_pos (by omega)
  simp only [List.length_drop]
  omega

/-- A negative number of octets makes `encode_length` fail. -/
def encodeOpenType (data : List UInt8) (numOctets : ℤ) : Option (List UInt8) :=
  if numOctets < 0 then none
  else if numOctets = 0 then some (encodeOpenTypeLoop [0])
  else some (encodeOpenTypeLoop (data.take numOctets.toNat))

def openType (d : List UInt8) : List UInt8 := (encodeLength d.length).1 ++ d

theorem encodeOpenType_eq {d data : List UInt8} {n : ℤ} (hpos : d ≠ []) (hlt : d.length < 0x4000)
    (hn : n = d.length) (hd : data.take d.length = d) :
    encodeOpenType data n = some (openType d) := by
  have hlen : 0 < d.length := length_pos_iff.mpr hpos
  subst hn
  rw [encodeOpenType, if_neg (by omega), if_neg (by omega), Int.toNat_natCast, hd,
    encodeOpenTypeLoop, encodeLength_of_lt hlt]
  simp [openType]

section RoundTrip

variable {buf bs d hdr : List UInt8} {ptr v : ℕ}

theorem decodeLength_encodeLength (hv : v < 0x4000) (h : Rest buf ptr ((encodeLength v).1 ++ bs)) :
    decodeLength buf ptr = some ⟨v, false, ptr + (encodeLength v).1.length⟩ := by
  by_cases hs : v < 0x80
  · have hbits : ∀ v < 0x80, UInt8.ofNat v &&& 0x80 = 0 ∧ (UInt8.ofNat v).toNat = v := by
      decide
    simp only [encodeLength, if_pos hs, singleton_append] at h ⊢
    obtain ⟨h₁, h₂⟩ := hbits v hs
    simp [decodeLength, h.getElem?, h₁, h₂]
  · have hbits : ∀ q < 64, UInt8.ofNat (128 + q) &&& 0x80 ≠ 0 ∧ UInt8.ofNat (128 + q) &&& 0x40 = 0 ∧
        (UInt8.ofNat (128 + q) &&& 0x3F).toNat = q := by
      decide
    obtain ⟨h₁, h₂, h₃⟩ := hbits (v / 256) (by omega)
    have hhi : ((0x8000 ||| v) >>> 8) &&& 0xFF = 128 + v / 256 := by
      have hor : 0x8000 ||| v = 0x8000 + v :=
        (Nat.two_pow_add_eq_or_of_lt (i := 15) (by omega) 1).symm
      rw [hor, Nat.shiftRight_eq_div_pow, Nat.and_two_pow_sub_one_eq_mod _ 8]
      omega
    have hlo : (UInt8.ofNat (v &&& 0xFF)).toNat = v % 256 := by
      rw [Nat.and_two_pow_sub_one_eq_mod _ 8, UInt8.toNat_ofNat']
      omega
    simp only [encodeLength, if_neg hs, if_pos hv, hhi, cons_append, nil_append] at h ⊢
    have hval : (v / 256) <<< 8 ||| v % 256 = v := by
      rw [Nat.shiftLeft_eq, Nat.mul_comm, ← Nat.two_pow_add_eq_or_of_lt (by omega)]
      omega
    simp only [decodeLength, h.getElem?, h.next.getElem?, if_neg h₁, if_pos h₂, h₃, hlo, hval,
      length_cons, length_nil]

theorem decodeOpenTypeLoop_piece {o : OpenType} {fragment : Bool} (octetIdx : ℕ)
    (hn : decodeLength buf o.ptr = some ⟨d.length, fragment, o.ptr + hdr.length⟩) (hd : d ≠ [])
    (h : Rest buf o.ptr (hdr ++ (d ++ bs))) :
    decodeOpenTypeLoop buf octetIdx o =
      let o' : OpenType :=
        ⟨o.stores ++ [(octetIdx, o.ptr + hdr.length)], o.numOctets + d.length,
          o.ptr + hdr.length + d.length⟩
      if fragment then decodeOpenTypeLoop buf (octetIdx + d.length) o' else .ok o' := by
  have hlen := h.advance.advance.length_eq
  rw [decodeOpenTypeLoop]
  split
  · rename_i hnone
    cases hnone.symm.trans hn
  · rename_i hsome
    cases hsome.symm.trans hn
    rw [if_pos (length_pos_iff.mpr hd), if_neg (by dsimp only; omega)]

theorem decodeOpenType_openType (hpos : d ≠ []) (hlt : d.length < 0x4000)
    (h : Rest buf ptr (openType d ++ bs)) :
    ∃ o, decodeOpenType buf ptr = .ok o ∧ o.ptr = ptr + (openType d).length ∧
      o.numOctets = d.length ∧ o.bytes buf = d := by
  rw [openType, append_assoc] at h
  refine ⟨⟨[(0, ptr + (encodeLength d.length).1.length)], d.length,
    ptr + (encodeLength d.length).1.length + d.length⟩, ?_, ?_, rfl, ?_⟩
  · rw [decodeOpenType, decodeOpenTypeLoop_piece 0 (decodeLength_encodeLength hlt h) hpos h]
    simp
  · simp [openType, Nat.add_assoc]
  · exact h.advance.take_drop

end RoundTrip

section Fragments

variable {buf bs d : List UInt8} {ptr n m : ℕ}

/-- What the stored pointers lead to, each up to the octet of the next one. -/
def content (buf : List UInt8) (numOctets : ℕ) : List (ℕ × ℕ) → List UInt8
  | [] => []
  | (octetIdx, off) :: stores =>
    (buf.drop off).take (stores.head?.elim numOctets Prod.fst - octetIdx) ++
      content buf numOctets stores

theorem encodeLength_fragment (hn : 0x4000 ≤ n) : ∃ m, 0 < m ∧ m ≤ 4 ∧ m * 0x4000 ≤ n ∧
    encodeLength n = ([UInt8.ofNat (0xC0 ||| m)], m * 0x4000) := by
  refine ⟨if n < 0x10000 then n >>> 14 else 4, ?_⟩
  simp only [encodeLength, if_neg (show ¬ n < 0x80 by omega), if_neg (show ¬ n < 0x4000 by omega),
    Nat.shiftLeft_eq, Nat.shiftRight_eq_div_pow]
  split_ifs <;> simp <;> omega

theorem decodeLength_fragment (hm : m ≤ 4) (h : Rest buf ptr (UInt8.ofNat (0xC0 ||| m) :: bs)) :
    decodeLength buf ptr = some ⟨m * 0x4000, true, ptr + 1⟩ := by
  have hbits : ∀ m ≤ 4, UInt8.ofNat (0xC0 ||| m) &&& 0x80 ≠ 0 ∧
    UInt8.ofNat (0xC0 ||| m) &&& 0x40 ≠ 0 ∧
      (UInt8.ofNat (0xC0 ||| m) &&& 0x3F).toNat <<< 14 = m * 0x4000 := by
    decide
  obtain ⟨h₁, h₂, h₃⟩ := hbits m hm
  simp only [decodeLength, h.getElem?, if_neg h₁, if_neg h₂, h₃]

/-- The decoder goes on behind each fragment, and finds nothing behind a last one that is full. -/
theorem decodeOpenTypeLoop_encoded (hd : d ≠ []) (o : OpenType) (octetIdx : ℕ)
    (h : Rest buf o.ptr (encodeOpenTypeLoop d)) :
    if 0x4000 ∣ d.length then decodeOpenTypeLoop buf octetIdx o = .error (o.numOctets + d.length)
    else ∃ off stores, decodeOpenTypeLoop buf octetIdx o =
        .ok ⟨o.stores ++ (octetIdx, off) :: stores, o.numOctets + d.length, buf.length⟩ ∧
      content buf (octetIdx + d.length) ((octetIdx, off) :: stores) = d := by
  induction hlen : d.length using Nat.strongRecOn generalizing d o octetIdx with | ind n ih => ?_
  subst hlen
  by_cases hshort : d.length < 0x4000
  · rw [if_neg fun hdvd =>
      absurd (Nat.le_of_dvd (length_pos_iff.mpr hd) hdvd) (Nat.not_le.mpr hshort)]
    rw [encodeOpenTypeLoop, encodeLength_of_lt hshort, if_pos (Nat.le_refl _), take_length] at h
    have h : Rest buf o.ptr ((encodeLength d.length).1 ++ (d ++ [])) := by rwa [append_nil]
    rw [decodeOpenTypeLoop_piece octetIdx (decodeLength_encodeLength hshort h) hd h]
    refine ⟨_, [], by rw [h.advance.advance.length_eq]; rfl, ?_⟩
    simp only [content, head?_nil, Option.elim_none, Nat.add_sub_cancel_left,
      h.advance.take_drop, append_nil]
  obtain ⟨m, hm, hm4, hle, henc⟩ := encodeLength_fragment (Nat.not_lt.mp hshort)
  obtain ⟨x, rest, rfl, hx⟩ : ∃ x rest, d = x ++ rest ∧ x.length = m * 0x4000 :=
    ⟨_, _, (take_append_drop (m * 0x4000) d).symm, by rw [length_take]; omega⟩
  have hdvd : 0x4000 ∣ (x ++ rest).length ↔ 0x4000 ∣ rest.length := by
    rw [length_append, hx]
    omega
  have hne : x ≠ [] := ne_nil_of_length_pos (by omega)
  rw [encodeOpenTypeLoop, henc, ← hx] at h
  simp only [take_left, drop_left, length_append, append_assoc] at h
  rcases eq_or_ne rest [] with rfl | hrest
  · have h : Rest buf o.ptr ([UInt8.ofNat (0xC0 ||| m)] ++ (x ++ [])) := by simpa using h
    have hn := decodeLength_fragment hm4 h
    rw [← hx] at hn
    rw [if_pos (hdvd.mpr (Nat.dvd_zero _)), decodeOpenTypeLoop_piece octetIdx hn hne h]
    rw [if_pos rfl, decodeOpenTypeLoop]
    split
    · rw [append_nil]
    · rename_i n hn
      have hlt := decodeLength_lt hn
      have hend := h.advance.advance.length_eq
      dsimp only [length_nil] at hlt hend
      omega
  · rw [if_neg (by have := length_pos_iff.mpr hrest; omega)] at h
    have hn := decodeLength_fragment hm4 h
    rw [← hx] at hn
    have ih := ih rest.length (by rw [length_append]; omega) hrest
      ⟨o.stores ++ [(octetIdx, o.ptr + 1)], o.numOctets + x.length, o.ptr + 1 + x.length⟩
      (octetIdx + x.length)
      h.advance.advance rfl
    rw [decodeOpenTypeLoop_piece octetIdx hn hne h, if_congr hdvd rfl rfl, length_append]
    simp only [Nat.add_assoc, append_assoc, singleton_append, length_singleton, if_true] at ih ⊢
    split_ifs at ih ⊢
    · exact ih
    · obtain ⟨off, stores, hdec, hcontent⟩ := ih
      refine ⟨_, _, hdec, ?_⟩
      have hfirst := h.advance.take_drop
      rw [content, hcontent]
      simp only [head?_cons, Option.elim_some, Nat.add_sub_cancel_left]
      exact congrArg (· ++ rest) hfirst

theorem encodeOpenType_loop (hd : d ≠ []) :
    encodeOpenType d d.length = some (encodeOpenTypeLoop d) := by
  have hlen : 0 < d.length := length_pos_iff.mpr hd
  rw [encodeOpenType, if_neg (by omega), if_neg (by omega), Int.toNat_natCast, take_length]

theorem decodeOpenType_full (hd : d ≠ []) (hdvd : 0x4000 ∣ d.length) :
    decodeOpenType (encodeOpenTypeLoop d) 0 = .error d.length := by
  have hdec := decodeOpenTypeLoop_encoded hd ⟨[], 0, 0⟩ 0 ⟨[], rfl, rfl⟩
  rwa [if_pos hdvd, Nat.zero_add] at hdec

/-- What is encoded is decoded, to its end and with the same octets, unless the last fragment is
full. -/
theorem open_type_round_trip_iff (hd : d ≠ []) :
    (∃ buf o, encodeOpenType d d.length = some buf ∧ decodeOpenType buf 0 = .ok o ∧
      o.ptr = buf.length ∧
      o.numOctets = d.length ∧ content buf o.numOctets o.stores = d) ↔ ¬ 0x4000 ∣ d.length := by
  rw [encodeOpenType_loop hd]
  constructor
  · rintro ⟨_, o, ⟨⟩, ho, -⟩ hdvd
    cases (decodeOpenType_full hd hdvd).symm.trans ho
  · intro hdvd
    have hdec := decodeOpenTypeLoop_encoded hd ⟨[], 0, 0⟩ 0 ⟨[], rfl, rfl⟩
    simp only [if_neg hdvd, Nat.zero_add] at hdec
    obtain ⟨off, stores, ho, hcontent⟩ := hdec
    exact ⟨_, _, rfl, ho, rfl, rfl, hcontent⟩

theorem open_type_round_trip_iff_three :
    [1, 2, 3] ≠ ([] : List UInt8) ∧ ∃ buf o, encodeOpenType [1, 2, 3] 3 = some buf ∧
    decodeOpenType buf 0 = .ok o ∧ o.ptr = buf.length ∧ o.numOctets = 3 ∧
      content buf o.numOctets o.stores = [1, 2, 3] :=
  ⟨by decide, (open_type_round_trip_iff (d := [1, 2, 3]) (by decide)).mpr (by decide)⟩

/-- 16384 octets are one full fragment, and are not decoded. -/
theorem full_fragment_undecoded : ∃ buf, encodeOpenType (replicate 16384 0) (16384 : ℕ) = some buf ∧
    decodeOpenType buf 0 = .error 16384 := by
  have hlen : (replicate 16384 (0 : UInt8)).length = 16384 := length_replicate
  have hne : replicate 16384 (0 : UInt8) ≠ [] := ne_nil_of_length_pos (by rw [hlen]; decide)
  have henc := encodeOpenType_loop hne
  have hdec := decodeOpenType_full hne ⟨1, hlen⟩
  rw [hlen] at henc hdec
  exact ⟨_, henc, hdec⟩

end Fragments

end CallWeaver.Udptl
