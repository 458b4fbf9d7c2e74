import CallWeaver.Base.BitFields
import CallWeaver.Core.Strings
import CallWeaver.Sms.Alphabet

/-! # Packing user data, addresses and dates

The header and the characters of a message in one of three codings. A packer that reaches the limit
of a message returns what it has, and the octets behind its count are not sent.
-/

namespace CallWeaver.Sms

open BitFields Prod List

def smslen : ℕ := 160

def is7bit (dcs : UInt8) : Bool :=
  if dcs &&& 0xC0 ≠ 0 then dcs &&& 4 == 0 else dcs &&& 12 == 0

def is8bit (dcs : UInt8) : Bool :=
  if dcs &&& 0xC0 ≠ 0 then dcs &&& 4 != 0 else dcs &&& 12 == 4

structure Packed where
  len : ℕ
  o : List UInt8
  deriving Repr, DecidableEq

/-- Put one septet into `o[p]` and, if it does not fit, into the next octet. -/
def putSeptet (v : ℕ) (s : Writer) : Writer :=
  let x := UInt8.ofNat (s.cur.toNat ||| v <<< s.used)
  if s.used + 7 ≥ 8 then
    { octets := s.octets ++ [x], cur := UInt8.ofNat (v >>>
      (7 - (s.used + 7 - 8))), used := s.used + 7 - 8 }
  else { s with cur := x, used := s.used + 7 }

/-- The loop of `packsms7` over the header: `b` bits of the octets `o` are in none of the `n`
septets. -/
def packHeader7 : List UInt8 → List UInt8 → ℕ → ℕ → Except Packed (List UInt8 × ℕ × ℕ)
  | [], o, b, n => .ok (o, b, n)
  | x :: udh, o, b, n =>
    let n := n + (b + 8) / 7
    if n ≥ smslen then .error ⟨n, o ++ [x]⟩ else packHeader7 udh (o ++ [x]) ((b + 8) % 7) n

/-- The end of the header in `packsms7`. -/
def startText (udh : List UInt8) : Except Packed (Writer × ℕ) :=
  if udh = [] then .ok (⟨[], 0, 0⟩, 0)
  else match packHeader7 udh [UInt8.ofNat udh.length] 1 1 with
    | .error r => .error r
    | .ok (o, b, n) =>
      if b ≠ 0 then
        if n + 1 ≥ smslen then .error ⟨n + 1, o⟩ else .ok (⟨o, 0, 7 - b⟩, n + 1)
      else .ok (⟨o, 0, 0⟩, n)

/-- The loop of `packsms7` over the text. -/
def packText : List UInt16 → Writer → ℕ → Option Packed
  | [], s, n => some ⟨n, s.octets ++ [s.cur]⟩
  | u :: ud, s, n =>
    if alphabetSeptet u < 128 then
      let s := putSeptet (alphabetSeptet u) s
      if n + 1 ≥ smslen then some ⟨n + 1, s.octets ++ [s.cur]⟩ else packText ud s (n + 1)
    else if u ≠ 0 ∧ n + 1 < smslen ∧ escapeSeptet u < 128 then
      let s := putSeptet (escapeSeptet u) (putSeptet 27 s)
      if n + 2 ≥ smslen then some ⟨n + 2, s.octets ++ [s.cur]⟩ else packText ud s (n + 2)
    else none

/-- There is no result if a character is in no table. -/
def packsms7 (udh : List UInt8) (ud : List UInt16) : Option Packed :=
  match startText udh with
  | .error r => some r
  | .ok (s, n) => packText ud s n

/-- The header in `packsms8` and `packsms16`. -/
def packHeader : List UInt8 → List UInt8 → Except Packed (List UInt8)
  | [], o => .ok o
  | x :: udh, o =>
    if o.length + 1 ≥ 140 then .error ⟨o.length + 1, o ++ [x]⟩ else packHeader udh (o ++ [x])

def startOctets (udh : List UInt8) : Except Packed (List UInt8) :=
  if udh = [] then .ok [] else packHeader udh [UInt8.ofNat udh.length]

/-- The loop of `packsms8` over the text. -/
def packOctets : List UInt16 → List UInt8 → Option Packed
  | [], o => some ⟨o.length, o⟩
  | u :: ud, o =>
    if u > 0xFF then none
    else if o.length + 1 ≥ 140 then some ⟨o.length + 1, o ++ [u.toUInt8]⟩
    else packOctets ud (o ++ [u.toUInt8])

def packsms8 (udh : List UInt8) (ud : List UInt16) : Option Packed :=
  match startOctets udh with
  | .error r => some r
  | .ok o => packOctets ud o

/-- The loop of `packsms16` over the text. -/
def packUnits : List UInt16 → List UInt8 → Packed
  | [], o => ⟨o.length, o⟩
  | u :: ud, o =>
    -- the last character does not fit: its high octet is not counted
    if o.length + 1 ≥ 140 then ⟨o.length + 1 - 1, o ++ [(u >>> 8).toUInt8]⟩
    else if o.length + 2 ≥ 140 then ⟨o.length + 2, o ++ [(u >>> 8).toUInt8, u.toUInt8]⟩
    else packUnits ud (o ++ [(u >>> 8).toUInt8, u.toUInt8])

def packsms16 (udh : List UInt8) (ud : List UInt16) : Packed :=
  match startOctets udh with
  | .error r => r
  | .ok o => packUnits ud o

/-- The length octet in `packsms`. -/
def withLength (octets : ℕ → ℕ) : Option Packed → List UInt8
  | none => [0]
  | some r => UInt8.ofNat r.len :: r.o.take (octets r.len)

def packsms (dcs : UInt8) (udh : List UInt8) (ud : List UInt16) : List UInt8 :=
  if ud = [] then [0]
  else if is7bit dcs then withLength (fun l => (l * 7 + 7) / 8) (packsms7 udh ud)
  else if is8bit dcs then withLength id (packsms8 udh ud)
  else withLength id (some (packsms16 udh ud))

def isdigit (c : UInt8) : Bool := chr '0' ≤ c && c ≤ chr '9'

structure Digits where
  octets : List UInt8
  cur : UInt8
  count : ℕ
  deriving Repr, DecidableEq

def putDigit (a : Digits) (c : UInt8) : Digits :=
  if isdigit c then
    if a.count % 2 = 1 then
      { octets := a.octets ++ [a.cur ||| ((c &&& 0xF) <<< 4)], cur := 0, count := a.count + 1 }
    else { a with cur := c &&& 0xF, count := a.count + 1 }
  else a

/-- The loop of `packaddress`. -/
def packDigits (s : CStr) : List UInt8 × ℕ :=
  let a := s.foldl putDigit ⟨[], 0, 0⟩
  (if a.count % 2 = 1 then a.octets ++ [a.cur ||| 0xF0] else a.octets, a.count)

def packaddress (s : CStr) : List UInt8 :=
  let (toa, s) := if s.head? = some (chr '+') then (0x91, s.tail) else (0x81, s)
  let (o, count) := packDigits s
  [UInt8.ofNat count, toa] ++ o

structure Tm where
  year : ℤ
  mon : ℤ
  mday : ℤ
  hour : ℤ
  min : ℤ
  sec : ℤ
  deriving Repr, DecidableEq

def octetOf (x : ℤ) : UInt8 := UInt8.ofNat (x % 256).toNat

def swapped (x : ℤ) : UInt8 := octetOf (x.tmod 10 * 16 + x.tdiv 10)

def packdate (timezone : ℤ) (t : Tm) : List UInt8 :=
  let z := (timezone.tdiv 60).tdiv 15
  [octetOf (t.year.tmod 10 * 16 + (t.year.tmod 100).tdiv 10), swapped (t.mon + 1), swapped t.mday,
    swapped t.hour, swapped t.min, swapped t.sec,
    if z < 0 then octetOf ((-z).tmod 10 * 16 + (-z).tdiv 10 + 0x08) else swapped z]

@[simp] theorem length_packdate (timezone : ℤ) (t : Tm) : (packdate timezone t).length = 7 := rfl

section Fitting

def headerSeptets (udh : List UInt8) : ℕ := if udh = [] then 0 else (8 * (udh.length + 1) + 6) / 7

def headerOctets (udh : List UInt8) : List UInt8 :=
  if udh = [] then [] else UInt8.ofNat udh.length :: udh

def Fits (dcs : UInt8) (udh : List UInt8) (ud : List UInt16) : Prop :=
  if is7bit dcs then
    (∀ u ∈ ud, IsCoded u) ∧ headerSeptets udh + (ud.flatMap septets).length ≤ smslen
  else if is8bit dcs then
    (∀ u ∈ ud, u ≤ 0xFF) ∧ (headerOctets udh).length + ud.length ≤ 140
  else (headerOctets udh).length + 2 * ud.length ≤ 140

instance (dcs : UInt8) (udh : List UInt8) (ud : List UInt16) : Decidable (Fits dcs udh ud) :=
  haveI (p : UInt16 → Prop) [DecidablePred p] : Decidable (∀ u ∈ ud, p u) := List.decidableBAll p ud
  inferInstanceAs (Decidable (if is7bit dcs then _ else if is8bit dcs then _ else _))

variable {udh : List UInt8} {ud : List UInt16} {s : Writer} {o : List UInt8} {n b : ℕ} {dcs : UInt8}

theorem putSeptet_eq (v : ℕ) (s : Writer) : putSeptet v s = s.put 7 v := by
  have h : 7 - (s.used + 7 - 8) = 8 - s.used ∨ s.used + 7 < 8 := by omega
  rw [putSeptet, Writer.put]
  rcases h with h | h
  · rw [h]
  · simp [show ¬ 8 ≤ s.used + 7 by omega]

def headerWriter (udh : List UInt8) : Writer := ⟨headerOctets udh, 0, 7 * headerSeptets udh % 8⟩

theorem length_headerOctets (udh : List UInt8) :
    8 * (headerOctets udh).length ≤ 7 * headerSeptets udh ∧
      7 * headerSeptets udh < 8 * (headerOctets udh).length + 7 := by
  rw [headerOctets, headerSeptets]
  split_ifs
  · simp
  · simp only [length_cons]
    omega

@[simp] theorem bits_headerWriter (udh : List UInt8) :
    (headerWriter udh).bits = 7 * headerSeptets udh := by
  have h := length_headerOctets udh
  simp only [headerWriter, Writer.bits]
  omega

theorem wf_headerWriter (udh : List UInt8) : (headerWriter udh).Wf := by
  constructor
  · exact Nat.mod_lt _ (by omega)
  · exact Nat.two_pow_pos _

theorem packHeader7_eq (hb : b < 7) (h : 7 * n + b + 8 * udh.length < 7 * smslen) :
    packHeader7 udh o b n =
      .ok (o ++ udh, (b + 8 * udh.length) % 7, n + (b + 8 * udh.length) / 7) := by
  induction udh generalizing o b n with
  | nil => simp [packHeader7, Nat.mod_eq_of_lt hb, Nat.div_eq_of_lt hb]
  | cons x udh ih =>
    simp only [length_cons] at h
    have hn : ¬ n + (b + 8) / 7 ≥ smslen := by
      omega
    rw [packHeader7]
    simp only [hn, if_false]
    rw [ih (Nat.mod_lt _ (by omega)) (by omega)]
    simp only [append_assoc, singleton_append, length_cons, Except.ok.injEq,
      Prod.mk.injEq, true_and]
    omega

theorem startText_eq (h : headerSeptets udh < smslen) :
    startText udh = .ok (headerWriter udh, headerSeptets udh) := by
  by_cases hn : udh = []
  · subst hn
    rfl
  · have hs : headerSeptets udh = (8 * (udh.length + 1) + 6) / 7 := if_neg hn
    have ho : headerOctets udh = UInt8.ofNat udh.length :: udh := if_neg hn
    unfold smslen at h
    rw [startText, if_neg hn, packHeader7_eq (by omega) (by unfold smslen; omega)]
    simp only [headerWriter, hs, ho]
    split_ifs with hb hlim
    · unfold smslen at hlim
      omega
    · have hq : (8 * (udh.length + 1) + 6) / 7 = 1 + (1 + 8 * udh.length) / 7 + 1 := by omega
      simp only [Except.ok.injEq, Prod.mk.injEq, Writer.mk.injEq, singleton_append, true_and]
      omega
    · simp only [Except.ok.injEq, Prod.mk.injEq, Writer.mk.injEq, singleton_append, true_and]
      omega

theorem packText_eq (hud : ∀ u ∈ ud, IsCoded u) (h : n + (ud.flatMap septets).length ≤ smslen) :
    packText ud s n =
      let t := (ud.flatMap septets).foldl (fun s v => s.put 7 v) s
      some ⟨n + (ud.flatMap septets).length, t.octets ++ [t.cur]⟩ := by
  induction ud generalizing s n with
  | nil => simp [packText]
  | cons u ud ih =>
    have hud' : ∀ x ∈ ud, IsCoded x := fun x hx => hud x (by simp [hx])
    simp only [flatMap_cons, length_append] at h
    -- the limit is reached by the last character or not at all
    have hlast : ∀ m, n + m ≥ smslen → m = (septets u).length → ud = [] := by
      rintro m hm rfl
      cases ud with
      | nil => rfl
      | cons x ud =>
        have hx := length_pos_iff.mpr (septets_ne_nil (u := x))
        simp only [flatMap_cons, length_append] at h
        omega
    rw [packText]
    split_ifs with ha hlim hesc hlim
    · have hs : septets u = [alphabetSeptet u] := if_pos ha
      obtain rfl := hlast 1 hlim (by simp [hs])
      simp [hs, putSeptet_eq]
    · have hs : septets u = [alphabetSeptet u] := if_pos ha
      simp only [hs, length_singleton] at h
      rw [ih hud' (by omega)]
      simp [hs, putSeptet_eq]
      omega
    · have hs : septets u = [27, escapeSeptet u] := if_neg ha
      obtain rfl := hlast 2 hlim (by simp [hs])
      simp [hs, putSeptet_eq]
    · have hs : septets u = [27, escapeSeptet u] := if_neg ha
      simp only [hs, length_cons, length_nil] at h
      rw [ih hud' (by omega)]
      simp [hs, putSeptet_eq]
      omega
    · have hs : septets u = [27, escapeSeptet u] := if_neg ha
      have hu := (hud u (by simp)).resolve_left ha
      simp only [hs, length_cons, length_nil] at h
      exact absurd ⟨hu.1, by omega, hu.2⟩ hesc

def textWriter (udh : List UInt8) (ud : List UInt16) : Writer :=
  (ud.flatMap septets).foldl (fun s v => s.put 7 v) (headerWriter udh)

@[simp] theorem bits_textWriter : (textWriter udh ud).bits =
    7 * (headerSeptets udh + (ud.flatMap septets).length) := by
  rw [textWriter, Writer.bits_foldl_put, bits_headerWriter]
  omega

theorem flatMap_septets_lt (hud : ∀ u ∈ ud, IsCoded u) : ∀ v ∈ ud.flatMap septets, v < 2 ^ 7 := by
  intro v hv
  obtain ⟨u, hu, hvu⟩ := mem_flatMap.mp hv
  exact septets_lt (hud u hu) v hvu

theorem wf_textWriter (hud : ∀ u ∈ ud, IsCoded u) : (textWriter udh ud).Wf :=
  Writer.wf_foldl_put (wf_headerWriter udh) (flatMap_septets_lt hud) (by omega)

theorem flatMap_septets_pos (hne : ud ≠ []) : 0 < (ud.flatMap septets).length := by
  cases ud with
  | nil => exact absurd rfl hne
  | cons u ud =>
    have hu := length_pos_iff.mpr (septets_ne_nil (u := u))
    simp only [flatMap_cons, length_append]
    omega

theorem take_written (hs : s.Wf) (hn : s.bits = 7 * n) :
    (s.octets ++ [s.cur]).take ((n * 7 + 7) / 8) = s.written := by
  have hlen := Writer.length_written hs
  rw [hn] at hlen
  rw [Nat.mul_comm n 7, ← hlen, Writer.written]
  split_ifs
  · simp
  · exact take_length

/-! A header without a text is not sent at all, and so the octets of a message are what they should
be only if there is a text or no header. -/

theorem packsms_nil (dcs : UInt8) : packsms dcs udh [] = [0] := rfl

theorem packsms_7bit (hd : is7bit dcs = true) (ht : ud = [] → udh = []) (hf : Fits dcs udh ud) :
    packsms dcs udh ud =
      UInt8.ofNat (headerSeptets udh + (ud.flatMap septets).length) ::
      (textWriter udh ud).written := by
  by_cases hne : ud = []
  · obtain rfl := ht hne
    obtain rfl := hne
    rfl
  rw [Fits, if_pos hd] at hf
  have hpos := flatMap_septets_pos hne
  rw [packsms, if_neg hne, if_pos hd, packsms7, startText_eq (by omega)]
  simp only []
  rw [packText_eq hf.1 hf.2]
  exact congrArg _ (take_written (wf_textWriter hf.1) bits_textWriter)

theorem packHeader_eq (h : o.length + udh.length < 140) : packHeader udh o = .ok (o ++ udh) := by
  induction udh generalizing o with
  | nil => simp [packHeader]
  | cons x udh ih =>
    simp only [length_cons] at h
    rw [packHeader, if_neg (by omega), ih (by simp; omega)]
    simp

theorem startOctets_eq (h : (headerOctets udh).length < 140) :
    startOctets udh = .ok (headerOctets udh) := by
  rw [startOctets, headerOctets] at *
  split_ifs at h ⊢ with hn
  · rfl
  · rw [packHeader_eq (by simpa [Nat.add_comm] using h)]
    rfl

theorem packOctets_eq (hud : ∀ u ∈ ud, u ≤ 0xFF) (h : o.length + ud.length ≤ 140) :
    packOctets ud o = some ⟨o.length + ud.length, o ++ ud.map UInt16.toUInt8⟩ := by
  induction ud generalizing o with
  | nil => simp [packOctets]
  | cons u ud ih =>
    simp only [length_cons] at h
    have hu : ¬ u > 0xFF := UInt16.not_lt.mpr (hud u (by simp))
    rw [packOctets, if_neg hu]
    split_ifs with hlim
    · obtain rfl : ud = [] := length_eq_zero_iff.mp (by omega)
      simp
    · rw [ih (fun x hx => hud x (by simp [hx])) (by simp; omega)]
      simp [Nat.add_comm, Nat.add_left_comm]

theorem packsms_8bit (hd : is7bit dcs = false) (hd' : is8bit dcs = true) (ht : ud = [] → udh = [])
    (hf : Fits dcs udh ud) : packsms dcs udh ud =
      UInt8.ofNat ((headerOctets udh).length + ud.length) ::
      (headerOctets udh ++ ud.map UInt16.toUInt8) := by
  by_cases hne : ud = []
  · obtain rfl := ht hne
    obtain rfl := hne
    rfl
  rw [Fits, if_neg (by simp [hd]), if_pos hd'] at hf
  have hpos := length_pos_iff.mpr hne
  rw [packsms, if_neg hne, if_neg (by simp [hd]), if_pos hd', packsms8, startOctets_eq (by omega)]
  simp only []
  rw [packOctets_eq hf.1 hf.2]
  simp [withLength]

def unitOctets (ud : List UInt16) : List UInt8 :=
  ud.flatMap fun u : UInt16 => [(u >>> 8).toUInt8, u.toUInt8]

@[simp] theorem length_unitOctets (ud : List UInt16) : (unitOctets ud).length = 2 * ud.length := by
  simp [unitOctets, length_flatMap, Nat.mul_comm]

theorem packUnits_eq (h : o.length + 2 * ud.length ≤ 140) :
    packUnits ud o = ⟨o.length + 2 * ud.length, o ++ unitOctets ud⟩ := by
  induction ud generalizing o with
  | nil => simp [packUnits, unitOctets]
  | cons u ud ih =>
    simp only [length_cons] at h
    rw [packUnits, if_neg (by omega)]
    split_ifs with hlim
    · obtain rfl : ud = [] := length_eq_zero_iff.mp (by omega)
      simp [unitOctets]
    · rw [ih (by simp; omega)]
      simp [unitOctets]
      omega

theorem packsms_16bit (hd : is7bit dcs = false) (hd' : is8bit dcs = false) (ht : ud = [] → udh = [])
    (hf : Fits dcs udh ud) : packsms dcs udh ud =
      UInt8.ofNat ((headerOctets udh).length + 2 * ud.length) ::
      (headerOctets udh ++ unitOctets ud) := by
  by_cases hne : ud = []
  · obtain rfl := ht hne
    obtain rfl := hne
    rfl
  rw [Fits, if_neg (by simp [hd]), if_neg (by simp [hd'])] at hf
  have hpos := length_pos_iff.mpr hne
  rw [packsms, if_neg hne, if_neg (by simp [hd]), if_neg (by simp [hd']), packsms16,
    startOctets_eq (by omega)]
  simp only []
  rw [packUnits_eq hf]
  simp [withLength]

end Fitting

end CallWeaver.Sms
