import CallWeaver.Sms.Unpacking

/-! # Addresses

An address is a writer's run of fields of four bits, and what was packed is read back.
-/

namespace CallWeaver.Sms

open BitFields List

variable {s : CStr} {i : ℕ → UInt8} {p : ℕ} {c : UInt8} {a : Digits}

def IsDigits (s : CStr) : Prop := ∀ c ∈ s, isdigit c = true

instance (s : CStr) : Decidable (IsDigits s) := List.decidableBAll _ s

def digit (c : UInt8) : ℕ := (c &&& 0xF).toNat

theorem toNat_low (x : UInt8) : (x &&& 0xF).toNat = x.toNat % 16 := by
  rw [UInt8.toNat_and]
  exact Nat.and_two_pow_sub_one_eq_mod _ 4

theorem toNat_high (x : UInt8) : (x >>> 4).toNat = x.toNat / 16 := by
  rw [UInt8.toNat_shiftRight]
  exact Nat.shiftRight_eq_div_pow _ _

theorem digit_spec (hc : isdigit c = true) :
    digit c < 10 ∧ UInt8.ofNat (digit c) + chr '0' = c := by
  simp only [isdigit, Bool.and_eq_true, decide_eq_true_eq, UInt8.le_iff_toNat_le] at hc
  have h0 : (chr '0').toNat = 48 := rfl
  have h9 : (chr '9').toNat = 57 := rfl
  rw [digit, toNat_low]
  constructor
  · omega
  · rw [← UInt8.toNat_inj, UInt8.toNat_add, UInt8.toNat_ofNat', h0]
    omega

def Digits.writer (a : Digits) : Writer := ⟨a.octets, a.cur, 4 * (a.count % 2)⟩

theorem or_high (x y : UInt8) : x ||| (y <<< 4) = UInt8.ofNat (x.toNat ||| y.toNat <<< 4) := by
  rw [UInt8.ofNat_or, UInt8.ofNat_shiftLeft _ _ (by decide), UInt8.ofNat_toNat, UInt8.ofNat_toNat]
  rfl

theorem putDigit_eq (ha : a.writer.Wf) (hc : isdigit c = true) :
    (putDigit a c).writer = a.writer.put 4 (digit c) ∧ (putDigit a c).count = a.count + 1 := by
  have hd := (digit_spec hc).1
  have hcur := ha.cur_lt
  simp only [Digits.writer] at hcur
  rw [putDigit, if_pos hc]
  split_ifs with h
  · have hnext : (a.count + 1) % 2 = 0 := by omega
    have hcarry : digit c >>> 4 = 0 := by
      rw [Nat.shiftRight_eq_div_pow]
      omega
    simp only [Digits.writer, Writer.put, h, hnext, or_high, hcarry]
    exact ⟨rfl, trivial⟩
  · have h0 : a.count % 2 = 0 := by omega
    rw [h0] at hcur
    have hnext : (a.count + 1) % 2 = 1 := by omega
    simp only [Digits.writer, Writer.put, h0, hnext]
    simp [show a.cur.toNat = 0 by omega, digit]

def addressFields (s : CStr) : List ℕ := s.map digit ++ if s.length % 2 = 1 then [15] else []

theorem foldl_putDigit (hs : IsDigits s) (ha : a.writer.Wf) :
    (s.foldl putDigit a).writer = (s.map digit).foldl (fun w v => w.put 4 v) a.writer ∧
      (s.foldl putDigit a).count = a.count + s.length := by
  induction s generalizing a with
  | nil => exact ⟨rfl, rfl⟩
  | cons c s ih =>
    have hc := hs c (by simp)
    obtain ⟨hw, hn⟩ := putDigit_eq ha hc
    have hd := (digit_spec hc).1
    have hwf : (putDigit a c).writer.Wf := by
      rw [hw]
      exact Writer.wf_put ha (by omega) (by omega)
    obtain ⟨hw', hn'⟩ := ih (fun x hx => hs x (by simp [hx])) hwf
    constructor
    · rw [foldl_cons, hw', hw]
      rfl
    · rw [foldl_cons, hn', hn, length_cons]
      omega

theorem digits_lt (hs : IsDigits s) : ∀ v ∈ s.map digit, v < 2 ^ 4 := by
  intro v hv
  obtain ⟨c, hc, rfl⟩ := mem_map.mp hv
  have hd := (digit_spec (hs c hc)).1
  omega

theorem addressFields_lt (hs : IsDigits s) : ∀ v ∈ addressFields s, v < 2 ^ 4 := by
  intro v hv
  rw [addressFields, mem_append] at hv
  rcases hv with hv | hv
  · exact digits_lt hs v hv
  · split_ifs at hv
    · obtain rfl := mem_singleton.mp hv
      decide
    · simp at hv

theorem wf_nil : (⟨[], 0, 0⟩ : Writer).Wf := ⟨by decide, by decide⟩

theorem packDigits_eq (hs : IsDigits s) : packDigits s =
    (((addressFields s).foldl (fun w v => w.put 4 v) (⟨[], 0, 0⟩ : Writer)).written, s.length) := by
  obtain ⟨hw, hn⟩ := foldl_putDigit hs (a := ⟨[], 0, 0⟩) wf_nil
  have hnil : (⟨[], 0, 0⟩ : Digits).writer = ⟨[], 0, 0⟩ := rfl
  simp only [Nat.zero_add, hnil] at hw hn
  rw [packDigits, addressFields, foldl_append, ← hw]
  simp only [hn]
  split_ifs with h
  · have hfill : (15 : UInt8) <<< 4 = 0xF0 := rfl
    simp only [foldl_cons, foldl_nil, Digits.writer, hn, h, ← hfill, or_high]
    rfl
  · have h0 : s.length % 2 = 0 := by omega
    simp only [foldl_nil, Digits.writer, hn, h0]
    rfl

theorem length_packDigits (hs : IsDigits s) : (packDigits s).1.length = (s.length + 1) / 2 := by
  have hwf := Writer.wf_foldl_put wf_nil (addressFields_lt hs) (by omega)
  rw [packDigits_eq hs, Writer.length_written hwf, Writer.bits_foldl_put, addressFields]
  simp only [Writer.bits, length_nil, length_append, length_map]
  split_ifs <;> simp <;> omega

theorem digitAt_eq :
    digitAt i p = UInt8.ofNat (field 4 (fun k => i (2 + k)) (4 * p)) + chr '0' := by
  have hq : 4 * p / 8 = p / 2 := by omega
  have hr : 4 * p % 8 = 4 * (p % 2) := by omega
  have hx := (i (2 + p / 2)).toNat_lt
  rw [digitAt, field, hq, hr]
  split_ifs with h
  · congr 1
    rw [← UInt8.toNat_inj, toNat_high, h, UInt8.toNat_ofNat']
    omega
  · have h0 : p % 2 = 0 := by omega
    congr 1
    rw [← UInt8.toNat_inj, toNat_low, h0, UInt8.toNat_ofNat']
    omega

theorem map_digitAt (hs : IsDigits s) (hi : Holds i 2 (packDigits s).1) :
    (List.range s.length).map (digitAt i) = s := by
  apply ext_getElem
  · simp
  · intro k hk hks
    have hlen : k < (addressFields s).length := by
      simp only [addressFields, length_append, length_map]
      omega
    have hmem : Holds (fun k => i (2 + k)) 0
        ((addressFields s).foldl (fun w v => w.put 4 v) (⟨[], 0, 0⟩ : Writer)).written := by
      rw [holds_shift]
      rw [packDigits_eq hs] at hi
      exact hi
    have hfield :=
      Writer.field_foldl_put wf_nil (addressFields_lt hs) (by omega) (by omega) hmem hlen
    have hget : (addressFields s)[k] = digit s[k] := by
      simp only [addressFields]
      rw [getElem_append_left (by simpa using hks), getElem_map]
    have hbits : (⟨[], 0, 0⟩ : Writer).bits = 0 := rfl
    rw [hbits, Nat.zero_add, hget] at hfield
    simp only [getElem_map, getElem_range]
    rw [digitAt_eq, hfield, (digit_spec (hs _ (getElem_mem hks))).2]

def digitsOf (s : CStr) : CStr := if s.head? = some (chr '+') then s.tail else s

def IsNumber (s : CStr) : Prop := IsDigits (digitsOf s) ∧ (digitsOf s).length ≤ 18
  deriving Decidable

theorem packaddress_eq (s : CStr) : packaddress s =
    [UInt8.ofNat (packDigits (digitsOf s)).2, if s.head? = some (chr '+') then 0x91 else 0x81] ++
      (packDigits (digitsOf s)).1 := by
  rw [packaddress, digitsOf]
  split_ifs <;> rfl

theorem length_packaddress (hs : IsNumber s) :
    (packaddress s).length = ((digitsOf s).length + 5) / 2 := by
  rw [packaddress_eq, length_append, length_packDigits hs.1]
  simp only [length_cons, length_nil]
  omega

theorem unpackaddress_packaddress (hs : IsNumber s) (hi : Holds i 0 (packaddress s)) :
    unpackaddress i = (s, (packaddress s).length) := by
  rw [length_packaddress hs]
  rw [packaddress_eq, holds_append, holds_cons, holds_singleton] at hi
  obtain ⟨⟨hcount, htoa⟩, hdigits⟩ := hi
  have hle := hs.2
  have hlen : (i 0).toNat = (digitsOf s).length := by
    rw [hcount, packDigits_eq hs.1, UInt8.toNat_ofNat']
    omega
  rw [unpackaddress, hlen, map_digitAt hs.1 hdigits, htoa, digitsOf]
  split_ifs with hplus htwo htwo
  · cases s with
    | nil => simp at hplus
    | cons c s =>
      obtain rfl : c = chr '+' := by simpa using hplus
      rfl
  · exact absurd rfl htwo
  · exact absurd htwo (by decide)
  · rfl

end CallWeaver.Sms
