import CallWeaver.Core.Strings

/-! # Base64

`cw_base64encode` and `cw_base64decode` of `utils.c` shift their input through a word. The octet on
its way is split: its first bits are in the word of the decoder, the others in that of the encoder.
-/

namespace CallWeaver.Base64

open Function List

/-- The tables `base64` and `b2a`. -/
structure Tables where
  base64 : ℕ → UInt8
  b2a : UInt8 → UInt8

def Tables.set (t : Tables) (index : ℕ) (c : UInt8) : Tables :=
  ⟨update t.base64 index c, update t.b2a c (.ofNat index)⟩

def base64Init : Tables :=
  let t := (List.range 26).foldl (fun t x =>
    let t := (Tables.set t x (chr 'A' + .ofNat x)).set (x + 26) (chr 'a' + .ofNat x)
    if x < 10 then t.set (x + 52) (chr '0' + .ofNat x) else t) ⟨fun _ => 0, fun _ => 255⟩
  (t.set 62 (chr '+')).set 63 (chr '/')

def base64 (index : ℕ) : UInt8 := base64Init.base64 index

def b2a (c : UInt8) : UInt8 := base64Init.b2a c

/-- `byte <<= n` and `byte |= v` for an `unsigned int`. -/
def shiftIn (byte n v : ℕ) : ℕ := (byte <<< n) % 2 ^ 32 ||| v

/-- The loop of the decoder. `char` is signed, so a byte from 128 on is no index of `b2a`. -/
def decodeLoop (max : ℕ) : ℕ → ℕ → List UInt8 → CStr → Option (List UInt8)
  | _, _, dst, [] => some dst
  | byte, bits, dst, c :: src =>
    if dst.length < max then
      if 128 ≤ c then none
      else
        let byte := shiftIn byte 6 ((b2a c).toNat &&& 0x3f)
        let bits := bits + 6
        if 8 ≤ bits then
          let bits := bits - 8
          decodeLoop max byte bits (dst ++ [.ofNat ((byte >>> bits) &&& 0xff)]) src
        else decodeLoop max byte bits dst src
    else some dst

/-- The return value, and the bytes that are written. -/
def cwBase64decode (src : CStr) (max : ℕ) : Option (ℕ × List UInt8) :=
  (decodeLoop max 0 0 [] src).map fun dst => (dst.length, dst)

def encodeBits (max byte bits : ℕ) (dst : CStr) : ℕ × CStr :=
  if 6 ≤ bits ∧ dst.length < max then
    encodeBits max byte (bits - 6) (dst ++ [base64 ((byte >>> (bits - 6)) &&& 0x3f)])
  else (bits, dst)
termination_by bits

def encodeLast (max byte bits : ℕ) (dst : CStr) : CStr :=
  if bits ≠ 0 ∧ dst.length < max then dst ++ [base64 ((byte <<< (6 - bits)) % 2 ^ 32 &&& 0x3f)]
  else dst

/-- The loop of `cw_base64encode`. -/
def encodeLoop (max : ℕ) : ℕ → ℕ → CStr → List UInt8 → CStr
  | byte, bits, dst, [] => encodeLast max byte bits dst
  | byte, bits, dst, c :: src =>
    if dst.length < max then
      let byte := shiftIn byte 8 c.toNat
      let (bits, dst) := encodeBits max byte (bits + 8) dst
      encodeLoop max byte bits dst src
    else encodeLast max byte bits dst

def cwBase64encode (src : List UInt8) (max : ℕ) : CStr := encodeLoop (max - 1) 0 0 [] src

theorem b2a_base64 : ∀ v < 64, base64 v < 128 ∧ base64 v ≠ chr '=' ∧
    (b2a (base64 v)).toNat = v := by
  decide +kernel

theorem shiftIn_eq {byte n v : ℕ} (hv : v < 2 ^ n) (hn : n ≤ 32) :
    shiftIn byte n v = byte * 2 ^ n % 2 ^ 32 + v := by
  have hmod : byte * 2 ^ n % 2 ^ 32 = (byte % 2 ^ (32 - n)) <<< n := by
    rw [Nat.shiftLeft_eq, ← Nat.mul_mod_mul_right, ← Nat.pow_add, Nat.sub_add_cancel hn]
  rw [shiftIn, Nat.shiftLeft_eq, hmod, Nat.shiftLeft_add_eq_or_of_lt hv]

variable {x y p q v max : ℕ} {l dst : CStr} {w d : List UInt8} {c : UInt8}

theorem shiftIn_six (hv : v < 64) : shiftIn y 6 v = y * 64 % 2 ^ 32 + v := shiftIn_eq hv (by omega)

theorem shiftIn_eight :
    shiftIn x 8 c.toNat = x * 256 % 2 ^ 32 + c.toNat := shiftIn_eq c.toNat_lt (by omega)

theorem and_63 (n : ℕ) : n &&& 0x3f = n % 64 := Nat.and_two_pow_sub_one_eq_mod n 6

theorem decodeLoop_base64 (hv : v < 64) (hmax : dst.length < max) :
    decodeLoop max y q dst (base64 v :: l) =
      if 2 ≤ q then
        decodeLoop max (y * 64 % 2 ^ 32 + v) (q - 2)
        (dst ++ [.ofNat ((y * 64 % 2 ^ 32 + v) / 2 ^ (q - 2))]) l
      else decodeLoop max (y * 64 % 2 ^ 32 + v) (q + 6) dst l := by
  obtain ⟨hlt, -, hb2a⟩ := b2a_base64 v hv
  rw [decodeLoop, if_pos hmax, if_neg (UInt8.not_le.mpr hlt), hb2a, and_63, Nat.mod_eq_of_lt hv,
    shiftIn_six hv]
  by_cases hq : 2 ≤ q
  · simp only [if_pos hq, if_pos (show 8 ≤ q + 6 by omega), show q + 6 - 8 = q - 2 by omega,
      Nat.shiftRight_eq_div_pow, Nat.and_two_pow_sub_one_eq_mod _ 8]
    congr 3
    exact UInt8.ofNat_mod_size
  · simp only [if_neg hq, if_neg (show ¬ 8 ≤ q + 6 by omega)]

/-- What a decoder with the last `q` bits of `y` writes for the characters `l`. -/
def Carries (y q : ℕ) (l : CStr) (w : List UInt8) : Prop :=
  chr '=' ∉ l ∧ ∀ max dst, dst.length + w.length ≤ max → decodeLoop max y q dst l = some (dst ++ w)

namespace Carries

theorem nil : Carries y q [] [] := ⟨by simp, by simp [decodeLoop]⟩

theorem notMem_cons (h : Carries y q l w) (hv : v < 64) : chr '=' ∉ base64 v :: l := by
  simp [(b2a_base64 v hv).2.1.symm, h.1]

theorem short (h : Carries (y * 64 % 2 ^ 32 + v) 6 l (c :: w)) (hv : v < 64) :
    Carries y 0 (base64 v :: l) (c :: w) := by
  refine ⟨h.notMem_cons hv, fun max dst hmax => ?_⟩
  rw [decodeLoop_base64 hv (by simp at hmax; omega), if_neg (by omega)]
  exact h.2 max dst hmax

theorem full (h : Carries (y * 64 % 2 ^ 32 + v) q l w) (hv : v < 64)
    (hc : (y * 64 % 2 ^ 32 + v) / 2 ^ q % 256 = c.toNat) :
    Carries y (q + 2) (base64 v :: l) (c :: w) := by
  refine ⟨h.notMem_cons hv, fun max dst hmax => ?_⟩
  have hof : UInt8.ofNat ((y * 64 % 2 ^ 32 + v) / 2 ^ q) = c := by
    rw [← UInt8.toNat_inj, UInt8.toNat_ofNat', hc]
  rw [decodeLoop_base64 hv (by simp at hmax; omega), if_pos (by omega), Nat.add_sub_cancel, hof,
    h.2 _ _ (by simp at hmax ⊢; omega)]
  simp

end Carries

theorem encodeBits_add (hmax : dst.length < max) :
    encodeBits max x (p + 6) dst = encodeBits max x p (dst ++ [base64 (x / 2 ^ p % 64)]) := by
  rw [encodeBits, if_pos ⟨Nat.le_add_left 6 p, hmax⟩, Nat.add_sub_cancel, and_63,
    Nat.shiftRight_eq_div_pow]

theorem encodeBits_lt (hp : p < 6) : encodeBits max x p dst = (p, dst) := by
  rw [encodeBits, if_neg (by omega)]

theorem encodeLoop_cons (hp : p < 4) (hmax : dst.length < max) : encodeLoop max x p dst (c :: d) =
    encodeLoop max (x * 256 % 2 ^ 32 + c.toNat) (p + 2)
      (dst ++ [base64 ((x * 256 % 2 ^ 32 + c.toNat) / 2 ^ (p + 2) % 64)]) d := by
  simp only [encodeLoop, if_pos hmax, shiftIn_eight]
  rw [show p + 8 = p + 2 + 6 from rfl, encodeBits_add hmax, encodeBits_lt (by omega)]

theorem encodeLoop_four (hmax : dst.length + 1 < max) : encodeLoop max x 4 dst (c :: d) =
    encodeLoop max (x * 256 % 2 ^ 32 + c.toNat) 0
      (dst ++ [base64 ((x * 256 % 2 ^ 32 + c.toNat) / 2 ^ 6 % 64)] ++
        [base64 ((x * 256 % 2 ^ 32 + c.toNat) / 2 ^ 0 % 64)]) d := by
  simp only [encodeLoop, if_pos (show dst.length < max by omega), shiftIn_eight]
  rw [show 4 + 8 = 6 + 6 from rfl, encodeBits_add (by omega),
    encodeBits_add (p := 0) (by simpa using hmax), encodeBits_lt (by omega)]

theorem encodeLoop_nil (hp : p ≠ 0) (hmax : dst.length < max) : encodeLoop max x p dst [] =
    dst ++ [base64 (x * 2 ^ (6 - p) % 2 ^ 32 % 64)] := by
  rw [encodeLoop, encodeLast, if_pos ⟨hp, hmax⟩, and_63, Nat.shiftLeft_eq]

theorem encodeLoop_carries (x : ℕ) (dst : CStr) (d : List UInt8)
    (hmax : dst.length + (8 * d.length + 5) / 6 ≤ max) :
    ∃ l, encodeLoop max x 0 dst d = dst ++ l ∧ ∀ y, Carries y 0 l d := by
  match d with
  | [] => exact ⟨[], by simp [encodeLoop, encodeLast], fun y => .nil⟩
  | [a] =>
    have ha := a.toNat_lt
    rw [length_singleton] at hmax
    rw [encodeLoop_cons (by omega) (by omega), encodeLoop_nil (by omega) (by simp; omega),
      append_assoc]
    exact ⟨_, rfl, fun y => .short (.full .nil (by omega) (by omega)) (by omega)⟩
  | [a, b] =>
    have ha := a.toNat_lt
    have hb := b.toNat_lt
    rw [length_cons, length_singleton] at hmax
    rw [encodeLoop_cons (by omega) (by omega), encodeLoop_cons (by omega) (by simp; omega),
      encodeLoop_nil (by omega) (by simp; omega), append_assoc, append_assoc]
    refine ⟨_, rfl, fun y => .short (.full (.full .nil ?_ ?_) ?_ ?_) ?_⟩
    all_goals omega
  | a :: b :: c :: d =>
    have ha := a.toNat_lt
    have hb := b.toNat_lt
    have hc := c.toNat_lt
    simp only [length_cons] at hmax
    rw [encodeLoop_cons (by omega) (by omega), encodeLoop_cons (by omega) (by simp; omega),
      encodeLoop_four (by simp; omega)]
    obtain ⟨l, hl, hcar⟩ :=
      encodeLoop_carries _ (dst ++ [_] ++ [_] ++ [_] ++ [_]) d (by simp; omega)
    rw [hl, append_assoc, append_assoc, append_assoc, append_assoc]
    refine ⟨_, rfl, fun y => .short (.full (.full (.full (hcar _) ?_ ?_) ?_ ?_) ?_ ?_) ?_⟩
    all_goals omega

/-- With enough room, what is decoded is what was encoded, also without padding. -/
theorem base64_round_trip (d : List UInt8) {max max' : ℕ} (hmax : (8 * d.length + 5) / 6 < max)
    (hmax' : d.length ≤ max') : chr '=' ∉ cwBase64encode d max ∧
      cwBase64decode (cwBase64encode d max) max' = some (d.length, d) := by
  obtain ⟨l, hl, hcar⟩ := encodeLoop_carries 0 [] d (by simpa using Nat.le_sub_one_of_lt hmax)
  rw [cwBase64encode, hl, nil_append, cwBase64decode, (hcar 0).2 max' [] (by simpa using hmax')]
  exact ⟨(hcar 0).1, rfl⟩

theorem base64_round_trip_two : chr '=' ∉ cwBase64encode [104, 105] 4 ∧
    cwBase64decode (cwBase64encode [104, 105] 4) 2 = some (2, [104, 105]) :=
  base64_round_trip [104, 105] (by decide) (by decide)

end CallWeaver.Base64
