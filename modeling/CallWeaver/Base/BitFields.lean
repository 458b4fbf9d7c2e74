import Mathlib.Data.Nat.Digits.Lemmas

/-! # Bit fields in octets

Numbers of a fixed width are written one after the other into octets, the lowest bit first, and read
back from a memory that holds the octets.
-/

namespace CallWeaver

open List Nat

def Holds {α : Type*} (i : ℕ → α) (p : ℕ) (l : List α) : Prop :=
  ∀ k, ∀ h : k < l.length, i (p + k) = l[k]

section Holds

variable {α : Type*} {i : ℕ → α} {p n : ℕ} {a : α} {l l' : List α}

theorem holds_append : Holds i p (l ++ l') ↔ Holds i p l ∧ Holds i (p + l.length) l' := by
  constructor
  · intro h
    constructor
    · intro k hk
      rw [h k (by simp; omega), getElem_append_left hk]
    · intro k hk
      rw [add_assoc, h (l.length + k) (by simp; omega), getElem_append_right (by omega)]
      simp
  · rintro ⟨h, h'⟩ k hk
    by_cases hl : k < l.length
    · rw [h k hl, getElem_append_left hl]
    · obtain ⟨m, rfl⟩ := Nat.exists_eq_add_of_le (Nat.le_of_not_lt hl)
      rw [getElem_append_right (by omega), ← add_assoc, h' m (by simp at hk; omega)]
      simp

@[simp] theorem holds_nil : Holds i p [] := by
  intro k hk
  simp at hk

@[simp] theorem holds_singleton : Holds i p [a] ↔ i p = a := by
  constructor
  · intro h
    exact h 0 (by simp)
  · rintro rfl k hk
    obtain rfl : k = 0 := by simpa using hk
    rfl

theorem holds_cons : Holds i p (a :: l) ↔ i p = a ∧ Holds i (p + 1) l := by
  rw [← singleton_append, holds_append, holds_singleton]
  rfl

theorem holds_shift : Holds (fun k => i (n + k)) p l ↔ Holds i (n + p) l := by
  simp only [Holds, add_assoc]

theorem Holds.of_prefix (h : Holds i p l') (hl : l <+: l') : Holds i p l := by
  obtain ⟨r, rfl⟩ := hl
  exact (holds_append.mp h).1

theorem Holds.map_range (h : Holds i p l) : (List.range l.length).map (fun k => i (p + k)) = l := by
  apply ext_getElem
  · simp
  · intro k _ hk
    simp [h k hk]

end Holds

namespace BitFields

def value (bs : List UInt8) : ℕ := ofDigits 256 (bs.map UInt8.toNat)

@[simp] theorem value_nil : value [] = 0 := rfl

theorem value_cons (x : UInt8) (bs : List UInt8) : value (x :: bs) = x.toNat + 256 * value bs := by
  simp [value, ofDigits_cons]

variable (bs : List UInt8) {w q u n : ℕ} {i : ℕ → UInt8}

theorem value_append_singleton (x : UInt8) :
    value (bs ++ [x]) = value bs + 2 ^ (8 * bs.length) * x.toNat := by
  simp [value, ofDigits_append, pow_mul]

theorem value_lt : value bs < 2 ^ (8 * bs.length) := by
  have h := ofDigits_lt_base_pow_length (b := 256) (l := bs.map UInt8.toNat) (by omega) (by
    intro x hx
    obtain ⟨y, -, rfl⟩ := mem_map.mp hx
    exact y.toNat_lt)
  simpa [value, pow_mul] using h

theorem value_div (p : ℕ) : value bs / 2 ^ (8 * p) = value (bs.drop p) := by
  induction p generalizing bs with
  | zero => simp
  | succ p ih =>
    cases bs with
    | nil => simp
    | cons x bs =>
      have hx := x.toNat_lt
      have hpow : 2 ^ (8 * (p + 1)) = 256 * 2 ^ (8 * p) := by rw [mul_succ, pow_add]; omega
      rw [hpow, ← Nat.div_div_eq_div_mul, value_cons, drop_succ_cons, ← ih]
      congr 1
      omega

def field (w : ℕ) (i : ℕ → UInt8) (q : ℕ) : ℕ :=
  ((i (q / 8)).toNat + 256 * (i (q / 8 + 1)).toNat) / 2 ^ (q % 8) % 2 ^ w

theorem field_lt : field w i q < 2 ^ w :=
  mod_lt _ (Nat.two_pow_pos w)

theorem add_div_mod (x z : ℕ) (h : u + w ≤ n) :
    (x + 2 ^ n * z) / 2 ^ u % 2 ^ w = x / 2 ^ u % 2 ^ w := by
  obtain ⟨m, rfl⟩ := Nat.exists_eq_add_of_le h
  have hz : 2 ^ (u + w + m) * z = 2 ^ u * (2 ^ w * (2 ^ m * z)) := by
    rw [pow_add, pow_add, mul_assoc, mul_assoc]
  rw [hz, add_mul_div_left _ _ (Nat.two_pow_pos u), add_mul_mod_self_left]

theorem field_eq {bs : List UInt8} (hi : Holds i 0 bs) (hw : w ≤ 8) (hw' : 0 < w)
    (hq : q + w ≤ 8 * bs.length) : field w i q = value bs / 2 ^ q % 2 ^ w := by
  have hsplit : 2 ^ q = 2 ^ (8 * (q / 8)) * 2 ^ (q % 8) := by
    rw [← pow_add, div_add_mod]
  have hp : q / 8 < bs.length := by omega
  have hip : i (q / 8) = bs[q / 8] := by simpa using hi (q / 8) hp
  rw [hsplit, ← Nat.div_div_eq_div_mul, value_div, drop_eq_getElem_cons hp, value_cons, field, hip]
  by_cases hn : q / 8 + 1 < bs.length
  · have hin : i (q / 8 + 1) = bs[q / 8 + 1] := by simpa using hi (q / 8 + 1) hn
    have hrest :
        bs[q / 8].toNat + 256 * (bs[q / 8 + 1].toNat + 256 * value (bs.drop (q / 8 + 1 + 1))) =
        bs[q / 8].toNat + 256 * bs[q / 8 + 1].toNat + 2 ^ 16 * value (bs.drop (q / 8 + 1 + 1)) := by
      omega
    rw [drop_eq_getElem_cons hn, value_cons, hrest, add_div_mod _ _ (by omega), hin]
  · rw [drop_eq_nil_of_le (by omega)]
    exact add_div_mod (n := 8) _ _ (by omega)

/-- Octets that are written: the full ones, the one being filled and its number of bits. -/
structure Writer where
  octets : List UInt8
  cur : UInt8
  used : ℕ
  deriving Repr, DecidableEq

namespace Writer

variable {v x b k : ℕ} {vs : List ℕ} {s : Writer}

def bits (s : Writer) : ℕ := 8 * s.octets.length + s.used

def number (s : Writer) : ℕ := value (s.octets ++ [s.cur])

def written (s : Writer) : List UInt8 := if s.used = 0 then s.octets else s.octets ++ [s.cur]

structure Wf (s : Writer) : Prop where
  used_lt : s.used < 8
  cur_lt : s.cur.toNat < 2 ^ s.used

def put (w v : ℕ) (s : Writer) : Writer :=
  let x := UInt8.ofNat (s.cur.toNat ||| v <<< s.used)
  if 8 ≤ s.used + w then
    { octets := s.octets ++ [x], cur := UInt8.ofNat (v >>> (8 - s.used)), used := s.used + w - 8 }
  else { s with cur := x, used := s.used + w }

theorem number_eq (s : Writer) :
    s.number = value s.octets + 2 ^ (8 * s.octets.length) * s.cur.toNat :=
  value_append_singleton _ _

theorem number_lt (hs : s.Wf) : s.number < 2 ^ s.bits := by
  have hv := value_lt s.octets
  have hc := hs.cur_lt
  rw [number_eq, bits, pow_add]
  calc value s.octets + 2 ^ (8 * s.octets.length) * s.cur.toNat
      < 2 ^ (8 * s.octets.length) * (s.cur.toNat + 1) := by rw [mul_succ]; omega
    _ ≤ _ := mul_le_mul_left _ hc

theorem value_written (hs : s.Wf) : value s.written = s.number := by
  rw [written, number]
  split_ifs with h
  · have hc := hs.cur_lt
    rw [value_append_singleton]
    simp only [h] at hc
    simp [show s.cur.toNat = 0 by omega]
  · rfl

theorem length_written (hs : s.Wf) : s.written.length = (s.bits + 7) / 8 := by
  have hu := hs.used_lt
  rw [written, bits]
  split_ifs with h
  · omega
  · simp only [length_append, length_singleton]
    omega

@[simp] theorem bits_put : (s.put w v).bits = s.bits + w := by
  simp only [put, bits]
  split_ifs with h
  · simp only [length_append, length_singleton]
    omega
  · simp only []
    omega

theorem low_add_carry (hx : x < 2 ^ u) (hu : u < 8) :
    (x ||| v <<< u) % 256 + 256 * (v >>> (8 - u)) = x + 2 ^ u * v := by
  rw [Nat.or_comm, ← shiftLeft_add_eq_or_of_lt hx, shiftLeft_eq, shiftRight_eq_div_pow]
  interval_cases u <;> omega

theorem wf_put (hs : s.Wf) (hv : v < 2 ^ w) (hw : w ≤ 8) : (s.put w v).Wf := by
  have hu := hs.used_lt
  simp only [put]
  split_ifs with h
  · constructor
    · simp only []
      omega
    · have hlt : v >>> (8 - s.used) < 2 ^ (s.used + w - 8) := by
        rw [shiftRight_eq_div_pow, Nat.div_lt_iff_lt_mul (Nat.two_pow_pos _), ← pow_add]
        exact lt_of_lt_of_eq hv (by congr 1; omega)
      exact lt_of_le_of_lt (mod_le _ _) hlt
  · constructor
    · simp only []
      omega
    · have hor : s.cur.toNat ||| v <<< s.used < 2 ^ (s.used + w) := by
        apply or_lt_two_pow
        · exact lt_of_lt_of_le hs.cur_lt (Nat.pow_le_pow_right (by omega) (by omega))
        · rw [shiftLeft_eq, pow_add, mul_comm]
          exact mul_lt_mul_of_pos_left hv (Nat.two_pow_pos _)
      exact lt_of_le_of_lt (mod_le _ _) hor

theorem number_put (hs : s.Wf) (hv : v < 2 ^ w) (hw : w ≤ 8) :
    (s.put w v).number = s.number + 2 ^ s.bits * v := by
  have hu := hs.used_lt
  have hsum := low_add_carry (v := v) hs.cur_lt hu
  have hpow : 2 ^ s.bits * v = 2 ^ (8 * s.octets.length) * (2 ^ s.used * v) := by
    rw [bits, pow_add, mul_assoc]
  have hcarry : v >>> (8 - s.used) < 256 := by
    rw [shiftRight_eq_div_pow]
    apply lt_of_le_of_lt (div_le_self _ _)
    exact lt_of_lt_of_le hv (Nat.pow_le_pow_right (j := 8) (by omega) hw)
  rw [number_eq, number_eq, hpow, put]
  split_ifs with h
  · have hlen : 2 ^ (8 * (s.octets.length + 1)) = 2 ^ (8 * s.octets.length) * 256 := by
      rw [mul_succ, Nat.pow_add]
    simp only [value_append_singleton, UInt8.toNat_ofNat', length_append, length_singleton]
    rw [hlen, mod_eq_of_lt (a := v >>> (8 - s.used)) (by omega), add_assoc, mul_assoc,
      ← mul_add, hsum, mul_add, add_assoc]
  · -- no carry: the field ends within the octet
    have hzero : v >>> (8 - s.used) = 0 := by
      rw [shiftRight_eq_div_pow]
      apply div_eq_of_lt
      exact lt_of_lt_of_le hv (Nat.pow_le_pow_right (by omega) (by omega))
    rw [hzero] at hsum
    rw [add_assoc, ← mul_add]
    congr 2

theorem wf_foldl_put (hs : s.Wf) (hv : ∀ v ∈ vs, v < 2 ^ w) (hw : w ≤ 8) :
    (vs.foldl (fun s v => s.put w v) s).Wf := by
  induction vs generalizing s with
  | nil => exact hs
  | cons v vs ih =>
    apply ih (wf_put hs (hv v (by simp)) hw)
    intro x hx
    exact hv x (by simp [hx])

theorem octets_prefix_put : s.octets <+: (s.put w v).octets := by
  rw [put]
  split_ifs
  · exact prefix_append _ _
  · exact prefix_refl _

theorem octets_prefix_written (s : Writer) : s.octets <+: s.written := by
  rw [written]
  split_ifs
  · exact prefix_refl _
  · exact prefix_append _ _

theorem octets_prefix_foldl_put : s.octets <+: (vs.foldl (fun s v => s.put w v) s).written := by
  induction vs generalizing s with
  | nil => exact octets_prefix_written s
  | cons v vs ih => exact octets_prefix_put.trans ih

@[simp] theorem bits_foldl_put :
    (vs.foldl (fun s v => s.put w v) s).bits = s.bits + w * vs.length := by
  induction vs generalizing s with
  | nil => simp
  | cons v vs ih =>
    rw [foldl_cons, ih, bits_put, length_cons, mul_succ]
    omega

theorem number_foldl_put (hs : s.Wf) (hv : ∀ v ∈ vs, v < 2 ^ w) (hw : w ≤ 8) :
    (vs.foldl (fun s v => s.put w v) s).number = s.number + 2 ^ s.bits * ofDigits (2 ^ w) vs := by
  induction vs generalizing s with
  | nil => simp
  | cons v vs ih =>
    have hlt : v < 2 ^ w := hv v (by simp)
    rw [foldl_cons, ih (wf_put hs hlt hw) (fun x hx => hv x (by simp [hx])), number_put hs hlt hw,
      bits_put, ofDigits_cons, pow_add, mul_add, add_assoc, mul_assoc]

theorem ofDigits_div_mod (hv : ∀ v ∈ vs, v < b) (hk : k < vs.length) :
    ofDigits b vs / b ^ k % b = vs[k] := by
  have hlt : vs[k] < b := hv _ (getElem_mem hk)
  rw [ofDigits_div_pow_eq_ofDigits_drop k (by omega) vs hv, drop_eq_getElem_cons hk, ofDigits_cons]
  simp [mod_eq_of_lt hlt]

theorem field_foldl_put (hs : s.Wf) (hv : ∀ v ∈ vs, v < 2 ^ w) (hw : w ≤ 8) (hw' : 0 < w)
    (hi : Holds i 0 (vs.foldl (fun s v => s.put w v) s).written) (hk : k < vs.length) :
    field w i (s.bits + w * k) = vs[k] := by
  have hwf := wf_foldl_put hs hv hw
  have hlen := length_written hwf
  rw [bits_foldl_put] at hlen
  have hle : w * (k + 1) ≤ w * vs.length := mul_le_mul_left w hk
  rw [mul_succ] at hle
  rw [field_eq hi hw hw' (by omega), value_written hwf, number_foldl_put hs hv hw, pow_add,
    ← Nat.div_div_eq_div_mul, add_mul_div_left _ _ (Nat.two_pow_pos _),
    div_eq_of_lt (number_lt hs), zero_add, pow_mul]
  exact ofDigits_div_mod hv hk

end Writer

end BitFields

end CallWeaver
