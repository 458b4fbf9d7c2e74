import Mathlib.Algebra.Order.Ring.Int
import Mathlib.Data.List.Basic
import Mathlib.Data.List.GetD
import Mathlib.Data.List.OfFn
import Mathlib.Data.List.TakeWhile

/-! # Byte strings

Reading a buffer at an offset, writing over its beginning, numbers in network byte order, and texts
that end before a zero. Absolute numbers are recovered from their low octets when they are known to
be close. A single missing string is the parity without the other ones. In a chain of cipher blocks,
a replaced block changes the decryption of that block and the next one only.
-/

namespace CallWeaver

open List Function

section Cursor

variable {α : Type*} {buf x bs : List α} {ptr : ℕ} {a : α}

/-- The buffer `buf` goes on with `bs` at `ptr`. -/
def Rest (buf : List α) (ptr : ℕ) (bs : List α) : Prop :=
  ∃ l, buf = l ++ bs ∧ l.length = ptr

theorem Rest.advance (h : Rest buf ptr (x ++ bs)) : Rest buf (ptr + x.length) bs := by
  obtain ⟨l, rfl, rfl⟩ := h
  exact ⟨l ++ x, by simp, by simp⟩

theorem Rest.next (h : Rest buf ptr (a :: bs)) : Rest buf (ptr + 1) bs :=
  Rest.advance (x := [a]) h

theorem Rest.getElem? (h : Rest buf ptr (a :: bs)) : buf[ptr]? = some a := by
  obtain ⟨l, rfl, rfl⟩ := h
  simp

theorem Rest.length_eq (h : Rest buf ptr bs) : buf.length = ptr + bs.length := by
  obtain ⟨l, rfl, rfl⟩ := h
  simp

theorem Rest.take_drop (h : Rest buf ptr (x ++ bs)) : (buf.drop ptr).take x.length = x := by
  obtain ⟨l, rfl, rfl⟩ := h
  simp

end Cursor

def memcpy {α : Type*} (dst src : List α) : List α := src ++ dst.drop src.length

@[simp] theorem take_memcpy {α : Type*} (dst src : List α) :
    (memcpy dst src).take src.length = src := by
  simp [memcpy]

theorem getD_eq_of_take {α : Type*} {l d : List α} {i : ℕ} (x : α) (h : l.take d.length = d)
    (hi : i < d.length) : l.getD i x = d.getD i x := by
  have hget : (l.take d.length)[i]? = l[i]? := by rw [getElem?_take, if_pos hi]
  rw [getD_eq_getElem?_getD, getD_eq_getElem?_getD, ← hget, h]

def htons (n : ℕ) : List UInt8 := [UInt8.ofNat (n / 256), UInt8.ofNat n]

def ntohs (b₁ b₀ : UInt8) : ℕ := b₁.toNat * 256 + b₀.toNat

@[simp] theorem ntohs_htons (n : ℕ) :
    ntohs (UInt8.ofNat (n / 256)) (UInt8.ofNat n) = n % 65536 := by
  simp only [ntohs, UInt8.toNat_ofNat']
  omega

@[simp] theorem length_htons (n : ℕ) : (htons n).length = 2 := rfl

def htonl (n : ℕ) : List UInt8 := htons (n / 65536) ++ htons n

def ntohl (b₃ b₂ b₁ b₀ : UInt8) : ℕ := ntohs b₃ b₂ * 65536 + ntohs b₁ b₀

@[simp] theorem length_htonl (n : ℕ) : (htonl n).length = 4 := rfl

section Wrapping

variable {a b r s : ℕ} {x : UInt8}

theorem ofNat_eq_iff : UInt8.ofNat a = UInt8.ofNat b ↔ a % 256 = b % 256 := by
  rw [← UInt8.toNat_inj]
  simp

theorem eq_of_ofNat_eq (h : UInt8.ofNat a = UInt8.ofNat b) (hab : a < b + 256) (hba : b < a + 256) :
    a = b := by
  have := ofNat_eq_iff.mp h
  omega

theorem ofNat_add_one (a b : ℕ) : UInt8.ofNat (a + b) + 1 = UInt8.ofNat (a + (b + 1)) :=
  (UInt8.ofNat_add (a + b) 1).symm

theorem toNat_ofNat_sub (h : b ≤ a) : (UInt8.ofNat a - UInt8.ofNat b).toNat = (a - b) % 256 := by
  rw [← UInt8.ofNat_sub h, UInt8.toNat_ofNat']

def upTo (a b : UInt8) : List UInt8 :=
  (range (b - a).toNat).map fun k => a + UInt8.ofNat k

theorem mem_upTo (h : r ≤ s) (hs : s < r + 256) :
    x ∈ upTo (UInt8.ofNat r) (UInt8.ofNat s) ↔ ∃ k, r ≤ k ∧ k < s ∧ x = UInt8.ofNat k := by
  have hlen : (UInt8.ofNat s - UInt8.ofNat r).toNat = s - r := by
    rw [toNat_ofNat_sub h]
    omega
  simp only [upTo, hlen, mem_map, mem_range]
  constructor
  · rintro ⟨k, hk, rfl⟩
    exact ⟨r + k, by omega, by omega, by rw [UInt8.ofNat_add]⟩
  · rintro ⟨k, hr, hk, rfl⟩
    exact ⟨k - r, by omega, by rw [← UInt8.ofNat_add, Nat.add_sub_cancel' hr]⟩

theorem and_low (a : ℕ) : a &&& 0xFFFF = a % 65536 := Nat.and_two_pow_sub_one_eq_mod a 16

theorem and_high_bits (k m : ℕ) (h : a < 2 ^ (k + m)) :
    a &&& (2 ^ m - 1) * 2 ^ k = a / 2 ^ k * 2 ^ k := by
  have hmod : (a &&& (2 ^ m - 1) * 2 ^ k) % 2 ^ k = 0 := by
    rw [Nat.and_mod_two_pow, Nat.mul_mod_left, Nat.and_zero]
  have hdiv : (a &&& (2 ^ m - 1) * 2 ^ k) / 2 ^ k = a / 2 ^ k := by
    rw [← Nat.shiftRight_eq_div_pow, Nat.shiftRight_and_distrib, Nat.shiftRight_eq_div_pow,
      Nat.shiftRight_eq_div_pow, Nat.mul_div_cancel _ (Nat.two_pow_pos k),
      Nat.and_two_pow_sub_one_eq_mod]
    exact Nat.mod_eq_of_lt (Nat.div_lt_of_lt_mul (by rwa [← Nat.pow_add]))
  rw [← Nat.div_mul_cancel (Nat.dvd_of_mod_eq_zero hmod), hdiv]

theorem and_high (h : a < 4294967296) :
    a &&& 0xFFFF0000 = a / 65536 * 65536 := and_high_bits 16 16 h

theorem high_or_low (a : ℕ) (hb : b < 65536) : a * 65536 ||| b = a * 65536 + b := by
  rw [Nat.mul_comm a]
  exact (Nat.two_pow_add_eq_or_of_lt (i := 16) hb a).symm

end Wrapping

namespace Parity

def xorPad (a b : List UInt8) : List UInt8 :=
  zipWith (· ^^^ ·) a b ++ (a.drop b.length ++ b.drop a.length)

theorem length_xorPad (a b : List UInt8) : (xorPad a b).length = max a.length b.length := by
  simp only [xorPad, length_append, length_zipWith, length_drop]
  omega

theorem getD_xorPad (a b : List UInt8) (j : ℕ) :
    (xorPad a b).getD j 0 = a.getD j 0 ^^^ b.getD j 0 := by
  induction a generalizing b j with
  | nil => simp [xorPad]
  | cons x a ih =>
    cases b with
    | nil => simp [xorPad]
    | cons y b =>
      cases j with
      | zero => simp [xorPad]
      | succ j => simpa [xorPad] using ih b j

def parity (l : List (List UInt8)) : List UInt8 := l.foldl xorPad []

def longest (l : List (List UInt8)) : ℕ := l.foldl (fun n d => max n d.length) 0

def xorAll (l : List UInt8) : UInt8 := l.foldr (· ^^^ ·) 0

theorem xorAll_append (l l' : List UInt8) : xorAll (l ++ l') = xorAll l ^^^ xorAll l' := by
  induction l with
  | nil => simp [xorAll]
  | cons b l ih =>
    simp only [xorAll, cons_append, foldr_cons] at ih ⊢
    rw [ih, UInt8.xor_assoc]

theorem foldl_xor {α : Type*} (f : α → UInt8) (l : List α) (b : UInt8) :
    l.foldl (fun b a => b ^^^ f a) b = b ^^^ xorAll (l.map f) := by
  induction l generalizing b with
  | nil => simp [xorAll]
  | cons a l ih => simp only [foldl_cons, ih, map_cons, xorAll, foldr_cons, UInt8.xor_assoc]

variable (l : List (List UInt8)) {n : ℕ}

theorem length_parity : (parity l).length = longest l := by
  have h : ∀ a n, a.length = n →
      (l.foldl xorPad a).length = l.foldl (fun n d => max n d.length) n := by
    induction l with
    | nil => exact fun a n h => h
    | cons d l ih => exact fun a n h => ih _ _ (by rw [length_xorPad, h])
  exact h [] 0 rfl

theorem getD_parity (j : ℕ) : (parity l).getD j 0 = xorAll (l.map fun d => d.getD j 0) := by
  have h :
      ∀ a, (l.foldl xorPad a).getD j 0 = a.getD j 0 ^^^ xorAll (l.map fun d => d.getD j 0) := by
    induction l with
    | nil => simp [xorAll]
    | cons d l ih =>
      intro a
      simp only [foldl_cons, ih, getD_xorPad, map_cons, xorAll, foldr_cons, UInt8.xor_assoc]
  simpa [parity] using h []

theorem longest_le_iff {l : List (List UInt8)} : longest l ≤ n ↔ ∀ d ∈ l, d.length ≤ n := by
  have h : ∀ k, l.foldl (fun n d => max n d.length) k ≤ n ↔ k ≤ n ∧ ∀ d ∈ l, d.length ≤ n := by
    induction l with
    | nil => simp
    | cons d l ih =>
      intro k
      rw [foldl_cons, ih, Nat.max_le, and_assoc, forall_mem_cons]
  simp [longest, h]

theorem le_longest {l : List (List UInt8)} {d : List UInt8} (h : d ∈ l) : d.length ≤ longest l :=
  longest_le_iff.mp (Nat.le_refl _) d h

theorem xorAll_cancel (l : List UInt8) (b : UInt8) :
    xorAll (l ++ [b]) ^^^ xorAll (l ++ [0]) = b := by
  have hlast : ∀ c, xorAll (l ++ [c]) = c ^^^ xorAll l := by
    intro c
    rw [xorAll_append, UInt8.xor_comm, xorAll, foldr_cons, foldr_nil, UInt8.xor_zero]
  rw [hlast, hlast, UInt8.zero_xor, UInt8.xor_assoc, UInt8.xor_self, UInt8.xor_zero]

theorem map_getD_range (d : List UInt8) (h : d.length ≤ n) :
    (range n).map (fun j => d.getD j 0) = d ++ replicate (n - d.length) 0 := by
  apply ext_getElem
  · simp only [length_map, length_range, length_append, length_replicate]
    omega
  · intro i h₁ h₂
    simp only [getElem_map, getElem_range, getD_eq_getElem?_getD,
      getElem_append, getElem_replicate]
    split_ifs with hi
    · simp [hi]
    · simp [getElem?_eq_none (Nat.le_of_not_lt hi)]

end Parity

section Chaining

variable {β : Type*} {E D : β → β} {op : β → β → β} {prev b c : β} {bs : List β}

def chain (E : β → β) (op : β → β → β) : β → List β → List β
  | _, [] => []
  | prev, b :: bs => E (op prev b) :: chain E op (E (op prev b)) bs

def unchain (D : β → β) (op : β → β → β) : β → List β → List β
  | _, [] => []
  | prev, c :: cs => op (D c) prev :: unchain D op c cs

section

variable (hD : ∀ b, D (E b) = b) (hop : ∀ b c, op (op b c) b = c)

include hD hop

theorem unchain_chain : unchain D op prev (chain E op prev bs) = bs := by
  induction bs generalizing prev with
  | nil => rfl
  | cons b bs ih => rw [chain, unchain, hD, hop, ih]

theorem unchain_replace (a : β) :
    unchain D op prev (c :: chain E op a (b :: bs)) =
      op (D c) prev :: op (op a b) c :: bs := by
  rw [chain, unchain, unchain, hD, unchain_chain hD hop]

end

@[simp] theorem length_chain : (chain E op prev bs).length = bs.length := by
  induction bs generalizing prev with
  | nil => rfl
  | cons b bs ih => rw [chain, length_cons, length_cons, ih]

end Chaining

section Blocks

variable {α : Type*} {w n : ℕ}

def joined (bs : List (Fin w → α)) : List α := bs.flatMap ofFn

@[simp] theorem joined_nil : joined ([] : List (Fin w → α)) = [] := rfl

variable (b : Fin w → α) {l : List α}

@[simp] theorem joined_cons (bs : List (Fin w → α)) :
    joined (b :: bs) = ofFn b ++ joined bs := rfl

theorem length_joined (bs : List (Fin w → α)) : (joined bs).length = bs.length * w := by
  induction bs with
  | nil => simp
  | cons b bs ih =>
    rw [joined_cons, length_append, length_ofFn, ih, length_cons, Nat.succ_mul, Nat.add_comm]

def blockAt (d : α) (l : List α) : Fin w → α := fun i => l.getD i d

theorem ofFn_blockAt {d : α} (h : w ≤ l.length) : ofFn (blockAt d l : Fin w → α) = l.take w := by
  apply ext_getElem
  · simpa using h
  · intro i hi hi'
    rw [List.getElem_ofFn, getElem_take, blockAt, getD_eq_getElem]

theorem blockAt_append (d : α) (b : Fin w → α) (l : List α) : blockAt d (List.ofFn b ++ l) = b := by
  ext i
  rw [blockAt, getD_append _ _ _ _ (by simp), getD_eq_getElem _ _ (by simp), List.getElem_ofFn]

theorem exists_joined (d : α) (h : l.length = n * w) :
    ∃ bs : List (Fin w → α), joined bs = l ∧ bs.length = n := by
  induction n generalizing l with
  | zero => exact ⟨[], (eq_nil_of_length_eq_zero (by simpa using h)).symm, rfl⟩
  | succ n ih =>
    rw [Nat.succ_mul] at h
    obtain ⟨bs, hbs, hlen⟩ := ih (l := l.drop w) (by rw [length_drop]; omega)
    refine ⟨blockAt d l :: bs, ?_, by rw [length_cons, hlen]⟩
    rw [joined_cons, hbs, ofFn_blockAt (by omega), take_append_drop]

theorem ofFn_set (i : Fin w) (x : α) : (ofFn b).set i x = ofFn (update b i x) := by
  apply ext_getElem
  · simp
  · intro j hj hj'
    simp only [getElem_set, List.getElem_ofFn, update_apply, Fin.ext_iff, eq_comm]

theorem joined_set (bs : List (Fin w → α)) (i : Fin w) (x : α) :
    (joined (b :: bs)).set i x = joined (update b i x :: bs) := by
  rw [joined_cons, set_append_left _ _ (by simp), ofFn_set, joined_cons]

end Blocks

namespace Terminated

variable {α : Type*} [Zero α] [DecidableEq α] {a b g t s r z : List α} {c : α}

def textAt (b : List α) (p : ℕ) : List α := (b.drop p).takeWhile (· ≠ 0)

/-- The place of the first `c` in the text that starts at `p`. -/
def search (b : List α) (p : ℕ) (c : α) : Option ℕ :=
  if c ∈ textAt b p then some (p + (textAt b p).idxOf c) else none

/-- Copy the text that starts at `src`, with its end, to `dst`. -/
def moveText (b : List α) (dst src : ℕ) : List α :=
  b.take dst ++ (b.drop src).take ((textAt b src).length + 1) ++
    b.drop (dst + (textAt b src).length + 1)

theorem takeWhile_terminated (ht : 0 ∉ t) : (t ++ 0 :: z).takeWhile (· ≠ 0) = t := by
  rw [takeWhile_append_of_pos]
  · simp
  · intro x hx
    simpa using ne_of_mem_of_not_mem hx ht

theorem takeWhile_of_not_mem (ht : 0 ∉ t) : t.takeWhile (· ≠ 0) = t := by
  rw [takeWhile_eq_self_iff]
  intro x hx
  simpa using ne_of_mem_of_not_mem hx ht

theorem exists_terminated (l z : List α) : ∃ z', l ++ 0 :: z = l.takeWhile (· ≠ 0) ++ 0 :: z' := by
  induction l with
  | nil => exact ⟨z, rfl⟩
  | cons x l ih =>
    obtain ⟨z', h⟩ := ih
    by_cases hx : x = 0
    · subst hx
      exact ⟨l ++ 0 :: z, by simp⟩
    · exact ⟨z', by simp [hx, h]⟩

theorem textAt_terminated (ht : 0 ∉ t) : textAt (a ++ t ++ 0 :: z) a.length = t := by
  rw [textAt, append_assoc, drop_left, takeWhile_terminated ht]

theorem search_eq_none (ht : 0 ∉ t) (hc : c ∉ t) : search (a ++ t ++ 0 :: z) a.length c = none := by
  rw [search, textAt_terminated ht, if_neg hc]

theorem search_eq_some (ht : 0 ∉ s ++ c :: r) (hc : c ∉ s) :
    search (a ++ (s ++ c :: r) ++ 0 :: z) a.length c = some (a.length + s.length) := by
  rw [search, textAt_terminated ht, if_pos (by simp), idxOf_append_of_notMem hc, idxOf_cons_self,
    Nat.add_zero]

theorem moveText_eq (ht : 0 ∉ t) :
    ∃ z', moveText (a ++ g ++ t ++ 0 :: z) a.length (a ++ g).length = a ++ t ++ 0 :: z' := by
  have htext : (t ++ 0 :: z).take (t.length + 1) = t ++ [0] := by
    simp [take_append, take_of_length_le]
  refine ⟨(a ++ g ++ t ++ 0 :: z).drop (a.length + t.length + 1), ?_⟩
  rw [moveText, textAt_terminated ht, append_assoc (a ++ g), drop_left, htext, append_assoc a,
    take_left]
  simp

end Terminated

end CallWeaver
