import Mathlib.Data.List.Chain
import Mathlib.Data.List.GetD

/-! # The alphabet of short messages

Characters of 16 bits are coded as septets, one from the default alphabet or the septet 27 and one
from the table of escapes. The septet 27 alone is a character as well, so the code is ambiguous.
-/

namespace CallWeaver.Sms

open List

def defaultalphabet : List UInt16 := [
  0x0040, 0x00A3, 0x0024, 0x00A5, 0x00E8, 0x00E9, 0x00F9, 0x00EC,
  0x00F2, 0x00E7, 0x000A, 0x00D8, 0x00F8, 0x000D, 0x00C5, 0x00E5,
  0x0394, 0x005F, 0x03A6, 0x0393, 0x039B, 0x03A9, 0x03A0, 0x03A8,
  0x03A3, 0x0398, 0x039E, 0x00A0, 0x00C6, 0x00E6, 0x00DF, 0x00C9,
  32, 33, 34, 35, 164, 37, 38, 39, 40, 41, 42, 43, 44, 45, 46, 47,
  48, 49, 50, 51, 52, 53, 54, 55, 56, 57, 58, 59, 60, 61, 62, 63,
  161, 65, 66, 67, 68, 69, 70, 71, 72, 73, 74, 75, 76, 77, 78, 79,
  80, 81, 82, 83, 84, 85, 86, 87, 88, 89, 90, 196, 214, 209, 220, 167,
  191, 97, 98, 99, 100, 101, 102, 103, 104, 105, 106, 107, 108, 109, 110, 111,
  112, 113, 114, 115, 116, 117, 118, 119, 120, 121, 122, 228, 246, 241, 252, 224]

def escapes : List UInt16 := [
  0, 0, 0, 0, 0, 0, 0, 0, 0, 0, 0x000C, 0, 0, 0, 0, 0,
  0, 0, 0, 0, 0x005E, 0, 0, 0, 0, 0, 0, 0, 0, 0, 0, 0,
  0, 0, 0, 0, 0, 0, 0, 0, 0x007B, 0x007D, 0, 0, 0, 0, 0, 0x005C,
  0, 0, 0, 0, 0, 0, 0, 0, 0, 0, 0, 0, 0x005B, 0x007E, 0x005D, 0,
  0x007C, 0, 0, 0, 0, 0, 0, 0, 0, 0, 0, 0, 0, 0, 0, 0,
  0, 0, 0, 0, 0, 0, 0, 0, 0, 0, 0, 0, 0, 0, 0, 0,
  0, 0, 0, 0, 0, 0x20AC, 0, 0, 0, 0, 0, 0, 0, 0, 0, 0,
  0, 0, 0, 0, 0, 0, 0, 0, 0, 0, 0, 0, 0, 0, 0, 0]

def septetIn (table : List UInt16) (u : UInt16) : ℕ := table.findIdx (· == u)

def alphabetSeptet (u : UInt16) : ℕ := septetIn defaultalphabet u

def escapeSeptet (u : UInt16) : ℕ := septetIn escapes u

def alphabet (v : ℕ) : UInt16 := defaultalphabet.getD v 0

def escape (v : ℕ) : UInt16 := escapes.getD v 0

theorem getD_septetIn {table : List UInt16} {u : UInt16} (h : septetIn table u < table.length) :
    table.getD (septetIn table u) 0 = u := by
  have hx : (table[septetIn table u] == u) = true := findIdx_getElem (w := h)
  rw [getD_eq_getElem _ _ h]
  simpa using hx

theorem alphabet_alphabetSeptet {u : UInt16} (h : alphabetSeptet u < 128) :
    alphabet (alphabetSeptet u) = u :=
  getD_septetIn h

theorem escape_escapeSeptet {u : UInt16} (h : escapeSeptet u < 128) : escape (escapeSeptet u) = u :=
  getD_septetIn h

theorem escape_eq_zero {v : ℕ} (h : 128 ≤ v) : escape v = 0 :=
  getD_eq_default _ _ h

@[simp] theorem escape_27 : escape 27 = 0 := rfl

@[simp] theorem alphabet_27 : alphabet 27 = 0x00A0 := rfl

theorem alphabet_eq_iff {v : ℕ} (h : v < 128) : alphabet v = 0x00A0 ↔ v = 27 := by
  have hall : ∀ w : Fin 128, alphabet w = 0x00A0 ↔ w.val = 27 := by decide
  exact hall ⟨v, h⟩

theorem escape_ne (v : ℕ) : escape v ≠ 0x00A0 := by
  by_cases h : v < 128
  · have hall : ∀ w : Fin 128, escape w ≠ 0x00A0 := by decide
    exact hall ⟨v, h⟩
  · rw [escape_eq_zero (by omega)]
    decide

section Decoding

def pushSeptet (ud : List UInt16) (v : ℕ) : List UInt16 :=
  if ud.head? = some 0x00A0 ∧ escape v ≠ 0 then escape v :: ud.tail else alphabet v :: ud

def completed : Bool → List ℕ → ℕ
  | _, [] => 0
  | after, v :: vs => (if after ∧ escape v ≠ 0 then 1 else 0) + completed (v = 27) vs

variable {vs : List ℕ} {ud : List UInt16} {v : ℕ}

theorem head?_pushSeptet (ud : List UInt16) (hv : v < 128) :
    (pushSeptet ud v).head? = some 0x00A0 ↔ v = 27 := by
  rw [pushSeptet]
  split_ifs with h
  · simp only [head?_cons, Option.some.injEq, escape_ne, false_iff]
    rintro rfl
    exact h.2 escape_27
  · simpa using alphabet_eq_iff hv

theorem length_foldl_pushSeptet (hv : ∀ v ∈ vs, v < 128) {after : Bool}
    (ha : ud.head? = some 0x00A0 ↔ after = true) :
    (vs.foldl pushSeptet ud).length + completed after vs = ud.length + vs.length := by
  induction vs generalizing ud after with
  | nil => simp [completed]
  | cons v vs ih =>
    have hhead := head?_pushSeptet ud (hv v (by simp))
    have hrest : (vs.foldl pushSeptet (pushSeptet ud v)).length + completed (decide (v = 27)) vs =
        (pushSeptet ud v).length + vs.length :=
      ih (fun x hx => hv x (by simp [hx])) (by simpa using hhead)
    have hlen : (pushSeptet ud v).length + (if after ∧ escape v ≠ 0 then 1 else 0) =
        ud.length + 1 := by
      simp only [pushSeptet, ha]
      split_ifs with h
      · cases ud with
        | nil => simp [h.1] at ha
        | cons x ud => simp
      · simp
    rw [foldl_cons, completed, length_cons]
    omega

end Decoding

section Coding

def septets (u : UInt16) : List ℕ :=
  if alphabetSeptet u < 128 then [alphabetSeptet u] else [27, escapeSeptet u]

def IsCoded (u : UInt16) : Prop := alphabetSeptet u < 128 ∨ u ≠ 0 ∧ escapeSeptet u < 128
  deriving Decidable

def Joins (x u : UInt16) : Prop := x = 0x00A0 ∧ escape (alphabetSeptet u) ≠ 0
  deriving Decidable

variable {u : UInt16} {ud out : List UInt16}

theorem septets_lt (hu : IsCoded u) : ∀ v ∈ septets u, v < 128 := by
  intro v hv
  rw [septets] at hv
  split_ifs at hv with h
  · obtain rfl := mem_singleton.mp hv
    exact h
  · obtain rfl | rfl : v = 27 ∨ v = escapeSeptet u := by simpa using hv
    · decide
    · exact (hu.resolve_left h).2

theorem septets_ne_nil : septets u ≠ [] := by
  rw [septets]
  split_ifs <;> simp

/-- The septets of one character give the character, unless they join the one before. -/
theorem foldl_pushSeptet_septets (hu : IsCoded u) : (septets u).foldl pushSeptet out =
    if ∃ x ∈ out.head?, Joins x u then escape (alphabetSeptet u) :: out.tail else u :: out := by
  have hj : (∃ x ∈ out.head?, Joins x u) ↔
      out.head? = some 0x00A0 ∧ escape (alphabetSeptet u) ≠ 0 := by
    simp [Joins]
  simp only [hj, septets]
  by_cases h : alphabetSeptet u < 128
  · simp only [if_pos h, foldl_cons, foldl_nil, pushSeptet, alphabet_alphabetSeptet h]
  · have hesc := hu.resolve_left h
    have hzero : escape (alphabetSeptet u) = 0 := escape_eq_zero (by omega)
    simp [h, pushSeptet, escape_escapeSeptet hesc.2, hesc.1, hzero]

variable (out : List UInt16) (hud : ∀ u ∈ ud, IsCoded u)

include hud

theorem length_foldl_septets_le :
    ((ud.flatMap septets).foldl pushSeptet out).length ≤ out.length + ud.length := by
  induction ud generalizing out with
  | nil => simp
  | cons u ud ih =>
    have hrest := ih ((septets u).foldl pushSeptet out) fun x hx => hud x (by simp [hx])
    have hone : ((septets u).foldl pushSeptet out).length ≤ out.length + 1 := by
      rw [foldl_pushSeptet_septets (hud u (by simp))]
      split_ifs
      · simp only [length_cons, length_tail]
        omega
      · simp
    rw [flatMap_cons, foldl_append, length_cons]
    omega

/-- A text is decoded as it was if and only if no character in it joins the one before. -/
theorem foldl_septets_eq_iff :
    (ud.flatMap septets).foldl pushSeptet out = ud.reverse ++ out ↔
      (out.head?.toList ++ ud).IsChain fun x u => ¬ Joins x u := by
  induction ud generalizing out with
  | nil => cases out <;> simp
  | cons u ud ih =>
    have hud' : ∀ x ∈ ud, IsCoded x := fun x hx => hud x (by simp [hx])
    rw [flatMap_cons, foldl_append, foldl_pushSeptet_septets (hud u (by simp))]
    have hchain : (out.head?.toList ++ u :: ud).IsChain (fun x u => ¬ Joins x u) ↔
        (¬ ∃ x ∈ out.head?, Joins x u) ∧ (u :: ud).IsChain fun x u => ¬ Joins x u := by
      cases out <;> simp
    rw [hchain]
    split_ifs with h
    · -- one character is lost here, and the rest cannot make up for it
      simp only [h, not_true_eq_false, false_and, iff_false]
      intro heq
      have hlen := length_foldl_septets_le (escape (alphabetSeptet u) :: out.tail) hud'
      obtain ⟨x, hx, -⟩ := h
      have hpos : 0 < out.length := by
        cases out with
        | nil => simp at hx
        | cons => simp
      rw [heq] at hlen
      simp at hlen
      omega
    · have hrest := ih (u :: out) hud'
      simp only [h, not_false_eq_true, true_and]
      simpa using hrest

end Coding

end CallWeaver.Sms
