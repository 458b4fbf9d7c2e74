import Mathlib.Algebra.Order.Ring.Int
import Mathlib.Data.List.DropRight
import Mathlib.Data.List.Infix

/-! # Character strings

A C string is the list of its bytes in front of the terminating zero. The comparison functions
follow the C library in the default locale, and those of `strings.h` cut off blanks in place; `char`
is signed, so the bytes from 128 on are blanks as well. The conversion `%d` of `sscanf` reads the
decimal number that a text begins with.
-/

namespace CallWeaver

open List

/-- The bytes of a C string, without the terminating zero. -/
abbrev CStr := List UInt8

abbrev chr (c : Char) : UInt8 := c.toUInt8

def charLe (a b : UInt8) : Bool := decide (a.toInt8 ≤ b.toInt8)

def toupper (c : UInt8) : UInt8 :=
  if chr 'a' ≤ c ∧ c ≤ chr 'z' then c - 32 else c

def tolower (c : UInt8) : UInt8 :=
  if chr 'A' ≤ c ∧ c ≤ chr 'Z' then c + 32 else c

/-- The sign of `strcmp` through `f`, byte by byte; a string comes after its proper prefixes. -/
def compareWith (f : UInt8 → UInt8) : CStr → CStr → Ordering
  | [], [] => .eq
  | [], _ :: _ => .lt
  | _ :: _, [] => .gt
  | a :: s, b :: t =>
    if f a < f b then .lt else if f b < f a then .gt else compareWith f s t

def strcmp (s t : CStr) : Ordering := compareWith id s t

def strcasecmp (s t : CStr) : Ordering := compareWith tolower s t

theorem compareWith_eq_iff {f : UInt8 → UInt8} {s t : CStr} :
    compareWith f s t = .eq ↔ s.map f = t.map f := by
  induction s generalizing t with
  | nil => cases t <;> simp [compareWith]
  | cons a s ih =>
    cases t with
    | nil => simp [compareWith]
    | cons b t =>
      simp only [compareWith, List.map_cons, List.cons.injEq]
      split_ifs with h₁ h₂
      · simp [UInt8.ne_of_lt h₁]
      · simp [(UInt8.ne_of_lt h₂).symm]
      · have he : f a = f b := UInt8.le_antisymm (UInt8.not_lt.mp h₂) (UInt8.not_lt.mp h₁)
        simp [ih, he]

theorem strcmp_eq_iff {s t : CStr} : strcmp s t = .eq ↔ s = t := by
  simp [strcmp, compareWith_eq_iff]

def isspace (c : UInt8) : Bool := c = 32 || (9 ≤ c && c ≤ 13)

def isdigit (c : UInt8) : Bool := chr '0' ≤ c && c ≤ chr '9'

def strtol (s : CStr) : ℤ :=
  let digits (s : CStr) : ℤ :=
    (s.takeWhile isdigit).foldl (fun n c => 10 * n + (c.toNat - 48 : ℕ)) 0
  let n := match s.dropWhile isspace with
    | [] => 0
    | c :: t => if c = chr '-' then -digits t else if c = chr '+' then digits t else digits (c :: t)
  max (-9223372036854775808) (min 9223372036854775807 n)

def atoi (s : CStr) : ℤ := (strtol s + 2147483648) % 4294967296 - 2147483648

/-- A `char` as an unsigned integer, with its sign extended. -/
def signExtend (c : UInt8) : UInt32 :=
  if c < 128 then c.toUInt32 else c.toUInt32 - 256

def cwHashString (s : CStr) : UInt32 :=
  let hash := (s.take 32).foldl
    (fun (hash : UInt32) ch => signExtend ch + (hash <<< 6) + (hash <<< 16) - hash) 0
  hash &&& 0x7FFFFFFF

def isBlank (c : UInt8) : Bool := charLe c 32

def cwSkipBlanks (s : CStr) : CStr := s.dropWhile isBlank

def cwTrimBlanks (s : CStr) : CStr := s.rdropWhile isBlank

def cwStrip (s : CStr) : CStr := cwTrimBlanks (cwSkipBlanks s)

def cwCopyString (src : CStr) (size : ℕ) : CStr := src.take (size - 1)

theorem isBlank_space : ∀ x ∈ [chr ' '], isBlank x = true := forall_mem_singleton.mpr (by decide)

theorem isBlank_feed : ∀ x ∈ [chr '\n'], isBlank x = true := forall_mem_singleton.mpr (by decide)

section Blanks

variable {s a b w : CStr} {c : UInt8}

section

variable (hc : isBlank c = false)

include hc

theorem cwSkipBlanks_append_cons : cwSkipBlanks (b ++ c :: a) = cwSkipBlanks b ++ c :: a := by
  rw [cwSkipBlanks, cwSkipBlanks, dropWhile_append]
  split_ifs with hb
  · rw [isEmpty_iff.mp hb, dropWhile_cons_of_neg (by simp [hc]), nil_append]
  · rfl

theorem cwTrimBlanks_append_cons : cwTrimBlanks (b ++ c :: a) = b ++ c :: cwTrimBlanks a := by
  unfold cwTrimBlanks
  induction a using reverseRecOn with
  | nil => simp [hc]
  | append_singleton a x ih =>
    have hassoc : b ++ c :: (a ++ [x]) = b ++ c :: a ++ [x] := by simp
    rw [hassoc, rdropWhile_concat, rdropWhile_concat, ih]
    split_ifs <;> simp

theorem cwStrip_append_cons : cwStrip (b ++ c :: a) = cwSkipBlanks b ++ c :: cwTrimBlanks a := by
  rw [cwStrip, cwSkipBlanks_append_cons hc, cwTrimBlanks_append_cons hc]

end

theorem cwStrip_blanks (hs : ∀ x ∈ s, isBlank x = true) : cwStrip s = [] := by
  rw [cwStrip, cwSkipBlanks, dropWhile_eq_nil_iff.mpr hs]
  rfl

theorem blanks_or (s : CStr) :
    (∀ x ∈ s, isBlank x = true) ∨ ∃ b c a, s = b ++ c :: a ∧ isBlank c = false := by
  by_cases h : ∀ x ∈ s, isBlank x = true
  · exact .inl h
  · push Not at h
    obtain ⟨c, hmem, hc⟩ := h
    obtain ⟨b, a, rfl⟩ := append_of_mem hmem
    exact .inr ⟨b, c, a, rfl, Bool.eq_false_iff.mpr hc⟩

theorem cwTrimBlanks_append (hw : ∀ x ∈ w, isBlank x = true) :
    cwTrimBlanks (s ++ w) = cwTrimBlanks s := by
  unfold cwTrimBlanks
  induction w using reverseRecOn with
  | nil => rw [append_nil]
  | append_singleton w x ih =>
    rw [← append_assoc, rdropWhile_concat_pos _ _ _ (hw x (by simp))]
    exact ih fun y hy => hw y (mem_append_left _ hy)

theorem exists_cwTrimBlanks (s : CStr) : ∃ w, s = cwTrimBlanks s ++ w ∧ ∀ x ∈ w, isBlank x = true :=
  ⟨s.rtakeWhile isBlank, (rdropWhile_append_rtakeWhile ..).symm, fun _ => mem_rtakeWhile_imp⟩

theorem cwSkipBlanks_append (hw : ∀ x ∈ w, isBlank x = true) :
    cwSkipBlanks (w ++ s) = cwSkipBlanks s :=
  dropWhile_append_of_pos hw

theorem cwStrip_append (hw : ∀ x ∈ w, isBlank x = true) : cwStrip (s ++ w) = cwStrip s := by
  rcases blanks_or s with hs | ⟨b, c, a, rfl, hc⟩
  · rw [cwStrip_blanks hs, cwStrip_blanks fun x hx => (mem_append.mp hx).elim (hs x) (hw x)]
  · rw [append_assoc, cons_append, cwStrip_append_cons hc, cwTrimBlanks_append hw,
      cwStrip_append_cons hc]

theorem cwStrip_cwSkipBlanks (s : CStr) : cwStrip (cwSkipBlanks s) = cwStrip s := by
  unfold cwStrip cwSkipBlanks
  rw [dropWhile_idempotent]

theorem cwStrip_cwTrimBlanks (s : CStr) : cwStrip (cwTrimBlanks s) = cwStrip s := by
  rcases blanks_or s with hs | ⟨b, c, a, rfl, hc⟩
  · rw [cwStrip_blanks hs, cwTrimBlanks, rdropWhile_eq_nil_iff.mpr hs]
    rfl
  · rw [cwTrimBlanks_append_cons hc, cwStrip_append_cons hc, cwStrip_append_cons hc, cwTrimBlanks,
      cwTrimBlanks, rdropWhile_idempotent]

theorem cwStrip_cwStrip (s : CStr) : cwStrip (cwStrip s) = cwStrip s := by
  rw [show cwStrip s = cwTrimBlanks (cwSkipBlanks s) from rfl, cwStrip_cwTrimBlanks,
    cwStrip_cwSkipBlanks]
  rfl

theorem infix_cwStrip (s : CStr) : cwStrip s <:+: s :=
  (List.rdropWhile_prefix _ _).isInfix.trans (dropWhile_suffix _).isInfix

theorem length_cwStrip_le (s : CStr) : (cwStrip s).length ≤ s.length := (infix_cwStrip s).length_le

theorem isBlank_head (h : cwStrip (c :: s) = c :: s) : isBlank c = false := by
  by_contra hc
  have hskip : cwStrip ([c] ++ s) = cwStrip s := by
    rw [cwStrip, cwSkipBlanks_append (by simpa using hc)]
    rfl
  have hle := length_cwStrip_le s
  rw [← hskip, singleton_append, h, length_cons] at hle
  omega

end Blanks

/-- The conversion `%d` of `sscanf`: the number and the rest of the text. -/
def scanInt (s : CStr) : Option (ℤ × CStr) :=
  let t := match s.dropWhile isspace with
    | [] => []
    | c :: t => if c = chr '-' ∨ c = chr '+' then t else c :: t
  if t.takeWhile isdigit = [] then none else some (atoi s, t.dropWhile isdigit)

def IsNumber (x : CStr) : Prop := x ≠ [] ∧ ∀ c ∈ x, isdigit c = true

def number (x : CStr) : ℕ := x.foldl (fun n c => 10 * n + (c.toNat - 48)) 0

variable {x : CStr}

instance : Decidable (IsNumber x) :=
  decidable_of_iff (x ≠ [] ∧ x.all isdigit) (by rw [IsNumber, all_eq_true])

theorem isdigit_iff {c : UInt8} : isdigit c = true ↔ 48 ≤ c.toNat ∧ c.toNat ≤ 57 := by
  simp only [isdigit, Bool.and_eq_true, decide_eq_true_eq, UInt8.le_iff_toNat_le]
  exact Iff.rfl

theorem number_cast (x : CStr) (n : ℕ) :
    x.foldl (fun (n : ℤ) c => 10 * n + (c.toNat - 48 : ℕ)) (n : ℤ) =
      (x.foldl (fun n c => 10 * n + (c.toNat - 48)) n : ℕ) := by
  induction x generalizing n with
  | nil => rfl
  | cons c x ih =>
    rw [foldl_cons, foldl_cons, ← ih]
    simp

def signed (neg : Bool) (x : CStr) : ℤ := if neg then -(number x : ℤ) else number x

theorem scanInt_signed (neg : Bool) (rest : CStr) (h : IsNumber x)
    (hrest : ∀ c ∈ rest.head?, isdigit c = false)
    (hfits : -2147483648 ≤ signed neg x ∧ signed neg x < 2147483648) :
    scanInt ((if neg then [chr '-'] else []) ++ (x ++ rest)) = some (signed neg x, rest) := by
  obtain ⟨hne, hd⟩ := h
  have htake : (x ++ rest).takeWhile isdigit = x := by
    rw [takeWhile_append_of_pos hd]
    cases rest with
    | nil => simp
    | cons d rest => simp [hrest d rfl]
  have hdrop : (x ++ rest).dropWhile isdigit = rest := by
    rw [dropWhile_append_of_pos hd]
    cases rest with
    | nil => rfl
    | cons d rest => simp [hrest d rfl]
  have hvalue : x.foldl (fun (n : ℤ) c => 10 * n + (c.toNat - 48 : ℕ)) 0 = number x :=
    number_cast x 0
  cases neg with
  | true =>
    have hskip : (chr '-' :: (x ++ rest)).dropWhile isspace = chr '-' :: (x ++ rest) := rfl
    have hatoi : atoi (chr '-' :: (x ++ rest)) = signed true x := by
      simp only [signed, if_true] at hfits ⊢
      simp only [atoi, strtol, hskip, if_true, htake, hvalue]
      generalize -(number x : ℤ) = n at hfits ⊢
      omega
    simp only [scanInt, if_true, singleton_append, hskip, true_or, htake, hdrop, hatoi, if_neg hne]
  | false =>
    obtain ⟨c, t, rfl⟩ := exists_cons_of_ne_nil hne
    have hc : 48 ≤ c.toNat ∧ c.toNat ≤ 57 := isdigit_iff.mp (hd c mem_cons_self)
    have hspace : isspace c = false := by
      simp only [isspace, Bool.or_eq_false_iff, Bool.and_eq_false_iff, decide_eq_false_iff_not,
        UInt8.le_iff_toNat_le, ← UInt8.toNat_inj]
      simp
      omega
    have hsign : c ≠ chr '-' ∧ c ≠ chr '+' := by
      constructor <;> rintro rfl <;> revert hc <;> decide
    have hskip : (c :: (t ++ rest)).dropWhile isspace = c :: (t ++ rest) := by simp [hspace]
    rw [cons_append] at htake hdrop
    have hatoi : atoi (c :: (t ++ rest)) = signed false (c :: t) := by
      simp only [signed, Bool.false_eq_true, if_false] at hfits ⊢
      simp only [atoi, strtol, hskip, hsign.1, hsign.2, if_false, htake, hvalue]
      omega
    simp only [scanInt, Bool.false_eq_true, if_false, nil_append, cons_append, hskip, hsign.1,
      hsign.2, or_self, htake, hdrop, hatoi, reduceCtorEq]

theorem scanInt_number (rest : CStr) (h : IsNumber x) (hrest : ∀ c ∈ rest.head?, isdigit c = false)
    (hlt : number x < 2 ^ 31) : scanInt (x ++ rest) = some ((number x : ℤ), rest) :=
  scanInt_signed false rest h hrest ⟨by simp [signed], by simp [signed]; omega⟩

end CallWeaver
