import CallWeaver.Base.Runs

/-! # Answers of the name server

`dns_parse_answer` walks through the questions and records of a response, and hands the records of
the right kind to a callback; that of the ENUM lookup cuts the character-strings out of a NAPTR
record. Labels and lengths of character-strings are read through a plain `char`, and the size of a
record is never compared with what is left. So a walk ends and stays inside the response exactly if
the length octets it meets are not negative and the records fit.
-/

namespace CallWeaver.Dns

open Traced

/-- A response with its header: `len` octets of memory from offset zero on. -/
structure Response where
  mem : ℤ → UInt8
  len : ℤ
  header : 12 ≤ len
  /-- whether plain `char` is signed -/
  signed : Bool
  /-- the class and the type that were asked for -/
  cls : ℕ
  type : ℕ
  /-- what `parse_naptr` makes of the strings of the record at an offset -/
  naptr : ℤ → ℤ

inductive Event where
  /-- `skip_name` moves its pointer -/
  | step (old new : ℤ)
  /-- and returns -/
  | skipped (res : ℤ)
  /-- where `dns_parse_answer` goes on -/
  | position (pos : ℤ)
  /-- the record that the callback is called with -/
  | record (pos size : ℤ)
  /-- the octets that `parse_ie` copies -/
  | string (pos len : ℤ)
  deriving DecidableEq, Repr

abbrev Walk := Traced Event ℤ

namespace Response

variable (r : Response)

def char (p : ℤ) : ℤ :=
  if r.signed ∧ 128 ≤ (r.mem p).toNat then (r.mem p).toNat - 256 else (r.mem p).toNat

def word (p : ℤ) : ℕ := (r.mem p).toNat * 256 + (r.mem (p + 1)).toNat

/-- The loop of `skip_name`. -/
def skipLoop (s len : ℤ) : ℕ → ℤ → Walk ℤ
  | 0, _ => running
  | fuel + 1, x =>
    if x < len then
      if r.mem (s + x) = 0 then do
        emit (.step (s + x) (s + x + 1))
        pure (x + 1)
      else if r.mem (s + x) &&& 0xc0 = 0xc0 then do
        emit (.step (s + x) (s + x + 2))
        pure (x + 2)
      else do
        emit (.step (s + x) (s + x + (r.char (s + x) + 1)))
        skipLoop s len fuel (x + (r.char (s + x) + 1))
    else pure x

def skipName (s len : ℤ) (fuel : ℕ) : Walk ℤ := do
  let x ← r.skipLoop s len fuel 0
  let res := if x ≥ len then -1 else x
  emit (.skipped res)
  pure res

def parseIe (maxdatalen src srclen : ℤ) : Walk ℤ :=
  let olen := r.char src
  if olen > srclen - 1 then pure (-1)
  else do
    emit (.string (src + 1) (if olen > maxdatalen then maxdatalen else olen))
    pure (olen + 1)

/-- The character-strings of `parse_naptr`, from one of them on, and what it makes of them. -/
def naptrStrings (record : ℤ) : ℕ → ℤ → ℤ → Walk ℤ
  | 0, _, _ => pure (r.naptr record)
  | n + 1, answer, len => do
    let res ← r.parseIe 511 answer len
    if res < 0 then pure (-1) else naptrStrings record n (answer + res) (len - res)

def parseNaptr (answer len : ℤ) : Walk ℤ :=
  if len < 4 then pure (-1) else r.naptrStrings answer 3 (answer + 4) (len - 4)

def enumCallback (answer len : ℤ) : Walk ℤ := do
  let res ← r.parseNaptr answer len
  pure (if res < 0 then -1 else 0)

/-- The loop of `dns_parse_answer` over the questions. -/
def questions (fuel : ℕ) : ℕ → ℤ → ℤ → Walk (ℤ × ℤ)
  | 0, answer, len => pure (answer, len)
  | n + 1, answer, len => do
    let res ← r.skipName answer len fuel
    if res < 0 then ret (-1)
    else if len - (res + 4) < 0 then ret (-1)
    else do
      emit (.position (answer + (res + 4)))
      questions fuel n (answer + (res + 4)) (len - (res + 4))

/-- The callback of `dns_parse_answer` for a record. -/
def handOver (ans : ℤ) : Walk Unit :=
  if r.word (ans + 2) = r.cls ∧ r.word ans = r.type then do
    emit (.record (ans + 10) (r.word (ans + 8)))
    let res ← r.enumCallback (ans + 10) (r.word (ans + 8))
    if res < 0 then ret (-1) else if res > 0 then ret 1 else pure ()
  else pure ()

/-- The loop of `dns_parse_answer` over the records. -/
def answers (fuel : ℕ) : ℕ → ℤ → ℤ → Walk Unit
  | 0, _, _ => pure ()
  | n + 1, answer, len => do
    let res ← r.skipName answer len fuel
    if res < 0 then ret (-1)
    else if len - res - 10 < 0 then ret (-1)
    else do
      emit (.position (answer + res + 10))
      r.handOver (answer + res)
      emit (.position (answer + res + 10 + r.word (answer + res + 8)))
      answers fuel n (answer + res + 10 + r.word (answer + res + 8))
        (len - res - 10 - r.word (answer + res + 8))

def dnsParseAnswer (fuel : ℕ) : Walk ℤ := do
  emit (.position 12)
  let (answer, len) ← r.questions fuel (r.word 4) 12 (r.len - 12)
  r.answers fuel (r.word 6) answer len
  pure 0

end Response

/-- A step of `skip_name` goes forward, it returns a positive number or -1, and positions, records
and strings lie inside the response. -/
def Event.Inside (len : ℤ) : Event → Prop
  | .step old new => old < new
  | .skipped res => 0 < res ∨ res = -1
  | .position pos => 0 ≤ pos ∧ pos ≤ len
  | .record pos size => 0 ≤ pos ∧ 0 ≤ size ∧ pos + size ≤ len
  | .string pos size => 0 ≤ pos ∧ 0 ≤ size ∧ pos + size ≤ len

namespace Response

variable {r : Response} {s x p q len ans : ℤ} {fuel k n : ℕ} {Q : ℤ → Prop}

section Names

variable (r)

def Plain (p : ℤ) : Prop := r.signed = true → r.mem p < 0x80

/-- The labels of the name at `p`, at most `k` of them, have lengths that are not negative. -/
def Labels : ℕ → ℤ → Prop
  | 0, _ => True
  | k + 1, p => p < r.len → r.mem p ≠ 0 → r.mem p &&& 0xc0 ≠ 0xc0 →
      r.Plain p ∧ Labels k (p + ((r.mem p).toNat + 1))

def nameEnd : ℕ → ℤ → ℤ
  | 0, p => p
  | k + 1, p =>
    if p < r.len then
      if r.mem p = 0 then p + 1
      else if r.mem p &&& 0xc0 = 0xc0 then p + 2
      else nameEnd k (p + ((r.mem p).toNat + 1))
    else p

variable {r}

theorem char_eq (h : r.Plain p) : r.char p = (r.mem p).toNat := by
  rw [char, if_neg]
  rintro ⟨hs, hge⟩
  have := h hs
  rw [UInt8.lt_iff_toNat_lt] at this
  simp only [UInt8.reduceToNat] at this
  omega

theorem plain_iff : r.Plain p ↔ 0 ≤ r.char p := by
  constructor
  · intro h
    rw [char_eq h]
    exact Int.natCast_nonneg _
  · intro h hs
    have hlt := (r.mem p).toNat_lt
    rw [UInt8.lt_iff_toNat_lt]
    refine Nat.lt_of_not_le fun hge => ?_
    rw [char, if_pos ⟨hs, hge⟩] at h
    omega

theorem le_nameEnd (k : ℕ) (p : ℤ) : p ≤ r.nameEnd k p := by
  induction k generalizing p with
  | zero => exact Int.le_refl p
  | succ k ih =>
    rw [nameEnd]
    split
    · split
      · omega
      · split
        · omega
        · have := ih (p + ((r.mem p).toNat + 1))
          omega
    · exact Int.le_refl p

theorem lt_nameEnd (hp : p < r.len) : p < r.nameEnd (k + 1) p := by
  rw [nameEnd, if_pos hp]
  split
  · omega
  · split
    · omega
    · have := r.le_nameEnd k (p + ((r.mem p).toNat + 1))
      omega

/-- With enough fuel the loop is safe exactly if no label has a negative length. -/
theorem safe_skipLoop_iff (hs : s + len = r.len) (hk : len - x ≤ k) (hfuel : k < fuel) :
    (r.skipLoop s len fuel x).Safe (Event.Inside r.len) Q ↔
      r.Labels k (s + x) ∧ Q (r.nameEnd k (s + x) - s) := by
  induction fuel generalizing x k with
  | zero => omega
  | succ fuel ih =>
    rw [skipLoop]
    by_cases hx : x < len
    · obtain ⟨k, rfl⟩ : ∃ j, k = j + 1 := ⟨k - 1, by omega⟩
      have hin : s + x < r.len := by omega
      rw [if_pos hx, Labels, nameEnd, if_pos hin]
      by_cases hzero : r.mem (s + x) = 0
      · have hend : s + x + 1 - s = x + 1 := by omega
        have hstep : s + x < s + x + 1 := by omega
        simp [hzero, Event.Inside, hend, hstep]
      · by_cases hptr : r.mem (s + x) &&& 0xc0 = 0xc0
        · have hend : s + x + 2 - s = x + 2 := by omega
          have hstep : s + x < s + x + 2 := by omega
          simp [hzero, hptr, Event.Inside, hend, hstep]
        · have hstep : s + x < s + x + (r.char (s + x) + 1) ↔ r.Plain (s + x) := by
            rw [plain_iff]
            omega
          simp only [if_neg hzero, if_neg hptr, safe_bind, safe_emit, Event.Inside, hstep]
          simp only [hin, ne_eq, hzero, hptr, not_false_eq_true, true_imp_iff, and_assoc]
          refine and_congr_right fun hplain => ?_
          rw [char_eq hplain, ih (k := k) (by omega) (by omega), ← Int.add_assoc s x]
    · have hend : s + x - s = x := by omega
      rw [if_neg hx, safe_pure]
      cases k with
      | zero => rw [Labels, nameEnd, hend, true_and]
      | succ k =>
        have hout : ¬ s + x < r.len := by omega
        rw [Labels, nameEnd, if_neg hout, hend]
        simp only [hout, false_imp_iff, true_and]

variable (r) in
def NameOk (p : ℤ) : Prop := r.Labels (r.len - p).toNat p

variable (r) in
def nameStop (p : ℤ) : ℤ := r.nameEnd (r.len - p).toNat p

variable (r) in
def nameSize (p : ℤ) : ℤ := if r.len ≤ r.nameStop p then -1 else r.nameStop p - p

theorem nameSize_cases (p : ℤ) : 0 < r.nameSize p ∨ r.nameSize p = -1 := by
  rw [nameSize]
  split
  · exact .inr rfl
  · rename_i hlt
    have hle : p ≤ r.nameStop p := r.le_nameEnd _ p
    obtain ⟨k, hk⟩ : ∃ k, (r.len - p).toNat = k + 1 := ⟨(r.len - p).toNat - 1, by omega⟩
    have hgt : p < r.nameEnd (k + 1) p := lt_nameEnd (by omega)
    rw [nameStop, hk] at hlt ⊢
    exact .inl (by omega)

theorem safe_skipName_iff (hs : s + len = r.len) (hfuel : (r.len - s).toNat < fuel) :
    (r.skipName s len fuel).Safe (Event.Inside r.len) Q ↔ r.NameOk s ∧ Q (r.nameSize s) := by
  have hcases := r.nameSize_cases s
  have hsize : (if r.nameEnd (r.len - s).toNat s - s ≥ len then -1
      else r.nameEnd (r.len - s).toNat s - s) = r.nameSize s := by
    rw [nameSize, nameStop]
    by_cases hend : r.len ≤ r.nameEnd (r.len - s).toNat s
    · rw [if_pos hend, if_pos (by omega)]
    · rw [if_neg hend, if_neg (by omega)]
  simp only [skipName, safe_bind, safe_emit, safe_pure]
  rw [safe_skipLoop_iff hs (k := (r.len - s).toNat) (by omega) hfuel, Int.add_zero, hsize]
  exact and_congr_right fun _ => and_iff_right hcases

theorem skipLoop_le (h : fuel ≤ n) (x : ℤ) :
    (r.skipLoop s len fuel x).Le (r.skipLoop s len n x) := by
  induction fuel generalizing n x with
  | zero => exact Or.inl rfl
  | succ fuel ih =>
    obtain ⟨n, rfl⟩ := exists_round h
    rw [skipLoop, skipLoop]
    exact .ite (.ite (.refl _) (.ite (.refl _) (.bind (.refl _) fun _ => ih (by omega) _)))
      (.refl _)

theorem skipName_le (h : fuel ≤ n) : (r.skipName s len fuel).Le (r.skipName s len n) :=
  .bind (skipLoop_le h 0) fun _ => .refl _

end Names

section Strings

variable (r)

/-- The lengths of `n` character-strings in `len` octets at `p` are not negative, as far as they are
read. -/
def StringsOk : ℕ → ℤ → ℤ → Prop
  | 0, _, _ => True
  | n + 1, p, len => r.Plain p ∧
      ((r.mem p).toNat + 1 ≤ len →
        StringsOk n (p + ((r.mem p).toNat + 1)) (len - ((r.mem p).toNat + 1)))

def StringsFit : ℕ → ℤ → ℤ → Prop
  | 0, _, _ => True
  | n + 1, p, len => (r.mem p).toNat + 1 ≤ len ∧
      StringsFit n (p + ((r.mem p).toNat + 1)) (len - ((r.mem p).toNat + 1))

instance decidableStringsFit : (n : ℕ) → (p len : ℤ) → Decidable (r.StringsFit n p len)
  | 0, _, _ => .isTrue trivial
  | n + 1, p, len =>
    have := decidableStringsFit n (p + ((r.mem p).toNat + 1)) (len - ((r.mem p).toNat + 1))
    inferInstanceAs (Decidable (_ ∧ _))

variable {r}

variable (hp : 0 ≤ p) (hlen : 0 ≤ len) (hend : p + len ≤ r.len)

include hp hlen hend

theorem safe_parseIe_iff :
    (r.parseIe 511 p len).Safe (Event.Inside r.len) Q ↔
      r.Plain p ∧ Q (if (r.mem p).toNat + 1 ≤ len then (r.mem p).toNat + 1 else -1) := by
  by_cases hplain : r.Plain p
  · have hlt := (r.mem p).toNat_lt
    simp only [parseIe, char_eq hplain, hplain, true_and]
    by_cases hfit : (r.mem p).toNat + 1 ≤ len
    · rw [if_neg (by omega), if_neg (by omega), if_pos hfit]
      simp only [safe_bind, safe_emit, safe_pure, Event.Inside]
      exact ⟨fun h => h.2, fun h => ⟨by omega, h⟩⟩
    · rw [if_pos (by omega), if_neg hfit, safe_pure]
  · have hneg : r.char p < 0 := Int.lt_of_not_ge fun h => hplain (plain_iff.mpr h)
    simp only [parseIe, hplain, false_and, iff_false]
    rw [if_neg (by omega), if_neg (by omega)]
    simp only [safe_bind, safe_emit, Event.Inside]
    omega

theorem safe_naptrStrings_iff :
    (r.naptrStrings q n p len).Safe (Event.Inside r.len) Q ↔
      r.StringsOk n p len ∧ Q (if r.StringsFit n p len then r.naptr q else -1) := by
  induction n generalizing p len with
  | zero => simp [naptrStrings, StringsOk, StringsFit]
  | succ n ih =>
    simp only [naptrStrings, safe_bind, safe_parseIe_iff hp hlen hend, StringsOk, and_assoc]
    refine and_congr_right fun _ => ?_
    by_cases hfit : (r.mem p).toNat + 1 ≤ len
    · rw [if_pos hfit, if_neg (by omega), ih (by omega) (by omega) (by omega)]
      simp only [hfit, true_imp_iff, StringsFit, true_and]
    · rw [if_neg hfit, if_pos (by omega), safe_pure]
      simp [hfit, StringsFit]

end Strings

section Records

variable (r)

def Asked (ans : ℤ) : Prop := r.word (ans + 2) = r.cls ∧ r.word ans = r.type
  deriving Decidable

/-- The record ends inside the response, and if it is handed over no string has a negative length.
-/
def RecordOk (ans : ℤ) : Prop :=
  ans + 10 + r.word (ans + 8) ≤ r.len ∧
    (r.Asked ans → 4 ≤ r.word (ans + 8) → r.StringsOk 3 (ans + 14) (r.word (ans + 8) - 4))

def GoesOn (ans : ℤ) : Prop :=
  r.Asked ans → 4 ≤ r.word (ans + 8) ∧ r.StringsFit 3 (ans + 14) (r.word (ans + 8) - 4) ∧
    0 ≤ r.naptr (ans + 10)

variable {r}

theorem safe_enumCallback_iff (hp : 0 ≤ p) (hend : p + len ≤ r.len) :
    (r.enumCallback p len).Safe (Event.Inside r.len) Q ↔
      (4 ≤ len → r.StringsOk 3 (p + 4) (len - 4)) ∧
      Q (if 4 ≤ len ∧ r.StringsFit 3 (p + 4) (len - 4) ∧ 0 ≤ r.naptr p then 0 else -1) := by
  simp only [enumCallback, parseNaptr, safe_bind, safe_pure]
  by_cases hfour : 4 ≤ len
  · rw [if_neg (by omega), safe_naptrStrings_iff (by omega) (by omega) (by omega)]
    simp only [hfour, true_imp_iff, true_and]
    by_cases hfit : r.StringsFit 3 (p + 4) (len - 4)
    · simp only [hfit, if_true, true_and, ← Int.not_le, ite_not]
    · simp only [hfit, if_false, false_and, show (-1 : ℤ) < 0 by decide, if_true]
  · rw [if_pos (by omega), safe_pure]
    simp only [hfour, false_imp_iff, false_and, true_and, if_false,
      show (-1 : ℤ) < 0 by decide, if_true]

theorem safe_handOver_iff {Q : Prop} (hans : 0 ≤ ans) :
    (r.handOver ans).Safe (Event.Inside r.len) (fun _ => ans + 10 + r.word (ans + 8) ≤ r.len ∧ Q) ↔
      r.RecordOk ans ∧ (r.GoesOn ans → Q) := by
  by_cases hasked : r.Asked ans
  · have hif : (r.word (ans + 2) = r.cls ∧ r.word ans = r.type) := hasked
    simp only [handOver, if_pos hif, safe_bind, safe_emit, Event.Inside, RecordOk, GoesOn, hasked,
      true_imp_iff]
    by_cases hfits : ans + 10 + r.word (ans + 8) ≤ r.len
    · have hinside : 0 ≤ ans + 10 ∧ 0 ≤ (r.word (ans + 8) : ℤ) ∧
        ans + 10 + r.word (ans + 8) ≤ r.len := by omega
      have hfour : (4 : ℤ) ≤ r.word (ans + 8) ↔ 4 ≤ r.word (ans + 8) := by omega
      rw [safe_enumCallback_iff hinside.1 hfits, show ans + 10 + 4 = ans + 14 by omega]
      simp only [hfour]
      by_cases hgo : 4 ≤ r.word (ans + 8) ∧ r.StringsFit 3 (ans + 14) (r.word (ans + 8) - 4) ∧
        0 ≤ r.naptr (ans + 10)
      · rw [if_pos hgo, if_neg (by omega), if_neg (by omega), safe_pure]
        simp only [hinside, hgo, true_and, and_true, true_imp_iff]
      · rw [if_neg hgo, if_pos (by omega)]
        simp only [hinside, hgo, true_and, and_true, false_imp_iff, safe_ret]
    · simp only [hfits, false_and, and_false]
  · have hif : ¬(r.word (ans + 2) = r.cls ∧ r.word ans = r.type) := hasked
    simp only [handOver, if_neg hif, safe_pure, RecordOk, GoesOn, hasked, false_imp_iff, and_true,
      true_imp_iff]

end Records

section Walks

variable (r)

def AnswersOk : ℕ → ℤ → Prop
  | 0, _ => True
  | n + 1, p => r.NameOk p ∧ (0 ≤ r.nameSize p → p + r.nameSize p + 10 ≤ r.len →
      r.RecordOk (p + r.nameSize p) ∧ (r.GoesOn (p + r.nameSize p) →
        AnswersOk n (p + r.nameSize p + 10 + r.word (p + r.nameSize p + 8))))

def QuestionsOk : ℕ → ℤ → Prop
  | 0, p => r.AnswersOk (r.word 6) p
  | n + 1, p => r.NameOk p ∧ (0 ≤ r.nameSize p → p + (r.nameSize p + 4) ≤ r.len →
      QuestionsOk n (p + (r.nameSize p + 4)))

/-- No length octet on the walk is negative, and the records it meets end inside the response. -/
def Sound : Prop := r.QuestionsOk (r.word 4) 12

variable {r}

section

variable (hp : 0 ≤ p) (hs : p + len = r.len) (hfuel : r.len < fuel)

include hp hs hfuel

theorem safe_answers_iff :
    (r.answers fuel n p len).Safe (Event.Inside r.len) (fun _ => True) ↔ r.AnswersOk n p := by
  induction n generalizing p len with
  | zero => simp [answers, AnswersOk]
  | succ n ih =>
    have hheader := r.header
    simp only [answers, safe_bind, safe_skipName_iff hs (show (r.len - p).toNat < fuel by omega),
      AnswersOk]
    refine and_congr_right fun _ => ?_
    by_cases hsize : 0 ≤ r.nameSize p
    · by_cases hhead : p + r.nameSize p + 10 ≤ r.len
      · rw [if_neg (by omega), if_neg (by omega)]
        simp only [safe_bind, safe_emit, Event.Inside]
        rw [and_iff_right ⟨by omega, hhead⟩, imp_iff_right hsize, imp_iff_right hhead,
          ← safe_handOver_iff (by omega)]
        apply safe_congr
        rintro -
        exact ⟨fun h => ⟨h.1.2, (ih (by omega) (by omega)).mp h.2⟩,
          fun h => ⟨by omega, (ih (by omega) (by omega)).mpr h.2⟩⟩
      · rw [if_neg (by omega), if_pos (by omega)]
        simp [hhead]
    · rw [if_pos (by omega)]
      simp [hsize]

theorem safe_questions_iff :
    ((r.questions fuel n p len).Safe (Event.Inside r.len) fun a =>
      (r.answers fuel (r.word 6) a.1 a.2).Safe (Event.Inside r.len) fun _ => True) ↔
    r.QuestionsOk n p := by
  induction n generalizing p len with
  | zero =>
    rw [questions, safe_pure]
    exact safe_answers_iff hp hs hfuel
  | succ n ih =>
    have hheader := r.header
    simp only [questions, safe_bind, safe_skipName_iff hs (show (r.len - p).toNat < fuel by omega),
      QuestionsOk]
    refine and_congr_right fun _ => ?_
    by_cases hsize : 0 ≤ r.nameSize p
    · by_cases hhead : p + (r.nameSize p + 4) ≤ r.len
      · rw [if_neg (by omega), if_neg (by omega)]
        simp only [safe_bind, safe_emit, Event.Inside]
        rw [and_iff_right ⟨by omega, hhead⟩, imp_iff_right hsize, imp_iff_right hhead,
          ih (by omega) (by omega)]
      · rw [if_neg (by omega), if_pos (by omega)]
        simp [hhead]
    · rw [if_pos (by omega)]
      simp [hsize]

end

theorem answers_le (h : fuel ≤ k) (p len : ℤ) :
    (r.answers fuel n p len).Le (r.answers k n p len) := by
  induction n generalizing p len with
  | zero => exact .refl _
  | succ n ih =>
    refine .bind (skipName_le h) fun res => ?_
    refine .ite (.refl _) (.ite (.refl _) ?_)
    exact .bind (.refl _) fun _ => .bind (.refl _) fun _ => .bind (.refl _) fun _ => ih _ _

theorem questions_le (h : fuel ≤ k) (p len : ℤ) :
    (r.questions fuel n p len).Le (r.questions k n p len) := by
  induction n generalizing p len with
  | zero => exact .refl _
  | succ n ih =>
    refine .bind (skipName_le h) fun res => ?_
    exact .ite (.refl _) (.ite (.refl _) (.bind (.refl _) fun _ => ih _ _))

theorem dnsParseAnswer_le (h : fuel ≤ k) : (r.dnsParseAnswer fuel).Le (r.dnsParseAnswer k) :=
  .bind (.refl _) fun _ => .bind (questions_le h _ _) fun a =>
    .bind (answers_le h a.1 a.2) fun _ => .refl _

/-- The walk through a response ends, only goes forward and keeps its positions, records and strings
inside the response if and only if no length octet on its way is negative and the records it meets
end inside the response. -/
theorem walk_inside_iff (r : Response) :
    (∃ fuel, (r.dnsParseAnswer fuel).Safe (Event.Inside r.len) fun _ => True) ↔ r.Sound := by
  have hheader := r.header
  have hparse : ∀ fuel : ℕ, r.len < fuel →
      ((r.dnsParseAnswer fuel).Safe (Event.Inside r.len) (fun _ => True) ↔ r.Sound) := by
    intro fuel hfuel
    simp only [dnsParseAnswer, safe_bind, safe_emit, safe_pure, Event.Inside]
    rw [and_iff_right (by omega)]
    exact safe_questions_iff (by omega) (by omega) hfuel
  constructor
  · rintro ⟨fuel, h⟩
    exact (hparse (fuel + (r.len.toNat + 1)) (by omega)).mp
      (h.le (dnsParseAnswer_le (Nat.le_add_right _ _)))
  · exact fun h => ⟨r.len.toNat + 1, (hparse _ (by omega)).mpr h⟩

end Walks

def octets (l : List UInt8) (p : ℤ) : UInt8 := if p < 0 then 0 else l.getD p.toNat 0

/-- An answer to a NAPTR query in the Internet class, with signed plain `char`. -/
def naptrAnswer (l : List UInt8) (h : 12 ≤ (l.length : ℤ)) : Response :=
  ⟨octets l, l.length, h, true, 1, 35, fun _ => 1⟩

def oversized : Response :=
  naptrAnswer [0, 0, 0, 0, 0, 0, 0, 1, 0, 0, 0, 0, 0, 0, 35, 0, 1, 0, 0, 0, 0, 255, 255,
    0] (by decide)

/-- One record of five octets, with the length -1 for its flags. -/
def negative : Response :=
  naptrAnswer [0, 0, 0, 0, 0, 0, 0, 1, 0, 0, 0, 0, 0, 0, 35, 0, 1, 0, 0, 0, 0, 0, 5, 0, 1, 0, 1,
    255] (by decide)

/-- One question whose name has a label of 63 octets and behind it one of -65. -/
def circular : Response :=
  naptrAnswer ([0, 0, 0, 0, 0, 1, 0, 0, 0, 0, 0, 0, 63] ++ List.replicate 63 97 ++ [191, 0, 0, 0, 0,
    0]) (by decide)

theorem circular_skipLoop (fuel : ℕ) : (∃ t, circular.skipLoop 12 70 fuel 0 = ⟨t, .running⟩) ∧
    ∃ t, circular.skipLoop 12 70 fuel 64 = ⟨t, .running⟩ := by
  induction fuel with
  | zero => exact ⟨⟨_, rfl⟩, _, rfl⟩
  | succ fuel ih =>
    obtain ⟨⟨t, ht⟩, t', ht'⟩ := ih
    have hfirst : circular.skipLoop 12 70 (fuel + 1) 0 =
        emit (.step 12 76) >>= fun _ => circular.skipLoop 12 70 fuel 64 := rfl
    have hsecond : circular.skipLoop 12 70 (fuel + 1) 64 =
        emit (.step 76 12) >>= fun _ => circular.skipLoop 12 70 fuel 0 := rfl
    rw [hfirst, hsecond, ht, ht']
    exact ⟨⟨_, rfl⟩, _, rfl⟩

/-- A record handed over may end behind the response, a string may have a negative length, and the
walk over a name may go round in circles for ever. -/
theorem walk_leaves_response :
    Event.record 23 65535 ∈ (oversized.dnsParseAnswer 25).trace ∧ oversized.len = 24 ∧
    Event.string 28 (-1) ∈ (negative.dnsParseAnswer 29).trace ∧
    ∀ fuel, ∃ t, circular.dnsParseAnswer fuel = ⟨t, .running⟩ := by
  refine ⟨by decide +kernel, rfl, by decide +kernel, fun fuel => ?_⟩
  obtain ⟨t, ht⟩ := (circular_skipLoop fuel).1
  have hskip : circular.skipName 12 70 fuel = ⟨t, .running⟩ := by
    rw [skipName, ht]
    rfl
  have hquestions : circular.questions fuel (circular.word 4) 12 (circular.len - 12) =
      ⟨t, .running⟩ := by
    show circular.skipName 12 70 fuel >>= _ = _
    rw [hskip]
    rfl
  rw [dnsParseAnswer, hquestions]
  exact ⟨_, rfl⟩

end Response

end CallWeaver.Dns
