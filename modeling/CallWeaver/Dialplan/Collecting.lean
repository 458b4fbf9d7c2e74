import CallWeaver.Dialplan.Context

/-! # Collecting digits

The loop of `__cw_pbx_run` stores the digits of a caller as long as the dialplan has an extension
that more digits lead to. Only the dialplan limits their number, while the buffer has 256 bytes.
-/

namespace CallWeaver.Dialplan

open List Function

/-- The search is not deeper than its stack of contexts. -/
def cwMatchmoreExtension (env : Env) (callerid : Option CStr) (context exten : CStr) : Bool :=
  match pbxFindExtension env ⟨exten, 1, none, callerid, .helperMatchmore⟩ none (cwPbxMaxStack + 1)
      context ⟨[], .noContext, none, none, none⟩ with
  | some (f, e) => e.isSome || f.swo.isSome
  | none => false

/-- The size of `exten` in `__cw_pbx_run`. -/
def extenSize : ℕ := 256

/-- What `cw_waitfordigit` returns: a digit, zero when the time is over, or an error. Meanwhile the
channel may have been sent to another context. -/
inductive Wait where
  | digit (d : UInt8)
  | error
  | asyncGoto (context : CStr)
  deriving DecidableEq, Repr

/-- What `__cw_pbx_run` reads as `exten`; a full buffer goes on with the memory behind it. -/
def buffered (behind exten : CStr) : CStr :=
  if exten.length < extenSize then exten else exten ++ behind

/-- The loop that reads digits: the positions at which they are written. -/
def collect (more : CStr → CStr → Bool) (behind : CStr) : CStr → CStr → List Wait → List ℕ
  | _, _, [] => []
  | context, exten, w :: ws =>
    if more context (buffered behind exten) then
      match w with
      | .digit d =>
        if d = 0 then [] else exten.length :: collect more behind context (exten ++ [d]) ws
      | .error => []
      | .asyncGoto context => collect more behind context exten ws
    else []

/-- The dialplan asks for more digits from the start to a full buffer: the digit at each position is
received in some context, which asks for it and for the next one. -/
structure Demanded (more : CStr → CStr → Bool) (behind context start digits : CStr)
    (contexts : ℕ → CStr) : Prop where
  starts : start <+: digits
  full : digits.length = extenSize
  nonzero : ∀ d ∈ digits.drop start.length, d ≠ 0
  first : more context (buffered behind start) = true
  before : ∀ k, start.length ≤ k → k ≤ extenSize →
    more (contexts k) (buffered behind (digits.take k)) = true
  after : ∀ k, start.length ≤ k → k < extenSize →
    more (contexts k) (buffered behind (digits.take (k + 1))) = true

variable {more : CStr → CStr → Bool} {behind context start digits : CStr} {contexts : ℕ → CStr}
  {ws : List Wait}

theorem Demanded.of_written {pos : ℕ} (hstart : start.length ≤ extenSize)
    (hpos : pos ∈ collect more behind context start ws) (hge : extenSize ≤ pos) :
    ∃ digits contexts, Demanded more behind context start digits contexts := by
  induction ws generalizing context start with
  | nil => cases hpos
  | cons w ws ih =>
    unfold collect at hpos
    split at hpos
    case isFalse => cases hpos
    rename_i hmore
    cases w with
    | error => cases hpos
    | asyncGoto context' =>
      obtain ⟨digits, contexts, h⟩ := ih hstart hpos
      exact ⟨digits, contexts, h.starts, h.full, h.nonzero, hmore, h.before, h.after⟩
    | digit d =>
      simp only at hpos
      split_ifs at hpos with hd
      · cases hpos
      by_cases hlen : start.length = extenSize
      · refine ⟨start, fun _ => context, prefix_rfl, hlen, by simp, hmore, fun k h₁ h₂ => ?_,
          fun k h₁ h₂ => by omega⟩
        rwa [take_of_length_le (by omega)]
      · have hmem : pos ∈ collect more behind context (start ++ [d]) ws :=
          (mem_cons.mp hpos).resolve_left (by omega)
        have hlen' : (start ++ [d]).length = start.length + 1 := by simp
        obtain ⟨digits, contexts, h⟩ := ih (by omega) hmem
        obtain ⟨rest, rfl⟩ := h.starts
        refine ⟨_, update contexts start.length context, ⟨[d] ++ rest, by simp⟩, h.full, ?_,
          hmore, fun k h₁ h₂ => ?_, fun k h₁ h₂ => ?_⟩
        · have hrest : ∀ x ∈ rest, x ≠ 0 := by simpa using h.nonzero
          simpa [hd] using hrest
        all_goals
          rcases Nat.eq_or_lt_of_le h₁ with rfl | hlt
          case inr =>
            rw [update_of_ne (by omega)]
            first
              | exact h.before k (by omega) h₂
              | exact h.after k (by omega) h₂
          rw [update_self]
        · simpa using hmore
        · have hfirst := h.first
          rwa [← hlen', take_left]

theorem Demanded.written (h : Demanded more behind context start digits contexts) :
    ∃ ws, extenSize ∈ collect more behind context start ws := by
  obtain ⟨n, hn⟩ : ∃ n, start.length + n = extenSize :=
    ⟨_, Nat.add_sub_of_le (h.full ▸ h.starts.length_le)⟩
  induction n generalizing context start with
  | zero =>
    have hstart : start = digits := h.starts.eq_of_length (by rw [h.full]; omega)
    have hlast := h.before extenSize (by omega) (Nat.le_refl _)
    rw [← h.full, take_length, ← hstart] at hlast
    refine ⟨[.asyncGoto (contexts start.length), .digit 1], ?_⟩
    simp only [collect, h.first, hlast, if_true]
    rw [if_neg (by decide), ← hn]
    simp
  | succ n ih =>
    obtain ⟨rest, rfl⟩ := h.starts
    have hfull := h.full
    rw [length_append] at hfull
    obtain ⟨d, rest, rfl⟩ : ∃ d l, rest = d :: l := exists_cons_of_length_pos (by omega)
    have hbefore := h.before start.length (Nat.le_refl _) (by omega)
    have hafter := h.after start.length (Nat.le_refl _) (by omega)
    have htake : (start ++ d :: rest).take (start.length + 1) = start ++ [d] := by
      simp [take_append, take_of_length_le (Nat.le_succ start.length)]
    rw [take_left] at hbefore
    rw [htake] at hafter
    have hnext : Demanded more behind (contexts start.length) (start ++ [d]) (start ++ d :: rest)
        contexts := by
      refine ⟨⟨rest, by simp⟩, h.full, fun x hx => h.nonzero x ?_, hafter,
        fun k h₁ => h.before k ?_, fun k h₁ => h.after k ?_⟩
      · rw [drop_left]
        simp at hx
        exact mem_cons_of_mem _ hx
      all_goals
        simp at h₁
        omega
    obtain ⟨ws, hws⟩ := ih hnext (by simp; omega)
    have hd : d ≠ 0 := h.nonzero d (by simp)
    refine ⟨.asyncGoto (contexts start.length) :: .digit d :: ws, ?_⟩
    simp only [collect, h.first, hbefore, if_true, if_neg hd]
    exact mem_cons_of_mem _ hws

/-- The digits of every caller stay within the buffer, from an empty one or the digit an application
has left, if and only if the dialplan does not ask for more up to a full buffer. -/
theorem digit_buffer_iff (env : Env) (callerid : Option CStr) (behind context : CStr)
    (first : Option UInt8) :
    (∀ ws, ∀ pos ∈ collect (cwMatchmoreExtension env callerid) behind context first.toList ws,
      pos < extenSize) ↔ ¬ ∃ digits contexts,
        Demanded (cwMatchmoreExtension env callerid) behind context first.toList digits
        contexts := by
  have hstart : first.toList.length ≤ extenSize := by cases first <;> simp [extenSize]
  constructor
  · rintro hall ⟨digits, contexts, h⟩
    obtain ⟨ws, hws⟩ := h.written
    exact Nat.lt_irrefl _ (hall ws _ hws)
  · intro hno ws pos hpos
    by_contra hge
    exact hno (Demanded.of_written hstart hpos (Nat.not_lt.mp hge))

theorem collect_of_more {d : UInt8} (hd : d ≠ 0)
    (hmore : ∀ k, more context (buffered behind (replicate k d)) = true) (j k : ℕ) :
    collect more behind context (replicate k d) (replicate j (.digit d)) = range' k j := by
  induction j generalizing k with
  | zero => rfl
  | succ j ih =>
    rw [replicate_succ, collect, if_pos (hmore k), if_neg hd, ← replicate_succ', ih]
    simp [range'_succ]

def wildcard : Env :=
  ⟨[⟨[chr 'a'], [⟨⟨[chr '_', chr 'X', chr '.'], false, [], 1, none, [], [], []⟩, []⟩], [], []⟩], [],
    id⟩

theorem wildcard_matchmore (k : ℕ) :
    cwMatchmoreExtension wildcard none [chr 'a'] (replicate k (chr '1')) = true := by
  have hverdict : cwExtensionPatternMatch (replicate k (chr '1')) [chr '_', chr 'X', chr '.'] =
        .incomplete ∨
      cwExtensionPatternMatch (replicate k (chr '1')) [chr '_', chr 'X', chr '.'] =
          .stretchable := by
    obtain _ | k := k
    · exact .inl (by decide)
    · have hdash : chr '-' ∉ replicate (k + 1) (chr '1') := fun h =>
        absurd (mem_replicate.mp h).2 (by decide)
      rw [cwExtensionPatternMatch_underscore (by simp) hdash, replicate_succ,
        matchLoop_cons (by decide) (by decide)]
      change matchLoop (replicate k (chr '1')) [chr '.'] = _ ∨ matchLoop _ [chr '.'] = _
      obtain _ | k := k
      · exact .inl (matchLoop_nil_left _)
      · rw [replicate_succ, matchLoop_cons (by decide) (by decide)]
        exact .inr rfl
  rcases hverdict with h | h <;>
    simp [cwMatchmoreExtension, pbxFindExtension, wildcard, searchRoot, takes, cidOk, wanted,
      Chain.entries, h, cwPbxMaxStack, Context.hash]

theorem digits_overrun :
    256 ∈ collect (cwMatchmoreExtension wildcard none) [] [chr 'a'] []
      (replicate 257 (.digit (chr '1'))) := by
  have hmore : ∀ k, cwMatchmoreExtension wildcard none [chr 'a']
      (buffered [] (replicate k (chr '1'))) = true := by
    intro k
    unfold buffered
    split
    · exact wildcard_matchmore k
    · rw [append_nil]
      exact wildcard_matchmore k
  have hall := collect_of_more (by decide) hmore 257 0
  rw [replicate_zero] at hall
  rw [hall, mem_range'_1]
  decide

end CallWeaver.Dialplan
