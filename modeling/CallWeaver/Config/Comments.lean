import Mathlib.Data.UInt
import CallWeaver.Base.Bytes
import CallWeaver.Core.Strings

/-! # Comments of a configuration file

`config_text_file_load` takes the comments out of each line inside the line buffer, and counts the
open block comments. The meaning of a line is in its marks: the semicolons that are escaped, open or
close a block comment, or start a comment up to the end of the line.
-/

namespace CallWeaver.Config

open Terminated Option List

def maxNestedComments : ℤ := 128

/-- The line buffer, the pointers into it and the counter of the loop over the semicolons of a line.
-/
structure Scan where
  buf : List UInt8
  newBuf : ℕ
  processBuf : Option ℕ
  comment : ℤ
  deriving DecidableEq, Repr

def Scan.close (s : Scan) (p : ℕ) : Scan :=
  if s.comment - 1 = 0 then
    match s.processBuf with
    | some q =>
      -- what is left is moved over the comment
      let oldptr := q + (textAt s.buf q).length
      { s with buf := moveText s.buf oldptr (p + 1), newBuf := oldptr, comment := s.comment - 1 }
    | none => { s with newBuf := p + 1, processBuf := some (p + 1), comment := s.comment - 1 }
  else { s with newBuf := p + 1, comment := s.comment - 1 }

/-- One turn of the loop, for the semicolon at `p`. It is undefined if the line number is written in
front of the array `nest`. -/
def Scan.turn (s : Scan) (p : ℕ) : Option Scan :=
  if s.newBuf < p ∧ s.buf[p - 1]? = some (chr '\\') then
    some { s with buf := moveText s.buf (p - 1) p, newBuf := p }
  else if s.buf[p + 1]? = some (chr '-') ∧ s.buf[p + 2]? = some (chr '-') ∧
    s.buf[p + 3]? ≠ some (chr '-') then
    if s.comment < maxNestedComments then
      if 0 ≤ s.comment then
        some { s with buf := s.buf.set p 0, newBuf := p + 3, comment := s.comment + 1 }
      else none
    -- too deep: an error is logged, and `new_buf` stays where it is
    else some s
  else if s.newBuf + 2 ≤ p ∧ s.buf[p - 1]? = some (chr '-') ∧ s.buf[p - 2]? = some (chr '-') then
    some (s.close p)
  else if s.comment = 0 then some { s with buf := s.buf.set p 0, newBuf := p }
  else some { s with newBuf := p + 1 }

/-- The loop of `config_text_file_load` over the semicolons of a line. -/
def commentLoop : ℕ → Scan → Option Scan
  | 0, _ => none
  | fuel + 1, s =>
    match search s.buf s.newBuf (chr ';') with
    | none => some s
    | some p => (s.turn p).bind (commentLoop fuel)

def passed (text : CStr) : Option CStr :=
  if cwStrip text = [] then none else some (cwStrip text)

/-- The comments of a line that `fgets` has put into the buffer, over what is left of earlier ones:
the counter behind the line, and what is passed on. -/
def stripLine (behind : List UInt8) (fuel : ℕ) (comment : ℤ) (line : CStr) :
    Option (ℤ × Option CStr) :=
  (commentLoop fuel ⟨line ++ 0 :: behind, 0, if comment = 0 then some 0 else none, comment⟩).map
    fun s =>
    (s.comment, s.processBuf.bind fun q => passed (textAt s.buf q))

inductive Mark where
  | escaped
  | opening
  | closing
  | plain
  deriving DecidableEq, Repr

def markOf (seg rest : CStr) : Mark :=
  if seg.getLast? = some (chr '\\') then .escaped
  else if [chr '-', chr '-'] <+: rest ∧ rest[2]? ≠ some (chr '-') then .opening
  else if [chr '-', chr '-'] <:+ seg then .closing
  else .plain

theorem exists_of_escaped {seg rest : CStr} (hm : markOf seg rest = .escaped) :
    ∃ s, seg = s ++ [chr '\\'] := by
  rw [markOf] at hm
  split_ifs at hm with hlast
  exact getLast?_eq_some_iff.mp hlast

def Mark.skip : Mark → ℕ
  | .opening => 2
  | _ => 0

/-- The segments of a line and the marks between them. -/
inductive Line where
  | text (s : CStr)
  | marked (s : CStr) (m : Mark) (rest : Line)
  deriving DecidableEq, Repr

/-- Read a line whose first characters belong to the last mark, with `seg` read since. -/
def Line.read : ℕ → CStr → CStr → Line
  | _, seg, [] => .text seg
  | skip + 1, seg, _ :: rest => Line.read skip seg rest
  | 0, seg, c :: rest =>
    if c = chr ';' then .marked seg (markOf seg rest) (Line.read (markOf seg rest).skip [] rest)
    else Line.read 0 (seg ++ [c]) rest

namespace Line

def depth : ℕ → Line → ℕ
  | d, .text _ => d
  | d, .marked _ .escaped l => l.depth d
  | d, .marked _ .opening l => l.depth (d + 1)
  | 0, .marked _ _ _ => 0
  | d + 1, .marked _ .closing l => l.depth d
  | d + 1, .marked _ .plain l => l.depth (d + 1)

/-- What is left of a line from depth `d`, without comments and with the escaped semicolons. -/
def content : ℕ → Line → CStr
  | d, .text s => if d = 0 then s else []
  | d, .marked s .escaped l => (if d = 0 then s.dropLast ++ [chr ';'] else []) ++ l.content d
  | d, .marked s .opening l => (if d = 0 then s else []) ++ l.content (d + 1)
  | 0, .marked s _ _ => s
  | d + 1, .marked _ .closing l => l.content d
  | d + 1, .marked _ .plain l => l.content (d + 1)

/-- No block comment is nested too deep, and none is closed where none is open. -/
def Sound : ℕ → Line → Prop
  | _, .text _ => True
  | d, .marked _ .escaped l => l.Sound d
  | d, .marked _ .opening l => d < 128 ∧ l.Sound (d + 1)
  | 0, .marked _ .closing _ => False
  | d + 1, .marked _ .closing l => l.Sound d
  | 0, .marked _ .plain _ => True
  | d + 1, .marked _ .plain l => l.Sound (d + 1)

instance decidableSound : (d : ℕ) → (l : Line) → Decidable (l.Sound d)
  | _, .text _ => isTrue trivial
  | d, .marked _ .escaped l => decidableSound d l
  | d, .marked _ .opening l =>
    have := decidableSound (d + 1) l
    inferInstanceAs (Decidable (d < 128 ∧ l.Sound (d + 1)))
  | 0, .marked _ .closing _ => isFalse id
  | d + 1, .marked _ .closing l => decidableSound d l
  | 0, .marked _ .plain _ => isTrue trivial
  | d + 1, .marked _ .plain l => decidableSound (d + 1) l

variable {seg s t r : CStr}

theorem read_skip (n : ℕ) : read n seg t = read 0 seg (t.drop n) := by
  induction t generalizing n with
  | nil => simp [read]
  | cons c t ih =>
    cases n with
    | zero => rfl
    | succ n => exact ih n

theorem read_text (ht : chr ';' ∉ t) : read 0 seg t = .text (seg ++ t) := by
  induction t generalizing seg with
  | nil => simp [read]
  | cons c t ih =>
    rw [mem_cons, not_or] at ht
    rw [read, if_neg (Ne.symm ht.1), ih ht.2]
    simp

theorem read_marked (hs : chr ';' ∉ s) : read 0 seg (s ++ chr ';' :: r) =
    .marked (seg ++ s) (markOf (seg ++ s) r) (read 0 [] (r.drop (markOf (seg ++ s) r).skip)) := by
  induction s generalizing seg with
  | nil => rw [append_nil, nil_append, read, if_pos rfl, read_skip]
  | cons c s ih =>
    rw [mem_cons, not_or] at hs
    rw [cons_append, read, if_neg (Ne.symm hs.1), ih hs.2]
    simp

end Line

def marks (l : CStr) : Line := .read 0 [] l

theorem marks_text {t : CStr} (ht : chr ';' ∉ t) : marks t = .text t := Line.read_text ht

theorem marks_marked {s : CStr} (hs : chr ';' ∉ s) (r : CStr) : marks (s ++ chr ';' :: r) =
    .marked s (markOf s r) (marks (r.drop (markOf s r).skip)) := Line.read_marked hs

theorem marks_induction {motive : CStr → Prop} (text : ∀ t, chr ';' ∉ t → motive t)
    (marked : ∀ s r, chr ';' ∉ s → motive (r.drop (markOf s r).skip) → motive (s ++ chr ';' :: r))
    (t : CStr) : motive t := by
  induction hn : t.length using Nat.strong_induction_on generalizing t with
  | _ n ih =>
    by_cases ht : chr ';' ∈ t
    · obtain ⟨s, r, rfl, hs⟩ := eq_append_cons_of_mem ht
      refine marked s r hs (ih _ ?_ _ rfl)
      simp at hn ⊢
      omega
    · exact text t ht

section Turn

variable {a seg r z : CStr} {x : UInt8}

theorem getElem?_before : (a.length < a.length + seg.length ∧
    (a ++ (seg ++ chr ';' :: r) ++ 0 :: z)[a.length + seg.length - 1]? = some x) ↔
      seg.getLast? = some x := by
  rcases seg.eq_nil_or_concat' with rfl | ⟨seg, y, rfl⟩
  · simp
  · simp

theorem getElem?_before_two : (a.length + 2 ≤ a.length + seg.length ∧
    (a ++ (seg ++ chr ';' :: r) ++ 0 :: z)[a.length + seg.length - 1]? = some (chr '-') ∧
    (a ++ (seg ++ chr ';' :: r) ++ 0 :: z)[a.length + seg.length - 2]? = some (chr '-')) ↔
      [chr '-', chr '-'] <:+ seg := by
  rw [← List.reverse_prefix]
  rcases seg.eq_nil_or_concat' with rfl | ⟨seg, y, rfl⟩
  · exact iff_of_false (fun h => absurd h.1 (by rw [length_nil]; omega)) (by simp)
  · rcases seg.eq_nil_or_concat' with rfl | ⟨seg, y', rfl⟩
    · simp
    · have hlt : a.length + (seg.length + 1 + 1) - 2 = a.length + seg.length := by omega
      simp [hlt, eq_comm]

theorem getElem?_behind (i : ℕ) :
    (a ++ (seg ++ chr ';' :: r) ++ 0 :: z)[a.length + seg.length + (i + 1)]? =
    (r ++ 0 :: z)[i]? := by
  have h : a ++ (seg ++ chr ';' :: r) ++ 0 :: z = (a ++ seg) ++ chr ';' :: (r ++ 0 :: z) := by simp
  rw [h, getElem?_append_right (by simp)]
  simp

theorem getElem?_behind_two :
    ((a ++ (seg ++ chr ';' :: r) ++ 0 :: z)[a.length + seg.length + 1]? = some (chr '-') ∧
    (a ++ (seg ++ chr ';' :: r) ++ 0 :: z)[a.length + seg.length + 2]? = some (chr '-') ∧
    (a ++ (seg ++ chr ';' :: r) ++ 0 :: z)[a.length + seg.length + 3]? ≠ some (chr '-')) ↔
      [chr '-', chr '-'] <+: r ∧ r[2]? ≠ some (chr '-') := by
  have hz : chr '-' ≠ 0 := by decide
  rw [getElem?_behind 0, getElem?_behind 1, getElem?_behind 2]
  match r with
  | [] => simp [hz.symm]
  | [x] => simp [hz.symm]
  | [x, y] => simp [eq_comm, hz]
  | x :: y :: w :: r => simp [eq_comm, and_assoc]

end Turn

/-- What stands in front of `new_buf` at depth `d`: the text that is kept, from `process_buf` on.
Inside a block comment it is ended by a zero, and there is none if the line started inside. -/
inductive Kept : ℕ → Option ℕ → CStr → CStr → Prop
  | outside (pre out : CStr) : Kept 0 (some pre.length) (pre ++ out) out
  | inside (pre out gap : CStr) (d : ℕ) :
      Kept (d + 1) (some pre.length) (pre ++ out ++ 0 :: gap) out
  | skipping (gap : CStr) (d : ℕ) : Kept (d + 1) none gap []

namespace Kept

variable {d : ℕ} {q : Option ℕ} {a out : CStr}

theorem pass (h : Kept d q a out) (x : CStr) :
    Kept d q (a ++ x) (out ++ if d = 0 then x else []) := by
  cases h with
  | outside pre =>
    rw [append_assoc, if_pos rfl]
    exact .outside pre (out ++ x)
  | inside pre _ gap d =>
    simpa using Kept.inside pre out (gap ++ x) d
  | skipping gap d => simpa using Kept.skipping (a ++ x) d

theorem enter (h : Kept d q a out) (x : CStr) : Kept (d + 1) q (a ++ 0 :: x) out := by
  cases h with
  | outside pre => exact .inside pre out x 0
  | inside pre _ gap d => simpa using Kept.inside pre out (gap ++ 0 :: x) (d + 1)
  | skipping gap d => exact .skipping _ _

theorem leave (h : Kept (d + 2) q a out) : Kept (d + 1) q a out := by
  cases h with
  | inside pre _ gap => exact .inside pre out gap d
  | skipping => exact .skipping a d

end Kept

structure Tracks (s : Scan) (d : ℕ) (out t : CStr) (a z : CStr) : Prop where
  buf : s.buf = a ++ t ++ 0 :: z
  newBuf : s.newBuf = a.length
  comment : s.comment = d
  kept : Kept d s.processBuf a out
  clean : 0 ∉ out
  ahead : 0 ∉ t

def Turns (s s' : Scan) : Prop := ∀ fuel, commentLoop (fuel + 1) s = commentLoop fuel s'

namespace Tracks

variable {s s' : Scan} {d d' : ℕ} {out t seg r a z x : CStr}

theorem not_mem_pass (h : Tracks s d out t a z) (hx : 0 ∉ x) :
    0 ∉ out ++ if d = 0 then x else [] := by
  rw [mem_append, not_or]
  refine ⟨h.clean, ?_⟩
  split_ifs
  · exact hx
  · exact not_mem_nil

theorem set_eq {c : UInt8} : (a ++ (seg ++ c :: r) ++ 0 :: z).set (a.length + seg.length) 0 =
    a ++ seg ++ 0 :: (r ++ 0 :: z) := by
  have h : a ++ (seg ++ c :: r) ++ 0 :: z = (a ++ seg) ++ c :: (r ++ 0 :: z) := by simp
  rw [h, ← length_append, set_append_right _ _ (Nat.le_refl _), Nat.sub_self, set_cons_zero]

section

variable (h : Tracks s d out (seg ++ chr ';' :: r) a z) (hs : chr ';' ∉ seg)

include h

theorem turn_eq {m : Mark} : markOf seg r = m → s.turn (a.length + seg.length) = match m with
      | .escaped => some { s with
          buf := moveText s.buf (a.length + seg.length - 1) (a.length + seg.length)
          newBuf := a.length + seg.length }
      | .opening =>
        if s.comment < maxNestedComments then
          if 0 ≤ s.comment then some { s with
            buf := s.buf.set (a.length + seg.length) 0
            newBuf := a.length + seg.length + 3
            comment := s.comment + 1 }
          else none
        else some s
      | .closing => some (s.close (a.length + seg.length))
      | .plain =>
        if s.comment = 0 then some { s with
          buf := s.buf.set (a.length + seg.length) 0
          newBuf := a.length + seg.length }
        else some { s with newBuf := a.length + seg.length + 1 } := by
  rintro rfl
  unfold Scan.turn markOf
  simp only [h.buf, h.newBuf, getElem?_before, getElem?_behind_two, getElem?_before_two]
  split_ifs <;> rfl

theorem not_mem_rest : 0 ∉ r :=
  fun hmem => h.ahead (mem_append_right _ (mem_cons_of_mem _ hmem))

theorem not_mem_seg : 0 ∉ seg :=
  fun hmem => h.ahead (mem_append_left _ hmem)

include hs

theorem turns (hturn : s.turn (a.length + seg.length) = some s') : Turns s s' := by
  intro fuel
  rw [commentLoop, h.buf, h.newBuf, search_eq_some h.ahead hs]
  simp only [hturn, bind_some]

theorem escaped (hm : markOf seg r = .escaped) :
    ∃ s' a' z', Turns s s' ∧
      Tracks s' d (out ++ if d = 0 then seg.dropLast ++ [chr ';'] else []) r a' z' := by
  obtain ⟨seg, rfl⟩ := exists_of_escaped hm
  obtain ⟨z', hmove⟩ := moveText_eq (a := a ++ seg) (g := [chr '\\']) (z := z)
    (fun hmem => h.ahead (mem_append_right _ hmem))
  have hturn := h.turn_eq hm
  refine ⟨_, _, z', h.turns hs hturn, ?_, ?_, h.comment, h.kept.pass _, h.not_mem_pass ?_,
    h.not_mem_rest⟩
  · rw [h.buf]
    simpa [← Nat.add_assoc] using hmove
  · simp
  · rw [dropLast_concat, mem_append, not_or]
    exact ⟨fun hmem => h.not_mem_seg (mem_append_left _ hmem), by decide⟩

theorem opening (hm : markOf seg r = .opening) (hd : d < 128) : ∃ s' a' z', Turns s s' ∧
    Tracks s' (d + 1) (out ++ if d = 0 then seg else []) (r.drop 2) a' z' := by
  obtain ⟨r, rfl⟩ : ∃ r', r = [chr '-', chr '-'] ++ r' := by
    rw [markOf] at hm
    split_ifs at hm with _ hopen
    obtain ⟨r', hr⟩ := hopen.1
    exact ⟨r', hr.symm⟩
  have hturn := h.turn_eq hm
  have hcomment := h.comment
  have hmax : maxNestedComments = 128 := rfl
  rw [if_pos (by omega), if_pos (by omega), h.buf, set_eq] at hturn
  refine ⟨_, _, z, h.turns hs hturn, ?_, ?_, ?_, (h.kept.pass seg).enter [chr '-', chr '-'],
    h.not_mem_pass h.not_mem_seg, ?_⟩
  · simp
  · simp [Nat.add_assoc]
  · simp [hcomment]
  · exact fun hmem => h.not_mem_rest (mem_append_right _ hmem)

/-- The semicolon is passed over, and nothing is written. -/
theorem passes {q : Option ℕ} {c : ℤ}
    (hturn : s.turn (a.length + seg.length) =
      some { s with newBuf := a.length + seg.length + 1, processBuf := q, comment := c })
    (hc : c = d') (hkept : Kept d' q (a ++ (seg ++ [chr ';'])) out) :
    ∃ s' a' z', Turns s s' ∧ Tracks s' d' out r a' z' := by
  refine ⟨_, a ++ (seg ++ [chr ';']), z, h.turns hs hturn, ?_, ?_, hc, hkept, h.clean,
    h.not_mem_rest⟩
  · simp [h.buf]
  · simp [Nat.add_assoc]

theorem plain_outside (hm : markOf seg r = .plain) (hd : d = 0) :
    ∃ s' a' z', Turns s s' ∧ Tracks s' 0 (out ++ seg) [] a' z' := by
  subst hd
  have hturn := h.turn_eq hm
  have hcomment := h.comment
  simp only at hturn
  rw [if_pos (by omega), h.buf, set_eq] at hturn
  refine ⟨_, a ++ seg, r ++ 0 :: z, h.turns hs hturn, ?_, ?_, h.comment, h.kept.pass seg,
    h.not_mem_pass h.not_mem_seg, not_mem_nil⟩
  · simp
  · simp

theorem plain_inside (hm : markOf seg r = .plain) (hd : d ≠ 0) :
    ∃ s' a' z', Turns s s' ∧ Tracks s' d out r a' z' := by
  have hturn := h.turn_eq hm
  have hcomment := h.comment
  simp only at hturn
  rw [if_neg (by omega)] at hturn
  exact h.passes hs hturn hcomment (by simpa [hd] using h.kept.pass (seg ++ [chr ';']))

theorem commentLoop_stuck (hm : markOf seg r = .opening) (hd : 128 ≤ d) (fuel : ℕ) :
    commentLoop fuel s = none := by
  have hcomment := h.comment
  have hmax : maxNestedComments = 128 := rfl
  have hturn := h.turn_eq hm
  simp only at hturn
  rw [if_neg (by omega)] at hturn
  induction fuel with
  | zero => rfl
  | succ fuel ih => rw [h.turns hs hturn, ih]

end

theorem closing_inner (h : Tracks s (d + 2) out (seg ++ chr ';' :: r) a z) (hs : chr ';' ∉ seg)
    (hm : markOf seg r = .closing) : ∃ s' a' z', Turns s s' ∧ Tracks s' (d + 1) out r a' z' := by
  have hturn := h.turn_eq hm
  have hcomment := h.comment
  simp only [Scan.close] at hturn
  rw [if_neg (by omega)] at hturn
  exact h.passes hs hturn (by omega) (by simpa using (h.kept.pass (seg ++ [chr ';'])).leave)

theorem closing_outer (h : Tracks s 1 out (seg ++ chr ';' :: r) a z) (hs : chr ';' ∉ seg)
    (hm : markOf seg r = .closing) : ∃ s' a' z', Turns s s' ∧ Tracks s' 0 out r a' z' := by
  obtain ⟨buf, newBuf, q, c⟩ := s
  have hturn := h.turn_eq hm
  obtain rfl : c = 1 := h.comment
  obtain rfl : buf = _ := h.buf
  simp only [Scan.close, Int.sub_self, if_true] at hturn
  have hkept : Kept (0 + 1) q a out := h.kept
  have hrest := h.not_mem_rest
  cases hkept with
  | inside pre _ gap =>
    -- what is behind the comment is moved to the end of the text
    have htext :
        textAt (pre ++ out ++ 0 :: gap ++ (seg ++ chr ';' :: r) ++ 0 :: z) pre.length = out := by
      have := textAt_terminated (a := pre) (z := gap ++ (seg ++ chr ';' :: r) ++ 0 :: z) h.clean
      simpa using this
    obtain ⟨z', hmove⟩ :=
      moveText_eq (a := pre ++ out) (g := 0 :: gap ++ seg ++ [chr ';']) (z := z) hrest
    have hlen : (pre ++ out ++ 0 :: gap).length + seg.length + 1 =
        (pre ++ out ++ (0 :: gap ++ seg ++ [chr ';'])).length := by
      simp
      omega
    simp only [htext, hlen] at hturn
    refine ⟨_, pre ++ out, z', h.turns hs hturn, ?_, ?_, rfl, .outside pre out, h.clean, hrest⟩
    · simpa using hmove
    · simp
  | skipping =>
    refine h.passes hs hturn rfl ?_
    simpa [Nat.add_assoc] using Kept.outside (a ++ (seg ++ [chr ';'])) []

end Tracks

def Scan.text (s : Scan) : CStr := s.processBuf.elim [] (textAt s.buf)

def Finishes (s : Scan) (c : ℤ) (text : CStr) : Prop :=
  ∃ n s', (∀ fuel, n ≤ fuel → commentLoop fuel s = some s') ∧ s'.comment = c ∧ s'.text = text

/-- What becomes of a line. If it is not sound the loop does not end, or its counter gets negative.
-/
def Meets (s : Scan) (sound : Prop) (c : ℤ) (text : CStr) : Prop :=
  (sound → Finishes s c text) ∧ (¬ sound → ∀ fuel s', commentLoop fuel s = some s' → s'.comment < 0)

section Loop

variable {s s' : Scan} {sound : Prop} {d p fuel : ℕ} {out t seg r a z text : CStr} {c : ℤ}

theorem Finishes.of_turns (h : Turns s s') (hf : Finishes s' c text) : Finishes s c text := by
  obtain ⟨n, e, hloop, hc, ht⟩ := hf
  refine ⟨n + 1, e, fun fuel hfuel => ?_, hc, ht⟩
  obtain ⟨fuel, rfl⟩ := Nat.exists_eq_add_of_le' hfuel
  rw [← Nat.add_assoc, h]
  exact hloop _ (Nat.le_add_left n fuel)

theorem Meets.of_turns (h : Turns s s') (hm : Meets s' sound c text) : Meets s sound c text := by
  refine ⟨fun hs => (hm.1 hs).of_turns h, fun hs fuel e he => ?_⟩
  cases fuel with
  | zero => cases he
  | succ fuel => exact hm.2 hs fuel e (h fuel ▸ he)

theorem Tracks.finishes (h : Tracks s d out t a z) (ht : chr ';' ∉ t) :
    Finishes s d (out ++ if d = 0 then t else []) := by
  refine ⟨1, s, fun fuel hfuel => ?_, h.comment, ?_⟩
  · obtain ⟨fuel, rfl⟩ := Nat.exists_eq_add_of_le' hfuel
    rw [commentLoop, h.buf, h.newBuf, search_eq_none h.ahead ht]
  · obtain ⟨buf, newBuf, q, c⟩ := s
    obtain rfl : buf = _ := h.buf
    have hkept : Kept d q a out := h.kept
    have hclean := h.clean
    have hahead := h.ahead
    cases hkept with
    | outside pre =>
      have := textAt_terminated (a := pre) (t := out ++ t) (z := z) (by simp [hclean, hahead])
      simpa [Scan.text] using this
    | inside pre _ gap d =>
      have := textAt_terminated (a := pre) (t := out) (z := gap ++ t ++ 0 :: z) hclean
      simpa [Scan.text] using this
    | skipping => simp [Scan.text]

theorem close_comment (s : Scan) (p : ℕ) : (s.close p).comment = s.comment - 1 := by
  unfold Scan.close
  split_ifs
  · cases s.processBuf <;> rfl
  · rfl

theorem turn_neg (hc : s.comment < 0) (h : s.turn p = some s') : s'.comment < 0 := by
  unfold Scan.turn at h
  split_ifs at h with _ _ _ hnonneg hdeep <;> cases h
  · exact hc
  · omega
  · exact hc
  · rw [close_comment]
    omega
  · exact hc
  · exact hc

theorem commentLoop_neg (hc : s.comment < 0) (h : commentLoop fuel s = some s') :
    s'.comment < 0 := by
  induction fuel generalizing s with
  | zero => cases h
  | succ fuel ih =>
    rw [commentLoop] at h
    cases hsearch : search s.buf s.newBuf (chr ';') with
    | none =>
      simp only [hsearch, some.injEq] at h
      exact h ▸ hc
    | some p =>
      simp only [hsearch, bind_eq_some_iff] at h
      obtain ⟨s₁, hturn, h⟩ := h
      exact ih (turn_neg hc hturn) h

theorem Tracks.meets (h : Tracks s d out t a z) :
    Meets s ((marks t).Sound d) ((marks t).depth d) (out ++ (marks t).content d) := by
  induction t using marks_induction generalizing s d out a z with
  | text t ht =>
    rw [marks_text ht]
    refine ⟨fun _ => ?_, fun hd => absurd trivial hd⟩
    simpa [Line.depth, Line.content] using h.finishes ht
  | marked seg r hs ih =>
    rw [marks_marked hs]
    generalize hm : markOf seg r = m at ih ⊢
    cases m with
    | escaped =>
      obtain ⟨s', a', z', hturns, h'⟩ := h.escaped hs hm
      simpa [Line.Sound, Line.depth, Line.content] using (ih h').of_turns hturns
    | opening =>
      by_cases hd : d < 128
      · obtain ⟨s', a', z', hturns, h'⟩ := h.opening hs hm hd
        simpa [Line.Sound, Line.depth, Line.content, hd] using (ih h').of_turns hturns
      · refine ⟨fun hsound => absurd hsound.1 hd, fun _ fuel e he => ?_⟩
        rw [h.commentLoop_stuck hs hm (Nat.not_lt.mp hd)] at he
        cases he
    | closing =>
      match d, h with
      | 0, h =>
        have hneg : (s.close (a.length + seg.length)).comment < 0 := by
          rw [close_comment, h.comment]
          decide
        refine Meets.of_turns (h.turns hs (h.turn_eq hm)) ⟨False.elim, fun _ _ _ => ?_⟩
        exact commentLoop_neg hneg
      | 1, h =>
        obtain ⟨s', a', z', hturns, h'⟩ := h.closing_outer hs hm
        exact (ih h').of_turns hturns
      | d + 2, h =>
        obtain ⟨s', a', z', hturns, h'⟩ := h.closing_inner hs hm
        exact (ih h').of_turns hturns
    | plain =>
      match d, h with
      | 0, h =>
        obtain ⟨s', a', z', hturns, h'⟩ := h.plain_outside hs hm rfl
        refine ⟨fun _ => ?_, fun hd => absurd trivial hd⟩
        simpa [Line.depth, Line.content] using (h'.finishes not_mem_nil).of_turns hturns
      | d + 1, h =>
        obtain ⟨s', a', z', hturns, h'⟩ := h.plain_inside hs hm d.succ_ne_zero
        exact (ih h').of_turns hturns

end Loop

end CallWeaver.Config
