import CallWeaver.Core.Strings
import CallWeaver.Core.Time

/-! # The session description in a message body

`find_sdp` of `chan_sip.c` looks for the part of a message body that describes a session. Its line
numbers are unsigned, and so is the number of lines minus two they are compared with.
-/

namespace CallWeaver.Sip

open List

def strncasecmp (s t : CStr) (n : ℕ) : Ordering := strcasecmp (s.take n) (t.take n)

/-- The string from the first `t` on. -/
def strcasestr (s t : CStr) : Option CStr := s.tails.find? fun r => strncasecmp r t t.length = .eq

def text (s : String) : CStr := s.toList.map chr

/-- The boundary of a body of several parts, with the two characters in front of it in a line. -/
def boundaryOf (content_type : CStr) : Option CStr :=
  if strncasecmp content_type (text "multipart/mixed") 15 ≠ .eq then none
  else
    match strcasestr content_type (text ";boundary=") with
    | none => none
    | some search => if search.drop 10 = [] then none else some (text "--" ++ search.drop 10)

/-- The test for a boundary in `find_sdp`. -/
def isBoundary (boundary line : CStr) : Bool := strncasecmp line boundary boundary.length = .eq

/-- The loop from `x` on, with the lines that are left. It is undefined if a line is examined that
the message does not have. -/
def findPart (boundary : CStr) (lines : ℕ) : ℕ → List CStr → Option (Option (ℕ × ℕ))
  | x, [] => if x < toUnsigned (lines - 2) then none else some none
  | x, line :: rest =>
    if x < toUnsigned (lines - 2) then
      if isBoundary boundary line then
        match rest with
        | [] => none
        | next :: part =>
          if strcasecmp next (text "Content-Type: application/sdp") = .eq then
            some (some (x + 2,
              x + 2 + (part.takeWhile fun line => !isBoundary boundary line).length))
          else findPart boundary lines (x + 1) rest
      else findPart boundary lines (x + 1) rest
    else some none

/-- The first line of the description and the one behind it. -/
def findSdp (content_type : CStr) (line : List CStr) : Option (Option (ℕ × ℕ)) :=
  if strcasecmp content_type (text "application/sdp") = .eq then some (some (0, line.length))
  else
    match boundaryOf content_type with
    | none => some none
    | some boundary => findPart boundary line.length 0 line

/-- The lines from the first number up to the second are a part between two boundaries, or behind
the last. -/
def Between (boundary : CStr) (line : List CStr) (p : ℕ × ℕ) : Prop :=
  ∃ front start header part rest, line = front ++ start :: header :: (part ++ rest) ∧
    isBoundary boundary start ∧
    (∀ l ∈ part, ¬ isBoundary boundary l) ∧ (∀ l ∈ rest.head?, isBoundary boundary l) ∧
    p = (front.length + 2, front.length + 2 + part.length)

/-- Only lines of the message are examined, and what is reported is a part of its body. -/
def Inside (content_type : CStr) (line : List CStr) : Prop :=
  ∃ r, findSdp content_type line = some r ∧ ∀ p ∈ r, p.1 ≤ p.2 ∧ p.2 ≤ line.length ∧
    ∀ boundary ∈ boundaryOf content_type, Between boundary line p

variable {boundary content_type : CStr} {line rest : List CStr} {p : ℕ × ℕ}

theorem Between.le (h : Between boundary line p) : p.1 ≤ p.2 ∧ p.2 ≤ line.length := by
  obtain ⟨front, start, header, part, rest, rfl, -, -, -, rfl⟩ := h
  simp
  omega

theorem boundaryOf_sdp (h : strcasecmp content_type (text "application/sdp") = .eq) :
    boundaryOf content_type = none := by
  refine if_pos fun hmixed => ?_
  rw [strcasecmp, compareWith_eq_iff] at h
  rw [strncasecmp, strcasecmp, compareWith_eq_iff, map_take, h] at hmixed
  revert hmixed
  decide

theorem findPart_short (h : line.length < 2) : findPart boundary line.length 0 line = none := by
  match line, h with
  | [], _ => simp [findPart, toUnsigned]
  | [l], _ => simp [findPart, toUnsigned]

/-- With two lines or more, the loop ends in front of the last two of them. -/
theorem findPart_between (boundary : CStr) (front : List CStr) (h : 2 ≤ line.length)
    (hline : line = front ++ rest) :
    ∃ r, findPart boundary line.length front.length rest = some r ∧
      ∀ p ∈ r, Between boundary line p := by
  have hlimit : toUnsigned (line.length - 2) + 2 ≤ line.length := by
    unfold toUnsigned
    omega
  induction rest generalizing front with
  | nil =>
    have hlen := congrArg length hline
    rw [findPart, if_neg (by simp at hlen; omega)]
    exact ⟨none, rfl, nofun⟩
  | cons start rest ih =>
    have hnext := ih (front ++ [start]) (by simp [hline])
    rw [length_append, length_singleton] at hnext
    unfold findPart
    split_ifs with hx hstart
    · cases rest with
      | nil =>
        have hlen := congrArg length hline
        simp at hlen
        omega
      | cons header part =>
        simp only
        split_ifs
        · refine ⟨_, rfl, ?_⟩
          rintro p ⟨⟩
          refine ⟨front, start, header, _, part.dropWhile fun l => !isBoundary boundary l, ?_,
            hstart, ?_, ?_, rfl⟩
          · rw [takeWhile_append_dropWhile, hline]
          · intro l hl
            simpa using mem_takeWhile_imp hl
          · intro l hl
            have hhead := head?_dropWhile_not (fun l => !isBoundary boundary l) part
            rw [Option.mem_def.mp hl] at hhead
            simpa using hhead
        · exact hnext
    · exact hnext
    · exact ⟨none, rfl, nofun⟩

/-- The search stays inside the body unless the body has several parts by its type and less than two
lines. -/
theorem find_sdp_iff (content_type : CStr) (line : List CStr) :
    Inside content_type line ↔ ∀ boundary ∈ boundaryOf content_type, 2 ≤ line.length := by
  unfold Inside findSdp
  split_ifs with hsdp
  · simp [boundaryOf_sdp hsdp]
  · cases boundaryOf content_type with
    | none => simp
    | some boundary =>
      simp only [Option.mem_some_iff, forall_eq']
      constructor
      · rintro ⟨r, hr, -⟩
        by_contra hlt
        rw [findPart_short (Nat.not_le.mp hlt)] at hr
        cases hr
      · intro h
        obtain ⟨r, hr, hp⟩ := findPart_between boundary [] h rfl
        exact ⟨r, hr, fun p hmem => ⟨(hp p hmem).le.1, (hp p hmem).le.2, hp p hmem⟩⟩

/-- With no line at all, the first one is examined. -/
theorem empty_body_examined : findSdp (text "multipart/mixed;boundary=x") [] = none := by
  decide +kernel

end CallWeaver.Sip
