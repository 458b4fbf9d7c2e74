import Mathlib.Data.List.ReduceOption
import CallWeaver.Base.Runs
import CallWeaver.Config.Comments

/-! # The lines of a configuration file

`fgets` reads a file line by line, or in pieces that fill the line buffer. What `process_text_line`
sees of a text is said of its lines, one after the other: block comments go on from line to line.
-/

namespace CallWeaver.Config

open Terminated List Option

def bufSize : ℕ := 8192

/-- The results of `fgets`, with `acc` read so far. The last turn has none if the end of the file is
met at the start of a line. -/
def reads (acc : CStr) : List UInt8 → List (Option CStr)
  | [] => if acc = [] then [none] else [some acc]
  | c :: cs =>
    if c = chr '\n' ∨ acc.length + 1 = bufSize - 1 then some (acc ++ [c]) :: reads [] cs
    else reads (acc ++ [c]) cs

def linesOf (acc : CStr) : List UInt8 → List CStr
  | [] => if acc = [] then [] else [acc]
  | c :: cs => if c = chr '\n' then (acc ++ [c]) :: linesOf [] cs else linesOf (acc ++ [c]) cs

/-- The comments of the lines, one after the other. What is left in the buffer behind a line depends
on the lines before it. -/
def stripLines (behind : ℕ → List UInt8) (fuel : ℕ) :
    ℕ → ℤ → List CStr → Option (List (ℤ × Option CStr))
  | _, _, [] => some []
  | lineno, comment, l :: ls => do
    let r ← stripLine (behind lineno) fuel comment l
    let rs ← stripLines behind fuel (lineno + 1) r.1 ls
    return r :: rs

/-- What the lines of a text mean: the depth behind each of them, and what is passed on. -/
def strippedLines : ℕ → List CStr → List (ℤ × Option CStr)
  | _, [] => []
  | d, l :: ls =>
    (((marks l).depth d : ℤ), passed ((marks l).content d)) :: strippedLines ((marks l).depth d) ls

/-- No block comment of the text is nested too deep, and none is closed where none is open. -/
def SoundLines : ℕ → List CStr → Prop
  | _, [] => True
  | d, l :: ls => (marks l).Sound d ∧ SoundLines ((marks l).depth d) ls

instance decidableSoundLines : (d : ℕ) → (lines : List CStr) → Decidable (SoundLines d lines)
  | _, [] => isTrue trivial
  | d, l :: ls =>
    have := decidableSoundLines ((marks l).depth d) ls
    inferInstanceAs (Decidable ((marks l).Sound d ∧ SoundLines ((marks l).depth d) ls))

section Reading

variable {acc l : CStr} {cs : List UInt8}

theorem exists_line (hcs : cs ≠ []) : ∃ l ∈ linesOf acc cs, acc.length < l.length := by
  induction cs generalizing acc with
  | nil => exact absurd rfl hcs
  | cons c cs ih =>
    by_cases hc : c = chr '\n'
    · exact ⟨acc ++ [c], by simp [linesOf, hc], by simp⟩
    · rw [linesOf, if_neg hc]
      by_cases hnil : cs = []
      · exact ⟨acc ++ [c], by simp [hnil, linesOf], by simp⟩
      · obtain ⟨l, hl, hlen⟩ := @ih (acc ++ [c]) hnil
        exact ⟨l, hl, by simp at hlen; omega⟩

theorem reads_eq_linesOf (hfit : ∀ l ∈ linesOf acc cs, l.length < bufSize) :
    (reads acc cs).reduceOption = linesOf acc cs := by
  induction cs generalizing acc with
  | nil =>
    by_cases hacc : acc = [] <;> simp [reads, linesOf, hacc, reduceOption]
  | cons c cs ih =>
    rw [linesOf] at hfit ⊢
    by_cases hc : c = chr '\n'
    · rw [if_pos hc] at hfit ⊢
      rw [reads, if_pos (.inl hc), reduceOption_cons_of_some, ih fun l hl =>
        hfit l (mem_cons_of_mem _ hl)]
    · rw [if_neg hc] at hfit ⊢
      by_cases hfull : acc.length + 1 = bufSize - 1
      · -- the buffer is full, so that the file ends here
        obtain rfl : cs = [] := by
          by_contra hcs
          obtain ⟨l, hl, hlen⟩ := @exists_line (acc ++ [c]) _ hcs
          have := hfit l hl
          simp [bufSize] at *
          omega
        simp [reads, linesOf, hfull, reduceOption]
      · rw [reads, if_neg (by simp [hc, hfull]), ih hfit]

theorem not_mem_of_mem_linesOf {c : UInt8} (hl : l ∈ linesOf acc cs) (hacc : c ∉ acc)
    (hcs : c ∉ cs) : c ∉ l := by
  induction cs generalizing acc with
  | nil =>
    by_cases hnil : acc = []
    · simp [linesOf, hnil] at hl
    · rw [linesOf, if_neg hnil, mem_singleton] at hl
      exact hl ▸ hacc
  | cons x cs ih =>
    rw [mem_cons, not_or] at hcs
    have hacc' : c ∉ acc ++ [x] := by simp [hacc, hcs.1]
    rw [linesOf] at hl
    split_ifs at hl
    · rcases mem_cons.mp hl with rfl | hl
      · exact hacc'
      · exact ih hl not_mem_nil hcs.2
    · exact ih hl hacc' hcs.2

end Reading

section Stripping

variable {behind : List UInt8} {d fuel : ℕ} {line : CStr} {r : ℤ × Option CStr}

theorem tracks_line (behind : List UInt8) (d : ℕ) (line : CStr) : ∃ z,
    Tracks ⟨line ++ 0 :: behind, 0, if (d : ℤ) = 0 then some 0 else none, d⟩ d []
      (line.takeWhile (· ≠ 0)) [] z := by
  obtain ⟨z, hz⟩ := exists_terminated line behind
  refine ⟨z, by simpa using hz, rfl, rfl, ?_, not_mem_nil, ?_⟩
  · cases d with
    | zero => exact .outside [] []
    | succ d => exact .skipping [] d
  · intro hmem
    simpa using mem_takeWhile_imp hmem

theorem stripLine_of_sound (behind : List UInt8) (hd : (marks (line.takeWhile (· ≠ 0))).Sound d) :
    ∃ n, ∀ fuel, n ≤ fuel →
    stripLine behind fuel d line = some (((marks (line.takeWhile (· ≠ 0))).depth d : ℤ),
      passed ((marks (line.takeWhile (· ≠ 0))).content d)) := by
  obtain ⟨z, htracks⟩ := tracks_line behind d line
  obtain ⟨n, s, hloop, hcomment, htext⟩ := htracks.meets.1 hd
  refine ⟨n, fun fuel hfuel => ?_⟩
  have hpassed : (s.processBuf.bind fun q => passed (textAt s.buf q)) = passed s.text := by
    unfold Scan.text
    cases s.processBuf <;> rfl
  rw [stripLine, hloop fuel hfuel, map_some, hcomment, hpassed, htext]
  rfl

theorem neg_of_not_sound (hd : ¬ (marks (line.takeWhile (· ≠ 0))).Sound d)
    (h : stripLine behind fuel d line = some r) : r.1 < 0 := by
  obtain ⟨z, htracks⟩ := tracks_line behind d line
  obtain ⟨s, hloop, rfl⟩ := map_eq_some_iff.mp h
  exact htracks.meets.2 hd _ _ hloop

theorem commentLoop_mono {s : Scan} : Within (commentLoop fuel s) (commentLoop (fuel + 1) s) := by
  induction fuel generalizing s with
  | zero => exact .none
  | succ fuel ih =>
    unfold commentLoop
    split
    · exact .refl
    · exact .bind .refl fun s => ih

theorem stripLine_eq (h : stripLine behind fuel d line = some r) (hr : 0 ≤ r.1) :
    r = (((marks (line.takeWhile (· ≠ 0))).depth d : ℤ),
      passed ((marks (line.takeWhile (· ≠ 0))).content d)) := by
  have hsound : (marks (line.takeWhile (· ≠ 0))).Sound d := by
    by_contra hd
    exact absurd (neg_of_not_sound hd h) (Int.not_lt.mpr hr)
  obtain ⟨n, hn⟩ := stripLine_of_sound behind hsound
  refine Within.unique (f := (stripLine behind · d line)) (fun fuel r h => ?_) h
    (hn n (Nat.le_refl n))
  obtain ⟨s, hloop, rfl⟩ := map_eq_some_iff.mp h
  exact map_eq_some_iff.mpr ⟨s, commentLoop_mono s hloop, rfl⟩

end Stripping

section Lines

variable {behind : ℕ → List UInt8} {d lineno fuel : ℕ} {lines : List CStr}

variable (htext : ∀ l ∈ lines, 0 ∉ l)

include htext

theorem stripLines_of_sound (hd : SoundLines d lines) :
    ∃ n, ∀ fuel, n ≤ fuel →
    stripLines behind fuel lineno d lines = some (strippedLines d lines) := by
  induction lines generalizing d lineno with
  | nil => exact ⟨0, fun _ _ => rfl⟩
  | cons l lines ih =>
    have hl := htext l mem_cons_self
    have hcstr := takeWhile_of_not_mem hl
    have hsound := hd.1
    rw [← hcstr] at hsound
    obtain ⟨n, hn⟩ := stripLine_of_sound (behind lineno) hsound
    obtain ⟨m, hm⟩ := @ih _ (lineno + 1) (fun l' hl' => htext l' (mem_cons_of_mem _ hl')) hd.2
    refine ⟨max n m, fun fuel hfuel => ?_⟩
    rw [stripLines, hn fuel (by omega), hcstr]
    simp [hm fuel (by omega), strippedLines]

theorem sound_of_stripLines
    (h : stripLines behind fuel lineno d lines = some (strippedLines d lines)) :
    SoundLines d lines := by
  induction lines generalizing d lineno with
  | nil => trivial
  | cons l lines ih =>
    have hcstr := takeWhile_of_not_mem (htext l mem_cons_self)
    simp only [stripLines, strippedLines, bind_eq_bind, bind_eq_some_iff, Option.pure_def,
      some.injEq, cons.injEq] at h
    obtain ⟨r, hr, rs, hrs, hhead, rfl⟩ := h
    have hsound : (marks l).Sound d := by
      by_contra hd
      rw [← hcstr] at hd
      have hneg := neg_of_not_sound hd hr
      rw [hhead] at hneg
      exact absurd hneg (by simp)
    rw [hhead] at hrs
    exact ⟨hsound, ih (fun l' hl' => htext l' (mem_cons_of_mem _ hl')) hrs⟩

end Lines

/-- The comments of every text whose lines fit into the buffer are stripped as they should be if and
only if no block comment is nested too deep and none is closed where none is open. -/
theorem comments_stripped_iff (behind : ℕ → List UInt8) {contents : List UInt8}
    (htext : 0 ∉ contents) (hfit : ∀ l ∈ linesOf [] contents, l.length < bufSize) :
    (∃ n, ∀ fuel, n ≤ fuel → stripLines behind fuel 0 0 (reads [] contents).reduceOption =
      some (strippedLines 0 (linesOf [] contents))) ↔ SoundLines 0 (linesOf [] contents) := by
  have hlines : ∀ l ∈ linesOf [] contents, 0 ∉ l :=
    fun l hl => not_mem_of_mem_linesOf hl not_mem_nil htext
  rw [reads_eq_linesOf hfit]
  constructor
  · rintro ⟨n, h⟩
    exact sound_of_stripLines hlines (h n le_rfl)
  · exact stripLines_of_sound hlines

/-- A block comment over two lines, an escaped semicolon and a comment up to the end of a line. -/
def commentedFile : List UInt8 :=
  ['a', '=', ';', '-', '-', 'b', '\n', '-', '-', ';', 'c', '=', '\\', ';', 'd', ';', 'e',
    '\n'].map chr

theorem comments_stripped_iff_commented : ∃ n, ∀ fuel, n ≤ fuel →
    stripLines (fun _ => []) fuel 0 0 (reads [] commentedFile).reduceOption =
      some (strippedLines 0 (linesOf [] commentedFile)) :=
  (comments_stripped_iff (fun _ => []) (by decide) (by decide)).mpr (by decide +kernel)

example : strippedLines 0 (linesOf [] commentedFile) =
    [(1, some (['a', '='].map chr)), (0, some (['c', '=', ';', 'd'].map chr))] := by decide +kernel

/-- A comment closed where none is open hides the next line, and at the deepest level the loop does
not end on a comment that is opened. -/
theorem stray_closing_hides_lines :
    stripLines (fun _ => []) 9 0 0
      (reads [] (['-', '-', ';', '\n', 'a', '=', 'b', '\n'].map chr)).reduceOption =
      some [(-1, some (['-', '-', ';'].map chr)), (-1, none)] ∧
    strippedLines 0 (linesOf [] (['-', '-', ';', '\n', 'a', '=', 'b', '\n'].map chr)) =
      [(0, some (['-', '-'].map chr)), (0, some (['a', '=', 'b'].map chr))] ∧
    (stripLines (fun _ => []) 9 0 0 (replicate 128 ([';', '-', '-', '\n'].map chr))).map
      (fun rs => rs.getLast?) = some (some (128, none)) ∧
    ∀ fuel, stripLine [] fuel 128 ([';', '-', '-', '\n'].map chr) = none := by
  refine ⟨by decide +kernel, by decide +kernel, by decide +kernel, fun fuel => ?_⟩
  obtain ⟨z, htracks⟩ := tracks_line [] 128 ([';', '-', '-', '\n'].map chr)
  have hstuck :=
    Tracks.commentLoop_stuck (show Tracks _ 128 [] ([] ++ chr ';' :: _) _ _ from htracks)
    not_mem_nil (by decide) le_rfl fuel
  exact congrArg _ hstuck

end CallWeaver.Config
