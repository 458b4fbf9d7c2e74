import CallWeaver.Config.Saved

/-! # Escaped semicolons

Each semicolon that is loaded has lost a backslash. So a semicolon of a saved configuration comes
back, if at all, with fewer backslashes, and no configuration that has one comes back as it was.
-/

namespace CallWeaver.Config

open List Option

def run (r : ℕ) : CStr := .replicate r (chr '\\') ++ [chr ';']

section Runs

variable {r : ℕ} {s t a b l : CStr} {c : UInt8}

theorem semi_mem_run (r : ℕ) : chr ';' ∈ run r := mem_append_right _ (mem_singleton_self _)

theorem not_mem_run (hc : c ≠ chr '\\' ∧ c ≠ chr ';') : c ∉ run r := by
  intro h
  rcases mem_append.mp h with h | h
  · exact hc.1 (eq_of_mem_replicate h)
  · exact hc.2 (mem_singleton.mp h)

/-- A run does not reach over the end of a string without a backslash there. -/
theorem run_infix_append (h : run r <:+: a ++ b) (ha : a.getLast? ≠ some (chr '\\')) :
    run r <:+: a ∨ run r <:+: b := by
  rcases infix_append_iff.mp h with h | h | ⟨l₁, l₂, hrun, h₁, h₂⟩
  · exact .inl h
  · exact .inr h
  · rcases l₂.eq_nil_or_concat' with rfl | ⟨l₂, x, rfl⟩
    · rw [hrun, append_nil]
      exact .inl h₁.isInfix
    · rcases l₁.eq_nil_or_concat' with rfl | ⟨l₁, y, rfl⟩
      · rw [hrun, nil_append]
        exact .inr h₂.isInfix
      · -- the first part ends with a backslash
        exfalso
        have hmem : y ∈ replicate r (chr '\\') := by
          have hsplit : replicate r (chr '\\') = l₁ ++ [y] ++ l₂ := by
            have hconcat : replicate r (chr '\\') ++ [chr ';'] = (l₁ ++ [y] ++ l₂) ++ [x] := by
              rw [← append_assoc] at hrun
              exact hrun
            exact (append_inj' hconcat rfl).1
          simp [hsplit]
        obtain ⟨w, rfl⟩ := h₁
        rw [eq_of_mem_replicate hmem] at ha
        simp at ha

theorem run_succ_of_suffix (h : run r <:+: s ++ [chr ';']) (hs : chr ';' ∉ s) :
    run (r + 1) <:+ s ++ [chr '\\', chr ';'] := by
  rcases infix_concat_iff.mp h with h | h
  · obtain ⟨w, hw⟩ := h
    rw [run, ← append_assoc] at hw
    refine ⟨w, ?_⟩
    rw [run, replicate_succ', ← (append_inj' hw rfl).1]
    simp
  · exact absurd (h.subset (semi_mem_run r)) hs

theorem run_content (r d : ℕ) (t : CStr) (h : run r <:+: (marks t).content d) :
    run (r + 1) <:+: t := by
  induction t using marks_induction generalizing d with
  | text t ht =>
    have hsub := content_sublist d t
    exact absurd (hsub.subset (h.subset (semi_mem_run r))) ht
  | marked s rest hs ih =>
    have hbehind : ∀ d, run r <:+: (marks (rest.drop (markOf s rest).skip)).content d →
        run (r + 1) <:+: s ++ chr ';' :: rest := fun d h =>
      ((ih d h).trans (drop_suffix _ rest).isInfix).trans
        ((suffix_cons _ rest).isInfix.trans (suffix_append s _).isInfix)
    have hnone : ¬ run r <:+: s := fun h => hs (h.subset (semi_mem_run r))
    rcases content_marked hs d rfl with ⟨d', he⟩ | he | ⟨hlast, he⟩ | ⟨s, rfl, he⟩ <;> rw [he] at h
    · exact hbehind d' h
    · exact absurd h hnone
    · exact (run_infix_append h hlast).elim (fun h => absurd h hnone) (hbehind 1)
    · rw [append_cons] at h
      have hlast : (s ++ [chr ';']).getLast? ≠ some (chr '\\') := by
        rw [getLast?_concat]
        decide
      rcases run_infix_append h hlast with h | h
      · have hsuffix := run_succ_of_suffix h fun hmem => hs (mem_append_left _ hmem)
        exact hsuffix.isInfix.trans ⟨[], rest, by simp⟩
      · exact hbehind 0 h

theorem infix_of_separator (hc : c ∉ l) (h : l <:+: a ++ c :: b) : l <:+: a ∨ l <:+: b := by
  rcases infix_append_iff.mp h with h | h | ⟨l₁, l₂, rfl, h₁, h₂⟩
  · exact .inl h
  · rcases infix_cons_iff.mp h with h | h
    · cases l with
      | nil => exact .inl nil_infix
      | cons x l => exact absurd ((cons_prefix_cons.mp h).1 ▸ mem_cons_self) hc
    · exact .inr h
  · cases l₂ with
    | nil => exact .inl (by simpa using h₁.isInfix)
    | cons x l₂ =>
      exact absurd ((cons_prefix_cons.mp h₂).1 ▸ mem_append_right _ mem_cons_self) hc

theorem not_run_infix_nil :
    ¬ run r <:+: [] := fun h => absurd (h.subset (semi_mem_run r)) not_mem_nil

theorem run_line {it : Item} (h : run r <:+: it.line) : match it with
    | .header name => run r <:+: name
    | .entry name value _ => run r <:+: name ∨ run r <:+: value := by
  cases it with
  | header name =>
    have hopen := infix_of_separator (a := []) (not_mem_run (by decide)) h
    have hname := hopen.resolve_left not_run_infix_nil
    exact (infix_of_separator (not_mem_run (by decide)) hname).resolve_right not_run_infix_nil
  | entry name value object =>
    rw [line_entry, append_assoc] at h
    rcases infix_of_separator (not_mem_run (by decide)) h with h | h
    · exact .inl h
    · have hsign :=
        (infix_of_separator (a := []) (not_mem_run (by decide)) h).resolve_left not_run_infix_nil
      rcases infix_of_separator (not_mem_run (by decide)) hsign with h | h
      · exfalso
        have hmem := h.subset (semi_mem_run r)
        cases object with
        | true => exact absurd hmem (by decide)
        | false => exact absurd hmem (by decide)
      · exact .inr h

end Runs

section Saved

variable {its : List Item} {l t : CStr} {d n : ℕ}

theorem mem_textLines_body (hits : ∀ it ∈ its, it.Ok) (hl : l ∈ textLines (reads [] (body its))) :
    ∃ it ∈ its, l <:+: it.line ++ [chr '\n'] := by
  obtain ⟨line, hline, rfl⟩ := mem_map.mp hl
  rw [reduceOption_mem_iff] at hline
  suffices h : ∃ it ∈ its, line <:+: it.line ++ [chr '\n'] by
    obtain ⟨it, hit, hinfix⟩ := h
    exact ⟨it, hit, (List.takeWhile_prefix _).isInfix.trans hinfix⟩
  clear hl
  induction its with
  | nil => simp [body, reads] at hline
  | cons it its ih =>
    have hok := hits it mem_cons_self
    have hrest : some line ∈ reads [] (body its) →
        ∃ it' ∈ it :: its, line <:+: it'.line ++ [chr '\n'] := by
      intro h
      obtain ⟨it', hit', hinfix⟩ := ih (fun it' hit' => hits it' (mem_cons_of_mem _ hit')) h
      exact ⟨it', mem_cons_of_mem _ hit', hinfix⟩
    have hbody : body (it :: its) = it.line ++ chr '\n' :: body its := by simp [body]
    rw [hbody] at hline
    by_cases hshort : it.line.length + 1 < bufSize
    · rw [reads_short hok.not_mem_line.1 (by simpa using hshort)] at hline
      rcases mem_cons.mp hline with h | h
      · rw [some.inj h, nil_append]
        exact ⟨it, mem_cons_self, infix_rfl⟩
      · exact hrest h
    · rw [reads_long hok.not_mem_line.1 (by omega) (length_line_lt hok)] at hline
      rcases mem_cons.mp hline with h | h
      · rw [some.inj h]
        exact ⟨it, mem_cons_self, ((List.take_prefix _ _).trans (prefix_append _ _)).isInfix⟩
      · rcases mem_cons.mp h with h | h
        · rw [some.inj h]
          refine ⟨it, mem_cons_self, it.line.take (bufSize - 1), [], ?_⟩
          rw [append_nil, ← append_assoc, take_append_drop]
        · exact hrest h

def Marked (its : List Item) (r : ℕ) : Prop := ∃ it ∈ its, run r <:+: it.line

theorem infix_entryOf {v : CwVariable} (h : entryOf t n = some v) :
    v.name <:+: t ∧ v.value <:+: t := by
  obtain ⟨⟨b, a⟩, hcut, -⟩ := map_eq_some_iff.mp h
  obtain ⟨rfl, hb⟩ := cut_eq_some_iff.mp hcut
  rw [entryOf_append hb, some.injEq] at h
  have hbehind : a <:+: b ++ chr '=' :: a := ((suffix_cons _ a).trans (suffix_append b _)).isInfix
  have hname : cwStrip b <:+: b ++ chr '=' :: a :=
    (infix_cwStrip b).trans (prefix_append b _).isInfix
  subst h
  split_ifs
  · exact ⟨hname, (infix_cwStrip _).trans ((tail_suffix a).isInfix.trans hbehind)⟩
  · exact ⟨hname, (infix_cwStrip a).trans hbehind⟩

/-- What is passed on of a saved file has semicolons only where its lines have them, with one
backslash less. -/
theorem yields_of_passed (hits : ∀ it ∈ its, it.Ok) (hl : l ∈ textLines (reads [] (body its)))
    (ht : passed ((marks l).content d) = some t) :
    Yields (fun s => ∀ r, run r <:+: s → Marked its (r + 1))
      (fun v => ∀ r, run r <:+: v.name ∨ run r <:+: v.value → Marked its (r + 1)) t := by
  have hmarked : ∀ r, run r <:+: t → Marked its (r + 1) := by
    intro r hr
    obtain ⟨it, hit, hinfix⟩ := mem_textLines_body hits hl
    have hcontent : t <:+: (marks l).content d := by
      rw [passed] at ht
      split_ifs at ht
      rw [← some.inj ht]
      exact infix_cwStrip _
    have hrun := (run_content r d l (hr.trans hcontent)).trans hinfix
    exact ⟨it, hit,
      (infix_of_separator (not_mem_run (by decide)) hrun).resolve_right not_run_infix_nil⟩
  constructor
  · intro name rest hname _ r hr
    apply hmarked r (hr.trans _)
    rw [hname]
    exact (List.take_prefix _ name).isInfix.trans ⟨[chr '['], chr ']' :: rest, by simp⟩
  · rintro _ _ n v hv r (hr | hr)
    · exact hmarked r (hr.trans (infix_entryOf hv).1)
    · exact hmarked r (hr.trans (infix_entryOf hv).2)

theorem not_marked (h : ∀ r, Marked its r → Marked its (r + 1)) (r : ℕ) : ¬ Marked its r := by
  intro hr
  have hall : ∀ k, Marked its (r + k) := by
    intro k
    induction k with
    | zero => exact hr
    | succ k ih => exact h _ ih
  obtain ⟨it, hit, hinfix⟩ := hall (its.flatMap Item.line).length
  have hle := hinfix.length_le
  have hle' := (sublist_flatten_of_mem (mem_map_of_mem (f := Item.line) hit)).length_le
  rw [← flatMap_def] at hle'
  rw [run, length_append, length_replicate, length_singleton] at hle
  omega

end Saved

end CallWeaver.Config
