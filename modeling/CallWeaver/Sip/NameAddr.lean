import CallWeaver.Core.Strings

/-! # The address in a SIP header

`get_in_brackets` of `chan_sip.c` takes the address out of a header value of the form `"display
name" <address>;parameters`. A pointer into the value is the rest of it.
-/

namespace CallWeaver.Sip

open List

/-- The string from the first `c` on; it is empty when there is none. -/
def strchr (s : CStr) (c : UInt8) : CStr := s.dropWhile (· ≠ c)

/-- The string behind the next quote that has no backslash in front of it. -/
def closingQuote : UInt8 → CStr → Option CStr
  | _, [] => none
  | last_char, c :: s => if c = chr '"' ∧ last_char ≠ chr '\\' then some s else closingQuote c s

theorem closingQuote_length {last : UInt8} {s r : CStr} (h : closingQuote last s = some r) :
    r.length < s.length := by
  induction s generalizing last with
  | nil => simp [closingQuote] at h
  | cons c s ih =>
    rw [closingQuote] at h
    split_ifs at h
    · simp_all
    · exact Nat.lt_succ_of_lt (ih h)

theorem length_strchr_le (s : CStr) (c : UInt8) : (strchr s c).length ≤ s.length :=
  (dropWhile_suffix _).length_le

/-- `get_in_brackets` from `parse` on: the text at the returned pointer, and what the buffer holds
behind it. The whole value is returned when a quote or a bracket is not closed. -/
def getInBracketsFrom (tmp parse : CStr) : CStr × CStr :=
  let first_quote := strchr parse (chr '"')
  let first_bracket := strchr parse (chr '<')
  if first_bracket ≠ [] ∧ first_bracket.length < first_quote.length then
    match _h : closingQuote 0 first_quote.tail with
    | none => (tmp, [])
    | some rest => getInBracketsFrom tmp rest
  else
    match first_bracket with
    | [] => (tmp, [])
    | _ :: s =>
      match strchr s (chr '>') with
      | [] => (tmp, [])
      | _ :: rest => (s.takeWhile (· ≠ chr '>'), rest)
termination_by parse.length
decreasing_by
  have hr := closingQuote_length _h
  have hq : first_quote.length ≤ parse.length := length_strchr_le _ _
  rw [List.length_tail] at hr
  omega

def getInBrackets (tmp : CStr) : CStr × CStr := getInBracketsFrom tmp tmp

/-- What may stand between the quotes of a quoted string. -/
inductive Quoted : CStr → Prop
  | nil : Quoted []
  | plain {c : UInt8} {s : CStr} : c ≠ chr '"' → c ≠ chr '\\' → Quoted s → Quoted (c :: s)
  | pair {c : UInt8} {s : CStr} : Quoted s → Quoted (chr '\\' :: c :: s)

/-- A text that can stand around a quoted string. -/
def Unquoted (t : CStr) : Prop := chr '"' ∉ t ∧ chr '<' ∉ t

inductive DisplayName
  | tokens (t : CStr)
  | quoted (lead content gap : CStr)

def DisplayName.text : DisplayName → CStr
  | tokens t => t
  | quoted lead content gap => lead ++ chr '"' :: (content ++ chr '"' :: gap)

def DisplayName.Valid : DisplayName → Prop
  | tokens t => Unquoted t
  | quoted lead content gap => Unquoted lead ∧ Quoted content ∧ Unquoted gap

/-- The quoted string ends with an escaped backslash. -/
def DisplayName.EndsEscaped : DisplayName → Prop
  | tokens _ => False
  | quoted _ content _ => content.getLastD 0 = chr '\\'

variable {s t tmp parse addr params : CStr} {c last : UInt8}

theorem strchr_append (h : c ∉ s) : strchr (s ++ t) c = strchr t c := by
  apply dropWhile_append_of_pos
  intro x hx
  simpa using ne_of_mem_of_not_mem hx h

theorem strchr_first (h : c ∉ s) : strchr (s ++ c :: t) c = c :: t := by
  rw [strchr_append h]
  simp [strchr]

theorem closingQuote_append (h : closingQuote last s = none) :
    closingQuote last (s ++ t) = closingQuote (s.getLastD last) t := by
  induction s generalizing last with
  | nil => rfl
  | cons c s ih =>
    rw [closingQuote] at h
    split_ifs at h with hc
    rw [cons_append, closingQuote, if_neg hc, ih h, getLastD_cons]

theorem closingQuote_of_not_mem (h : chr '"' ∉ s) : closingQuote last s = none := by
  induction s generalizing last with
  | nil => rfl
  | cons c s ih =>
    rw [mem_cons, not_or] at h
    rw [closingQuote, if_neg (fun hc => h.1 hc.1.symm), ih h.2]

/-- Every quote inside of a quoted string has a backslash in front of it. -/
theorem Quoted.closingQuote_eq (h : Quoted s) : closingQuote last s = none := by
  induction h generalizing last with
  | nil => rfl
  | plain hq _ _ ih => rw [closingQuote, if_neg (fun hc => hq hc.1), ih]
  | pair _ ih =>
    rw [closingQuote, if_neg (fun hc => absurd hc.1 (by decide)), closingQuote,
      if_neg (fun hc => hc.2 rfl), ih]

/-- A result other than the whole value lies, with its brackets, in the part searched. -/
theorem getInBracketsFrom_inside (h : getInBracketsFrom tmp parse = (s, t)) :
    s = tmp ∨ s.length + t.length + 2 ≤ parse.length := by
  fun_induction getInBracketsFrom tmp parse with
  | case1 | case3 | case4 => exact Or.inl (congrArg Prod.fst h).symm
  | case2 parse first_quote first_bracket _ rest hr ih =>
    have hq : first_quote.length ≤ parse.length := length_strchr_le _ _
    have := closingQuote_length hr
    rw [length_tail] at this
    exact (ih h).imp_right (by omega)
  | case5 parse _ first_bracket _ b u hb d rest hr =>
    obtain ⟨rfl, rfl⟩ := Prod.mk.inj h
    have hlen : first_bracket.length ≤ parse.length := length_strchr_le _ _
    have hu := congrArg List.length (takeWhile_append_dropWhile (p := (· ≠ chr '>')) (l := u))
    rw [← strchr, hr, length_append, length_cons] at hu
    rw [hb, length_cons] at hlen
    exact Or.inr (by omega)

theorem getInBracketsFrom_bracket (ht : Unquoted t) (ha : chr '>' ∉ addr) :
    getInBracketsFrom tmp (t ++ chr '<' :: (addr ++ chr '>' :: params)) = (addr, params) := by
  have hq := length_strchr_le (chr '<' :: (addr ++ chr '>' :: params)) (chr '"')
  have hpos : ∀ x ∈ addr, decide (x ≠ chr '>') = true :=
    fun x hx => by simpa using ne_of_mem_of_not_mem hx ha
  rw [getInBracketsFrom]
  simp only [strchr_append ht.1, strchr_first ht.2]
  rw [if_neg (fun h => absurd h.2 (by omega))]
  simp only [strchr_first ha, takeWhile_append_of_pos hpos]
  simp

theorem getInBracketsFrom_quote (ht : Unquoted t) (hb : chr '<' ∈ s) :
    getInBracketsFrom tmp
      (t ++ chr '"' :: s) = (closingQuote 0 s).elim (tmp, []) (getInBracketsFrom tmp) := by
  have hbr : strchr (t ++ chr '"' :: s) (chr '<') = strchr s (chr '<') := by
    rw [strchr_append ht.2, ← singleton_append, strchr_append (by decide)]
  have hne : strchr s (chr '<') ≠ [] := fun h => by simpa using dropWhile_eq_nil_iff.mp h _ hb
  have hlt : (strchr s (chr '<')).length <
    (chr '"' :: s).length := Nat.lt_succ_of_le (length_strchr_le _ _)
  rw [getInBracketsFrom]
  simp only [strchr_first ht.1, hbr]
  rw [if_pos ⟨hne, hlt⟩]
  split
  all_goals simp_all [strchr_first ht.1]

/-- The address is found behind every display name, except behind one whose last character is a
backslash. -/
theorem name_addr_iff {d : DisplayName} (hd : d.Valid) (ha : chr '>' ∉ addr) :
    getInBrackets (d.text ++ chr '<' :: (addr ++ chr '>' :: params)) = (addr, params) ↔
      ¬ d.EndsEscaped := by
  cases d with
  | tokens t => exact iff_of_true (getInBracketsFrom_bracket hd ha) not_false
  | quoted lead content gap =>
    obtain ⟨hl, hc, hg⟩ := hd
    set whole :=
      (DisplayName.quoted lead content gap).text ++ chr '<' :: (addr ++ chr '>' :: params) with hw
    have he : whole = lead ++ chr '"' :: (content ++ chr '"' ::
        (gap ++ chr '<' :: (addr ++ chr '>' :: params))) := by
      simp [hw, DisplayName.text]
    have hfrom : getInBrackets whole = (closingQuote (content.getLastD 0)
        (chr '"' :: (gap ++ chr '<' :: (addr ++ chr '>' :: params)))).elim
          (whole, []) (getInBracketsFrom whole) := by
      rw [← closingQuote_append hc.closingQuote_eq, ← getInBracketsFrom_quote hl (by simp), ← he,
        getInBrackets]
    rw [hfrom, closingQuote, DisplayName.EndsEscaped]
    by_cases hlast : content.getLastD 0 = chr '\\'
    · -- the scan passes the closing quote, and then the bracket
      rw [if_neg (fun h => h.2 hlast), closingQuote_append (closingQuote_of_not_mem hg.1),
        closingQuote, if_neg (fun h => absurd h.1 (by decide))]
      refine iff_of_false (fun h => ?_) (not_not_intro hlast)
      have hlen : addr ≠ whole := fun h => absurd (congrArg List.length h) (by simp [he]; omega)
      rcases hr : closingQuote (chr '<') (addr ++ chr '>' :: params) with _ | rest
      · rw [hr] at h
        exact hlen (congrArg Prod.fst h).symm
      · rw [hr] at h
        have hrest := closingQuote_length hr
        have hin := (getInBracketsFrom_inside h).resolve_left hlen
        simp only [length_append, length_cons] at hrest
        omega
    · rw [if_pos ⟨rfl, hlast⟩]
      exact iff_of_true (getInBracketsFrom_bracket hg ha) hlast

theorem name_addr_iff_spaced :
    getInBrackets (['"', 'a', '"', ' ', '<', 'b', '>'].map chr) = ([chr 'b'], []) :=
  (@name_addr_iff [chr 'b'] [] (.quoted [] [chr 'a'] [chr ' '])
    ⟨⟨by decide, by decide⟩, .plain (by decide) (by decide) .nil, by decide, by decide⟩
    (by decide)).mpr
    (show [chr 'a'].getLastD 0 ≠ chr '\\' by decide)

/-- The quote behind an escaped backslash is passed over, and the whole value returned. -/
theorem escaped_backslash_misread :
    getInBrackets (['"', '\\', '\\', '"', '<', 'b', '>'].map chr) =
      (['"', '\\', '\\', '"', '<', 'b', '>'].map chr, []) := by
  rw [getInBrackets, getInBracketsFrom]
  rfl

end CallWeaver.Sip
