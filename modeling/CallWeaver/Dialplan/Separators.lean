import CallWeaver.Dialplan.Pattern

/-! # Separators

The matcher skips dashes of the destination in front of each element of the pattern, and dashes and
blanks of the pattern when there is a digit left. What is left of one string at the end of the other
is compared as it is, so the last separators are not ignored.
-/

namespace CallWeaver.Dialplan

open List Option

def IsSeparator (c : UInt8) : Prop := c = chr '-' ∨ c = chr ' '
  deriving Decidable

def digits (d : CStr) : CStr := d.filter (· ≠ chr '-')

def trailing (d : CStr) : Bool := d.getLast? = some (chr '-')

def Ended (p : CStr) : Prop := p = [] ∨ p.head? = some (chr '/')
  deriving Decidable

/-- The elements of a pattern take digits one by one, which leaves `r` of it. Separators are skipped
only in front of an element that takes a digit. -/
def Takes (ds p r : CStr) : Prop :=
  match ds, p with
  | [], p => r = p
  | _ :: _, [] => False
  | x :: ds, c :: p =>
    if c = chr '/' then False
    else match _h : patternStep c p with
      | .stop _ => False
      | .test ok rest => ok x = true ∧ Takes ds rest r
      | .skip rest => Takes (x :: ds) rest r
termination_by p.length
decreasing_by
  all_goals
    have hle := patternStep_le c p
    rw [_h] at hle
    exact Nat.lt_succ_of_le hle

inductive Closed : CStr → Prop where
  | nil : Closed []
  | char {c : UInt8} {p : CStr} : c ≠ chr '[' → Closed p → Closed (c :: p)
  | cls {l p : CStr} : chr ']' ∉ l → Closed p → Closed (chr '[' :: (l ++ chr ']' :: p))

section Verdict

def endVerdict (trail : Bool) (p : CStr) : ExtensionMatch :=
  match p with
  | [] => if trail then .overlength else .exact
  | c :: _ =>
    if c = chr '/' then if trail then .overlength else .exact
    else if c = chr '!' then .possible
    else .incomplete

/-- The verdict on the digits of a destination, which does or does not end in a dash. -/
def verdict (ds : CStr) (trail : Bool) (p : CStr) : ExtensionMatch :=
  match ds, p with
  | [], p => endVerdict trail p
  | _ :: _, [] => .overlength
  | x :: ds, c :: p =>
    if c = chr '/' then .overlength
    else match _h : patternStep c p with
      | .stop v => v
      | .test ok rest => if ok x then verdict ds trail rest else .failure
      | .skip rest => verdict (x :: ds) trail rest
termination_by p.length
decreasing_by
  all_goals
    have hle := patternStep_le c p
    rw [_h] at hle
    exact Nat.lt_succ_of_le hle

variable {c x : UInt8} {d ds p r d' : CStr} {trail : Bool}

theorem digits_dropWhile (d : CStr) : digits (d.dropWhile (· = chr '-')) = digits d := by
  induction d with
  | nil => rfl
  | cons x d ih =>
    by_cases hx : x = chr '-'
    · subst hx
      rw [dropWhile_cons_of_pos (by simp), ih]
      simp [digits]
    · rw [dropWhile_dash_cons hx]

theorem digits_cons (hx : x ≠ chr '-') (d : CStr) : digits (x :: d) = x :: digits d :=
  filter_cons_of_pos (by simpa using hx)

theorem trailing_cons (hx : x ≠ chr '-') (d : CStr) : trailing (x :: d) = trailing d := by
  cases d with
  | nil => simpa [trailing] using hx
  | cons y d => simp [trailing]

theorem eq_nil_iff_digits : d = [] ↔ digits d = [] ∧ trailing d = false := by
  constructor
  · rintro rfl
    exact ⟨rfl, rfl⟩
  · rintro ⟨hds, htrail⟩
    rcases d.eq_nil_or_concat' with rfl | ⟨d, x, rfl⟩
    · rfl
    · have hx : x = chr '-' := by
        have hall := filter_eq_nil_iff.mp hds x (by simp)
        simpa using hall
      simp [trailing, hx] at htrail

theorem trailing_dropWhile (h : d.dropWhile (· = chr '-') = x :: d') :
    trailing (x :: d') = trailing d := by
  have hsplit := takeWhile_append_dropWhile (p := (· = chr '-')) (l := d)
  rw [h] at hsplit
  rw [trailing, trailing, ← hsplit, getLast?_append_of_ne_nil _ (cons_ne_nil x d')]

theorem verdict_nil (trail : Bool) (p : CStr) : verdict [] trail p = endVerdict trail p := by
  rw [verdict]

theorem verdict_cons (hc : c ≠ chr '/') : verdict (x :: ds) trail (c :: p) =
    match patternStep c p with
    | .stop v => v
    | .test ok rest => if ok x then verdict ds trail rest else .failure
    | .skip rest => verdict (x :: ds) trail rest := by
  rw [verdict, if_neg hc]
  split <;> simp_all

theorem verdict_ended (hp : Ended p) :
    verdict ds trail p = if ds = [] ∧ trail = false then .exact else .overlength := by
  cases ds with
  | nil =>
    rw [verdict_nil]
    rcases hp with rfl | hp
    · cases trail <;> rfl
    · cases p with
      | nil => cases hp
      | cons c p =>
        obtain rfl : c = chr '/' := some.inj hp
        cases trail <;> rfl
  | cons x ds =>
    rw [if_neg (by simp)]
    rcases hp with rfl | hp
    · rw [verdict]
    · cases p with
      | nil => cases hp
      | cons c p =>
        obtain rfl : c = chr '/' := some.inj hp
        rw [verdict, if_pos rfl]

theorem atEnd_ended (hp : Ended p) : atEnd d p = if d = [] then .exact else .overlength := by
  rcases hp with rfl | hp
  · cases d <;> rfl
  · cases p with
    | nil => cases hp
    | cons c p =>
      obtain rfl : c = chr '/' := some.inj hp
      cases d <;> rfl

theorem endVerdict_of_ne (hc : c ≠ chr '/') (trail : Bool) :
    endVerdict trail (c :: p) = atEnd [] (c :: p) := by
  simp only [endVerdict, atEnd, if_neg hc]

theorem atEnd_eq_verdict (hp : Ended p) : atEnd d p = verdict (digits d) (trailing d) p := by
  rw [atEnd_ended hp, verdict_ended hp]
  exact if_congr eq_nil_iff_digits rfl rfl

theorem matchLoop_eq_verdict (d p : CStr) : matchLoop d p = verdict (digits d) (trailing d) p := by
  -- what the digits and the last character are when the first dashes are skipped
  have hskip : ∀ {d d' : CStr} {x : UInt8}, d.dropWhile (· = chr '-') = x :: d' →
      digits d = x :: digits d' ∧ trailing d = trailing d' := by
    intro d d' x h
    have hx : x ≠ chr '-' := by
      rintro rfl
      simpa [h] using head?_dropWhile_not (· = chr '-') d
    rw [← digits_dropWhile, ← trailing_dropWhile h, h, digits_cons hx, trailing_cons hx]
    exact ⟨rfl, rfl⟩
  fun_induction matchLoop d p with
  | case1 d => exact atEnd_eq_verdict (.inl rfl)
  | case2 d c p h =>
    by_cases hc : c = chr '/'
    · exact atEnd_eq_verdict (.inr (congrArg some hc))
    · rw [h.resolve_right hc]
      exact (endVerdict_of_ne hc false).symm.trans (verdict_nil false _).symm
  | case3 d c p h hdrop =>
    have hds : digits d = [] := by rw [← digits_dropWhile, hdrop]; rfl
    rw [hds, verdict_nil, endVerdict_of_ne (not_or.mp h).2]
  | case4 d c p h x d' hdrop v hs =>
    rw [(hskip hdrop).1, verdict_cons (not_or.mp h).2, hs]
  | case5 d c p h x d' hdrop ok rest hs hok ih =>
    rw [(hskip hdrop).1, (hskip hdrop).2, verdict_cons (not_or.mp h).2, hs]
    simpa only [hok, if_true] using ih
  | case6 d c p h x d' hdrop ok rest hs hok =>
    rw [(hskip hdrop).1, verdict_cons (not_or.mp h).2, hs]
    simp only [hok, Bool.false_eq_true, if_false]
  | case7 d c p h x d' hdrop rest hs ih =>
    have hds := congrArg digits hdrop
    rw [digits_dropWhile] at hds
    rw [ih, ← hds, trailing_dropWhile hdrop, (hskip hdrop).1, verdict_cons (not_or.mp h).2, hs]

end Verdict

section Deletion

variable {c s x : UInt8} {a b d ds p r l : CStr} {trail : Bool}

theorem Takes.nil_iff : Takes [] p r ↔ r = p := by
  rw [Takes]

theorem Takes.cons_iff (hc : c ≠ chr '/') : Takes (x :: ds) (c :: p) r ↔ match patternStep c p with
    | .stop _ => False
    | .test ok rest => ok x = true ∧ Takes ds rest r
    | .skip rest => Takes (x :: ds) rest r := by
  rw [Takes, if_neg hc]
  split <;> simp_all

theorem Takes.not_ended (hp : Ended p) : ¬ Takes (x :: ds) p r := by
  rcases hp with rfl | hp
  · rw [Takes]
    exact id
  · cases p with
    | nil => cases hp
    | cons c p =>
      obtain rfl : c = chr '/' := some.inj hp
      rw [Takes, if_pos rfl]
      exact id

theorem Takes.length_le (h : Takes ds p r) : r.length ≤ p.length := by
  fun_induction Takes ds p r with
  | case1 p => exact Nat.le_of_eq (congrArg List.length h)
  | case2 | case3 | case4 => exact h.elim
  | case5 x ds c p hc ok rest hs ih =>
    have hle := patternStep_le c p
    rw [hs] at hle
    exact Nat.le_trans (ih h.2) (Nat.le_succ_of_le hle)
  | case6 x ds c p hc rest hs ih =>
    have hle := patternStep_le c p
    rw [hs] at hle
    exact Nat.le_trans (ih h) (Nat.le_succ_of_le hle)

theorem verdict_trailing_iff :
    verdict ds true p = verdict ds false p ↔ ¬ ∃ r, Takes ds p r ∧ Ended r := by
  fun_induction verdict ds true p with
  | case1 p =>
    rw [verdict_nil]
    simp only [Takes.nil_iff, exists_eq_left]
    constructor
    · rintro h (rfl | hp)
      · cases h
      · cases p with
        | nil => cases hp
        | cons c p =>
          obtain rfl : c = chr '/' := some.inj hp
          cases h
    · intro hp
      cases p with
      | nil => exact absurd (.inl rfl) hp
      | cons c p =>
        have hc : c ≠ chr '/' := fun h => hp (.inr (congrArg some h))
        rw [endVerdict_of_ne hc, endVerdict_of_ne hc]
  | case2 x ds =>
    have hp : Ended [] := .inl rfl
    simp [verdict_ended hp, Takes.not_ended hp]
  | case3 x ds p =>
    have hp : Ended (chr '/' :: p) := .inr rfl
    simp [verdict_ended hp, Takes.not_ended hp]
  | case4 x ds c p hc v hs => simp [verdict_cons hc, Takes.cons_iff hc, hs]
  | case5 x ds c p hc ok rest hs hok ih =>
    simpa [verdict_cons hc, Takes.cons_iff hc, hs, hok] using ih
  | case6 x ds c p hc ok rest hs hok => simp [verdict_cons hc, Takes.cons_iff hc, hs, hok]
  | case7 x ds c p hc rest hs ih => simpa [verdict_cons hc, Takes.cons_iff hc, hs] using ih

/-- What stands behind an element does not matter to its step. -/
def Uniform (c : UInt8) (l : CStr) : Prop :=
  (∃ v, ∀ p, patternStep c (l ++ p) = .stop v) ∨ (∃ ok, ∀ p, patternStep c (l ++ p) = .test ok p) ∨
    ∀ p, patternStep c (l ++ p) = .skip p

theorem uniform_char (hc : c ≠ chr '[') : Uniform c [] := by
  have hup : toupper c ≠ chr '[' := fun h => hc ((eq_of_toupper_eq c).1 h)
  simp only [Uniform, nil_append, patternStep, if_neg hup]
  split_ifs
  · exact .inr (.inl ⟨_, fun _ => rfl⟩)
  · exact .inr (.inl ⟨_, fun _ => rfl⟩)
  · exact .inr (.inl ⟨_, fun _ => rfl⟩)
  · exact .inl ⟨_, fun _ => rfl⟩
  · exact .inl ⟨_, fun _ => rfl⟩
  · exact .inr (.inr fun _ => rfl)
  · exact .inr (.inl ⟨_, fun _ => rfl⟩)

theorem uniform_cls {l : CStr} (hl : chr ']' ∉ l) : Uniform (chr '[') (l ++ [chr ']']) := by
  refine .inr (.inl ⟨fun d => inClass d l, fun p => ?_⟩)
  rw [append_assoc]
  exact patternStep_cls hl p

theorem patternStep_separator (hs : IsSeparator s) (p : CStr) : patternStep s p = .skip p := by
  rcases hs with rfl | rfl <;> simp +decide [patternStep]

/-- A separator behind `a` counts when the digits are used up in front of it and a pattern without
it would end there, or accept there what may follow. -/
def Counts (ds a : CStr) (s : UInt8) (b : CStr) : Prop :=
  Takes ds (a ++ s :: b) (s :: b) ∧ (Ended b ∨ b.head? = some (chr '!'))

theorem verdict_delete_element (hcl : Uniform c l)
    (ih : ∀ ds, verdict ds trail (a ++ b) = verdict ds trail (a ++ s :: b) ↔ ¬ Counts ds a s b) :
    verdict ds trail (c :: (l ++ a) ++ b) = verdict ds trail (c :: (l ++ a) ++ s :: b) ↔
      ¬ Counts ds (c :: (l ++ a)) s b := by
  simp only [cons_append, append_assoc, Counts]
  cases ds with
  | nil =>
    have hlen : s :: b ≠ c :: (l ++ (a ++ s :: b)) := by
      intro h
      have := congrArg List.length h
      simp at this
      omega
    simp only [verdict_nil, Takes.nil_iff, hlen, false_and, not_false_eq_true, iff_true]
    rfl
  | cons x ds =>
    by_cases hc : c = chr '/'
    · have he : ∀ p, Ended (c :: p) := fun p => .inr (congrArg some hc)
      simp [verdict_ended (he _), Takes.not_ended (he _)]
    rw [verdict_cons hc, verdict_cons hc, Takes.cons_iff hc]
    rcases hcl with ⟨v, h⟩ | ⟨ok, h⟩ | h
    · simp [h]
    · cases hok : ok x with
      | false => simp [h, hok]
      | true => simpa [h, hok, Counts] using ih ds
    · simpa [h, Counts] using ih (x :: ds)

theorem verdict_delete_iff (ha : Closed a) (hs : IsSeparator s) (ds : CStr) :
    verdict ds trail (a ++ b) = verdict ds trail (a ++ s :: b) ↔ ¬ Counts ds a s b := by
  induction ha generalizing ds with
  | nil =>
    have hslash : s ≠ chr '/' := by rcases hs with rfl | rfl <;> decide
    have hbang : s ≠ chr '!' := by rcases hs with rfl | rfl <;> decide
    cases ds with
    | nil =>
      -- only dashes are left in front of the separator: it makes the destination incomplete
      simp only [nil_append, verdict_nil, Counts, Takes.nil_iff, true_and, endVerdict_of_ne hslash,
        atEnd, if_neg hslash, if_neg hbang]
      cases b with
      | nil => cases trail <;> simp [endVerdict, Ended]
      | cons c b =>
        simp only [endVerdict, Ended, head?_cons, some.injEq, reduceCtorEq, false_or]
        split_ifs <;> simp_all
    | cons x ds =>
      rw [nil_append, nil_append, verdict_cons hslash, patternStep_separator hs]
      simp only [Counts, nil_append, true_iff, not_and]
      intro ht
      rw [Takes.cons_iff hslash, patternStep_separator hs] at ht
      exact absurd ht.length_le (by simp)
  | char hc _ ih => exact verdict_delete_element (uniform_char hc) ih
  | @cls l a hl _ ih => simpa using verdict_delete_element (uniform_cls hl) ih

theorem digits_append_dash (a b : CStr) : digits (a ++ chr '-' :: b) = digits (a ++ b) := by
  simp [digits]

theorem digits_ne_nil (hd : ∃ x ∈ d, x ≠ chr '-') : digits d ≠ [] := by
  obtain ⟨x, hx, hne⟩ := hd
  exact ne_nil_of_mem (mem_filter.mpr ⟨hx, by simpa using hne⟩)

theorem cwExtensionPatternMatch_eq_verdict (hd : digits d ≠ []) (p : CStr) :
    cwExtensionPatternMatch d (chr '_' :: p) = verdict (digits d) (trailing d) p := by
  have hne : d ≠ [] := by
    rintro rfl
    exact hd rfl
  obtain ⟨x, d', h⟩ : ∃ x d', d.dropWhile (· = chr '-') = x :: d' := by
    apply exists_cons_of_ne_nil
    intro h
    rw [← digits_dropWhile, h] at hd
    exact hd rfl
  have hds := congrArg digits h
  rw [digits_dropWhile] at hds
  rw [hds, ← trailing_dropWhile h, ← matchLoop_eq_verdict]
  simp [cwExtensionPatternMatch, hne, h]

end Deletion

/-- A dash taken out of the destination changes the result exactly when it is the last character, no
dash stands in front of it and the digits fill the pattern; a separator taken out of the pattern
exactly when the digits are used up in front of it and the rest of the pattern is empty, a slash or
an exclamation mark. -/
theorem separators_ignored_iff {d : CStr} (hd : ∃ x ∈ d, x ≠ chr '-') (p : CStr) :
    (∀ a b, d = a ++ chr '-' :: b →
      (cwExtensionPatternMatch (a ++ b) (chr '_' :: p) = cwExtensionPatternMatch d (chr '_' :: p) ↔
        ¬ (b = [] ∧ trailing a = false ∧ ∃ r, Takes (digits d) p r ∧ Ended r))) ∧
    ∀ a s b, p = a ++ s :: b → Closed a → IsSeparator s →
      (cwExtensionPatternMatch d (chr '_' :: (a ++ b)) = cwExtensionPatternMatch d (chr '_' :: p) ↔
        ¬ Counts (digits d) a s b) := by
  have hds := digits_ne_nil hd
  constructor
  · rintro a b rfl
    rw [cwExtensionPatternMatch_eq_verdict hds]
    rw [digits_append_dash] at hds ⊢
    rw [cwExtensionPatternMatch_eq_verdict hds]
    cases b with
    | cons y b =>
      have htrail : trailing (a ++ chr '-' :: y :: b) = trailing (a ++ y :: b) := by simp [trailing]
      simp [htrail]
    | nil =>
      have htrail : trailing (a ++ [chr '-']) = true := by simp [trailing]
      rw [htrail, append_nil]
      cases hlast : trailing a with
      | true => simp
      | false => simpa [eq_comm] using verdict_trailing_iff
  · rintro a s b rfl ha hs
    rw [cwExtensionPatternMatch_eq_verdict hds, cwExtensionPatternMatch_eq_verdict hds]
    exact verdict_delete_iff ha hs _

/-- The inner dashes of `1-2` and of the pattern `_1-2` are ignored. -/
theorem separators_ignored_iff_inner :
    cwExtensionPatternMatch [chr '1', chr '2'] [chr '_', chr '1', chr '-', chr '2'] =
      cwExtensionPatternMatch [chr '1', chr '-', chr '2'] [chr '_', chr '1', chr '-', chr '2'] ∧
    cwExtensionPatternMatch [chr '1', chr '-', chr '2'] [chr '_', chr '1', chr '2'] =
      cwExtensionPatternMatch [chr '1', chr '-', chr '2'] [chr '_', chr '1', chr '-', chr '2'] := by
  have h := separators_ignored_iff (d := [chr '1', chr '-', chr '2']) ⟨chr '1', by decide⟩
    [chr '1', chr '-', chr '2']
  constructor
  · exact (h.1 [chr '1'] [chr '2'] rfl).mpr (by simp)
  · apply (h.2 [chr '1'] (chr '-') [chr '2'] rfl (.char (by decide) .nil) (by decide)).mpr
    rintro ⟨-, hend | hbang⟩
    · exact absurd hend (by decide)
    · exact absurd hbang (by decide)

/-- A last dash makes the destination too long, and one of the pattern makes it incomplete. -/
theorem last_separators_count :
    cwExtensionPatternMatch [chr '1', chr '2', chr '-'] [chr '_', chr '1', chr '2'] = .overlength ∧
    cwExtensionPatternMatch [chr '1', chr '2'] [chr '_', chr '1', chr '2', chr '-'] = .incomplete ∧
    cwExtensionPatternMatch [chr '1', chr '2'] [chr '_', chr '1', chr '2'] = .exact := by
  decide +kernel

end CallWeaver.Dialplan
