import CallWeaver.Core.Strings

/-! # Extension patterns

The matcher of the dialplan walks through a destination and a pattern side by side. Its verdict on
the digits so far decides whether more are awaited, so it has to predict the verdicts on all longer
destinations.
-/

namespace CallWeaver.Dialplan

open List

inductive ExtensionMatch where
  | failure
  | incomplete
  | overlength
  | exact
  | stretchable
  | possible
  deriving DecidableEq, Repr

/-- The verdicts with which an extension is taken. -/
def ExtensionMatch.accepted : ExtensionMatch → Bool
  | .exact | .stretchable | .possible => true
  | _ => false

/-- The loop over a class between brackets: a dash between two characters makes a range. -/
def inClass (d : UInt8) : CStr → Bool
  | a :: b :: e :: cls =>
    if b = chr '-' then (charLe a d && charLe d e) || inClass d cls
    else d = a || inClass d (b :: e :: cls)
  | a :: cls => d = a || inClass d cls
  | [] => false

/-- What a pattern character does: return a verdict, test the current digit and go on with the rest
of the pattern, or skip the character. -/
inductive PatternStep where
  | stop (verdict : ExtensionMatch)
  | test (ok : UInt8 → Bool) (rest : CStr)
  | skip (rest : CStr)

/-- The switch on a character in `cw_extension_pattern_match`. -/
def patternStep (c : UInt8) (p : CStr) : PatternStep :=
  if toupper c = chr '[' then
    if chr ']' ∈ p then
      .test (fun d => inClass d (p.takeWhile (· ≠ chr ']'))) (p.dropWhile (· ≠ chr ']')).tail
    else .stop .failure
  else if toupper c = chr 'X' then .test (fun d => charLe (chr '0') d && charLe d (chr '9')) p
  else if toupper c = chr 'Z' then .test (fun d => charLe (chr '1') d && charLe d (chr '9')) p
  else if toupper c = chr 'N' then .test (fun d => charLe (chr '2') d && charLe d (chr '9')) p
  else if toupper c = chr '.' ∨ toupper c = chr '~' then .stop .stretchable
  else if toupper c = chr '!' then .stop .possible
  else if toupper c = chr ' ' ∨ toupper c = chr '-' then .skip p
  else .test (fun d => d = c) p

def PatternStep.le (n : ℕ) : PatternStep → Prop
  | .stop _ => True
  | .test _ rest => rest.length ≤ n
  | .skip rest => rest.length ≤ n

theorem patternStep_le (c : UInt8) (p : CStr) : (patternStep c p).le p.length := by
  have hcls : (p.dropWhile (· ≠ chr ']')).tail.length ≤ p.length := by
    rw [length_tail]
    exact Nat.le_trans (Nat.sub_le _ _) (dropWhile_sublist _).length_le
  unfold patternStep
  split_ifs <;> first | trivial | exact Nat.le_refl _

/-- The verdict of `cw_extension_pattern_match` behind its loop. -/
def atEnd (d p : CStr) : ExtensionMatch :=
  match d, p with
  | [], [] => .exact
  | [], c :: _ =>
    if c = chr '!' then .possible else if c = chr '/' then .exact else .incomplete
  | _ :: _, [] => .overlength
  | _ :: _, c :: _ => if c = chr '/' then .overlength else .failure

/-- The loop of `cw_extension_pattern_match`. -/
def matchLoop (d p : CStr) : ExtensionMatch :=
  match p with
  | [] => atEnd d []
  | c :: p =>
    if d = [] ∨ c = chr '/' then atEnd d (c :: p)
    else
      match d.dropWhile (· = chr '-') with
      | [] => atEnd [] (c :: p)
      | x :: d =>
        match _h : patternStep c p with
        | .stop verdict => verdict
        | .test ok rest => if ok x then matchLoop d rest else .failure
        | .skip rest => matchLoop (x :: d) rest
termination_by p.length
decreasing_by
  all_goals
    have hle := patternStep_le c p
    rw [_h] at hle
    exact Nat.lt_succ_of_le hle

def cwExtensionPatternMatch (destination pattern : CStr) : ExtensionMatch :=
  if destination = [] then
    if pattern = [] then .exact else .incomplete
  else if pattern.head? ≠ some (chr '_') then
    if pattern.length > destination.length then
      if pattern.take destination.length ≠ destination then .failure else .incomplete
    else if destination.take pattern.length ≠ pattern then .failure
    else if pattern.length = destination.length then .exact
    else .overlength
  else
    let d := destination.dropWhile (· = chr '-')
    if d = [] then .incomplete else matchLoop d pattern.tail

/-- The inside of a pattern behind the underscore: separators stand only in brackets, and every
class is closed and admits a character other than a dash. -/
inductive WellFormed : CStr → Prop where
  | nil : WellFormed []
  | char {c : UInt8} {p : CStr} : c ≠ 0 →
      c ≠ chr '[' → c ≠ chr '-' → c ≠ chr ' ' → WellFormed p → WellFormed (c :: p)
  | cls {l p : CStr} : chr ']' ∉ l → (∃ x, x ≠ 0 ∧ x ≠ chr '-' ∧ inClass x l = true) →
      WellFormed p → WellFormed (chr '[' :: (l ++ chr ']' :: p))

def Plain (w : CStr) : Prop := chr '-' ∉ w ∧ 0 ∉ w
  deriving Decidable

section Loop

variable {c x : UInt8} {d p rest w d' : CStr}

theorem dropWhile_dash_cons (hx : x ≠ chr '-') (d : CStr) :
    (x :: d).dropWhile (· = chr '-') = x :: d := by
  rw [dropWhile_cons_of_neg]
  simpa using hx

theorem matchLoop_nil_left (p : CStr) : matchLoop [] p = atEnd [] p := by
  cases p <;> simp [matchLoop]

theorem matchLoop_nil_right (d : CStr) : matchLoop d [] = atEnd d [] := by
  simp [matchLoop]

theorem matchLoop_slash (d p : CStr) : matchLoop d (chr '/' :: p) = atEnd d (chr '/' :: p) := by
  simp [matchLoop]

theorem matchLoop_cons (hx : x ≠ chr '-') (hc : c ≠ chr '/') :
    matchLoop (x :: d) (c :: p) =
      match patternStep c p with
      | .stop verdict => verdict
      | .test ok rest => if ok x then matchLoop d rest else .failure
      | .skip rest => matchLoop (x :: d) rest := by
  rw [matchLoop, if_neg (by simp [hc]), dropWhile_dash_cons hx]
  split <;> split <;> simp_all

theorem dropWhile_dash (hd : chr '-' ∉ d) : d.dropWhile (· = chr '-') = d := by
  cases d with
  | nil => rfl
  | cons x d => exact dropWhile_dash_cons (by rintro rfl; simp at hd) d

theorem cons_of_dropWhile_dash (hd : chr '-' ∉ d) (h : d.dropWhile (· = chr '-') = x :: d') :
    d = x :: d' ∧ x ≠ chr '-' ∧ chr '-' ∉ d' := by
  rw [dropWhile_dash hd] at h
  subst h
  exact ⟨rfl, by rintro rfl; simp at hd, fun hm => hd (mem_cons_of_mem _ hm)⟩

theorem matchLoop_bang (d p : CStr) : matchLoop d (chr '!' :: p) = .possible := by
  have hs : patternStep (chr '!') p = .stop .possible := by
    unfold patternStep; simp +decide
  rw [matchLoop]
  split
  · rename_i h
    rcases h with rfl | h
    · rfl
    · exact absurd h (by decide)
  · split
    · rfl
    · split <;> simp_all

theorem matchLoop_append (hd : chr '-' ∉ d) (h₁ : matchLoop d p ≠ .exact)
    (h₂ : matchLoop d p ≠ .incomplete) (w : CStr) : matchLoop (d ++ w) p = matchLoop d p := by
  fun_induction matchLoop d p with
  | case1 d =>
    cases d with
    | nil => simp [atEnd] at h₁
    | cons x d => rw [matchLoop_nil_right]; rfl
  | case2 d c p h =>
    rcases h with rfl | rfl
    · by_cases hc : c = chr '!'
      · subst hc; rw [matchLoop_bang]; rfl
      · simp only [atEnd, hc, if_false] at h₁ h₂
        split_ifs at h₁ h₂ <;> contradiction
    · cases d with
      | nil => exact absurd rfl h₁
      | cons x d => rw [cons_append, matchLoop_slash]; rfl
  | case3 d c p h hdrop =>
    rw [dropWhile_dash hd] at hdrop
    exact absurd (.inl hdrop) h
  | case4 d c p h x d' hdrop verdict hs =>
    obtain ⟨rfl, hx, -⟩ := cons_of_dropWhile_dash hd hdrop
    rw [cons_append, matchLoop_cons hx (not_or.mp h).2, hs]
  | case5 d c p h x d' hdrop ok rest hs hok ih =>
    obtain ⟨rfl, hx, hd'⟩ := cons_of_dropWhile_dash hd hdrop
    rw [cons_append, matchLoop_cons hx (not_or.mp h).2, hs]
    simp only [hok, if_true]
    exact ih hd' h₁ h₂
  | case6 d c p h x d' hdrop ok rest hs hok =>
    obtain ⟨rfl, hx, -⟩ := cons_of_dropWhile_dash hd hdrop
    rw [cons_append, matchLoop_cons hx (not_or.mp h).2, hs]
    simp only [hok, Bool.false_eq_true, if_false]
  | case7 d c p h x d' hdrop rest hs ih =>
    obtain ⟨rfl, hx, -⟩ := cons_of_dropWhile_dash hd hdrop
    rw [cons_append, matchLoop_cons hx (not_or.mp h).2, hs]
    exact ih hd h₁ h₂

end Loop

section Completion

variable {c x : UInt8} {d p cls p' w : CStr}

theorem eq_of_toupper_eq (c : UInt8) :
    (toupper c = chr '[' → c = chr '[') ∧ (toupper c = chr ' ' → c = chr ' ') ∧
      (toupper c = chr '-' → c = chr '-') := by
  obtain ⟨⟨c⟩⟩ := c
  revert c
  decide +kernel

theorem patternStep_char (h₀ : c ≠ 0) (h₁ : c ≠ chr '[') (h₂ : c ≠ chr '-') (h₃ : c ≠ chr ' ')
    (p : CStr) :
    (∃ v, patternStep c p = .stop v ∧ v.accepted = true) ∨
      ∃ ok x, patternStep c p = .test ok p ∧ ok x = true ∧ x ≠ 0 ∧ x ≠ chr '-' := by
  obtain ⟨hb, hs, hm⟩ := eq_of_toupper_eq c
  unfold patternStep
  rw [if_neg fun h => h₁ (hb h)]
  split_ifs with hX hZ hN hw hp hsep
  · exact .inr ⟨_, chr '2', rfl, by decide⟩
  · exact .inr ⟨_, chr '2', rfl, by decide⟩
  · exact .inr ⟨_, chr '2', rfl, by decide⟩
  · exact .inl ⟨_, rfl, rfl⟩
  · exact .inl ⟨_, rfl, rfl⟩
  · exact (hsep.elim (fun h => h₃ (hs h)) (fun h => h₂ (hm h))).elim
  · exact .inr ⟨_, c, rfl, by simpa using ⟨h₀, h₂⟩⟩

theorem patternStep_cls (h : chr ']' ∉ cls) (p : CStr) :
    patternStep (chr '[') (cls ++ chr ']' :: p) = .test (fun d => inClass d cls) p := by
  have hall : ∀ a ∈ cls, decide (a ≠ chr ']') = true := by
    intro a ha
    simp only [ne_eq, decide_not, Bool.not_eq_true', decide_eq_false_iff_not]
    rintro rfl
    exact h ha
  have ht : (cls ++ chr ']' :: p).takeWhile (· ≠ chr ']') = cls := by
    rw [takeWhile_append_of_pos hall]
    simp
  have hr : (cls ++ chr ']' :: p).dropWhile (· ≠ chr ']') = chr ']' :: p := by
    rw [dropWhile_append_of_pos hall]
    simp
  rw [patternStep, if_pos (by decide), if_pos (by simp), ht, hr]
  rfl

theorem WellFormed.rest (hp : WellFormed (c :: p)) {ok : UInt8 → Bool}
    (h : patternStep c p = .test ok p') : WellFormed p' := by
  cases hp with
  | char h₀ h₁ h₂ h₃ hp =>
    rcases patternStep_char h₀ h₁ h₂ h₃ p with ⟨v, hv, _⟩ | ⟨ok', x, hok, _⟩
    · rw [hv] at h; cases h
    · rw [hok] at h; cases h; exact hp
  | cls hc hx hp => rw [patternStep_cls hc] at h; cases h; exact hp

theorem WellFormed.not_skip (hp : WellFormed (c :: p)) (p' : CStr) :
    patternStep c p ≠ .skip p' := by
  intro h
  cases hp with
  | char h₀ h₁ h₂ h₃ hp =>
    rcases patternStep_char h₀ h₁ h₂ h₃ p with ⟨v, hv, _⟩ | ⟨ok', x, hok, _⟩
    · rw [hv] at h; cases h
    · rw [hok] at h; cases h
  | cls hc hx hp => rw [patternStep_cls hc] at h; cases h

theorem Plain.cons (h₀ : x ≠ 0) (hx : x ≠ chr '-') (hw : Plain w) : Plain (x :: w) := by
  unfold Plain at *
  simp only [mem_cons, not_or]
  exact ⟨⟨hx.symm, hw.1⟩, h₀.symm, hw.2⟩

/-- A well-formed pattern accepts some digits, and nonempty ones if it waits for a digit. -/
theorem WellFormed.exists_accepted (hp : WellFormed p) :
    ∃ w, Plain w ∧ (matchLoop w p).accepted = true ∧ (matchLoop [] p = .incomplete → w ≠ []) := by
  -- one digit that the first element admits, in front of digits for the rest
  have hone : ∀ {c x : UInt8} {p rest w : CStr} {ok : UInt8 → Bool}, c ≠ chr '/' → x ≠ 0 →
      x ≠ chr '-' → patternStep c p = .test ok rest → ok x = true → Plain w →
      (matchLoop w rest).accepted = true →
      ∃ w, Plain w ∧ (matchLoop w (c :: p)).accepted = true ∧
      (matchLoop [] (c :: p) = .incomplete → w ≠ []) := by
    intro c x p rest w ok hc h₀ hx hs hok hw hacc
    refine ⟨x :: w, hw.cons h₀ hx, ?_, by simp⟩
    rw [matchLoop_cons hx hc, hs]
    simpa only [hok, if_true] using hacc
  induction hp with
  | nil => exact ⟨[], by simp [Plain], by simp [matchLoop_nil_left, atEnd, ExtensionMatch.accepted]⟩
  | @char c p h₀ h₁ h₂ h₃ _ ih =>
    by_cases hc : c = chr '/'
    · subst hc
      have he : matchLoop [] (chr '/' :: p) = .exact := by rw [matchLoop_slash]; rfl
      exact ⟨[], by simp [Plain], by rw [he]; rfl, by simp [he]⟩
    rcases patternStep_char h₀ h₁ h₂ h₃ p with ⟨v, hv, hacc⟩ | ⟨ok, x, hs, hok, hx₀, hx⟩
    · refine ⟨[chr '0'], by decide, ?_, by simp⟩
      rw [matchLoop_cons (by decide) hc, hv]
      exact hacc
    · obtain ⟨w, hw, hacc, _⟩ := ih
      exact hone hc hx₀ hx hs hok hw hacc
  | cls hcls hx _ ih =>
    obtain ⟨x, hx₀, hx, hok⟩ := hx
    obtain ⟨w, hw, hacc, _⟩ := ih
    exact hone (by decide) hx₀ hx (patternStep_cls hcls _) hok hw hacc

theorem matchLoop_incomplete (hp : WellFormed p) (hd : chr '-' ∉ d)
    (h : matchLoop d p = .incomplete) :
    ∃ w, w ≠ [] ∧ Plain w ∧ (matchLoop (d ++ w) p).accepted = true := by
  fun_induction matchLoop d p with
  | case1 d => cases d <;> cases h
  | case2 d c p hend =>
    rcases hend with rfl | rfl
    · obtain ⟨w, hw, hacc, hne⟩ := hp.exists_accepted
      exact ⟨w, hne (by rw [matchLoop_nil_left]; exact h), hw, hacc⟩
    · cases d <;> cases h
  | case3 d c p hend hdrop =>
    rw [dropWhile_dash hd] at hdrop
    exact absurd (.inl hdrop) hend
  | case4 d c p hend x d' hdrop verdict hs =>
    subst h
    cases hp with
    | char h₀ h₁ h₂ h₃ _ =>
      rcases patternStep_char h₀ h₁ h₂ h₃ p with ⟨v, hv, hacc⟩ | ⟨ok, y, hok, _⟩
      · rw [hs] at hv; cases hv; cases hacc
      · rw [hs] at hok; cases hok
    | cls hcls _ _ => rw [patternStep_cls hcls] at hs; cases hs
  | case5 d c p hend x d' hdrop ok rest hs hok ih =>
    obtain ⟨rfl, hx, hd'⟩ := cons_of_dropWhile_dash hd hdrop
    obtain ⟨w, hne, hw, hacc⟩ := ih (hp.rest hs) hd' h
    refine ⟨w, hne, hw, ?_⟩
    rw [cons_append, matchLoop_cons hx (not_or.mp hend).2, hs]
    simpa only [hok, if_true] using hacc
  | case6 => cases h
  | case7 d c p hend x d' hdrop rest hs ih => exact absurd hs (hp.not_skip rest)

end Completion

theorem cwExtensionPatternMatch_underscore {d : CStr} (hne : d ≠ []) (hd : chr '-' ∉ d) (p : CStr) :
    cwExtensionPatternMatch d (chr '_' :: p) = matchLoop d p := by
  simp [cwExtensionPatternMatch, hne, dropWhile_dash hd]

theorem cwExtensionPatternMatch_append {d : CStr} (hne : d ≠ []) (hd : chr '-' ∉ d) (w p : CStr) :
    cwExtensionPatternMatch (d ++ w) (chr '_' :: p) = matchLoop (d ++ w) p := by
  obtain ⟨x, d, rfl⟩ := exists_cons_of_ne_nil hne
  have hx : x ≠ chr '-' := by rintro rfl; simp at hd
  simp [cwExtensionPatternMatch, dropWhile_dash_cons hx]

/-- The verdict on the digits so far predicts the verdicts on all longer ones: INCOMPLETE when they
are not accepted and can be completed, FAILURE and OVERLENGTH only when they cannot, STRETCHABLE and
POSSIBLE only when everything longer is accepted too. -/
theorem verdict_predicts {p d : CStr} (hp : WellFormed p) (hne : d ≠ []) (hd : chr '-' ∉ d) :
    (cwExtensionPatternMatch d (chr '_' :: p) = .incomplete ↔
      (cwExtensionPatternMatch d (chr '_' :: p)).accepted = false ∧
      ∃ w, w ≠ [] ∧ chr '-' ∉ w ∧ 0 ∉ w ∧
      (cwExtensionPatternMatch (d ++ w) (chr '_' :: p)).accepted = true) ∧
    (cwExtensionPatternMatch d (chr '_' :: p) = .failure ∨
      cwExtensionPatternMatch d (chr '_' :: p) = .overlength →
      ∀ w, (cwExtensionPatternMatch (d ++ w) (chr '_' :: p)).accepted = false) ∧
    (cwExtensionPatternMatch d (chr '_' :: p) = .stretchable ∨
      cwExtensionPatternMatch d (chr '_' :: p) = .possible →
      ∀ w, (cwExtensionPatternMatch (d ++ w) (chr '_' :: p)).accepted = true) := by
  simp only [cwExtensionPatternMatch_underscore hne hd, cwExtensionPatternMatch_append hne hd]
  have hstay := matchLoop_append (p := p) hd
  refine ⟨?_, ?_, ?_⟩
  · constructor
    · intro h
      obtain ⟨w, hw, ⟨hdash, hnul⟩, hacc⟩ := matchLoop_incomplete hp hd h
      exact ⟨by rw [h]; rfl, w, hw, hdash, hnul, hacc⟩
    · rintro ⟨hna, w, _, _, _, hacc⟩
      by_contra hni
      have he := hstay (by intro he; rw [he] at hna; cases hna) hni w
      rw [he, hna] at hacc
      cases hacc
  · rintro (h | h) w <;> rw [hstay (by simp [h]) (by simp [h]) w, h] <;> rfl
  · rintro (h | h) w <;> rw [hstay (by simp [h]) (by simp [h]) w, h] <;> rfl

def classPattern : CStr :=
  [chr '_', chr '[', chr '1', chr '-', chr '3', chr ']', chr 'X', chr '.']

/-- Two digits leave a pattern with a class, a digit and a wildcard open. -/
theorem verdict_predicts_classPattern :
    cwExtensionPatternMatch [chr '2', chr '7'] classPattern = .incomplete ∧
    ∃ w, w ≠ [] ∧ chr '-' ∉ w ∧ 0 ∉ w ∧
      (cwExtensionPatternMatch ([chr '2', chr '7'] ++ w) classPattern).accepted = true := by
  have hp : WellFormed classPattern.tail :=
    .cls (l := [chr '1', chr '-', chr '3']) (by decide) ⟨chr '2', by decide⟩
      (.char (by decide) (by decide) (by decide) (by decide)
        (.char (by decide) (by decide) (by decide) (by decide) .nil))
  have hv : cwExtensionPatternMatch [chr '2', chr '7'] classPattern = .incomplete := by
    decide +kernel
  exact ⟨hv, ((verdict_predicts hp (d := [chr '2', chr '7']) (by simp) (by decide)).1.mp hv).2⟩

end CallWeaver.Dialplan
