import CallWeaver.Core.Strings

/-! # Lists of tones

`cw_playtones_start` of `indications.c` tries the forms of a tone one after the other. A form that
does not match leaves the variables assigned that it has read.
-/

namespace CallWeaver.Tones

open Function List

def midiTohz : List ℤ :=
  [8, 8, 9, 9, 10, 10, 11, 12, 12, 13, 14, 15, 16, 17, 18, 19, 20, 21, 23, 24, 25, 27, 29, 30, 32,
    34, 36, 38, 41, 43, 46, 48, 51, 55, 58, 61, 65, 69, 73, 77, 82, 87, 92, 97, 103, 110, 116, 123,
    130, 138, 146, 155, 164, 174,
    184, 195, 207, 220, 233, 246, 261, 277, 293, 311, 329, 349, 369, 391, 415, 440, 466, 493, 523,
    554, 587, 622,
    659, 698, 739, 783, 830, 880, 932, 987, 1046, 1108, 1174, 1244, 1318, 1396, 1479, 1567, 1661,
    1760, 1864, 1975,
    2093, 2217, 2349, 2489, 2637, 2793, 2959, 3135, 3322, 3520, 3729, 3951, 4186, 4434, 4698, 4978,
    5274, 5587, 5919,
    6271, 6644, 7040, 7458, 7902, 8372, 8869, 9397, 9956, 10548, 11175, 11839, 12543]

/-- The variables of the loop in `cw_playtones_start`. -/
inductive Var where
  | freq1 | freq2 | time | modulate | moddepth | midinote
  deriving DecidableEq, Repr

inductive Directive where
  | num (x : Var)
  | lit (c : UInt8)
  deriving DecidableEq, Repr

/-- The variables after `sscanf`, and how many were assigned. -/
def sscanf : List Directive → CStr → (Var → ℤ) → (Var → ℤ) × ℕ
  | [], _, v => (v, 0)
  | .num x :: format, s, v => match scanInt s with
    | none => (v, 0)
    | some (n, s) =>
      let (v, k) := sscanf format s (update v x n)
      (v, k + 1)
  | .lit _ :: _, [], v => (v, 0)
  | .lit c :: format, d :: s, v => if d = c then sscanf format s v else (v, 0)

/-- A format, how many variables it has, and what is assigned if all were read. -/
structure Pattern where
  format : List Directive
  count : ℕ
  assigns : List (Var × ℤ)
  deriving DecidableEq, Repr

def patterns : List Pattern :=
  let f1 := Directive.num .freq1
  let f2 := Directive.num .freq2
  let t := Directive.num .time
  let md := Directive.num .moddepth
  let plus := Directive.lit (chr '+')
  let star := Directive.lit (chr '*')
  let slash := Directive.lit (chr '/')
  let at' := Directive.lit (chr '@')
  let M := Directive.lit (chr 'M')
  [⟨[f1, plus, f2, slash, t], 3, []⟩,
    ⟨[f1, plus, f2], 2, [(.time, 0)]⟩,
    ⟨[f1, star, f2, slash, t], 3, [(.modulate, 1)]⟩,
    ⟨[f1, star, f2, at', md, slash, t], 4, [(.modulate, 1)]⟩,
    ⟨[f1, star, f2], 2, [(.time, 0), (.modulate, 1)]⟩,
    ⟨[f1, star, f2, at', md], 3, [(.time, 0), (.modulate, 1)]⟩,
    ⟨[f1, slash, t], 2, [(.freq2, 0)]⟩,
    ⟨[f1], 1, [(.freq2, 0), (.time, 0)]⟩,
    ⟨[M, f1, plus, M, f2, slash, t], 3, [(.midinote, 1)]⟩,
    ⟨[M, f1, plus, M, f2], 2, [(.time, 0), (.midinote, 1)]⟩,
    ⟨[M, f1, star, M, f2, slash, t], 3, [(.modulate, 1), (.midinote, 1)]⟩,
    ⟨[M, f1, star, M, f2], 2, [(.time, 0), (.modulate, 1), (.midinote, 1)]⟩,
    ⟨[M, f1, slash, t], 2, [(.freq2, -1), (.midinote, 1)]⟩,
    ⟨[M, f1], 1, [(.freq2, -1), (.time, 0), (.midinote, 1)]⟩]

/-- The attempts of `cw_playtones_start`. -/
def recognise (s : CStr) : List Pattern → (Var → ℤ) → Option (Var → ℤ)
  | [], _ => none
  | p :: ps, v =>
    let (v, k) := sscanf p.format s v
    if k = p.count then some (p.assigns.foldl (fun v a => update v a.1 a.2) v) else recognise s ps v

structure PlaytonesItem where
  freq1 : ℤ
  freq2 : ℤ
  duration : ℤ
  modulate : ℤ
  modulationDepth : ℤ
  deriving DecidableEq, Repr

def midiFreq (freq : ℤ) : ℤ := if 0 ≤ freq ∧ freq ≤ 127 then midiTohz.getD freq.toNat 0 else 0

/-- The item of a tone in `cw_playtones_start`. -/
def itemOf (v : Var → ℤ) : PlaytonesItem :=
  let freq (f : ℤ) := if v .midinote ≠ 0 then midiFreq f else f
  ⟨freq (v .freq1), freq (v .freq2), v .time, v .modulate, v .moddepth⟩

structure PlaytonesDef where
  vol : ℤ
  reppos : ℤ
  interruptible : ℤ
  items : List PlaytonesItem
  deriving DecidableEq, Repr

/-- The variables as declared, with what happens to be in those without an initial value. -/
def declared (junk : Var → ℤ) : Var → ℤ
  | .modulate => 0
  | .moddepth => 90
  | .midinote => 0
  | x => junk x

/-- The loop over the fields, with whether the list of items can be made longer. -/
def addItems (realloc : ℕ → Bool) (junk : ℕ → Var → ℤ) :
    List CStr → PlaytonesDef → Option PlaytonesDef
  | [], d => some d
  | [] :: _, d => some d
  | (c :: s) :: fields, d =>
    let (s, d) := if c = chr '!' then (s, d)
      else (c :: s, if d.reppos = -1 then { d with reppos := d.items.length } else d)
    match recognise s patterns (declared (junk d.items.length)) with
    | none => none
    | some v =>
      if realloc (d.items.length + 1) then
        addItems realloc junk fields { d with items := d.items ++ [itemOf v] }
      else none

/-- Up to the generator that the definition is passed to. -/
def cwPlaytonesStart (realloc : ℕ → Bool) (junk : ℕ → Var → ℤ) (vol : ℤ) (playlst : CStr)
    (interruptible : ℤ) : Option PlaytonesDef :=
  let separator := if chr '|' ∈ playlst then chr '|' else chr ','
  addItems realloc junk (playlst.splitOn separator) ⟨if vol ≥ 0 then -13 else vol, -1,
    interruptible, []⟩

/-- The decimal text of an `int`. -/
structure Numeral where
  neg : Bool
  digits : CStr
  isNumber : IsNumber digits
  fits : -2147483648 ≤ signed neg digits ∧ signed neg digits < 2147483648

def Numeral.value (n : Numeral) : ℤ := signed n.neg n.digits

def Numeral.text (n : Numeral) : CStr := (if n.neg then [chr '-'] else []) ++ n.digits

/-- The second frequency of a tone: none, one added, or one that modulates, maybe with a depth. -/
inductive Second where
  | none
  | added (f2 : Numeral)
  | modulating (f2 : Numeral) (depth : Option Numeral)

structure Tone where
  bang : Bool
  f1 : Numeral
  second : Second
  time : Option Numeral

def Second.text : Second → CStr
  | .none => []
  | .added f2 => chr '+' :: f2.text
  | .modulating f2 depth => chr '*' :: f2.text ++ depth.elim [] (chr '@' :: ·.text)

def Tone.body (e : Tone) : CStr := e.f1.text ++ e.second.text ++ e.time.elim [] (chr '/' :: ·.text)

def Tone.text (e : Tone) : CStr := if e.bang then chr '!' :: e.body else e.body

def Tone.item (e : Tone) : PlaytonesItem :=
  let time := e.time.elim 0 (·.value)
  match e.second with
  | .none => ⟨e.f1.value, 0, time, 0, 90⟩
  | .added f2 => ⟨e.f1.value, f2.value, time, 0, 90⟩
  | .modulating f2 depth => ⟨e.f1.value, f2.value, time, 1, depth.elim 90 (·.value)⟩

section Item

variable {c : UInt8} {s : CStr}

theorem Numeral.scanInt_text (n : Numeral) : scanInt n.text = some (n.value, []) := by
  simpa [text, value] using scanInt_signed n.neg [] n.isNumber (by simp) n.fits

theorem Numeral.scanInt_cons (n : Numeral) (hc : isdigit c = false) :
    scanInt (n.text ++ c :: s) = some (n.value, c :: s) := by
  rw [text, append_assoc, scanInt_signed n.neg _ n.isNumber (by simpa using hc) n.fits]
  rfl

theorem recognise_body (e : Tone) (junk : Var → ℤ) :
    ∃ v, recognise e.body patterns (declared junk) = some v ∧ itemOf v = e.item := by
  -- each of the eight forms fails at the patterns in front of its own, or finds its variables
  -- assigned by one of them
  rcases e with ⟨bang, f1, _ | f2 | ⟨f2, _ | depth⟩, _ | time⟩ <;>
    simp +decide [recognise, patterns, sscanf, declared, itemOf, Tone.body, Second.text, Tone.item,
      Numeral.scanInt_text, Numeral.scanInt_cons]

theorem Numeral.mem_text {n : Numeral} (h : c ∈ n.text) : isdigit c = true ∨ c = chr '-' := by
  rw [text, mem_append] at h
  rcases h with h | h
  · split at h
    · exact .inr (mem_singleton.mp h)
    · cases h
  · exact .inl (n.isNumber.2 c h)

theorem Tone.not_mem_text (e : Tone) (hc : isdigit c = false)
    (hsign : c ∉ [chr '-', chr '!', chr '+', chr '*', chr '@', chr '/']) : c ∉ e.text := by
  have hn : ∀ n : Numeral, c ∉ n.text := by
    intro n h
    rcases Numeral.mem_text h with h | rfl
    · rw [hc] at h
      cases h
    · exact hsign mem_cons_self
  rcases e with ⟨_ | _, f1, _ | f2 | ⟨f2, _ | depth⟩, _ | time⟩ <;>
    simp_all [text, body, Second.text]

theorem Tone.body_eq_cons (e : Tone) : ∃ c s, e.body = c :: s ∧ c ≠ chr '!' := by
  have hne : e.f1.text ≠ [] := by simp [Numeral.text, e.f1.isNumber.1]
  obtain ⟨c, s, hcs⟩ := exists_cons_of_ne_nil hne
  refine ⟨c, s ++ (e.second.text ++ e.time.elim [] (chr '/' :: ·.text)), by simp [body, hcs], ?_⟩
  rintro rfl
  rcases Numeral.mem_text (n := e.f1) (hcs ▸ mem_cons_self) with h | h <;> revert h <;> decide

end Item

section Loop

variable {realloc : ℕ → Bool} (junk : ℕ → Var → ℤ) {c x separator : UInt8} {ls : List CStr}

theorem addItems_cons (hmem : ∀ n, realloc n = true) (e : Tone) (fields : List CStr)
    (d : PlaytonesDef) :
    addItems realloc junk (e.text :: fields) d = addItems realloc junk fields { d with
      reppos := if e.bang = false ∧ d.reppos = -1 then d.items.length else d.reppos
      items := d.items ++ [e.item] } := by
  obtain ⟨v, hv, hitem⟩ := recognise_body e (junk d.items.length)
  obtain ⟨c, s, hbody, hc⟩ := e.body_eq_cons
  cases hb : e.bang with
  | true => simp [Tone.text, hb, addItems, hv, hitem, hmem]
  | false =>
    rw [hbody] at hv
    by_cases hpos : d.reppos = -1 <;>
      simp [Tone.text, hb, hbody, addItems, hc, hpos, hv, hitem, hmem]

theorem addItems_texts (hmem : ∀ n, realloc n = true) (es : List Tone) (d : PlaytonesDef) :
    addItems realloc junk (es.map (·.text)) d = some { d with
      reppos :=
  if d.reppos = -1 then (es.findIdx? (!·.bang)).elim (-1) fun i => d.items.length + i else d.reppos
      items := d.items ++ es.map (·.item) } := by
  induction es generalizing d with
  | nil =>
    simp only [map_nil, addItems, findIdx?_nil, Option.elim_none, append_nil]
    by_cases hpos : d.reppos = -1
    · rw [if_pos hpos, ← hpos]
    · rw [if_neg hpos]
  | cons e es ih =>
    rw [map_cons, addItems_cons junk hmem, ih, findIdx?_cons]
    cases hb : e.bang with
    | true =>
      cases es.findIdx? (!·.bang) <;> simp
      split <;> omega
    | false =>
      have hlen : (d.items.length : ℤ) ≠ -1 := by omega
      by_cases hpos : d.reppos = -1 <;> simp [hpos, hlen]

theorem not_mem_intercalate (hne : c ≠ x) (h : ∀ l ∈ ls, c ∉ l) : c ∉ [x].intercalate ls := by
  induction ls with
  | nil => simp [List.intercalate]
  | cons l ls ih =>
    cases ls with
    | nil => simpa using h
    | cons l' ls =>
      rw [intercalate_cons_cons]
      simp_all

theorem splitOn_separated (hsep : separator = chr ',' ∨ separator = chr '|') (hne : ls ≠ [])
    (h : ∀ l ∈ ls, chr ',' ∉ l ∧ chr '|' ∉ l) {playlst : CStr}
    (hplay : playlst = [separator].intercalate ls) :
    playlst.splitOn (if chr '|' ∈ playlst then chr '|' else chr ',') = ls := by
  subst hplay
  have hcomma := splitOn_intercalate (chr ',') (fun l hl => (h l hl).1) hne
  rcases hsep with rfl | rfl
  · rw [if_neg (not_mem_intercalate (by decide) fun l hl => (h l hl).2), hcomma]
  · rcases ls with _ | ⟨l, _ | ⟨l', ls⟩⟩
    · exact absurd rfl hne
    · rw [intercalate_singleton] at hcomma ⊢
      rw [if_neg (h l mem_cons_self).2, hcomma]
    · rw [if_pos (by simp [intercalate_cons_cons])]
      exact splitOn_intercalate _ (fun l hl => (h l hl).2) hne

/-- Every list of tones is stored item by item, and repeated from the first one without a mark. -/
theorem playtones_start_stores (realloc : ℕ → Bool) (junk : ℕ → Var → ℤ) (vol interruptible : ℤ)
    (separator : UInt8) (es : List Tone) (hmem : ∀ n, realloc n = true)
    (hsep : separator = chr ',' ∨ separator = chr '|') (hne : es ≠ []) :
    ∃ d, cwPlaytonesStart realloc junk vol ([separator].intercalate (es.map (·.text)))
      interruptible = some d ∧
      d.items = es.map (·.item) ∧ d.reppos = (es.findIdx? (!·.bang)).elim (-1) fun i =>
      (i : ℤ) := by
  have hfields : ∀ l ∈ es.map (·.text), chr ',' ∉ l ∧ chr '|' ∉ l := by
    simpa using fun e _ => ⟨e.not_mem_text rfl (by decide), e.not_mem_text rfl (by decide)⟩
  rw [cwPlaytonesStart, splitOn_separated hsep (by simpa using hne) hfields rfl,
    addItems_texts junk hmem]
  exact ⟨_, rfl, by simp, by simp⟩

def warble : Tone where
  bang := true
  f1 := ⟨false, [chr '4', chr '0'], by decide, by decide⟩
  second := .modulating ⟨true, [chr '5'], by decide, by decide⟩
    (some ⟨false, [chr '7'], by decide, by decide⟩)
  time := none

def dialtone : Tone where
  bang := false
  f1 := ⟨false, [chr '3'], by decide, by decide⟩
  second := .added ⟨false, [chr '4'], by decide, by decide⟩
  time := some ⟨false, [chr '9'], by decide, by decide⟩

/-- The second of three tones is the first one without a mark. -/
theorem playtones_start_stores_three :
    ∃ d, cwPlaytonesStart (fun _ => true) (fun _ _ => 0) 0
        ("!40*-5@7,3+4/9,!40*-5@7".toList.map chr) 1 = some d ∧
      d.items = [⟨40, -5, 0, 1, 7⟩, ⟨3, 4, 9, 0, 90⟩, ⟨40, -5, 0, 1, 7⟩] ∧ d.reppos = 1 :=
  playtones_start_stores (fun _ => true) (fun _ _ => 0) 0 1 (chr ',') [warble, dialtone, warble]
    (fun _ => rfl) (.inl rfl) (by decide)

end Loop

end CallWeaver.Tones
