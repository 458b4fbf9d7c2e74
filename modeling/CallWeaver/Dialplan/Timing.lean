import CallWeaver.Base.Runs
import CallWeaver.Core.Strings

/-! # Timed includes

`cw_build_timing` turns the text of a time restriction into bit masks, in which `cw_check_timing`
looks up the local time. The text has up to four fields: times of the day, days of the week, days of
the month, and months.
-/

namespace CallWeaver.Timing

open List Option Int

structure CwTiming where
  monthmask : ℕ
  daymask : ℕ
  dowmask : ℕ
  minmask : ℕ → ℕ

structure LocalTime where
  mon : ℕ
  mday : ℕ
  wday : ℕ
  hour : ℕ
  min : ℕ
  mon_lt : mon < 12
  mday_pos : 1 ≤ mday
  mday_le : mday ≤ 31
  wday_lt : wday < 7
  hour_lt : hour < 24
  min_lt : min < 60

def LocalTime.slot (tm : LocalTime) : ℕ := tm.hour * 30 + tm.min / 2

/-! ## The parsers -/

def scanTime (s : CStr) : Option (ℤ × ℤ) :=
  match scanInt s with
  | some (hour, c :: t) => if c = chr ':' then (scanInt t).map fun n => (hour, n.1) else none
  | _ => none

/-- A range of `get_timerange`, up to the dash and behind it. -/
def dashed (s : CStr) : CStr × Option CStr :=
  (s.takeWhile (· ≠ chr '-'), if chr '-' ∈ s then some (s.dropWhile (· ≠ chr '-')).tail else none)

/-- `i->minmask[x/30] |= (1 << (x % 30))` in `get_timerange`. -/
def markSlot (x : ℕ) (minmask : ℕ → ℕ) : ℕ → ℕ := fun hour =>
  if hour = x / 30 then minmask hour ||| 2 ^ (x % 30) else minmask hour

def getTimerange (times : CStr) : ℕ → ℕ :=
  if times = [] ∨ times = [chr '*'] then fun _ => 2 ^ 30 - 1
  else match dashed times with
    | (_, none) => fun _ => 0
    | (times, some e) =>
      match scanTime times, scanTime (e.dropWhile (!isdigit ·)) with
      | some (s₁, s₂), some (e₁, e₂) =>
        let s := s₁ * 30 + s₂.tdiv 2
        let e := e₁ * 30 + e₂.tdiv 2
        if s < 0 ∨ s ≥ 24 * 30 ∨ e < 0 ∨ e ≥ 24 * 30 then fun _ => 0
        else forCyclic (24 * 30) e.toNat markSlot (24 * 30) s.toNat fun _ => 0
      | _, _ => fun _ => 0

def rangeMask (n s e : ℕ) : ℕ := forCyclic n e (fun x mask => mask ||| 2 ^ x) n s 0

/-- The masks of days and months: how many bits there are, and how the ends of a range are read. The
second end is read from the texts in front of the dash and behind it. -/
def getMask (n : ℕ) (start : CStr → Option ℕ) (stop : CStr → CStr → Option ℕ) (field : CStr) : ℕ :=
  if field = [] ∨ field = [chr '*'] then 2 ^ n - 1
  else match start (dashed field).1 with
    | none => 0
    | some s => match (dashed field).2 with
      | none => rangeMask n s s
      | some c => (stop (dashed field).1 c).elim 0 (rangeMask n s)

abbrev text (s : String) : CStr := s.toList.map chr

def days : List CStr := ["sun", "mon", "tue", "wed", "thu", "fri", "sat"].map text

def months : List CStr :=
  ["jan", "feb", "mar", "apr", "may", "jun", "jul", "aug", "sep", "oct", "nov", "dec"].map text

def findName (names : List CStr) (s : CStr) : Option ℕ := names.findIdx? (strcasecmp s · = .eq)

def dayNumber (day : CStr) : Option ℕ :=
  match scanInt day with
  | some (s, _) => if s < 1 ∨ s > 31 then none else some (s.toNat - 1)
  | none => none

def getDow : CStr → ℕ := getMask 7 (findName days) fun _ c => findName days c

def getDay : CStr → ℕ := getMask 31 dayNumber fun _ c => dayNumber c

-- the last month of a range is looked for by the text of the first one
def getMonth : CStr → ℕ := getMask 12 (findName months) fun mon _ => findName months mon

/-- Fields that are left out restrict nothing. There is no result for an empty text. -/
def cwBuildTiming (info : CStr) : Option CwTiming :=
  if info = [] then none
  else
    let fields := (info.take 255).splitOn (chr ',')
    some {
      minmask := getTimerange (fields[0]?.getD [])
      dowmask := fields[1]?.elim (2 ^ 7 - 1) getDow
      daymask := fields[2]?.elim (2 ^ 31 - 1) getDay
      monthmask := fields[3]?.elim (2 ^ 12 - 1) getMonth }

def cwCheckTiming (i : CwTiming) (tm : LocalTime) : Bool :=
  i.monthmask.testBit tm.mon && i.daymask.testBit (tm.mday - 1) && i.dowmask.testBit tm.wday &&
    decide (tm.hour ≤ 23) && (i.minmask tm.hour).testBit (tm.min / 2)

/-! ## Specifications -/

inductive Span
  | all
  | one (a : ℕ)
  | range (a b : ℕ)

def Span.Has : Span → ℕ → Prop
  | .all, _ => True
  | .one a, y => y = a
  | .range a b, y => Between a b y

inductive Writes (Reads : CStr → ℕ → Prop) : CStr → Span → Prop
  | all : Writes Reads [chr '*'] .all
  | one {x a} : Reads x a → Writes Reads x (.one a)
  | range {x y a b} : Reads x a → Reads y b → Writes Reads (x ++ chr '-' :: y) (.range a b)

def ReadsTime (x : CStr) (slot : ℕ) : Prop :=
  ∃ hour minute, x = hour ++ chr ':' :: minute ∧ IsNumber hour ∧ IsNumber minute ∧
    number hour < 24 ∧ number minute < 60 ∧ slot = number hour * 30 + number minute / 2

def ReadsDay (x : CStr) (a : ℕ) : Prop := IsNumber x ∧ number x = a + 1 ∧ a < 31

def ReadsName (names : List CStr) (x : CStr) (a : ℕ) : Prop := names[a]? = some (x.map tolower)

structure Spec where
  time : Span
  dow : Span
  day : Span
  month : Span

/-- The texts of a specification with four fields that fit into the buffer. -/
inductive Spec.Written (spec : Spec) : CStr → Prop
  | mk {time dow day month} : Writes ReadsTime time spec.time →
      Writes (ReadsName days) dow spec.dow →
      Writes ReadsDay day spec.day → Writes (ReadsName months) month spec.month →
      ([chr ','].intercalate [time, dow, day, month]).length ≤ 255 →
      spec.Written ([chr ','].intercalate [time, dow, day, month])

def Spec.Covers (spec : Spec) (tm : LocalTime) : Prop :=
  spec.time.Has tm.slot ∧ spec.dow.Has tm.wday ∧ spec.day.Has (tm.mday - 1) ∧ spec.month.Has tm.mon

/-- The time of the day is not a single one, and of a range of months it is the first one. -/
def Spec.Regular (spec : Spec) (tm : LocalTime) : Prop :=
  (∀ a, spec.time ≠ .one a) ∧ ∀ a b, spec.month = .range a b → tm.mon = a

/-! ## Reading numbers and names -/

variable {x y field info : CStr} {a b n m k : ℕ} {span : Span} {spec : Spec} {tm : LocalTime}

structure Plain (x : CStr) : Prop where
  ne_nil : x ≠ []
  no_star : chr '*' ∉ x
  no_dash : chr '-' ∉ x
  no_comma : chr ',' ∉ x

theorem plain_of_isNumber (h : IsNumber x) : Plain x := by
  have hno : ∀ c, isdigit c = false → c ∉ x := fun c hc hmem => by simp [h.2 c hmem] at hc
  exact ⟨h.1, hno _ rfl, hno _ rfl, hno _ rfl⟩

theorem scanTime_of_reads (h : ReadsTime x a) :
    ∃ hour minute : ℕ, scanTime x = some ((hour : ℤ), (minute : ℤ)) ∧ a = hour * 30 + minute / 2 ∧
      a < 720 := by
  obtain ⟨hour, minute, rfl, hh, hm, hlt, hlt', rfl⟩ := h
  refine ⟨number hour, number minute, ?_, rfl, by omega⟩
  have hhour :
      scanInt (hour ++ chr ':' :: minute) = some ((number hour : ℤ), chr ':' :: minute) := by
    apply scanInt_number _ hh _ (by omega)
    rintro c ⟨⟩
    decide
  have hminute : scanInt minute = some ((number minute : ℤ), []) := by
    simpa using scanInt_number [] hm (by simp) (by omega)
  simp [scanTime, hhour, hminute]

theorem ReadsTime.plain (h : ReadsTime x a) : Plain x := by
  obtain ⟨hour, minute, rfl, hh, hm, -⟩ := h
  obtain ⟨-, h₁, h₂, h₃⟩ := plain_of_isNumber hh
  obtain ⟨-, k₁, k₂, k₃⟩ := plain_of_isNumber hm
  have hcolon : chr '*' ≠ chr ':' ∧ chr '-' ≠ chr ':' ∧ chr ',' ≠ chr ':' := by decide
  constructor <;> simp_all

theorem ReadsTime.dropWhile (h : ReadsTime x a) : x.dropWhile (!isdigit ·) = x := by
  obtain ⟨hour, minute, rfl, ⟨hne, hd⟩, -⟩ := h
  obtain ⟨c, t, rfl⟩ := exists_cons_of_ne_nil hne
  simp [hd c mem_cons_self]

theorem dayNumber_of_reads (h : ReadsDay x a) : dayNumber x = some a := by
  obtain ⟨hx, hn, ha⟩ := h
  have hscan : scanInt x = some ((number x : ℤ), []) := by
    simpa using scanInt_number [] hx (by simp) (by omega)
  rw [dayNumber, hscan, hn]
  simp
  omega

structure Named (names : List CStr) : Prop where
  nodup : names.Nodup
  lower : ∀ name ∈ names, name.map tolower = name
  letters : ∀ name ∈ names, name ≠ [] ∧ chr '*' ∉ name ∧ chr '-' ∉ name ∧ chr ',' ∉ name

theorem named_days : Named days := by
  constructor <;> decide +kernel

theorem named_months : Named months := by
  constructor <;> decide +kernel

variable {names : List CStr} {Reads : CStr → ℕ → Prop}

theorem ReadsName.plain (hn : Named names) (h : ReadsName names x a) : Plain x := by
  obtain ⟨hne, h₁, h₂, h₃⟩ := hn.letters _ (mem_of_getElem? h)
  have hno : ∀ c, tolower c = c → c ∉ x.map tolower → c ∉ x := fun c hc hmem hx =>
    hmem (hc ▸ mem_map_of_mem hx)
  exact ⟨fun hx => hne (by rw [hx, map_nil]), hno _ rfl h₁, hno _ rfl h₂, hno _ rfl h₃⟩

theorem findName_of_reads (hn : Named names) (h : ReadsName names x a) :
    findName names x = some a := by
  obtain ⟨ha, hx⟩ := List.getElem?_eq_some_iff.mp h
  have heq : ∀ i (hi : i < names.length), strcasecmp x names[i] = .eq ↔ names[i] = names[a] := by
    intro i hi
    rw [strcasecmp, compareWith_eq_iff, hn.lower _ (getElem_mem hi), ← hx, eq_comm]
  apply findIdx?_eq_some_iff_getElem.mpr
  refine ⟨ha, by simp [heq], fun i hi => ?_⟩
  simp only [decide_eq_true_eq, heq]
  exact pairwise_iff_getElem.mp hn.nodup i a _ ha hi

/-! ## The masks -/

theorem testBit_or_two_pow :
    (m ||| 2 ^ k).testBit n = true ↔ n = k ∨ m.testBit n = true := by grind

theorem fuel_le (ha : a < n) (hb : b < n) : (if a ≤ b then b - a else b + n - a) ≤ n := by
  split_ifs <;> omega

theorem testBit_rangeMask (ha : a < n) (hb : b < n) (hk : k < n) :
    (rangeMask n a b).testBit k = true ↔ Between a b k := by
  have hmarks := forCyclic_marks (s := 0) (P := fun mask : ℕ => mask.testBit k = true) hb hk
    (fun _ _ _ => testBit_or_two_pow) ha (fuel_le ha hb)
  simpa [rangeMask] using hmarks

theorem Plain.not_all (h : Plain x) : ¬(x = [] ∨ x = [chr '*']) := by
  rintro (rfl | rfl)
  · exact h.ne_nil rfl
  · exact h.no_star mem_cons_self

theorem Plain.dashed (h : Plain x) : dashed x = (x, none) := by
  have hne : ∀ c ∈ x, c ≠ chr '-' := fun c hc he => h.no_dash (he ▸ hc)
  have htake : x.takeWhile (· ≠ chr '-') = x := by
    simpa [takeWhile_eq_self_iff] using hne
  rw [Timing.dashed, htake, if_neg h.no_dash]

theorem Plain.dashed_append (h : Plain x) : Timing.dashed (x ++ chr '-' :: y) = (x, some y) := by
  have hne : ∀ c ∈ x, decide (c ≠ chr '-') = true := fun c hc =>
    decide_eq_true fun he => h.no_dash (he ▸ hc)
  have hmem : chr '-' ∈ x ++ chr '-' :: y := by simp
  rw [Timing.dashed, if_pos hmem, takeWhile_append_of_pos hne, dropWhile_append_of_pos hne]
  simp

theorem Plain.append_not_all (h : Plain x) :
    ¬(x ++ chr '-' :: y = [] ∨ x ++ chr '-' :: y = [chr '*']) := by
  obtain ⟨c, t, rfl⟩ := exists_cons_of_ne_nil h.ne_nil
  simp

def Span.mapEnd (pick : ℕ → ℕ → ℕ) : Span → Span
  | .range a b => .range a (pick a b)
  | span => span

/-- The mask of a field, where `pick` is the number found for the second end of a range. -/
theorem testBit_getMask {start : CStr → Option ℕ} {stop : CStr → CStr → Option ℕ} (pick : ℕ → ℕ → ℕ)
    (hstart : ∀ {x a}, Reads x a → Plain x ∧ start x = some a ∧ a < n)
    (hstop : ∀ {x y a b}, Reads x a → Reads y b → stop x y = some (pick a b) ∧ pick a b < n)
    (h : Writes Reads field span) (hk : k < n) :
    (getMask n start stop field).testBit k = true ↔ (span.mapEnd pick).Has k := by
  cases h with
  | all => simpa [getMask, Span.mapEnd, Span.Has, Nat.testBit_two_pow_sub_one] using hk
  | one hx =>
    obtain ⟨hplain, hs, ha⟩ := hstart hx
    rw [getMask, if_neg hplain.not_all, hplain.dashed]
    simp only [hs, testBit_rangeMask ha ha hk, between_self, Span.mapEnd, Span.Has]
  | range hx hy =>
    obtain ⟨hplain, hs, ha⟩ := hstart hx
    obtain ⟨he, hb⟩ := hstop hx hy
    rw [getMask, if_neg hplain.append_not_all, hplain.dashed_append]
    simp only [hs, he, elim_some, testBit_rangeMask ha hb hk, Span.mapEnd, Span.Has]

theorem readsName_start (hn : Named names) (hlen : names.length = n) (h : ReadsName names x a) :
    Plain x ∧ findName names x = some a ∧ a < n :=
  ⟨h.plain hn, findName_of_reads hn h, hlen ▸ (List.getElem?_eq_some_iff.mp h).1⟩

theorem readsDay_start (h : ReadsDay x a) : Plain x ∧ dayNumber x = some a ∧ a < 31 :=
  ⟨plain_of_isNumber h.1, dayNumber_of_reads h, h.2.2⟩

theorem testBit_getDow (h : Writes (ReadsName days) field span) (hk : k < 7) :
    (getDow field).testBit k = true ↔ span.Has k := by
  rw [getDow, testBit_getMask (fun _ b => b) (n := 7) (readsName_start named_days rfl)
    (fun _ hy => (readsName_start named_days rfl hy).2) h hk]
  cases span <;> rfl

theorem testBit_getDay (h : Writes ReadsDay field span) (hk : k < 31) :
    (getDay field).testBit k = true ↔ span.Has k := by
  rw [getDay,
    testBit_getMask (fun _ b => b) readsDay_start (fun _ hy => (readsDay_start hy).2) h hk]
  cases span <;> rfl

theorem testBit_getMonth (h : Writes (ReadsName months) field span) (hk : k < 12) :
    (getMonth field).testBit k = true ↔ span.Has k ∧ ∀ a b, span = .range a b → k = a := by
  rw [getMonth, testBit_getMask (fun a _ => a) (n := 12) (readsName_start named_months rfl)
    (fun hx _ => (readsName_start named_months rfl hx).2) h hk]
  cases span with
  | all | one a => simp [Span.mapEnd, Span.Has]
  | range a b =>
    rw [Span.mapEnd, Span.Has, between_self]
    constructor
    · rintro rfl
      refine ⟨?_, fun _ _ h => (Span.range.inj h).1⟩
      simp only [Span.Has, Between]
      split_ifs <;> omega
    · rintro ⟨-, hfirst⟩
      exact hfirst a b rfl

theorem markSlot_iff {s : ℕ → ℕ} (x : ℕ) :
    (markSlot x s (k / 30)).testBit (k % 30) = true ↔
      k = x ∨ (s (k / 30)).testBit (k % 30) = true := by
  unfold markSlot
  split_ifs with hx
  · rw [testBit_or_two_pow]
    have : k % 30 = x % 30 ↔ k = x := by omega
    rw [this]
  · have : k ≠ x := fun he => hx (by rw [he])
    simp [this]

theorem testBit_getTimerange (h : Writes ReadsTime field span) (hk : k < 720) :
    (getTimerange field (k / 30)).testBit (k % 30) = true ↔ span.Has k ∧ ∀ a, span ≠ .one a := by
  cases h with
  | all =>
    have hlt : k % 30 < 30 := Nat.mod_lt _ (by decide)
    rw [getTimerange, if_pos (Or.inr rfl), Nat.testBit_two_pow_sub_one]
    simp [Span.Has, hlt]
  | one hx =>
    rw [getTimerange, if_neg hx.plain.not_all, hx.plain.dashed]
    simp
  | @range x y a b hx hy =>
    obtain ⟨h₁, m₁, hs, rfl, ha⟩ := scanTime_of_reads hx
    obtain ⟨h₂, m₂, he, rfl, hb⟩ := scanTime_of_reads hy
    have hslot : ∀ h m : ℕ, (h : ℤ) * 30 + (m : ℤ).tdiv 2 = ((h * 30 + m / 2 : ℕ) : ℤ) := by
      intro h m
      rw [tdiv_eq_ediv_of_nonneg (by omega)]
      omega
    rw [getTimerange, if_neg hx.plain.append_not_all, hx.plain.dashed_append]
    simp only [hy.dropWhile, hs, he, hslot]
    have hmarks := forCyclic_marks (s := fun _ => 0) (P := fun s : ℕ → ℕ =>
      (s (k / 30)).testBit (k % 30) = true) hb hk (fun x _ _ => markSlot_iff x) ha (fuel_le ha hb)
    rw [if_neg (by omega), toNat_natCast, toNat_natCast]
    simpa [Span.Has] using hmarks

/-! ## Timed includes -/

theorem Writes.no_comma (hplain : ∀ {x a}, Reads x a → Plain x) (h : Writes Reads field span) :
    chr ',' ∉ field := by
  cases h with
  | all => decide
  | one hx => exact (hplain hx).no_comma
  | range hx hy =>
    have : chr ',' ≠ chr '-' := by decide
    simp [(hplain hx).no_comma, (hplain hy).no_comma, this]

theorem cwCheckTiming_iff (h : spec.Written info) :
    (cwBuildTiming info).any (cwCheckTiming · tm) = true ↔ spec.Covers tm ∧ spec.Regular tm := by
  obtain ⟨htime, hdow, hday, hmonth, hlen⟩ := h
  rename_i time dow day month
  have hsplit : ([chr ','].intercalate [time, dow, day, month]).splitOn (chr ',') =
      [time, dow, day, month] := by
    apply splitOn_intercalate _ _ (by simp)
    simp only [mem_cons, not_mem_nil, or_false]
    rintro l (rfl | rfl | rfl | rfl)
    · exact htime.no_comma ReadsTime.plain
    · exact hdow.no_comma (ReadsName.plain named_days)
    · exact hday.no_comma fun h => plain_of_isNumber h.1
    · exact hmonth.no_comma (ReadsName.plain named_months)
  have hne : [chr ','].intercalate [time, dow, day, month] ≠ [] := by
    simp [List.intercalate]
  have hslot : tm.slot / 30 = tm.hour ∧ tm.slot % 30 = tm.min / 2 ∧ tm.slot < 720 := by
    have := tm.hour_lt
    have := tm.min_lt
    unfold LocalTime.slot
    omega
  have hmin := testBit_getTimerange htime hslot.2.2
  rw [hslot.1, hslot.2.1] at hmin
  have hhour : tm.hour ≤ 23 := Nat.le_of_lt_succ tm.hour_lt
  have hmday : tm.mday - 1 < 31 := by
    have := tm.mday_le
    omega
  rw [cwBuildTiming, if_neg hne, take_of_length_le hlen, hsplit]
  simp only [any_some, cwCheckTiming, getElem?_cons_zero, getElem?_cons_succ,
    elim_some, getD_some, Bool.and_eq_true, decide_eq_true_eq, hmin, hhour,
    testBit_getDow hdow tm.wday_lt, testBit_getDay hday hmday, testBit_getMonth hmonth tm.mon_lt]
  unfold Spec.Covers Spec.Regular
  tauto

/-- The answer is right exactly when the local time is outside the ranges, or the time of the day is
not a single one and the month is the first one of its range. -/
theorem timed_include_iff (h : spec.Written info) :
    ((cwBuildTiming info).any (cwCheckTiming · tm) = true ↔ spec.Covers tm) ↔
      (spec.Covers tm → spec.Regular tm) := by
  rw [cwCheckTiming_iff h]
  tauto

/-- The first three months of the year, and noon of a day in them. -/
def quarter : Spec := ⟨.all, .all, .all, .range 0 2⟩

def quarterText : CStr :=
  [chr ','].intercalate [[chr '*'], [chr '*'], [chr '*'], text "Jan" ++ chr '-' :: text "Mar"]

def noon (mon : ℕ) (h : mon < 12) : LocalTime :=
  ⟨mon, 10, 3, 12, 0, h, by decide, by decide, by decide, by decide, by decide⟩

theorem quarter_written : quarter.Written quarterText :=
  .mk .all .all .all (.range rfl rfl) (by decide)

theorem timed_include_iff_january : quarter.Written quarterText ∧
    ((cwBuildTiming quarterText).any (cwCheckTiming · (noon 0 (by decide))) = true ↔
      quarter.Covers (noon 0 (by decide))) := by
  refine ⟨quarter_written, (timed_include_iff quarter_written).mpr fun _ => ⟨?_, ?_⟩⟩
  · rintro a ⟨⟩
  · rintro a b ⟨⟩
    rfl

/-- February is missed in a range that starts with January. -/
theorem february_missed : quarter.Written quarterText ∧ quarter.Covers (noon 1 (by decide)) ∧
    (cwBuildTiming quarterText).any (cwCheckTiming · (noon 1 (by decide))) = false :=
  ⟨quarter_written, ⟨trivial, trivial, trivial, show Between 0 2 1 by decide⟩, by decide⟩

end CallWeaver.Timing
