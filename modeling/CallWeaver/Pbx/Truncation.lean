import CallWeaver.Pbx.Substitution

/-! # Truncation of the expansion

With unlimited buffers a template has one expansion. A buffer of some size gets the beginning of it
as long as every name, every expanded name and every value fits into its buffer and an expression
leaves one byte of the output unused.
-/

namespace CallWeaver.Pbx

open List Option Int

variable {env : Environment} {w v var name arg vars text cp1 : CStr}

def idealCut (pos : ℤ) (length : Option ℤ) (s : CStr) : CStr :=
  let t := s.drop (offset pos s.length)
  match length with
  | none => t
  | some l => if l < 0 then t else t.take l.toNat

/-- The value of a variable, which is not cut, nor is its name, and the slice of it. -/
def idealVariable (env : Environment) (var : CStr) : Option CStr :=
  match fromColon var with
  | [] => env.find var
  | _ :: first => (env.find (var.takeWhile (· ≠ chr ':'))).map fun s =>
    between (variableBounds s.length (atoi first) (sliceLength first)) s

def idealFunction (env : Environment) (name arg : CStr) : Option CStr :=
  ((env.funcRead name).getD (some unregistered)).map
    (idealCut (scanBounds arg).1 (scanBounds arg).2)

def idealValue (env : Environment) (vars : CStr) : Kind → CStr
  | .exp => (env.evaluate vars).text
  | .var =>
    match lastParen vars with
    | none => (idealVariable env vars).getD []
    | some (name, arg) => (idealFunction env name arg).getD []

def rest (w : CStr) : CStr := w.drop ((nextRound w).text.length + (nextRound w).skip)

theorem length_rest_lt (hw : w ≠ []) : (rest w).length < w.length := by
  have hpos := length_pos_iff.mpr hw
  have hprog := (nextRound_of hw).progress
  rw [rest, length_drop]
  omega

/-- The expansion with unlimited buffers. -/
def ideal (env : Environment) (w : CStr) : CStr :=
  if _hw : w = [] then []
  else
    match _hk : (nextRound w).construct with
    | none => (nextRound w).text ++ ideal env (rest w)
    | some k =>
      (nextRound w).text ++ idealValue env (if k.needsub then ideal env k.name else k.name)
        k.kind ++ ideal env (rest w)
termination_by w.length
decreasing_by
  · exact length_rest_lt _hw
  · exact (nextRound_of _hw).name_lt k _hk
  · exact length_rest_lt _hw

def idealName (env : Environment) (k : Construct) : CStr :=
  if k.needsub then ideal env k.name else k.name

def inserted (env : Environment) (r : Round) : CStr :=
  r.construct.elim [] fun k => idealValue env (idealName env k) k.kind

@[simp] theorem ideal_nil : ideal env [] = [] := by
  rw [ideal]
  simp

def added (env : Environment) (w : CStr) : CStr := (nextRound w).text ++ inserted env (nextRound w)

theorem ideal_eq (hw : w ≠ []) : ideal env w = added env w ++ ideal env (rest w) := by
  rw [ideal, dif_neg hw, added, inserted]
  split <;> rename_i h <;> simp [h, idealName]

/-- The value fits into the buffer it gets, and no length ends it in front of its first character.
-/
def CutFits (pos : ℤ) (length : Option ℤ) (s : CStr) : Prop :=
  match length with
  | none => s.length ≤ offset pos s.length + varBufSize
  | some l => 0 ≤ offset pos s.length + l

/-- The value of a function is cut as with unlimited buffers; that of an unregistered one is not
cut. -/
def FunctionFits (env : Environment) (name arg : CStr) : Prop :=
  match env.funcRead name with
  | none =>
    unregistered.length ≤
      offset (scanBounds arg).1 unregistered.length + (scanBounds arg).2.getD varBufSize
  | some r => ∀ s ∈ r, CutFits (scanBounds arg).1 (scanBounds arg).2 s

/-- The part of a value for which there is room fits into the workspace; so does one that is sliced,
its name with the numbers fits into `tmpvar`, and the zero is written inside the workspace. -/
def VariableFits (env : Environment) (var : CStr) (room : ℕ) : Prop :=
  match fromColon var with
  | [] => ∀ s ∈ env.find var, min s.length room < varBufSize
  | _ :: first => var.length < sizeofTmpvar ∧
    ∀ s ∈ env.find (var.takeWhile (· ≠ chr ':')), s.length + 2 ≤ varBufSize ∧
      let bounds := variableBounds s.length (atoi first) (sliceLength first)
      0 ≤ bounds.1 + bounds.2 ∧ bounds.1 + bounds.2 < varBufSize

def Readable (env : Environment) (vars : CStr) (room : ℕ) : Prop :=
  match lastParen vars with
  | none => VariableFits env vars room
  | some (name, arg) => FunctionFits env name arg

/-- The value of an expression leaves a byte of the room unused. -/
def Spare (room : ℕ) : Value → Prop
  | .none => room ≠ 1
  | .integer digits => room = 0 ∨ digits.length < room
  | .string s => s.length < room

def Stores (env : Environment) (vars : CStr) (room : ℕ) : Kind → Prop
  | .var => Readable env vars room
  | .exp => Spare room (env.evaluate vars)

/-- The constructs of a template are stored whole, or cut off where the buffer ends: their names,
expanded names and values fit into the buffers for them, and the values are stored in the room that
is left. -/
def Meets (env : Environment) (w : CStr) (count : ℕ) : Prop :=
  if _hw : w = [] then True
  else count ≠ 0 →
    (∀ k, ∀ _hk : k ∈ (nextRound w).construct, (0 < k.taken ∧ k.taken ≤ varBufSize) ∧
      (k.needsub = true → Meets env k.name (k.kind.size - 1) ∧
        (ideal env k.name).length ≤ k.kind.size - 1) ∧
      Stores env (idealName env k) (count - (nextRound w).text.length) k.kind) ∧
    Meets env (rest w) (count - (nextRound w).text.length - (inserted env (nextRound w)).length)
termination_by w.length
decreasing_by
  · exact (nextRound_of _hw).name_lt k _hk
  · exact length_rest_lt _hw

theorem meets_nil (count : ℕ) : Meets env [] count := by
  rw [Meets]
  simp

section Steps

variable {s : Output}

def Output.add (s : Output) (text : CStr) : Output :=
  { s with
    out := s.out ++ text.take s.count.toNat, count := ((s.count.toNat - text.length : ℕ) : ℤ) }

@[simp] theorem Output.count_add (text : CStr) :
    (s.add text).count = ((s.count.toNat - text.length : ℕ) : ℤ) := rfl

@[simp] theorem Output.out_add (text : CStr) :
    (s.add text).out = s.out ++ text.take s.count.toNat := rfl

theorem Output.add_of_full (hs : s.count = 0) (text : CStr) : s.add text = s := by
  obtain ⟨out, count, old⟩ := s
  obtain rfl : count = 0 := hs
  simp [Output.add]

theorem Output.add_add (a b : CStr) : (s.add a).add b = s.add (a ++ b) := by
  simp only [Output.add, toNat_natCast, append_assoc, take_append, length_append, Nat.sub_sub]

theorem Output.add_take {k : ℕ} (h : min v.length s.count.toNat ≤ k) :
    s.add (v.take k) = s.add v := by
  have hlen : (v.take k).take s.count.toNat = v.take s.count.toNat := by
    rw [take_take, take_eq_take_iff]
    omega
  rw [Output.add, Output.add, hlen, length_take]
  congr 2
  omega

theorem cut_eq {pos : ℤ} {length : Option ℤ} (h : CutFits pos length v) :
    cut pos (length.getD varBufSize) v = some (idealCut pos length v) := by
  unfold CutFits at h
  cases length with
  | none =>
    simp only [cut, idealCut, getD_none]
    rw [if_neg (by omega)]
  | some l =>
    simp only [cut, idealCut, getD_some]
    split_ifs with hlt hneg hl
    · omega
    · rfl
    · rfl
    · rfl
    · rw [take_of_length_le]
      rw [length_drop]
      omega

section Room

variable (hs : 0 ≤ s.count)

include hs

theorem Output.add_nil : s.add [] = s := by
  simp [Output.add, hs]

theorem Output.add_of_fits (text : CStr) (h : text.length ≤ s.count) :
    { s with out := s.out ++ text, count := s.count - text.length } = s.add text := by
  rw [Output.add, take_of_length_le (by omega)]
  congr 1
  omega

theorem copyValue_eq (v : CStr) : copyValue s v = some (s.add v) := by
  rw [copyValue, if_neg (by omega), Output.add]
  congr 2
  omega

theorem copyText_eq (text : CStr) : copyText s text = some (s.add text) := by
  rw [copyText]
  split_ifs with h
  · rw [h, Output.add_nil hs]
  · exact copyValue_eq hs text

theorem cwExpr_eq {v : Value} (hv : Spare s.count.toNat v) : cwExpr s v = some (s.add v.text) := by
  cases v with
  | none =>
    simp only [Spare] at hv
    rw [cwExpr]
    split_ifs with h
    · exact congrArg some (Output.add_of_fits hs [chr '0'] h.le)
    · rw [Output.add_of_full (by omega)]
  | integer digits =>
    simp only [Spare] at hv
    rw [cwExpr, printInteger, if_neg (by omega)]
    split_ifs with h h'
    · rw [Output.add_of_full h]
    · exact congrArg some (Output.add_of_fits hs digits h'.le)
    · omega
  | string v =>
    simp only [Spare] at hv
    rw [cwExpr, copyString, if_neg (by omega), if_neg (by omega), if_pos (by omega)]
    exact congrArg some (Output.add_of_fits hs v (by omega))

theorem retrieve_eq (h : VariableFits env var s.count.toNat) :
    ∃ r, pbxRetrieveVariable env varBufSize var = some r ∧
      r.elim (some s) (copyValue s) = some (s.add ((idealVariable env var).getD [])) := by
  unfold VariableFits at h
  rw [pbxRetrieveVariable, idealVariable]
  cases hcolon : fromColon var with
  | nil =>
    rw [hcolon] at h
    simp only [some.injEq, exists_eq_left']
    cases hv : env.find var with
    | none => simp [Output.add_nil hs]
    | some v =>
      have hfit := Nat.le_sub_one_of_lt (h v hv)
      simp [copyValue_eq hs, Output.add_take hfit]
  | cons colon first =>
    rw [hcolon] at h
    obtain ⟨hname, hfit⟩ := h
    have htmp : var.take (sizeofTmpvar - 1) = var := take_of_length_le (by omega)
    simp only [hcolon, htmp]
    cases hv : env.find (var.takeWhile (· ≠ chr ':')) with
    | none => simp [Output.add_nil hs]
    | some v =>
      obtain ⟨hlen, hbounds⟩ := hfit v hv
      have hcut : v.take (varBufSize - 2) = v := take_of_length_le (by omega)
      have hslice : variableSlice varBufSize (atoi first) (sliceLength first) v =
          some (between (variableBounds v.length (atoi first) (sliceLength first)) v) := by
        simp only [variableSlice, hcut]
        exact if_neg (by omega)
      simp [hslice, copyValue_eq hs]

theorem function_eq (h : FunctionFits env name arg) :
    ∃ r, functionValue env name arg = some r ∧
      r.elim (some s) (copyValue s) = some (s.add ((idealFunction env name arg).getD [])) := by
  unfold FunctionFits at h
  rw [functionValue, idealFunction]
  cases hf : env.funcRead name with
  | none =>
    rw [hf] at h
    have hfits : CutFits (scanBounds arg).1 (scanBounds arg).2 unregistered := by
      unfold CutFits
      cases hl : (scanBounds arg).2 with
      | none => exact (by decide : unregistered.length ≤ varBufSize).trans (Nat.le_add_left _ _)
      | some l =>
        rw [hl] at h
        exact le_trans (by decide) h
    have hcut := cut_eq hfits
    simp only [cut] at hcut
    rw [if_neg (not_lt.mpr h)] at hcut
    simp [if_neg (not_lt.mpr h), some.inj hcut, copyValue_eq hs]
  | some r =>
    rw [hf] at h
    cases r with
    | none => simp [Output.add_nil hs]
    | some v =>
      have hcut := cut_eq (h v rfl)
      simp [hcut, copyValue_eq hs]

theorem insert_eq {kind : Kind} (h : Stores env vars s.count.toNat kind) :
    insert env s vars kind = some (s.add (idealValue env vars kind)) := by
  cases kind with
  | exp => exact cwExpr_eq hs h
  | var =>
    rw [Stores, Readable] at h
    rw [insert, value, idealValue]
    rcases hp : lastParen vars with _ | ⟨name, arg⟩ <;> simp only [hp] at h
    · obtain ⟨r, hr, hcopy⟩ := retrieve_eq hs h
      simpa [hr] using hcopy
    · obtain ⟨r, hr, hcopy⟩ := function_eq hs h
      simpa [hr] using hcopy

theorem round_eq (nested : CStr → ℕ → Option CStr)
    (hk : ∀ k ∈ (nextRound w).construct, (0 < k.taken ∧ k.taken ≤ varBufSize) ∧
      (k.needsub = true → nested k.name k.kind.size = some (ideal env k.name)) ∧
      Stores env (idealName env k) (s.count.toNat - (nextRound w).text.length) k.kind) :
    round env nested w s =
      some (w.drop (min (nextRound w).text.length s.count.toNat + (nextRound w).skip),
        s.add (added env w)) := by
  simp only [round, added, copyText_eq hs, bind_some]
  cases hc : (nextRound w).construct with
  | none => simp [inserted, hc, Round.skip]
  | some k =>
    obtain ⟨⟨hpos, hle⟩, hnested, hstore⟩ := hk k hc
    have hname : (if k.needsub then nested k.name k.kind.size else some k.name) =
        some (idealName env k) := by
      rw [idealName]
      split_ifs with h
      · exact hnested h
      · rfl
    have hinsert := insert_eq (s := s.add (nextRound w).text) (by simp) hstore
    simp only [show ¬(k.taken = 0 ∨ k.taken > varBufSize) by omega, if_false, hname, bind_some,
      hinsert, map_some, Output.add_add]
    simp [inserted, hc, Round.skip]

end Room

end Steps

section Runs

variable {s : Output} {fuel size count : ℕ}

theorem count_start (env : Environment) (w : CStr) (hsize : 0 < size) :
    (start env w size).count = (size - 1 : ℕ) := by
  simp only [start]
  omega

theorem out_start_add (hsize : 0 < size) :
    ((start env w size).add text).out = text.take (size - 1) := by
  rw [Output.out_add, count_start env w hsize, toNat_natCast, start, nil_append]

theorem nested_eq {k : Construct} (hm : Meets env k.name (k.kind.size - 1))
    (hlen : (ideal env k.name).length ≤ k.kind.size - 1)
    (hrun : ∀ {s}, 0 ≤ s.count → Meets env k.name s.count.toNat →
      expand env fuel k.name s = some (s.add (ideal env k.name))) :
    (expand env fuel k.name (start env k.name k.kind.size)).map Output.out =
      some (ideal env k.name) := by
  have hsize : 0 < k.kind.size := by cases k.kind <;> decide
  have hcount := count_start env k.name hsize
  rw [hrun (by omega) (by rwa [hcount, toNat_natCast]), map_some, out_start_add hsize,
    take_of_length_le hlen]

theorem round_meets (hfuel : w.length ≤ fuel) (hw : w ≠ []) (hs : 0 < s.count)
    (hm : Meets env w s.count.toNat)
    (hrun : ∀ {name : CStr} {s : Output}, name.length < fuel → 0 ≤ s.count →
      Meets env name s.count.toNat → expand env fuel name s = some (s.add (ideal env name))) :
    ∃ w',
      round env (fun name size => (expand env fuel name (start env name size)).map Output.out) w s =
        some (w', s.add (added env w)) ∧
      ((s.add (added env w)).count = 0 ∨ w' = rest w) ∧
      Meets env (rest w) (s.add (added env w)).count.toNat := by
  have hof := nextRound_of hw
  rw [Meets, dif_neg hw] at hm
  obtain ⟨hk, hrest⟩ := hm (by omega)
  have hnested : ∀ k ∈ (nextRound w).construct, k.needsub = true →
      (expand env fuel k.name (start env k.name k.kind.size)).map Output.out =
        some (ideal env k.name) := by
    intro k hmem hsub
    obtain ⟨hmeets, hlen⟩ := (hk k hmem).2.1 hsub
    exact nested_eq hmeets hlen (hrun ((hof.name_lt k hmem).trans_le hfuel))
  refine ⟨_, round_eq hs.le _ fun k hmem =>
    ⟨(hk k hmem).1, hnested k hmem, (hk k hmem).2.2⟩, ?_, ?_⟩
  · rcases Nat.lt_or_ge (nextRound w).text.length s.count.toNat with h | h
    · right
      rw [Nat.min_eq_left h.le, rest]
    · -- the text alone fills the buffer, and the template is cut within it
      left
      simp only [Output.count_add, added, length_append]
      omega
  · simpa [added, Nat.sub_sub] using hrest

theorem expand_eq (hfuel : w.length < fuel) (hs : 0 ≤ s.count) (hm : Meets env w s.count.toNat) :
    expand env fuel w s = some (s.add (ideal env w)) ∧ ∀ c ∈ counts env fuel w s, 0 ≤ c := by
  induction fuel generalizing w s with
  | zero => omega
  | succ fuel ih =>
    rw [expand, counts, forall_mem_cons]
    split_ifs with h
    · refine ⟨?_, hs, by simp⟩
      rcases h with rfl | h
      · rw [ideal_nil, Output.add_nil hs]
      · rw [Output.add_of_full h]
    · obtain ⟨hw, hc⟩ := not_or.mp h
      have hlt := length_rest_lt hw
      obtain ⟨w', hround, hnext, hrest⟩ := round_meets (by omega) hw (by omega) hm
        fun hlt hs hm => (ih hlt hs hm).1
      rw [hround, bind_some, ideal_eq hw, ← Output.add_add]
      rcases hnext with hfull | rfl
      · -- the loop ends, whatever is left of the template
        obtain ⟨fuel, rfl⟩ : ∃ n, fuel = n + 1 := ⟨fuel - 1, by omega⟩
        simp only [expand, counts, hfull, or_true, if_true, Output.add_of_full hfull, true_and]
        exact ⟨hs, by simp⟩
      · obtain ⟨hrun, hcounts⟩ := ih (by omega) (by simp) hrest
        exact ⟨hrun, hs, hcounts⟩

/-- The string that is left is the beginning of the ideal expansion, and there is never less than no
room. -/
def Truncates (env : Environment) (cp1 : CStr) (count : ℕ) : Prop :=
  (∀ c ∈ counts env (cp1.length + 1) cp1 (start env cp1 count), 0 ≤ c) ∧
    ∃ s, pbxSubstituteVariablesHelperFull env cp1 count = some s ∧
      s.out = (ideal env cp1).take (count - 1)

theorem truncates_of_meets (hcount : 1 ≤ count) (hm : Meets env cp1 (count - 1)) :
    Truncates env cp1 count := by
  have hstart := count_start env cp1 hcount
  have hm' : Meets env cp1 (start env cp1 count).count.toNat := by rwa [hstart, toNat_natCast]
  obtain ⟨hrun, hcounts⟩ := expand_eq (Nat.lt_succ_self _) (by omega) hm'
  exact ⟨hcounts, _, hrun, out_start_add hcount⟩

end Runs

section Exactness

variable {s s' : Output} {t e : CStr} {count fuel : ℕ}

theorem cwExpr_short {v : Value} (hs : 0 ≤ s.count) (hv : ¬Spare s.count.toNat v)
    (h : cwExpr s v = some s') :
    s'.out.length < s.out.length + min s.count.toNat v.text.length := by
  cases v with
  | none =>
    simp only [Spare, ne_eq, not_not] at hv
    rw [cwExpr, if_neg (by omega)] at h
    obtain rfl := some.inj h
    simp [Value.text, hv]
  | integer digits =>
    simp only [Spare, not_or, not_lt] at hv
    rw [cwExpr, printInteger, if_neg (by omega), if_neg (by omega), if_neg (by omega)] at h
    obtain rfl := some.inj h
    simp only [Value.text, length_append, length_take]
    omega
  | string v =>
    simp only [Spare, not_lt] at hv
    rw [cwExpr, copyString, if_neg (by omega)] at h
    by_cases hc : s.count = 0
    · -- the zero replaces the last character that was written
      rw [if_pos hc] at h
      split_ifs at h with hout
      obtain rfl := some.inj h
      have hpos := length_pos_iff.mpr hout
      simp only [length_dropLast]
      omega
    · rw [if_neg hc, if_neg (by omega)] at h
      obtain rfl := some.inj h
      simp only [Value.text, length_append, length_take]
      omega

theorem count_cwExpr_le {v : Value} (hs : s.count = 0) (h : cwExpr s v = some s') :
    s'.count ≤ 0 := by
  cases v with
  | none =>
    rw [cwExpr, if_neg (by omega)] at h
    obtain rfl := some.inj h
    exact hs.le
  | integer digits =>
    rw [cwExpr, printInteger, if_neg (by omega), if_pos hs] at h
    obtain rfl := some.inj h
    exact hs.le
  | string v =>
    rw [cwExpr, copyString, if_neg (by omega), if_pos hs] at h
    split_ifs at h
    obtain rfl := some.inj h
    simp

def withExpression (t e : CStr) : CStr := t ++ chr '$' :: chr '[' :: (e ++ [chr ']'])

/-- There is no construct and no bracket in an expression. -/
def IsPlain (e : CStr) : Prop := ∀ c ∈ e, c ≠ chr '$' ∧ c ≠ chr '[' ∧ c ≠ chr ']'

instance : DecidablePred IsPlain := fun e => List.decidableBAll _ e

theorem scanExpression_plain (he : IsPlain e) (taken : ℕ) :
    scanExpression (e ++ [chr ']']) 1 0 taken = ⟨taken + (e.length + 1), 0⟩ := by
  induction e generalizing taken with
  | nil => rfl
  | cons c e ih =>
    obtain ⟨⟨hdollar, hopen, hclose⟩, he⟩ := forall_mem_cons.mp he
    have hstep := ih he (taken + 1)
    rcases hs : e ++ [chr ']'] with _ | ⟨d, s⟩
    · simp at hs
    rw [hs] at hstep
    rw [cons_append, hs, scanExpression, if_neg (by tauto), if_neg hopen, if_neg hclose,
      if_neg (by tauto), hstep, length_cons]
    congr 1
    omega

theorem withExpression_ne_nil : withExpression t e ≠ [] := by simp [withExpression]

section Plain

variable (ht : chr '$' ∉ t) (he : IsPlain e)

include ht he

theorem nextRound_withExpression :
    nextRound (withExpression t e) = ⟨t, some ⟨.exp, e, e.length + 1, false⟩⟩ := by
  have hall : ∀ c ∈ t, decide (c ≠ chr '$') = true := by
    intro c hc
    simp only [decide_eq_true_eq]
    rintro rfl
    exact ht hc
  simp only [nextRound, withExpression, takeWhile_append_of_pos hall, dropWhile_append_of_pos hall]
  have hbracket : chr '[' ≠ chr '{' := by decide
  simp [construct, scanExpression_plain he, hbracket]

theorem rest_withExpression : rest (withExpression t e) = [] := by
  rw [rest, nextRound_withExpression ht he, drop_eq_nil_iff]
  simp only [Round.skip, withExpression, length_append, length_cons, length_nil]
  omega

theorem ideal_withExpression : ideal env (withExpression t e) = t ++ (env.evaluate e).text := by
  rw [ideal_eq withExpression_ne_nil, rest_withExpression ht he, ideal_nil, added,
    nextRound_withExpression ht he]
  simp [inserted, idealName, idealValue]

theorem meets_withExpression_iff :
    Meets env (withExpression t e) count ↔
      (count ≠ 0 → e.length < varBufSize ∧ Spare (count - t.length) (env.evaluate e)) := by
  rw [Meets, dif_neg withExpression_ne_nil, rest_withExpression ht he,
    nextRound_withExpression ht he, Nat.lt_iff_add_one_le (m := e.length)]
  simp [meets_nil, idealName, Stores]

theorem round_withExpression (nested : CStr → ℕ → Option CStr) (hs : 0 ≤ s.count) :
    round env nested (withExpression t e) s =
      if varBufSize ≤ e.length then none
      else (cwExpr (s.add t) (env.evaluate e)).map fun s' =>
        ((withExpression t e).drop (min t.length s.count.toNat + (e.length + 3)), s') := by
  simp only [round, nextRound_withExpression ht he, copyText_eq hs, bind_some,
    ← Nat.lt_succ_iff (n := e.length)]
  simp [insert]

theorem expand_withExpression (hs : 0 < s.count)
    (hcounts : ∀ c ∈ counts env (fuel + 2) (withExpression t e) s, 0 ≤ c)
    (hrun : expand env (fuel + 2) (withExpression t e) s = some s') :
    e.length < varBufSize ∧ cwExpr (s.add t) (env.evaluate e) = some s' := by
  have hgo : ¬(withExpression t e = [] ∨ s.count = 0) := by
    simp only [withExpression, append_eq_nil_iff, reduceCtorEq, and_false, false_or]
    omega
  rw [expand, if_neg hgo, round_withExpression ht he _ hs.le] at hrun
  rw [counts, if_neg hgo, round_withExpression ht he _ hs.le] at hcounts
  by_cases hlong : varBufSize ≤ e.length
  · simp [hlong] at hrun
  rw [if_neg hlong] at hrun hcounts
  rcases hx : cwExpr (s.add t) (env.evaluate e) with _ | r
  · simp [hx] at hrun
  simp only [hx, map_some, bind_some] at hrun hcounts
  have hr : 0 ≤ r.count := hcounts r.count (by simp [counts])
  have hstop : (withExpression t e).drop (min t.length s.count.toNat + (e.length + 3)) = [] ∨
      r.count = 0 := by
    rcases Nat.le_total t.length s.count.toNat with h | h
    · left
      simp [withExpression, h]
    · -- a counter that goes below zero here is seen at the head of the loop
      right
      have hfull : (s.add t).count = 0 := by simp [h]
      have hle := count_cwExpr_le hfull hx
      omega
  rw [expand, if_pos hstop] at hrun
  exact ⟨not_le.mp hlong, hrun⟩

theorem meets_of_truncates (h : Truncates env (withExpression t e) count) :
    Meets env (withExpression t e) (count - 1) := by
  obtain ⟨hcounts, s, hrun, hstring⟩ := h
  rw [meets_withExpression_iff ht he]
  intro hc
  have hstart := count_start env (withExpression t e) (show 0 < count by omega)
  have hfuel : (withExpression t e).length + 1 = t.length + (e.length + 2) + 2 := by
    simp only [withExpression, length_append, length_cons, length_nil]
    omega
  rw [pbxSubstituteVariablesHelperFull, hfuel] at hrun
  rw [hfuel] at hcounts
  obtain ⟨hlong, hx⟩ := expand_withExpression ht he (by omega) hcounts hrun
  refine ⟨hlong, ?_⟩
  by_contra hspare
  have hroom : ((start env (withExpression t e) count).add t).count.toNat =
      count - 1 - t.length := by
    simp [hstart]
  have hshort := cwExpr_short (by simp) (by rwa [hroom]) hx
  rw [hstring, ideal_withExpression ht he, hroom, Output.out_add, hstart] at hshort
  simp only [start, length_append, length_take, nil_append, toNat_natCast] at hshort
  omega

end Plain

/-- A string is cut off at the end of the buffer where the conditions hold for its template; for
text and one expression exactly there. -/
theorem truncation_law (env : Environment) {count : ℕ} (hcount : 1 ≤ count) :
    (∀ cp1, Meets env cp1 (count - 1) → Truncates env cp1 count) ∧
      ∀ t e, chr '$' ∉ t → IsPlain e →
        (Truncates env (withExpression t e) count ↔
          Meets env (withExpression t e) (count - 1)) := by
  refine ⟨fun cp1 => truncates_of_meets hcount, fun t e ht he => ?_⟩
  exact ⟨meets_of_truncates ht he, truncates_of_meets hcount⟩

end Exactness

def sampleVars : List Channel.Var := [Channel.varAssign [chr 'v'] (['a', 'b', 'c'].map chr)]

def sampleEnvironment (v : Value) : Environment where
  globals := Channel.noGlobals
  c := none
  headp := some sampleVars
  funcRead _ := none
  evaluate _ := v
  old _ _ := 0

def nestedTemplate : CStr := ['x', '$', '{', '$', '[', 'y', ']', '}', 'z'].map chr

def slicedName : CStr := ['v', ':', '-', '2', ':', '1'].map chr

def nestedEnvironment : Environment := sampleEnvironment (.string slicedName)

/-- A slice of a variable whose name is an expression, in a buffer for two characters. -/
theorem truncation_law_nested :
    Truncates nestedEnvironment nestedTemplate 3 ∧
      (ideal nestedEnvironment nestedTemplate).take 2 = ['x', 'b'].map chr := by
  have hplain : IsPlain [chr 'y'] := by decide
  have hround : nextRound nestedTemplate =
      ⟨[chr 'x'], some ⟨.var, withExpression [] [chr 'y'], 5, true⟩⟩ := by decide
  have hname : ideal nestedEnvironment (withExpression [] [chr 'y']) = slicedName :=
    ideal_withExpression (by simp) hplain
  have hinserted : inserted nestedEnvironment (nextRound nestedTemplate) = [chr 'b'] := by
    simp only [hround, inserted, elim_some, idealName, if_true, hname]
    decide
  have hvalue : VariableFits nestedEnvironment slicedName 1 := by
    refine ⟨by decide, fun s hs => ?_⟩
    obtain rfl : ['a', 'b', 'c'].map chr = s := some.inj hs
    decide
  have hmeets : Meets nestedEnvironment nestedTemplate 2 := by
    rw [Meets, dif_neg (by decide), hinserted, hround]
    rintro -
    constructor
    · rintro k ⟨⟩
      refine ⟨by decide, fun _ => ⟨?_, by rw [hname]; decide⟩, ?_⟩
      · rw [meets_withExpression_iff (by simp) hplain]
        exact fun _ => ⟨by decide, (by decide : slicedName.length < varBufSize - 1)⟩
      · simp only [idealName, if_true, hname]
        exact hvalue
    · rw [Meets, dif_neg (by rw [rest, hround]; decide)]
      exact fun h => absurd rfl h
  constructor
  · exact (truncation_law nestedEnvironment (by decide)).1 nestedTemplate hmeets
  · rw [ideal_eq (by decide), added, hinserted, hround]
    rfl

def stringTemplate : CStr := ['$', '[', 'a', 'a', 'a', 'a', ']', 'b'].map chr

def stringEnvironment : Environment := sampleEnvironment (.string (['a', 'a', 'a', 'a'].map chr))

theorem ideal_stringTemplate :
    ideal stringEnvironment stringTemplate = ['a', 'a', 'a', 'a', 'b'].map chr := by
  have hround : nextRound stringTemplate =
      ⟨[], some ⟨.exp, ['a', 'a', 'a', 'a'].map chr, 5, false⟩⟩ := by decide
  have hlast : nextRound [chr 'b'] = ⟨[chr 'b'], none⟩ := by decide
  have hrest : rest stringTemplate = [chr 'b'] := by
    rw [rest, hround]
    rfl
  rw [ideal_eq (by decide), hrest, ideal_eq (by decide), added, added, rest, hround, hlast]
  simp [inserted, idealName, idealValue, stringEnvironment, sampleEnvironment,
    Value.text, Round.skip]

/-- The last character of the value for which there is room is missing, and the one behind the
expression takes its place. -/
theorem truncation_drops_character :
    (pbxSubstituteVariablesHelperFull stringEnvironment stringTemplate 4).map Output.out =
        some (['a', 'a', 'b'].map chr) ∧
      (ideal stringEnvironment stringTemplate).take 3 = ['a', 'a', 'a'].map chr ∧
      ¬Truncates stringEnvironment stringTemplate 4 := by
  have hrun : (pbxSubstituteVariablesHelperFull stringEnvironment stringTemplate 4).map Output.out =
      some (['a', 'a', 'b'].map chr) := by decide
  refine ⟨hrun, by rw [ideal_stringTemplate]; rfl, ?_⟩
  rintro ⟨-, s, hs, hstring⟩
  rw [hs, map_some, hstring, ideal_stringTemplate] at hrun
  exact absurd hrun (by decide)

end CallWeaver.Pbx
