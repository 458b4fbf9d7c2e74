import Mathlib.Data.List.Find
import CallWeaver.Channel.Conservation

/-! # The variables that a history of sets leaves

A set removes the variable whose full name is the new name without its underscores. So one with
underscores is never removed by a later set, and one of the two readers does not find it under the
name without them. The other ignores case, and finds builtin variables first.
-/

namespace CallWeaver.Channel

open List Option

structure Setting where
  name : CStr
  value : Option CStr
  deriving DecidableEq, Repr

namespace Setting

def act (c : ℕ) (x : Setting) : Act := .setvar c x.name x.value

def key (x : Setting) : CStr := nametail x.name

def underscored (x : Setting) : Bool := x.name.head? = some (chr '_')

def var (x : Setting) : Option Var := x.value.map (varAssign x.name)

/-- The name is not empty and not that of a function, and has two leading underscores at most. -/
def Ok (x : Setting) : Prop := x.name ≠ [] ∧ x.name.getLast? ≠ some (chr ')') ∧
    x.key.head? ≠ some (chr '_')
  deriving Decidable

end Setting

/-- The sets whose variables stay: those with a value and underscores, and the last ones of their
name without underscores. -/
def kept : List Setting → List Setting
  | [] => []
  | x :: later =>
    if x.value.isSome ∧ (x.underscored ∨ ∀ y ∈ later, y.key ≠ x.key) then x :: kept later
    else kept later

def lastSet (h : List Setting) (n : CStr) : Option Setting := (h.filter (·.key = n)).getLast?

def global (globals : List Var) (n : CStr) : Option CStr :=
  (globals.find? (·.name = n)).map Var.value

/-- What should be found under a name: the value of the last set, or the global one. -/
def expected (h : List Setting) (globals : List Var) (n : CStr) : Option CStr :=
  ((lastSet h n).bind Setting.value).or (global globals n)

section Sets

variable {s t : State} {front back : ℕ → List ℕ} {c : ℕ} {h : List Setting} {x : Setting} {n : CStr}

def setVars (vars : List Var) (x : Setting) : List Var :=
  x.var.toList ++ vars.eraseP (cwHashString x.key = ·.hash)

theorem without_find (p : ℕ → Bool) (l : List ℕ) : without (l.find? p) l = l.eraseP p := by
  cases hfind : l.find? p with
  | none =>
    rw [eraseP_of_forall_not (find?_eq_none.mp hfind)]
    rfl
  | some b =>
    obtain ⟨hb, A, B, rfl, hA⟩ := find?_eq_some_iff_append.mp hfind
    have hA : ∀ a ∈ A, ¬ p a = true := by simpa using hA
    rw [without, elim_some, erase_append_right _ fun hm => hA b hm hb, erase_cons_head,
      eraseP_append_right _ hA, eraseP_cons_of_pos hb]

theorem filterMap_without {hash : UInt32} {l : List ℕ} :
    (without (l.find? (s.hasHash hash)) l).filterMap s.var =
      (l.filterMap s.var).eraseP (hash = ·.hash) := by
  rw [without_find, eraseP_filterMap]
  rfl

theorem Shape.vars_setvar (hs : Shape s front back)
    (ht : setvarHelper s c x.name x.value = some t) : t.vars c = setVars (s.vars c) x := by
  obtain ⟨u, hu, -, hshape, hvar, hnew⟩ := hs.setvar (c := c) x.name x.value rfl
  obtain rfl := some.inj (hu.symm.trans ht)
  have hlist : ∀ found,
      without found (front c) ++ without found (back c) = without found (both front back c) := by
    rintro (_ | a)
    · rfl
    · exact Ends.Lists.erase_append_erase (hs.lists c).nodup
  rw [State.vars, hshape.entries_eq, both_update, Function.update_self, append_assoc, hlist,
    filterMap_append, setVars, State.vars, hs.entries_eq, Setting.key, ← filterMap_without]
  congr 1
  · cases hv : x.value with
    | none => simp [Setting.var, hv]
    | some v => simp [Setting.var, hv, hnew v hv]
  · refine filterMap_congr fun a ha => ?_
    obtain ⟨ha, hne⟩ := (Shape.mem_without (hs.owned.nodup c)).mp ha
    exact hvar a (hs.lt_used ha) hne

theorem exists_run (hs : Sound s) (hok : ∀ x ∈ h, x.Ok) :
    ∃ t, Runs step anyStep s (h.map (Setting.act c)) t ∧ t.vars c = h.foldl setVars (s.vars c) := by
  induction h generalizing s with
  | nil => exact ⟨s, .nil s, rfl⟩
  | cons x h ih =>
    obtain ⟨hcrash, front, back, hshape⟩ := hs
    obtain ⟨hempty, hbracket, -⟩ := hok x mem_cons_self
    obtain ⟨u, hu, hcrash', hshape', -⟩ := hshape.setvar (c := c) x.name x.value rfl
    have hstep : step s (x.act c) = some u := by
      simp [Setting.act, step, hcrash, hempty, hbracket, hu, State.orCrash]
    obtain ⟨t, ht, hvars⟩ := ih ⟨hcrash'.trans hcrash, _, _, hshape'⟩ fun y hy =>
      hok y (mem_cons_of_mem _ hy)
    refine ⟨t, .cons hstep trivial ht, ?_⟩
    rw [hvars, hshape.vars_setvar hu, foldl_cons]

end Sets

section History

variable {h : List Setting} {x y : Setting} {n : CStr}

theorem nametail_of_plain (hn : n.head? ≠ some (chr '_')) : nametail n = n := by
  cases n with
  | nil => rfl
  | cons c s =>
    have hc : c ≠ chr '_' := by simpa using hn
    simp [nametail, dropUnderscore, hc]

theorem Setting.name_eq_iff (hn : n.head? ≠ some (chr '_')) :
    x.name = n ↔ x.underscored = false ∧ x.key = n := by
  constructor
  · rintro rfl
    exact ⟨by simpa [underscored] using hn, nametail_of_plain hn⟩
  · rintro ⟨hu, rfl⟩
    exact (nametail_of_plain (by simpa [underscored] using hu)).symm

theorem mem_of_mem_kept (hx : x ∈ kept h) : x ∈ h ∧ x.value.isSome := by
  induction h with
  | nil => cases hx
  | cons y h ih =>
    rw [kept] at hx
    split at hx
    · rcases mem_cons.mp hx with rfl | hx
      · exact ⟨mem_cons_self, by simp_all⟩
      · exact ⟨mem_cons_of_mem _ (ih hx).1, (ih hx).2⟩
    · exact ⟨mem_cons_of_mem _ (ih hx).1, (ih hx).2⟩

theorem kept_concat : kept (h ++ [x]) =
    ((kept h).filter fun y => y.underscored || y.key ≠ x.key) ++ if x.value.isSome then [x]
      else [] := by
  induction h with
  | nil => simp [kept]
  | cons y h ih =>
    have hiff : (y.value.isSome ∧ (y.underscored ∨ ∀ z ∈ h ++ [x], z.key ≠ y.key)) ↔
        (y.value.isSome ∧ (y.underscored ∨ ∀ z ∈ h, z.key ≠ y.key)) ∧
        (y.underscored || y.key ≠ x.key) = true := by
      rw [forall_mem_append, forall_mem_singleton, Bool.or_eq_true, decide_eq_true_eq,
        ne_comm (a := x.key)]
      tauto
    simp only [cons_append, kept, hiff]
    by_cases hy : y.value.isSome ∧ (y.underscored ∨ ∀ z ∈ h, z.key ≠ y.key)
    · rw [if_pos hy, filter_cons]
      split_ifs <;> simp_all
    · rw [if_neg hy, if_neg fun hc => hy hc.1, ih]

theorem length_filter_kept_le (hn : n.head? ≠ some (chr '_')) :
    ((kept h).filter (·.name = n)).length ≤ 1 := by
  induction h with
  | nil => simp [kept]
  | cons x h ih =>
    rw [kept]
    split
    · rename_i hx
      rw [filter_cons]
      split
      · rename_i hname
        obtain ⟨hu, hkey⟩ := (Setting.name_eq_iff hn).mp (of_decide_eq_true hname)
        have hnone : (kept h).filter (·.name = n) = [] := by
          rw [filter_eq_nil_iff]
          intro y hy hyn
          have hlater := hx.2.resolve_left (by simp [hu]) y (mem_of_mem_kept hy).1
          exact hlater (((Setting.name_eq_iff hn).mp (of_decide_eq_true hyn)).2.trans hkey.symm)
        simp [hnone]
      · exact ih
    · exact ih

theorem eraseP_eq_filter {α : Type*} {p : α → Bool} {l : List α} (h : (l.filter p).length ≤ 1) :
    l.eraseP p = l.filter fun a => !p a := by
  induction l with
  | nil => rfl
  | cons a l ih =>
    cases ha : p a with
    | true =>
      have hnone : l.filter p = [] := by simpa [ha] using h
      rw [eraseP_cons_of_pos ha, filter_cons_of_neg (by simp [ha]), filter_eq_self.mpr]
      exact fun b hb => by simpa using filter_eq_nil_iff.mp hnone b hb
    | false =>
      rw [eraseP_cons_of_neg (by simp [ha]), filter_cons_of_pos (by simp [ha]),
        ih (by simpa [ha] using h)]

theorem foldl_setVars (hok : ∀ x ∈ h, x.Ok)
    (hinj : ∀ x ∈ h, ∀ y ∈ h, cwHashString y.key = cwHashString x.name → y.key = x.name) :
    h.foldl setVars [] = (kept h).reverse.filterMap Setting.var := by
  induction h using List.reverseRecOn with
  | nil => rfl
  | append_singleton h x ih =>
    have hx : x.key.head? ≠ some (chr '_') := (hok x (by simp)).2.2
    have ih := ih (fun y hy => hok y (by simp [hy])) fun y hy z hz =>
      hinj y (by simp [hy]) z (by simp [hz])
    -- a variable is found by the hash of the new name if and only if it has this name
    have hfind : ∀ y ∈ (kept h).reverse,
        ∀ v ∈ y.var, decide (cwHashString x.key = v.hash) = decide (y.name = x.key) := by
      intro y hy v hv
      obtain ⟨w, -, rfl⟩ := map_eq_some_iff.mp hv
      have hy := (mem_of_mem_kept (mem_reverse.mp hy)).1
      refine decide_eq_decide.mpr ⟨fun he => (hinj y (by simp [hy]) x (by simp) he).symm,
        fun he => ?_⟩
      simp [varAssign, he]
    have hfilter : ∀ g : Bool → Bool,
        ((kept h).reverse.filterMap Setting.var).filter (fun v => g (cwHashString x.key = v.hash)) =
          ((kept h).reverse.filter fun y => g (y.name = x.key)).filterMap Setting.var := by
      intro g
      rw [filter_filterMap, filterMap_filter]
      refine filterMap_congr fun y hy => ?_
      cases hv : y.var with
      | none => simp
      | some v => rw [filter_some, hfind y hy v hv]
    have hlen :
        (((kept h).reverse.filterMap Setting.var).filter (cwHashString x.key = ·.hash)).length ≤
        1 := by
      have hid := hfilter id
      simp only [id] at hid
      rw [hid]
      refine (length_filterMap_le ..).trans ?_
      rw [filter_reverse, length_reverse]
      exact length_filter_kept_le hx
    have hnew : ((if x.value.isSome then [x] else []).reverse.filterMap Setting.var) =
        x.var.toList := by
      cases hv : x.value <;> simp [Setting.var, hv]
    rw [foldl_append, foldl_cons, foldl_nil, ih, setVars, eraseP_eq_filter hlen, hfilter not,
      kept_concat, reverse_append, filterMap_append, hnew, ← filter_reverse]
    congr 2
    refine filter_congr fun y _ => ?_
    cases hu : y.underscored <;> simp [Setting.name_eq_iff hx, hu]

theorem lastSet_concat : lastSet (h ++ [x]) n = if x.key = n then some x else lastSet h n := by
  rw [lastSet, filter_append]
  by_cases hx : x.key = n <;> simp [hx, lastSet]

theorem find_kept (hn : n.head? ≠ some (chr '_')) :
    (kept h).reverse.find? (·.name = n) = (lastSet h n).filter fun x =>
      x.value.isSome && !x.underscored := by
  induction h using List.reverseRecOn with
  | nil => rfl
  | append_singleton h x ih =>
    rw [lastSet_concat, kept_concat, reverse_append, find?_append, ← filter_reverse, find?_filter]
    by_cases hkey : x.key = n
    · have hnone :
        (kept h).reverse.find? (fun y => decide ((y.underscored || y.key ≠ x.key) = true ∧
          decide (y.name = n) = true)) = none := by
        rw [find?_eq_none]
        intro y _
        cases hu : y.underscored <;> simp [Setting.name_eq_iff hn, hu, hkey]
      rw [hnone, if_pos hkey, or_none]
      cases hv : x.value <;> cases hu : x.underscored <;>
        simp [hv, hu, Setting.name_eq_iff hn, hkey, Option.filter]
    · have hsame : ∀ y ∈ (kept h).reverse, decide ((y.underscored || y.key ≠ x.key) = true ∧
          decide (y.name = n) = true) = decide (y.name = n) := by
        intro y _
        by_cases hy : y.name = n
        · have hyk := ((Setting.name_eq_iff hn).mp hy).2
          simp [hyk, Ne.symm hkey, hy]
        · simp [hy]
      have hnew :
          ((if x.value.isSome then [x] else []).reverse.find? fun y => y.name = n) = none := by
        rw [find?_eq_none]
        intro y hy hyn
        split at hy
        · obtain rfl := mem_singleton.mp (mem_reverse.mp hy)
          exact hkey ((Setting.name_eq_iff hn).mp (of_decide_eq_true hyn)).2
        · simp at hy
      rw [hnew, none_or, if_neg hkey, ← ih, find?_congr hsame]

end History

section Readers

variable {h l : List Setting} {n : CStr} {env : Environment} {fields : Fields} {room : ℕ}

def namesUsed (h : List Setting) (globals : List Var) (n : CStr) : List CStr :=
  n :: (h.map Setting.name ++ h.map Setting.key ++ globals.map Var.name)

def HashInjective (names : List CStr) : Prop :=
  ∀ a ∈ names, ∀ b ∈ names, cwHashString a = cwHashString b → a = b
  deriving Decidable

def lastGlobal (globals : List Var) (n : CStr) : Option CStr :=
  ((globals.filter (·.name = n)).getLast?).map Var.value

/-- The first text of a name, ignoring case: that of a builtin variable of the channel, of a
variable that stays, of a builtin global variable or of a global one. -/
def shown (env : Environment) (fields : Fields) (h : List Setting) (n : CStr) : Option CStr :=
  match (fields.builtins env).lookup (cwHashString n) with
  | some text => text
  | none => match (kept h).reverse.find? fun x => strcasecmp x.key n = .eq with
    | some x => x.value
    | none => (env.builtins.lookup (cwHashString n)).or (lastGlobal env.globals n)

/-- The set of a name is found in the ways the readers search for it, and has at most one variable.
-/
structure Faithful (env : Environment) (fields : Fields) (room : ℕ) (h : List Setting) (n : CStr) :
    Prop where
  /-- at most one set of the name stays -/
  single : ((kept h).filter (·.key = n)).length ≤ 1
  /-- the last set has no underscores, unless it has the value of the global variable -/
  plain : ∀ x ∈ lastSet h n, x.underscored → ∀ v ∈ x.value, global env.globals n = some v
  /-- no other text comes first, and the workspace has room for it -/
  first : (shown env fields h n).map (·.take room) = expected h env.globals n

section

variable (hinj : HashInjective (namesUsed h env.globals n))
include hinj

theorem hash_eq_iff {v : Var} (hv : v ∈ env.globals ∨ v.name ∈ h.map Setting.name) :
    cwHashString n = v.hash ↔ v.name = n := by
  constructor
  · intro he
    refine (hinj n (by simp [namesUsed]) v.name ?_ (he.trans v.hash_eq)).symm
    rcases hv with hv | hv
    · exact mem_cons_of_mem _ (mem_append_right _ (mem_map_of_mem hv))
    · exact mem_cons_of_mem _ (mem_append_left _ (mem_append_left _ hv))
  · rintro rfl
    exact v.hash_eq.symm

theorem find_global :
    (env.globals.find? (cwHashString n = ·.hash)).map Var.value = global env.globals n := by
  rw [global, find?_congr]
  exact fun v hv => decide_eq_decide.mpr (hash_eq_iff hinj (.inl hv))

theorem lookup_eq :
    env.lookup (cwHashString n) =
      (env.builtins.lookup (cwHashString n)).or (lastGlobal env.globals n) := by
  have hfold : ∀ (l : List Var) (acc : Option CStr), (∀ v ∈ l, v ∈ env.globals) →
      l.foldl (fun ret v => if cwHashString n = v.hash then some v.value else ret) acc =
      (lastGlobal l n).or acc := by
    intro l
    induction l with
    | nil => exact fun acc _ => rfl
    | cons v l ih =>
      intro acc hl
      have hiff := hash_eq_iff hinj (.inl (hl v mem_cons_self))
      rw [foldl_cons, ih _ fun w hw => hl w (mem_cons_of_mem _ hw), lastGlobal, lastGlobal,
        filter_cons]
      by_cases hv : v.name = n
      · simp only [hiff, hv, if_true, decide_true, getLast?_cons]
        cases (l.filter (·.name = n)).getLast? <;> rfl
      · simp [hiff, hv]
  rw [Environment.lookup, hfold _ _ fun _ hv => hv, or_none]

theorem getvar_eq (hn : n.head? ≠ some (chr '_')) :
    getvarHelper (some ((kept h).reverse.filterMap Setting.var)) env.globals n =
      ((lastSet h n).bind fun x => if x.underscored then none else x.value).or
      (global env.globals n) := by
  have hfind : ((kept h).reverse.filterMap Setting.var).find? (cwHashString n = ·.hash) =
      ((lastSet h n).filter fun x => x.value.isSome && !x.underscored).bind Setting.var := by
    rw [find?_filterMap, ← find_kept hn, find?_congr]
    intro x hx
    obtain ⟨hm, hsome⟩ := mem_of_mem_kept (mem_reverse.mp hx)
    obtain ⟨v, hv⟩ := isSome_iff_exists.mp hsome
    have hiff := hash_eq_iff hinj (v := varAssign x.name v) (.inr (mem_map_of_mem hm))
    rw [Setting.var, hv, map_some, any_some]
    exact decide_eq_decide.mpr hiff
  simp only [getvarHelper, getD_some, hfind, find_global hinj, isSome_some, and_true]
  rcases lastSet h n with _ | x
  · simp
  · cases hv : x.value <;> cases hu : x.underscored <;>
      simp [Option.filter, Setting.var, hv, hu, varAssign]

theorem retrieve_eq :
    retrieveUnsliced env (some (fields, (kept h).reverse.filterMap Setting.var)) none room n =
      (shown env fields h n).map (·.take room) := by
  have hfind :
      ((kept h).reverse.filterMap Setting.var).find? (fun v => strcasecmp v.varName n = .eq) =
      ((kept h).reverse.find? fun x => strcasecmp x.key n = .eq).bind Setting.var := by
    rw [find?_filterMap, find?_congr]
    intro x hx
    obtain ⟨v, hv⟩ := isSome_iff_exists.mp (mem_of_mem_kept (mem_reverse.mp hx)).2
    rw [Setting.var, hv, map_some, any_some]
    rfl
  rw [retrieveUnsliced, findValue, shown]
  cases (fields.builtins env).lookup (cwHashString n) with
  | some text => rfl
  | none =>
    simp only [hfind, lookup_eq hinj]
    cases hx : (kept h).reverse.find? fun x => strcasecmp x.key n = .eq with
    | none => rfl
    | some x =>
      obtain ⟨v, hv⟩ := isSome_iff_exists.mp
        (mem_of_mem_kept (mem_reverse.mp (mem_of_find?_eq_some hx))).2
      simp [Setting.var, hv, varAssign]

end

/-- The first reader yields the value of the last set if and only if this had no underscores, or the
global variable has the same value. -/
theorem plain_iff :
    ((lastSet h n).bind fun x => if x.underscored then none else x.value).or
        (global env.globals n) = expected h env.globals n ↔
      ∀ x ∈ lastSet h n, x.underscored → ∀ v ∈ x.value, global env.globals n = some v := by
  rw [expected]
  rcases lastSet h n with _ | x
  · simp
  · cases hv : x.value <;> cases hu : x.underscored <;> simp [hv, hu]

theorem length_filter_varName (hl : ∀ x ∈ l, x.value.isSome) :
    ((l.filterMap Setting.var).filter (·.varName = n)).length = (l.filter (·.key = n)).length := by
  rw [← countP_eq_length_filter, ← countP_eq_length_filter, countP_filterMap]
  refine countP_congr fun x hx => ?_
  obtain ⟨v, hv⟩ := isSome_iff_exists.mp (hl x hx)
  rw [Setting.var, hv]
  rfl

end Readers

/-- After a history of sets, a name has at most one variable and both readers yield the value of its
last set if and only if the history is faithful to the name. -/
theorem variable_store_law (c : ℕ) (env : Environment) (fields : Fields) (room : ℕ)
    (h : List Setting) (n : CStr) (hok : ∀ x ∈ h, x.Ok) (hn : n.head? ≠ some (chr '_'))
    (hinj : HashInjective (namesUsed h env.globals n)) :
    ∃ t, Runs step anyStep initial (h.map (Setting.act c)) t ∧
      ((((t.vars c).filter (·.varName = n)).length ≤ 1 ∧
        getvarHelper (some (t.vars c)) env.globals n = expected h env.globals n ∧
        retrieveUnsliced env (some (fields, t.vars c)) none room n = expected h env.globals n) ↔
      Faithful env fields room h n) := by
  obtain ⟨t, ht, hvars⟩ := exists_run (c := c) (s := initial) ⟨rfl, _, _, shape_initial⟩ hok
  refine ⟨t, ht, ?_⟩
  have hnames : ∀ x ∈ h, ∀ y ∈ h, cwHashString y.key = cwHashString x.name → y.key = x.name := by
    intro x hx y hy he
    refine hinj y.key (mem_cons_of_mem _ (mem_append_left _ ?_)) x.name
      (mem_cons_of_mem _ (mem_append_left _ ?_)) he
    · exact mem_append_right _ (mem_map_of_mem hy)
    · exact mem_append_left _ (mem_map_of_mem hx)
  have hempty : initial.vars c = [] := rfl
  rw [hvars, hempty, foldl_setVars hok hnames, getvar_eq hinj hn, retrieve_eq hinj, plain_iff,
    length_filter_varName fun x hx => (mem_of_mem_kept (mem_reverse.mp hx)).2, filter_reverse,
    length_reverse]
  exact ⟨fun ⟨hs, hp, hf⟩ => ⟨hs, hp, hf⟩, fun ⟨hs, hp, hf⟩ => ⟨hs, hp, hf⟩⟩

def bare : Fields where
  cidNum := none
  cidName := none
  cidAni := none
  cidDnid := none
  cidRdnis := none
  cidPres := 0
  cidAni2 := 0
  cidTon := 0
  cidTns := 0
  hint := none
  hintName := none
  exten := []
  context := []
  priority := 0
  name := []
  uniqueid := []
  hangupcause := 0
  accountcode := []
  language := []

/-- A variable is set, deleted and set again. -/
theorem variable_store_law_again : ∃ t, Runs step anyStep initial
      [.setvar 0 [chr 'x'] (some [chr '1']), .setvar 0 [chr 'x'] none,
        .setvar 0 [chr 'x'] (some [chr '2'])] t ∧
    ((t.vars 0).filter (·.varName = [chr 'x'])).length ≤ 1 ∧
    getvarHelper (some (t.vars 0)) [] [chr 'x'] = some [chr '2'] ∧
    retrieveUnsliced noGlobals (some (bare, t.vars 0)) none 80 [chr 'x'] = some [chr '2'] := by
  obtain ⟨t, ht, hiff⟩ := variable_store_law 0 noGlobals bare 80
    [⟨[chr 'x'], some [chr '1']⟩, ⟨[chr 'x'], none⟩, ⟨[chr 'x'], some [chr '2']⟩] [chr 'x']
    (by decide) (by decide)
    (by decide)
  exact ⟨t, ht, hiff.mpr ⟨by decide, by decide, by decide⟩⟩

/-- Two sets of `_x` leave two variables of the name `x`, which one reader does not find. -/
theorem underscored_variable_not_found : ∃ t, Runs step anyStep initial
      [.setvar 0 [chr '_', chr 'x'] (some [chr '1']),
        .setvar 0 [chr '_', chr 'x'] (some [chr '2'])] t ∧
    ((t.vars 0).filter (·.varName = [chr 'x'])).length = 2 ∧
    getvarHelper (some (t.vars 0)) [] [chr 'x'] = none ∧
    retrieveUnsliced noGlobals (some (bare, t.vars 0)) none 80 [chr 'x'] = some [chr '2'] :=
  exists_runs_of_exec (by decide +kernel)

end CallWeaver.Channel
