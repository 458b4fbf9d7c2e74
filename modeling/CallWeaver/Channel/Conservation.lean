import CallWeaver.Channel.Shape

/-! # Conservation of variables across masquerades

A masquerade hands the variables of the clone over in one piece and sets the last pointer to the
first of them. What is appended next takes the place of the others. Variables are conserved in
exactly those runs in which nothing is appended to a list with variables behind its last one.
-/

namespace CallWeaver.Channel

open Function List Option

def sameName (a b : CStr) : Prop := a.dropWhile (· = chr '_') = b.dropWhile (· = chr '_')
  deriving Decidable

def Keeps (s t : State) (d e : ℕ) : Prop := e ∈ t.entries d ∧ t.var e = s.var e

/-- A masquerade leaves the previous variables other than group variables, and then those of the
clone. Otherwise nothing gets lost but variables with the name that is set. -/
def Conserves (s : State) (act : Act) (t : State) : Prop :=
  t.crashed = false ∧ match act with
    | .setvar c name _ =>
      ∀ d, ∀ e ∈ s.entries d, Keeps s t d e ∨ d = c ∧ ∃ v, s.var e = some v ∧ sameName v.name name
    | .inherit _ _ => ∀ d, ∀ e ∈ s.entries d, Keeps s t d e
    | .clone original clone =>
      t.entries original = s.staying (s.entries original) ++ s.entries clone ∧
        (∀ e ∈ t.entries original, t.var e = s.var e) ∧
        ∀ d, d ≠ original → d ≠ clone → ∀ e ∈ s.entries d, Keeps s t d e

def State.behind (s : State) (c : ℕ) : List ℕ := CallWeaver.behind (s.entries c) (s.varshead c).last

/-- Nothing is appended to a list with variables behind its last one, and no other name has the hash
of the name that is set. -/
def Tidy (s : State) : Act → Prop
  | .setvar c name _ => ∀ e ∈ (s.entries c).find? (s.hasHash (cwHashString (nametail name))),
      ∀ v ∈ s.var e,
    sameName v.name name
  | .inherit parent child => s.behind child = [] ∨ ∀ e ∈ s.entries parent, s.transferable e = false
  | .clone original clone => s.entries clone = [] ∨ ∀ e ∈ s.behind original, s.isGroup e = true

variable {s t : State} {front back : ℕ → List ℕ} {c d parent child original clone e : ℕ}
  {name : CStr} {value : Option CStr} {act : Act} {new x : List ℕ}

section

variable (h : Shape s front back)

include h

theorem Shape.behind_eq : s.behind c = back c := by
  rw [State.behind, h.entries_eq]
  exact (h.lists c).behind

theorem Shape.keeps_setvar_iff (hs : setvarHelper s c name value = some t) (he : e ∈ s.entries d) :
    Keeps s t d e ↔
      ¬ (d = c ∧ (s.entries c).find? (s.hasHash (cwHashString (nametail name))) = some e) := by
  obtain ⟨t', ht, -, hshape, hvar, -⟩ := h.setvar (c := c) name value rfl
  obtain rfl := some.inj (ht.symm.trans hs)
  simp only [h.entries_eq] at he ⊢
  rw [Keeps, hshape.entries_eq, both_update]
  have hlt := h.lt_used he
  by_cases hd : d = c
  · subst hd
    obtain ⟨hf, hb, -⟩ := nodup_append.mp (h.lists d).nodup
    have hnew : e ∉ (value.map fun _ => s.used).toList := by
      cases value <;> simp
      omega
    simp only [update_self, mem_append, Shape.mem_without hf, Shape.mem_without hb, true_and]
    constructor
    · rintro ⟨(h' | h') | h', -⟩
      · exact absurd h' hnew
      · exact h'.2
      · exact h'.2
    · intro hne
      refine ⟨?_, hvar e hlt hne⟩
      rcases mem_append.mp he with he | he
      · exact .inl (.inr ⟨he, hne⟩)
      · exact .inr ⟨he, hne⟩
  · have hne : (both front back c).find? (s.hasHash (cwHashString (nametail name))) ≠ some e :=
      fun hfind =>
      hd (h.owned.unique d c e he (mem_of_find?_eq_some hfind))
    simp only [update_of_ne hd, hd, false_and, not_false_eq_true, iff_true]
    exact ⟨he, hvar e hlt hne⟩

theorem Shape.conserves_setvar_iff (hcrash : t.crashed = false)
    (hs : setvarHelper s c name value = some t) :
    Conserves s (.setvar c name value) t ↔ Tidy s (.setvar c name value) := by
  simp only [Conserves, hcrash, true_and, Tidy]
  constructor
  · intro hkeep e hfind v hv
    have he : e ∈ s.entries c := mem_of_find?_eq_some hfind
    rcases hkeep c e he with hkeep | ⟨-, w, hw, hname⟩
    · exact absurd ⟨rfl, hfind⟩ ((h.keeps_setvar_iff hs he).mp hkeep)
    · obtain rfl := some.inj (hw.symm.trans hv)
      exact hname
  · intro htidy d e he
    by_cases hfound : d = c ∧
      (s.entries c).find? (s.hasHash (cwHashString (nametail name))) = some e
    · obtain ⟨v, hv⟩ := h.var_eq (h.entries_eq ▸ he)
      exact .inr ⟨hfound.1, v, hv, htidy e hfound.2 v hv⟩
    · exact .inl ((h.keeps_setvar_iff hs he).mpr hfound)

theorem Shape.inherit (hne : parent ≠ child) :
    (inheritVariables s parent child = none ∧ front child = [] ∧ back child ≠ [] ∧
      ∃ e ∈ s.entries parent, s.transferable e = true) ∨
    ∃ t new, inheritVariables s parent child = some t ∧ t.crashed = s.crashed ∧
      (new = [] ↔ ∀ e ∈ s.entries parent, s.transferable e = false) ∧ (∀ a ∈ new, s.used ≤ a) ∧
      Shape t (update front child (front child ++ new))
      (update back child (if new = [] then back child else [])) ∧
      ∀ a < s.used, t.var a = s.var a := by
  have hl : both front back parent = [] ++ both front back parent := rfl
  rw [inheritVariables, h.first_eq, h.entries_eq]
  by_cases hback : front child = [] → back child = []
  · exact .inr (h.inheritLoop_eq_some hne hl h.length_le hback)
  push Not at hback
  have hstuck := h.inheritLoop_stuck hl h.length_le hback.1 hback.2
  by_cases htrans : (both front back parent).any s.transferable = true
  · exact .inl ⟨hstuck.trans (if_pos htrans), hback.1, hback.2, any_eq_true.mp htrans⟩
  · rw [if_neg htrans] at hstuck
    exact .inr ⟨s, [], hstuck, rfl, by simpa using htrans, by simp, by simpa using h,
      fun _ _ => rfl⟩

theorem Shape.keeps_inherit_iff (hnew : ∀ a ∈ new, s.used ≤ a)
    (ht : Shape t (update front child (front child ++ new))
      (update back child (if new = [] then back child else [])))
    (hvar : ∀ a < s.used, t.var a = s.var a) :
    (∀ d, ∀ e ∈ s.entries d, Keeps s t d e) ↔ s.behind child = [] ∨ new = [] := by
  rw [h.behind_eq]
  constructor
  · intro hkeep
    by_contra hlost
    push Not at hlost
    obtain ⟨e, he⟩ := exists_mem_of_ne_nil _ hlost.1
    have hmem : e ∈ both front back child := mem_append_right _ he
    have hin := (hkeep child e (h.entries_eq ▸ hmem)).1
    rw [ht.entries_eq, both_update, update_self, if_neg hlost.2, append_nil] at hin
    rcases mem_append.mp hin with hin | hin
    · exact (nodup_append.mp (h.lists child).nodup).2.2 e hin e he rfl
    · exact absurd (h.lt_used hmem) (by have := hnew e hin; omega)
  · intro hok d e he
    rw [h.entries_eq] at he
    refine ⟨?_, hvar e (h.lt_used he)⟩
    rw [ht.entries_eq, both_update]
    by_cases hd : d = child
    · subst hd
      rw [update_self]
      rcases mem_append.mp he with he | he
      · simp [he]
      · rcases hok with hok | hok
        · simp [hok] at he
        · simp [hok, he]
    · rwa [update_of_ne hd]

theorem Shape.masquerade (hne : original ≠ clone) :
    (masquerade s original clone = none ∧ s.staying (front original) = [] ∧
      s.staying (back original) ≠ [] ∧ s.entries clone ≠ []) ∨
    ∃ t front' back', masquerade s original clone = some t ∧ t.crashed = s.crashed ∧
      Shape t front' back' ∧ both front' back' original = s.staying (front original) ++
        (if s.entries clone = [] then s.staying (back original) else s.entries clone) ∧
      (∀ d, d ≠ original → d ≠ clone → both front' back' d = both front back d) ∧
      ∀ d, ∀ e ∈ both front back d, (d = original → s.isGroup e = false) → t.var e = s.var e := by
  have hl : both front back original = [] ++ both front back original := rfl
  obtain ⟨u, hu, hcrash, hused, hshape, hvar⟩ := h.groupLoop hl h.length_le (by simp)
  rw [← h.first_eq] at hu
  have hvar' : ∀ d, ∀ e ∈ both front back d, (d = original → s.isGroup e = false) →
      u.var e = s.var e :=
    fun d e he hg => hvar e fun hm => hg (h.owned.unique d original e he hm)
  have hclone : both (update front original (s.staying (front original)))
      (update back original (s.staying (back original))) clone = both front back clone := by
    rw [both_update, update_of_ne hne.symm]
  have hfirst := hshape.first_eq (c := clone)
  rw [hclone] at hfirst
  rw [h.entries_eq]
  cases hlist : both front back clone with
  | nil =>
    rw [hlist] at hfirst
    -- the head of an empty list is empty already
    have hempty : u.varshead clone = Ends.empty := by
      have hlast := (hshape.lists clone).last
      rw [update_of_ne hne.symm, (append_eq_nil_iff.mp hlist).1] at hlast
      generalize u.varshead clone = e at hfirst hlast
      obtain ⟨_, _⟩ := e
      simp_all [Ends.empty]
    have hstate : { u with varshead := update u.varshead clone Ends.empty } = u := by
      rw [← hempty, Function.update_eq_self]
    refine .inr ⟨u, _, _, ?_, hcrash, hshape, by simp [both], fun d hd _ => ?_, hvar'⟩
    · simp [Channel.masquerade, cloneVariables, hu, hfirst, hstate]
    · rw [both_update, update_of_ne hd]
  | cons a chain =>
    rw [hlist] at hfirst hclone
    by_cases hback : s.staying (front original) = [] → s.staying (back original) = []
    · obtain ⟨r, hr, hspliced⟩ := hshape.splice hne hclone (by simpa using hback)
      refine .inr
        ⟨{ u.relink original r with
          varshead := update (u.relink original r).varshead clone Ends.empty },
        _, _, ?_, hcrash, hspliced, ?_, ?_, hvar'⟩
      · simp [Channel.masquerade, cloneVariables, hu, hfirst, hr]
      · simp [both]
      · intro d hdo hdc
        simp [both, hdo, hdc]
    · push Not at hback
      have hlists := hshape.lists original
      rw [update_self, update_self, hback.1] at hlists
      refine .inl ⟨?_, hback.1, hback.2, by simp⟩
      simp [Channel.masquerade, cloneVariables, hu, hfirst, hlists.insertTail_eq_none hback.2]

end

theorem State.staying_append (x y : List ℕ) : s.staying (x ++ y) = s.staying x ++ s.staying y :=
  filter_append ..

theorem State.staying_eq_nil_iff : s.staying x = [] ↔ ∀ e ∈ x, s.isGroup e = true := by
  simp [State.staying, filter_eq_nil_iff]

/-- What is behind the last variable gets lost when those of a clone are appended. -/
theorem Shape.conserves_clone_iff (h : Shape s front back) (hne : original ≠ clone)
    (hcrash : s.crashed = false) (ht : s.orCrash (Channel.masquerade s original clone) = t) :
    (Conserves s (.clone original clone) t ↔ Tidy s (.clone original clone)) ∧
      (t.crashed = false → ∃ front back, Shape t front back) := by
  subst ht
  simp only [Conserves, Tidy, h.behind_eq, ← State.staying_eq_nil_iff]
  rcases h.masquerade hne with ⟨hnone, -, hback, hclone⟩ |
    ⟨t, front', back', hsome, hcrash', hshape, horig, hother, hvar⟩
  · rw [hnone]
    simp [State.orCrash, hback, hclone]
  rw [hsome, State.orCrash, getD_some, hcrash', hcrash]
  refine ⟨?_, fun _ => ⟨_, _, hshape⟩⟩
  have hkeeps : ∀ d, d ≠ original → d ≠ clone → ∀ e ∈ s.entries d, Keeps s t d e := by
    intro d hdo hdc e he
    rw [h.entries_eq] at he
    refine ⟨?_, hvar d e he fun hd => absurd hd hdo⟩
    rwa [hshape.entries_eq, hother d hdo hdc]
  have hvars : ∀ e ∈ t.entries original, t.var e = s.var e := by
    intro e he
    have hstay : e ∈ s.staying (both front back original) → t.var e = s.var e := fun hm => by
      obtain ⟨hm, hg⟩ := mem_filter.mp hm
      exact hvar original e hm fun _ => by simpa using hg
    rw [hshape.entries_eq, horig] at he
    rcases mem_append.mp he with he | he
    · exact hstay (State.staying_append .. ▸ mem_append_left _ he)
    · split at he
      · exact hstay (State.staying_append .. ▸ mem_append_right _ he)
      · exact hvar clone e (h.entries_eq ▸ he) fun hc => absurd hc.symm hne
  have hlist : t.entries original = s.staying (s.entries original) ++ s.entries clone ↔
      s.entries clone = [] ∨ s.staying (back original) = [] := by
    rw [hshape.entries_eq, horig, h.entries_eq (c := original), both, State.staying_append,
      append_assoc, append_right_inj]
    by_cases hc : s.entries clone = []
    · simp [hc]
    · simp [hc]
  constructor
  · exact fun hcons => hlist.mp hcons.2.1
  · exact fun htidy => ⟨rfl, hlist.mpr htidy, hvars, hkeeps⟩

/-- A state that a run reaches before something goes wrong. -/
def Sound (s : State) : Prop := s.crashed = false ∧ ∃ front back, Shape s front back

theorem conserves_iff (hs : Sound s) (ht : step s act = some t) :
    (Conserves s act t ↔ Tidy s act) ∧ (Conserves s act t → Sound t) := by
  obtain ⟨hcrash, front, back, h⟩ := hs
  cases act with
  | setvar c name value =>
    obtain ⟨u, hu, hcrash', hshape, -⟩ := h.setvar (c := c) name value rfl
    simp only [step, hcrash, hu, State.orCrash, getD_some, ite_none_left_eq_some, some.injEq] at ht
    obtain ⟨-, rfl⟩ := ht
    exact ⟨h.conserves_setvar_iff (hcrash'.trans hcrash) hu,
      fun _ => ⟨hcrash'.trans hcrash, _, _, hshape⟩⟩
  | inherit parent child =>
    simp only [step, hcrash, Bool.false_eq_true, false_or, ite_none_left_eq_some, some.injEq] at ht
    obtain ⟨hne, rfl⟩ := ht
    rcases h.inherit hne with ⟨hnone, hfront, hback, e, he, htrans⟩ |
      ⟨u, new, hu, hcrash', hnew, hfresh, hshape, hvar⟩
    · rw [hnone]
      simp only [Conserves, State.orCrash, getD_none, Bool.true_eq_false, false_and, false_iff,
        false_implies, and_true, Tidy, h.behind_eq, not_or]
      exact ⟨hback, fun hidle => by simp [hidle e he] at htrans⟩
    · rw [hu, State.orCrash, getD_some]
      refine ⟨?_, fun _ => ⟨hcrash'.trans hcrash, _, _, hshape⟩⟩
      rw [Conserves, Tidy, ← hnew, ← h.keeps_inherit_iff hfresh hshape hvar]
      exact and_iff_right (hcrash'.trans hcrash)
  | clone original clone =>
    simp only [step, hcrash, Bool.false_eq_true, false_or, ite_none_left_eq_some, some.injEq] at ht
    obtain ⟨hne, ht⟩ := ht
    obtain ⟨hiff, hshape⟩ := h.conserves_clone_iff hne hcrash ht
    exact ⟨hiff, fun hcons => ⟨hcons.1, hshape hcons.1⟩⟩

/-- Every step of a run conserves the variables if and only if nothing is ever appended to a list
with variables behind its last one, and no set meets another name with the same hash. -/
theorem masquerade_conservation (acts : List Act) (t : State) :
    Runs step Conserves initial acts t ↔ Runs step (fun s act _ => Tidy s act) initial acts t := by
  refine Runs.iff_of_invariant (I := Sound) (fun s act t hs ht => ?_) ⟨rfl, _, _, shape_initial⟩
  exact conserves_iff hs ht

/-- A channel with the variables `a` and `b` is masqueraded into an empty one, and another one has
`_x` to inherit. -/
def masqueraded : List Act :=
  [.setvar 1 [chr 'a'] (some [chr '1']), .setvar 1 [chr 'b'] (some [chr '2']), .clone 0 1,
    .setvar 2 [chr '_', chr 'x'] (some [chr '3'])]

/-- What is inherited after a masquerade takes the place of `a`; when `b` has been deleted before,
there is no last variable to link it to. -/
theorem masqueraded_variable_lost :
    (∃ s, Runs step anyStep initial masqueraded s ∧
      s.vars 0 = [varAssign [chr 'b'] [chr '2'], varAssign [chr 'a'] [chr '1']]) ∧
    (∃ s, Runs step anyStep initial (masqueraded ++ [.inherit 2 0]) s ∧
      s.vars 0 = [varAssign [chr 'b'] [chr '2'], varAssign [chr 'x'] [chr '3']]) ∧
    ∃ s, Runs step anyStep initial (masqueraded ++ [.setvar 0 [chr 'b'] none, .inherit 2 0]) s ∧
      s.crashed = true := by
  refine ⟨?_, ?_, ?_⟩
  · exact exists_runs_of_exec (by decide +kernel)
  · exact exists_runs_of_exec (by decide +kernel)
  · exact exists_runs_of_exec (by decide +kernel)

end CallWeaver.Channel
