import Mathlib.Data.List.Perm.Subperm
import CallWeaver.Base.Ownership
import CallWeaver.Channel.Variables

/-! # The lists of variables and their last pointers

Every variable in memory is in the list of at most one channel. Each list has a front, up to the
variable recorded as the last, and those behind it. Here is what each operation does to both parts.
-/

namespace CallWeaver.Channel

open Function List

def State.live (s : State) (a : ℕ) : Bool := (s.var a).isSome

def both (front back : ℕ → List ℕ) (c : ℕ) : List ℕ := front c ++ back c

structure Shape (s : State) (front back : ℕ → List ℕ) : Prop where
  lists : ∀ c, Ends.Lists s.next (s.varshead c) (front c) (back c)
  owned : Owned s.live (both front back)
  fresh : ∀ a, s.used ≤ a → s.var a = none

variable {s t : State} {front back : ℕ → List ℕ} {a c d : ℕ} {x y pre post m chain : List ℕ}

theorem both_update :
    both (update front c x) (update back c y) = update (both front back) c (x ++ y) := by
  funext d
  by_cases hd : d = c
  · subst hd
    simp [both]
  · simp [both, hd]

theorem shape_initial : Shape initial (fun _ => []) fun _ => [] := by
  constructor
  · exact fun _ => Ends.Lists.nil
  · exact ⟨fun _ => nodup_nil, by simp [both], by simp [both]⟩
  · exact fun _ _ => rfl

namespace Shape

variable (h : Shape s front back)

include h

theorem lt_used (ha : a ∈ both front back c) : a < s.used := by
  by_contra hlt
  have hlive := h.owned.allocated c a ha
  rw [State.live, h.fresh a (by omega)] at hlive
  cases hlive

theorem var_eq (ha : a ∈ both front back c) : ∃ v, s.var a = some v :=
  Option.isSome_iff_exists.mp (h.owned.allocated c a ha)

theorem length_le : (both front back c).length ≤ s.used := by
  have hsub : both front back c ⊆ List.range s.used := fun a ha => mem_range.mpr (h.lt_used ha)
  simpa using ((h.owned.nodup c).subperm hsub).length_le

theorem entries_eq : s.entries c = both front back c :=
  (h.lists c).walk h.length_le

theorem first_eq : (s.varshead c).first = (both front back c).head? :=
  (h.lists c).first_eq

theorem next_eq (hl : both front back c = pre ++ a :: post) : s.next a = post.head? := by
  have hseg := (h.lists c).seg
  rw [show front c ++ back c = _ from hl] at hseg
  rw [hseg.link_eq, Option.or_none]

theorem change (hl : Ends.Lists t.next (t.varshead c) x y)
    (hhead : ∀ d, d ≠ c → t.varshead d = s.varshead d)
    (hnext : ∀ d, d ≠ c → ∀ a ∈ both front back d, t.next a = s.next a)
    (howned : Owned t.live (update (both front back) c (x ++ y)))
    (hfresh : ∀ a, t.used ≤ a → t.var a = none) : Shape t (update front c x) (update back c y) := by
  refine ⟨fun d => ?_, both_update ▸ howned, hfresh⟩
  by_cases hd : d = c
  · subst hd
    simpa using hl
  · simp only [update_of_ne hd, hhead d hd]
    exact (h.lists d).congr (hnext d hd)

theorem assign (name value : CStr) : Shape (s.assign name value) front back := by
  have hne : ∀ d, ∀ a ∈ both front back d, a ≠ s.used := fun d a ha => Nat.ne_of_lt (h.lt_used ha)
  refine ⟨fun d => (h.lists d).congr fun a ha => update_of_ne (hne d a ha) ..,
    ⟨h.owned.nodup, h.owned.unique, ?_⟩, ?_⟩
  · intro d a ha
    simp only [State.live, State.assign, update_of_ne (hne d a ha)]
    exact h.owned.allocated d a ha
  · intro a ha
    simp only [State.assign] at ha ⊢
    rw [update_of_ne (by omega)]
    exact h.fresh a (by omega)

theorem assign_notMem : s.used ∉ both front back c :=
  fun hm => absurd (h.lt_used hm) (by omega)

theorem remove (ha : a ∈ both front back c) :
    ∃ t, s.remove c a = some t ∧
      Shape t (update front c ((front c).erase a)) (update back c ((back c).erase a)) ∧
      t.var = update s.var a none ∧ t.used = s.used ∧ t.crashed = s.crashed := by
  obtain ⟨link, e, hrem, hl, hother⟩ := (h.lists c).remove ha h.length_le
  refine ⟨{ s.relink c (link, e) with var := update s.var a none }, by rw [State.remove, hrem]; rfl,
    h.change ?_ ?_ ?_ ?_ ?_, rfl, rfl, rfl⟩
  · simpa [State.relink] using hl
  · exact fun d hd => update_of_ne hd ..
  · exact fun d hd b hb => hother b fun hm => hd (h.owned.unique d c b hb hm)
  · have hlive : State.live { s.relink c (link, e) with var := update s.var a none } =
        update s.live a false := by
      funext b
      by_cases hb : b = a
      · subst hb
        simp [State.live]
      · simp [State.live, hb]
    rw [hlive]
    have hnot : a ∉ (front c).erase a ++ (back c).erase a := by
      obtain ⟨hf, hb, -⟩ := nodup_append.mp (h.lists c).nodup
      rw [mem_append, not_or]
      exact ⟨hf.not_mem_erase, hb.not_mem_erase⟩
    exact h.owned.free (List.Sublist.append erase_sublist erase_sublist) ha hnot
  · intro b hb
    by_cases hba : b = a
    · subst hba
      exact update_self ..
    · simp only [update_of_ne hba]
      exact h.fresh b hb

theorem insertHead (hfree : ∀ d, a ∉ both front back d) (ha : s.live a = true) :
    Shape (s.relink c (Ends.insertHead s.next (s.varshead c) a))
      (update front c (a :: front c)) back := by
  have hchange := h.change (t := s.relink c (Ends.insertHead s.next (s.varshead c) a)) (c := c)
    (x := a :: front c) (y := back c)
    (by simpa [State.relink] using (h.lists c).insertHead (hfree c))
    (fun d hd => update_of_ne hd ..) (fun d _ b hb =>
      update_of_ne (ne_of_mem_of_not_mem hb (hfree d)) ..)
    (h.owned.acquire hfree ha .rfl) h.fresh
  rwa [update_eq_self] at hchange

theorem append (hchain : Seg s.next (some a) (a :: m) none) (hnd : (a :: m).Nodup)
    (hfree : ∀ b ∈ a :: m, s.live b = true ∧ ∀ d, b ∉ both front back d)
    (hback : front c = [] → back c = []) : ∃ r, Ends.insertTail s.next (s.varshead c) a = some r ∧
      Shape (s.relink c r) (update front c (front c ++ [a])) (update back c m) := by
  have hnd' : (front c ++ a :: m).Nodup := by
    refine nodup_append.mpr ⟨(nodup_append.mp (h.lists c).nodup).1, hnd, ?_⟩
    rintro b hb _ hm rfl
    exact (hfree b hm).2 c (mem_append_left _ hb)
  obtain ⟨link, e, hins, hl, hother⟩ := (h.lists c).insertTail hchain hnd' hback
  refine ⟨(link, e), hins,
    h.change (by simpa [State.relink] using hl) (fun d hd => update_of_ne hd ..) ?_ ?_ h.fresh⟩
  · intro d hd b hb
    exact hother b fun hm => hd (h.owned.unique d c b hb (mem_append_left _ hm))
  · refine h.owned.change (by simpa using hnd') fun b hb => ?_
    rw [append_assoc, singleton_append] at hb
    exact (mem_append.mp hb).imp (mem_append_left _) (hfree b)

theorem splice (hcd : c ≠ d) (hchain : both front back d = a :: chain)
    (hback : front c = [] → back c = []) :
    ∃ r, Ends.insertTail s.next (s.varshead c) a = some r ∧
      Shape { s.relink c r with varshead := update (s.relink c r).varshead d Ends.empty }
        (update (update front d []) c (front c ++ [a])) (update (update back d []) c chain) := by
  have hseg : Seg s.next (some a) (a :: chain) none := by
    have hseg := (h.lists d).seg
    rw [show front d ++ back d = _ from hchain] at hseg
    exact ⟨rfl, hseg.2⟩
  -- the variables of the clone are free when its list is empty
  have hempty : Shape { s with varshead := update s.varshead d Ends.empty } (update front d [])
      (update back d []) :=
    h.change (by simpa using Ends.Lists.nil) (fun k hk => update_of_ne hk ..) (fun _ _ _ _ => rfl)
      (h.owned.shrink (nil_sublist _)) h.fresh
  have happend := hempty.append (c := c) hseg (hchain ▸ h.owned.nodup d) (fun b hb => ?_)
    (by simpa [hcd] using hback)
  · simp only [update_of_ne hcd] at happend
    obtain ⟨r, hr, happend⟩ := happend
    refine ⟨r, hr, ?_⟩
    rw [State.relink, update_comm hcd.symm] at happend
    exact happend
  · rw [← hchain] at hb
    refine ⟨h.owned.allocated d b hb, fun k hk => ?_⟩
    rw [both_update] at hk
    rcases Owned.mem_update hk with ⟨-, hk⟩ | ⟨hkd, hk⟩
    · cases hk
    · exact hkd (h.owned.unique k d b hk hb)

end Shape

section Operations

variable {l : List ℕ} {fuel : ℕ} {parent child original clone : ℕ}

def State.hasHash (s : State) (hash : UInt32) (a : ℕ) : Bool := (s.var a).any (hash = ·.hash)

def State.transferable (s : State) (a : ℕ) : Bool :=
  (s.var a).any fun v => (inheritedName v.name).isSome

def State.isGroup (s : State) (a : ℕ) : Bool := (s.var a).any Var.isGroup

def State.staying (s : State) (l : List ℕ) : List ℕ := l.filter fun a => !s.isGroup a

def without (found : Option ℕ) (l : List ℕ) : List ℕ := found.elim l l.erase

namespace Shape

section

variable (h : Shape s front back)

include h

theorem find_eq (hash : UInt32) (hl : both front back c = pre ++ l) (hf : l.length ≤ fuel) :
    s.find hash fuel l.head? = some (l.find? (s.hasHash hash)) := by
  induction l generalizing fuel pre with
  | nil => cases fuel <;> rfl
  | cons a l ih =>
    obtain ⟨fuel, rfl, hf'⟩ := exists_fuel hf
    obtain ⟨v, hv⟩ := h.var_eq (a := a) (c := c) (by simp [hl])
    have ih := ih (append_cons pre a l ▸ hl) hf'
    rw [head?_cons, State.find, hv, h.next_eq hl, ih, find?_cons, State.hasHash, hv]
    by_cases hh : hash = v.hash <;> simp [hh]

theorem removeFound (found : Option ℕ) (hfound : ∀ a, found = some a → a ∈ both front back c) :
    ∃ t, found.elim (some s) (s.remove c) = some t ∧
      Shape t (update front c (without found (front c))) (update back c (without found (back c))) ∧
      (∀ a, found ≠ some a → t.var a = s.var a) ∧ t.used = s.used ∧ t.crashed = s.crashed := by
  cases found with
  | none => exact ⟨s, rfl, by simpa [without] using h, fun _ _ => rfl, rfl, rfl⟩
  | some a =>
    obtain ⟨t, ht, hshape, hvar, hused, hcrash⟩ := h.remove (hfound a rfl)
    refine ⟨t, ht, hshape, fun b hb => ?_, hused, hcrash⟩
    rw [hvar, update_of_ne]
    rintro rfl
    exact hb rfl

theorem setvar (name : CStr) (value : Option CStr) {found : Option ℕ}
    (hfound : found = (both front back c).find? (s.hasHash (cwHashString (nametail name)))) :
    ∃ t, setvarHelper s c name value = some t ∧ t.crashed = s.crashed ∧
      Shape t (update front c ((value.map fun _ => s.used).toList ++ without found (front c)))
        (update back c (without found (back c))) ∧
      (∀ a < s.used, found ≠ some a → t.var a = s.var a) ∧
      ∀ v, value = some v → t.var s.used = some (varAssign name v) := by
  have hfind :=
    h.find_eq (cwHashString (nametail name)) (nil_append (both front back c)).symm h.length_le
  rw [← h.first_eq, ← hfound] at hfind
  obtain ⟨u, hu, hshape, hvar, hused, hcrash⟩ := h.removeFound (c := c) found
    fun a ha => mem_of_find?_eq_some (hfound ▸ ha)
  cases value with
  | none =>
    refine ⟨u, by simp [setvarHelper, hfind, hu], hcrash, by simpa using hshape,
      fun a _ => hvar a, ?_⟩
    rintro v ⟨⟩
  | some v =>
    let w := u.assign name v
    refine ⟨w.relink c (Ends.insertHead w.next (w.varshead c) u.used),
      by simp [setvarHelper, hfind, hu, w], hcrash, ?_, fun a ha hne => ?_, ?_⟩
    · have hlive : (u.assign name v).live u.used = true := by simp [State.live, State.assign]
      have hins := (hshape.assign name v).insertHead (c := c) (fun d => hshape.assign_notMem) hlive
      simpa [← hused] using hins
    · rw [← hvar a hne]
      exact update_of_ne (by omega) ..
    · rintro _ ⟨⟩
      rw [← hused]
      exact update_self ..

theorem inheritLoop_stuck (hl : both front back parent = pre ++ l) (hf : l.length ≤ fuel)
    (hfront : front child = []) (hback : back child ≠ []) :
    inheritLoop child fuel l.head? s = if l.any s.transferable then none else some s := by
  induction l generalizing fuel pre with
  | nil => cases fuel <;> simp [inheritLoop]
  | cons a l ih =>
    obtain ⟨fuel, rfl, hf'⟩ := exists_fuel hf
    obtain ⟨v, hv⟩ := h.var_eq (a := a) (c := parent) (by simp [hl])
    cases hname : inheritedName v.name with
    | none =>
      have ih := ih (append_cons pre a l ▸ hl) hf'
      simp [inheritLoop, hv, hname, h.next_eq hl, ih, State.transferable]
    | some name =>
      have hlists := (h.assign name v.value).lists child
      rw [hfront] at hlists
      simp [inheritLoop, hv, hname, hlists.insertTail_eq_none hback, State.transferable]

theorem inheritLoop_eq_some (hne : parent ≠ child) (hl : both front back parent = pre ++ l)
    (hf : l.length ≤ fuel) (hback : front child = [] → back child = []) :
    ∃ t new, inheritLoop child fuel l.head? s = some t ∧ t.crashed = s.crashed ∧
      (new = [] ↔ ∀ a ∈ l, s.transferable a = false) ∧ (∀ a ∈ new, s.used ≤ a) ∧
      Shape t (update front child (front child ++ new))
      (update back child (if new = [] then back child else [])) ∧
      ∀ a < s.used, t.var a = s.var a := by
  induction l generalizing fuel pre s front back with
  | nil =>
    exact ⟨s, [], by cases fuel <;> rfl, rfl, by simp, by simp, by simpa using h, fun _ _ => rfl⟩
  | cons a l ih =>
    obtain ⟨fuel, rfl, hf'⟩ := exists_fuel hf
    obtain ⟨v, hv⟩ := h.var_eq (a := a) (c := parent) (by simp [hl])
    cases hname : inheritedName v.name with
    | none =>
      obtain ⟨t, new, ht, hcrash, hnew, hfresh, hshape, hvar⟩ :=
        ih h (append_cons pre a l ▸ hl) hf' hback
      refine ⟨t, new, by simp [inheritLoop, hv, hname, h.next_eq hl, ht], hcrash, ?_, hfresh,
        hshape, hvar⟩
      simp [hnew, State.transferable, hv, hname]
    | some name =>
      have hassign := h.assign name v.value
      obtain ⟨r, hr, hins⟩ :=
        hassign.append (a := s.used) (c := child) ⟨rfl, by simp [State.assign]⟩ (nodup_singleton _)
        (forall_mem_singleton.mpr ⟨by simp [State.live, State.assign], fun d => h.assign_notMem⟩)
          hback
      have hl' : both (update front child (front child ++ [s.used])) (update back child []) parent =
          pre ++ a :: l := by
        rw [both_update, update_of_ne hne, hl]
      obtain ⟨t, new, ht, hcrash, -, hfresh, hshape, hvar⟩ :=
        ih hins (append_cons pre a l ▸ hl') hf' (by simp)
      refine ⟨t, s.used :: new, ?_, hcrash, ?_, ?_, ?_, fun b hb => ?_⟩
      · have hnext := hins.next_eq hl'
        simp [inheritLoop, hv, hname, hr, hnext, ht]
      · simp [State.transferable, hv, hname]
      · rintro b (_ | ⟨_, hb⟩)
        · exact Nat.le_refl _
        · exact Nat.le_of_succ_le (hfresh b hb)
      · simpa using hshape
      · rw [hvar b (show b < s.used + 1 by omega)]
        exact update_of_ne (by omega) ..

theorem groupLoop (hl : both front back c = pre ++ l) (hf : l.length ≤ fuel)
    (hpre : ∀ a ∈ pre, s.isGroup a = false) :
    ∃ t, groupLoop c fuel l.head? s = some t ∧ t.crashed = s.crashed ∧ t.used = s.used ∧
      Shape t (update front c (s.staying (front c))) (update back c (s.staying (back c))) ∧
      ∀ a, (a ∈ both front back c → s.isGroup a = false) → t.var a = s.var a := by
  induction l generalizing fuel pre s front back with
  | nil =>
    rw [append_nil] at hl
    have hnone : ∀ a ∈ both front back c, (!s.isGroup a) = true := by
      intro a ha
      rw [hpre a (hl ▸ ha)]
      rfl
    refine ⟨s, by cases fuel <;> rfl, rfl, rfl, ?_, fun _ _ => rfl⟩
    rw [State.staying, State.staying, filter_eq_self.mpr fun a ha => hnone a (mem_append_left _ ha),
      filter_eq_self.mpr fun a ha => hnone a (mem_append_right _ ha), update_eq_self,
      update_eq_self]
    exact h
  | cons a l ih =>
    obtain ⟨fuel, rfl, hf'⟩ := exists_fuel hf
    have ha : a ∈ both front back c := by simp [hl]
    obtain ⟨v, hv⟩ := h.var_eq ha
    by_cases hg : v.isGroup
    · have hgroup : s.isGroup a = true := by simpa [State.isGroup, hv] using hg
      obtain ⟨u, hu, hshape, hvar, hused, hcrash⟩ := h.remove ha
      have hnd := h.owned.nodup c
      rw [hl] at hnd
      have hapre : a ∉ pre := fun hm => (nodup_append.mp hnd).2.2 a hm a mem_cons_self rfl
      have hl' : both (update front c ((front c).erase a)) (update back c ((back c).erase a)) c =
          pre ++ l := by
        rw [both_update, update_self, Ends.Lists.erase_append_erase (h.lists c).nodup,
          show front c ++ back c = _ from hl, erase_append_right _ hapre, erase_cons_head]
      have hsame : ∀ b, b ≠ a → u.isGroup b = s.isGroup b := fun b hb => by
        simp only [State.isGroup, hvar, update_of_ne hb]
      obtain ⟨t, ht, hcrash', hused', hshape', hvar'⟩ := ih hshape hl' hf' fun b hb => by
        rw [hsame b (ne_of_mem_of_not_mem hb hapre), hpre b hb]
      refine ⟨t, ?_, hcrash'.trans hcrash, hused'.trans hused, ?_, fun b hb => ?_⟩
      · simp [Channel.groupLoop, hv, hg, hu, h.next_eq hl, ht]
      · have hfilter : ∀ m : List ℕ, m.Nodup → u.staying (m.erase a) = s.staying m := by
          intro m hm
          rw [State.staying, State.staying, hm.erase_eq_filter, filter_filter]
          refine filter_congr fun b _ => ?_
          by_cases hb : b = a
          · simp [hb, hgroup]
          · simp [hb, hsame b hb]
        obtain ⟨hndf, hndb, -⟩ := nodup_append.mp (h.lists c).nodup
        simpa [hfilter _ hndf, hfilter _ hndb] using hshape'
      · have hba : b ≠ a := by
          rintro rfl
          simp [hb ha] at hgroup
        rw [hvar' b fun hm => ?_, hvar, update_of_ne hba]
        rw [hsame b hba]
        rw [hl'] at hm
        exact hb (hl ▸ by simp at hm ⊢; tauto)
    · have hgroup : s.isGroup a = false := by simpa [State.isGroup, hv] using hg
      obtain ⟨t, ht, hcrash, hused, hshape, hvar⟩ := ih h (append_cons pre a l ▸ hl) hf'
        fun b hb => by
          rcases mem_append.mp hb with hb | hb
          · exact hpre b hb
          · exact mem_singleton.mp hb ▸ hgroup
      exact ⟨t, by simp [Channel.groupLoop, hv, hg, h.next_eq hl, ht], hcrash, hused, hshape, hvar⟩

end

theorem mem_without {found : Option ℕ} (hl : l.Nodup) :
    a ∈ without found l ↔ a ∈ l ∧ found ≠ some a := by
  cases found with
  | none => simp [without]
  | some b =>
    rw [without, Option.elim_some, hl.mem_erase_iff]
    simp [and_comm, eq_comm]

end Shape

end Operations

end CallWeaver.Channel
