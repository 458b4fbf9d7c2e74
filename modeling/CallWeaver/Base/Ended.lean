import Mathlib.Data.List.Nodup
import CallWeaver.Base.Links

/-! # Singly linked lists with a last pointer

The head of a list records its first and its last element. Nothing but the operations keeps the
last pointer in step with the links: it divides the list in a front, up to the recorded last
element, and what is linked behind it.
-/

namespace CallWeaver

open Function List

structure Ends where
  first : Option ℕ
  last : Option ℕ
  deriving DecidableEq, Repr

/-- The elements reached from a pointer, `fuel` of them at most. -/
def walk (link : ℕ → Option ℕ) : ℕ → Option ℕ → List ℕ
  | 0, _ => []
  | _ + 1, none => []
  | fuel + 1, some a => a :: walk link fuel (link a)

/-- The elements of a list behind the one recorded as the last. -/
def behind (l : List ℕ) : Option ℕ → List ℕ
  | none => l
  | some x => (l.dropWhile (· ≠ x)).tail

def findPrev (link : ℕ → Option ℕ) (a : ℕ) : ℕ → Option ℕ → Option ℕ
  | 0, _ => none
  | _ + 1, none => none
  | fuel + 1, some b => if link b = some a then some b else findPrev link a fuel (link b)

namespace Ends

def empty : Ends := ⟨none, none⟩

def insertHead (link : ℕ → Option ℕ) (e : Ends) (a : ℕ) : (ℕ → Option ℕ) × Ends :=
  (update link a e.first, ⟨some a, e.last.or (some a)⟩)

/-- The link of the new element is kept. There is no result for elements without a last one. -/
def insertTail (link : ℕ → Option ℕ) (e : Ends) (a : ℕ) : Option ((ℕ → Option ℕ) × Ends) :=
  match e.first with
  | none => some (link, ⟨some a, some a⟩)
  | some b => e.last.map fun x => (update link x (some a), ⟨some b, some a⟩)

/-- There is no result when the element is not in the list. -/
def remove (link : ℕ → Option ℕ) (fuel : ℕ) (e : Ends) (a : ℕ) : Option ((ℕ → Option ℕ) × Ends) :=
  if e.first = some a then some (link, ⟨link a, if e.last = some a then none else e.last⟩)
  else (findPrev link a fuel e.first).map fun b =>
    (update link b (link a), ⟨e.first, if e.last = some a then some b else e.last⟩)

/-- A list with its elements up to the recorded last one and those behind it. -/
structure Lists (link : ℕ → Option ℕ) (e : Ends) (front back : List ℕ) : Prop where
  nodup : (front ++ back).Nodup
  seg : Seg link e.first (front ++ back) none
  last : e.last = front.getLast?

end Ends

variable {link link' : ℕ → Option ℕ} {e : Ends} {a b : ℕ} {p : Option ℕ}
  {l pre post front back chain : List ℕ} {fuel : ℕ}

theorem exists_fuel {α : Type*} {x : α} {l : List α} (h : (x :: l).length ≤ fuel) :
    ∃ n, fuel = n + 1 ∧ l.length ≤ n := by
  rw [length_cons] at h
  exact ⟨fuel - 1, by omega, by omega⟩

theorem walk_eq (h : Seg link p l none) (hf : l.length ≤ fuel) : walk link fuel p = l := by
  induction l generalizing p fuel with
  | nil =>
    obtain rfl : p = none := h
    cases fuel <;> rfl
  | cons a l ih =>
    obtain ⟨rfl, h⟩ := h
    obtain ⟨fuel, rfl, hf'⟩ := exists_fuel hf
    rw [walk, ih h hf']

theorem behind_eq (h : (front ++ back).Nodup) : behind (front ++ back) front.getLast? = back := by
  rcases eq_nil_or_concat front with rfl | ⟨pre, x, rfl⟩
  · rfl
  · have hx : x ∉ pre := by
      have := (nodup_append.mp h).1
      rw [concat_eq_append, nodup_append] at this
      exact fun hm => this.2.2 x hm x (by simp) rfl
    have hpre : ∀ y ∈ pre, decide (y ≠ x) = true := by
      intro y hy
      exact decide_eq_true fun he => hx (he ▸ hy)
    simp only [concat_eq_append, getLast?_concat, behind, append_assoc]
    rw [dropWhile_append_of_pos hpre]
    simp

theorem findPrev_eq (h : Seg link p (pre ++ b :: a :: post) none)
    (hnd : (pre ++ b :: a :: post).Nodup) (hf : (b :: pre).length ≤ fuel) :
    findPrev link a fuel p = some b := by
  induction pre generalizing p fuel with
  | nil =>
    obtain ⟨rfl, h⟩ := h
    obtain ⟨fuel, rfl, -⟩ := exists_fuel hf
    exact if_pos h.1
  | cons c pre ih =>
    obtain ⟨rfl, h⟩ := h
    obtain ⟨fuel, rfl, hf'⟩ := exists_fuel hf
    have hnd' := (nodup_cons.mp hnd).2
    -- the link of `c` leads to an element in front of `a`
    have hne : link c ≠ some a := by
      rw [h.start_eq]
      cases pre with
      | nil =>
        rintro ⟨⟩
        exact (nodup_cons.mp hnd').1 mem_cons_self
      | cons d pre =>
        rintro ⟨⟩
        exact (nodup_cons.mp hnd').1 (by simp)
    rw [findPrev, if_neg hne, ih h hnd' hf']

namespace Ends.Lists

theorem nil : Lists link Ends.empty [] [] := ⟨nodup_nil, rfl, rfl⟩

section

variable (h : Lists link e front back)

include h

theorem congr (hl : ∀ a ∈ front ++ back, link' a = link a) :
    Lists link' e front back := ⟨h.nodup, h.seg.congr hl, h.last⟩

theorem walk (hf : (front ++ back).length ≤ fuel) :
    walk link fuel e.first = front ++ back := walk_eq h.seg hf

theorem behind : behind (front ++ back) e.last = back := by
  rw [h.last, behind_eq h.nodup]

theorem first_eq : e.first = (front ++ back).head? := by
  rw [h.seg.start_eq, Option.or_none]

theorem insertHead (ha : a ∉ front ++ back) :
    Lists (insertHead link e a).1 (insertHead link e a).2 (a :: front) back := by
  constructor
  · exact nodup_cons.mpr ⟨ha, h.nodup⟩
  · refine ⟨rfl, ?_⟩
    simp only [Ends.insertHead, update_self]
    refine h.seg.congr fun b hb => update_of_ne ?_ ..
    rintro rfl
    exact ha hb
  · simp only [Ends.insertHead, h.last]
    cases front with
    | nil => rfl
    | cons b front => simp [getLast?_cons]

theorem insertTail (hc : Seg link (some a) (a :: chain) none) (hnd : (front ++ a :: chain).Nodup)
    (hback : front = [] → back = []) :
    ∃ link' e', insertTail link e a = some (link', e') ∧ Lists link' e' (front ++ [a]) chain ∧
      ∀ b ∉ front, link' b = link b := by
  have hnd' : ((front ++ [a]) ++ chain).Nodup := by simpa using hnd
  rcases eq_nil_or_concat front with rfl | ⟨pre, x, rfl⟩
  · have hfirst : e.first = none := by
      rw [h.first_eq, hback rfl]
      rfl
    refine ⟨link, ⟨some a, some a⟩, by simp [Ends.insertTail, hfirst], ⟨hnd', hc, rfl⟩,
      fun _ _ => rfl⟩
  · rw [concat_eq_append] at *
    have hlast : e.last = some x := by simp [h.last]
    obtain ⟨b, hb⟩ : ∃ b, e.first = some b := by
      rw [h.first_eq]
      cases pre <;> simp
    obtain ⟨hfront, -, hdisj⟩ := nodup_append.mp hnd
    refine ⟨update link x (some a), ⟨e.first, some a⟩, by simp [Ends.insertTail, hb, hlast],
      ⟨hnd', ?_, by simp⟩, ?_⟩
    · obtain ⟨r, hseg, -⟩ := Seg.append_iff.mp h.seg
      rw [append_assoc]
      refine Seg.append_iff.mpr ⟨some a, hseg.relink hfront (by simp) fun c _ => ?_, ?_⟩
      · by_cases hcx : c = x
        · subst hcx
          simp
        · simp [hcx, Ne.symm hcx]
      · refine hc.congr fun c hc => update_of_ne ?_ ..
        rintro rfl
        exact hdisj c (by simp) c hc rfl
    · intro c hc
      refine update_of_ne ?_ ..
      rintro rfl
      exact hc (by simp)

end

theorem insertTail_eq_none (h : Lists link e [] back) (hback : back ≠ []) :
    Ends.insertTail link e a = none := by
  obtain ⟨b, post, rfl⟩ := exists_cons_of_ne_nil hback
  have hfirst : e.first = some b := h.first_eq
  have hlast : e.last = none := h.last
  simp [Ends.insertTail, hfirst, hlast]

theorem remove_links (h : Seg link e.first (pre ++ a :: post) none) (hnd : (pre ++ a :: post).Nodup)
    (hf : pre.length ≤ fuel) :
    ∃ link' first, Ends.remove link fuel e a =
        some (link', ⟨first, if e.last = some a then pre.getLast? else e.last⟩) ∧
      Seg link' first (pre ++ post) none ∧ ∀ b ∉ pre, link' b = link b := by
  obtain ⟨hpre, hapost, hdisj⟩ := nodup_append.mp hnd
  have hpost : ∀ b ∈ post, b ∉ pre := fun b hb hm => hdisj b hm b (by simp [hb]) rfl
  rcases eq_nil_or_concat pre with rfl | ⟨pre, x, rfl⟩
  · refine ⟨link, link a, if_pos h.1, h.2, fun _ _ => rfl⟩
  · rw [concat_eq_append] at *
    have hne : e.first ≠ some a := by
      rw [h.start_eq]
      intro he
      refine hdisj a ?_ a mem_cons_self rfl
      cases pre <;> simp_all
    have hprev : findPrev link a fuel e.first = some x := by
      rw [append_assoc] at h hnd
      exact findPrev_eq h hnd (by simpa using hf)
    refine ⟨update link x (link a), e.first, ?_, h.unlink hpre (by simp) ?_ hpost, ?_⟩
    · simp [Ends.remove, hne, hprev]
    · intro b _
      by_cases hb : b = x
      · subst hb
        simp
      · simp [hb, Ne.symm hb]
    · intro b hb
      refine update_of_ne ?_ ..
      rintro rfl
      exact hb (by simp)

theorem erase_append_erase (h : (front ++ back).Nodup) :
    front.erase a ++ back.erase a = (front ++ back).erase a := by
  by_cases ha : a ∈ front
  · have hback : a ∉ back := fun hb => (nodup_append.mp h).2.2 a ha a hb rfl
    rw [erase_append_left _ ha, erase_of_not_mem hback]
  · rw [erase_append_right _ ha, erase_of_not_mem ha]

theorem split_at (h : (front ++ back).Nodup) (ha : a ∈ front ++ back) :
    ∃ pre post, front ++ back = pre ++ a :: post ∧
      (if front.getLast? = some a then pre.getLast? else front.getLast?) =
      (front.erase a).getLast? := by
  obtain ⟨hfront, -, -⟩ := nodup_append.mp h
  by_cases hm : a ∈ front
  · obtain ⟨pre, post, rfl⟩ := append_of_mem hm
    obtain ⟨-, hpost, hpre⟩ := nodup_append.mp hfront
    have hapre : a ∉ pre := fun hb => hpre a hb a mem_cons_self rfl
    refine ⟨pre, post ++ back, by simp, ?_⟩
    rw [erase_append_right _ hapre, erase_cons_head]
    rcases eq_nil_or_concat post with rfl | ⟨post, x, rfl⟩
    · simp
    · have hx : x ≠ a := fun he => (nodup_cons.mp hpost).1 (by simp [he])
      have hlast : (pre ++ a :: (post ++ [x])).getLast? = some x := by
        rw [← cons_append, ← append_assoc, getLast?_concat]
      rw [concat_eq_append, hlast, if_neg (by simpa using hx), ← append_assoc, getLast?_concat]
  · obtain ⟨pre, post, rfl⟩ := append_of_mem ((mem_append.mp ha).resolve_left hm)
    have hlast : front.getLast? ≠ some a := fun he => hm (mem_of_getLast? he)
    exact ⟨front ++ pre, post, by simp, by rw [erase_of_not_mem hm, if_neg hlast]⟩

theorem remove (h : Lists link e front back) (ha : a ∈ front ++ back)
    (hf : (front ++ back).length ≤ fuel) :
    ∃ link' e', Ends.remove link fuel e a = some (link', e') ∧
      Lists link' e' (front.erase a) (back.erase a) ∧ ∀ b ∉ front ++ back, link' b = link b := by
  obtain ⟨pre, post, hsplit, hlast⟩ := split_at h.nodup ha
  have hseg := h.seg
  have hnd := h.nodup
  have herase := erase_append_erase (a := a) hnd
  rw [hsplit] at hseg hnd hf herase
  have hapre : a ∉ pre := fun hm => (nodup_append.mp hnd).2.2 a hm a mem_cons_self rfl
  rw [erase_append_right _ hapre, erase_cons_head] at herase
  have hfpre : pre.length ≤ fuel := Nat.le_trans (by simp) hf
  obtain ⟨link', first, hrem, hlinks, hother⟩ := remove_links hseg hnd hfpre
  refine ⟨link', _, hrem, ⟨?_, ?_, ?_⟩, fun b hb => hother b fun hm => hb ?_⟩
  · rw [herase]
    exact hnd.sublist ((sublist_cons_self a post).append_left pre)
  · rw [herase]
    exact hlinks
  · rw [h.last]
    exact hlast
  · rw [hsplit]
    exact mem_append_left _ hm

end Ends.Lists

end CallWeaver
