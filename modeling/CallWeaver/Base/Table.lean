import Mathlib.Data.List.Perm.Basic
import Mathlib.Order.Lattice

/-! # Tables of sorted rows

A table is a list of rows, each with a first element and its peers. Rows are sorted by a comparison
of their first elements, which compare equal to their peers, and each row by rank. Insertion follows
the comparison, then the rank.
-/

namespace CallWeaver.Table

open List Option
open Std (TransCmp OrientedCmp)

variable {β ι κ : Type*} [LinearOrder ι] {cmp : β → β → Ordering} {rank : β → ι} {replace : Bool}
  {x y : β} {l l' : List β} {r r' : β × List β} {t t' : List (β × List β)} {key : β → κ}

def entries (t : List (β × List β)) : List β := t.flatMap fun r => r.1 :: r.2

@[simp] theorem entries_nil : entries ([] : List (β × List β)) = [] := rfl

@[simp] theorem entries_cons : entries (r :: t) = r.1 :: r.2 ++ entries t := rfl

@[simp] theorem entries_append : entries (t ++ t') = entries t ++ entries t' :=
  flatMap_append

theorem mem_entries : y ∈ entries t ↔ ∃ r ∈ t, y ∈ r.1 :: r.2 := mem_flatMap

/-- Insert into a row by rank. An element of the same rank is replaced, or insertion fails. -/
def insertPeer (rank : β → ι) (replace : Bool) (x : β) : List β → Option (List β)
  | [] => some [x]
  | e :: l =>
    if rank e = rank x then if replace then some (x :: l) else none
    else if rank x < rank e then some (x :: e :: l)
    else (insertPeer rank replace x l).map (e :: ·)

def insertRow (rank : β → ι) (replace : Bool) (x : β) (r : β × List β) : Option (β × List β) :=
  if rank r.1 = rank x then if replace then some (x, r.2) else none
  else if rank x < rank r.1 then some (x, r.1 :: r.2)
  else (insertPeer rank replace x r.2).map (r.1, ·)

def insert (cmp : β → β → Ordering) (rank : β → ι) (replace : Bool) (x : β) :
    List (β × List β) → Option (List (β × List β))
  | [] => some [(x, [])]
  | r :: t =>
    match cmp r.1 x with
    | .eq => (insertRow rank replace x r).map (· :: t)
    | .gt => some ((x, []) :: r :: t)
    | .lt => (insert cmp rank replace x t).map (r :: ·)

theorem insertRow_toList : (insertRow rank replace x r).map (fun r => r.1 :: r.2) =
    insertPeer rank replace x (r.1 :: r.2) := by
  rw [insertRow, insertPeer]
  split_ifs <;> simp [Function.comp_def]

theorem insertPeer_eq_none_iff (hl : l.Pairwise (rank · < rank ·)) :
    insertPeer rank replace x l = none ↔ replace = false ∧ ∃ y ∈ l, rank y = rank x := by
  induction l with
  | nil => simp [insertPeer]
  | cons e l ih =>
    obtain ⟨he, hl'⟩ := pairwise_cons.mp hl
    unfold insertPeer
    split_ifs with h₁ h₂ h₃
    · simp [h₂]
    · simp [h₂, h₁]
    · -- every element of the rest has a higher rank than `e`, and so than `x`
      have hne : ∀ y ∈ l, rank y ≠ rank x := fun y hy =>
        ne_of_gt (lt_trans h₃ (he y hy))
      simpa [h₁] using fun _ => hne
    · simp [ih hl', h₁]

/-- Insertion fails at the first row that is not before the element, if that has the rank. -/
theorem insert_eq_none_iff_first (ht : ∀ r ∈ t, (r.1 :: r.2).Pairwise (rank · < rank ·)) :
    insert cmp rank replace x t = none ↔ replace = false ∧ ∃ front r back, t = front ++ r :: back ∧
      (∀ q ∈ front, cmp q.1 x = .lt) ∧ cmp r.1 x = .eq ∧ ∃ y ∈ r.1 :: r.2, rank y = rank x := by
  induction t with
  | nil => simp [insert]
  | cons r t ih =>
    have hrow : insertRow rank replace x r = none ↔
        replace = false ∧ ∃ y ∈ r.1 :: r.2, rank y = rank x := by
      rw [← map_eq_none_iff (f := fun r : β × List β => r.1 :: r.2), insertRow_toList,
        insertPeer_eq_none_iff (ht r mem_cons_self)]
    unfold insert
    split
    · rename_i hc
      rw [map_eq_none_iff, hrow]
      refine and_congr_right fun _ => ⟨fun h => ⟨[], r, t, rfl, by simp, hc, h⟩, ?_⟩
      rintro ⟨_ | ⟨q, front⟩, r', back, heq, hfront, -, h⟩
      · cases heq
        exact h
      · cases heq
        simp [hc] at hfront
    · rename_i hc
      refine iff_of_false nofun ?_
      rintro ⟨-, _ | ⟨q, front⟩, r', back, heq, hfront, hc', -⟩
      · cases heq
        simp [hc] at hc'
      · cases heq
        simp [hc] at hfront
    · rename_i hc
      rw [map_eq_none_iff, ih fun r' hr' => ht r' (mem_cons_of_mem _ hr')]
      refine and_congr_right fun _ => ⟨?_, ?_⟩
      · rintro ⟨front, r', back, rfl, hfront, h⟩
        exact ⟨r :: front, r', back, rfl, forall_mem_cons.mpr ⟨hc, hfront⟩, h⟩
      · rintro ⟨_ | ⟨q, front⟩, r', back, heq, hfront, hc', h⟩
        · cases heq
          simp [hc] at hc'
        · cases heq
          exact ⟨front, r', back, rfl, (forall_mem_cons.mp hfront).2, hc', h⟩

/-- An element goes before the first one of a higher rank, or replaces one of its rank. -/
theorem insertPeer_split (h : insertPeer rank replace x l = some l') :
    ∃ front old back, l = front ++ (old ++ back) ∧ l' = front ++ x :: back ∧
      (∀ e ∈ front, rank e < rank x) ∧
      (old = [] ∧ (∀ e ∈ back.head?, rank x < rank e) ∨ ∃ e, old = [e] ∧ rank e = rank x) := by
  induction l generalizing l' with
  | nil =>
    cases h
    exact ⟨[], [], [], rfl, rfl, by simp, .inl ⟨rfl, by simp⟩⟩
  | cons e l ih =>
    unfold insertPeer at h
    split_ifs at h with h₁ h₂ h₃
    · cases h
      exact ⟨[], [e], l, rfl, rfl, by simp, .inr ⟨e, rfl, h₁⟩⟩
    · cases h
      exact ⟨[], [], e :: l, rfl, rfl, by simp, .inl ⟨rfl, by simpa using h₃⟩⟩
    · obtain ⟨m, hm, rfl⟩ := map_eq_some_iff.mp h
      obtain ⟨front, old, back, rfl, rfl, hfront, hold⟩ := ih hm
      have he : rank e < rank x := lt_of_le_of_ne (not_lt.mp h₃) h₁
      exact ⟨e :: front, old, back, rfl, rfl, forall_mem_cons.mpr ⟨he, hfront⟩, hold⟩

theorem insertPeer_sublist (h : insertPeer rank replace x l = some l') :
    ∃ m, m.Sublist l ∧ l'.Perm (x :: m) := by
  obtain ⟨front, old, back, rfl, rfl, -, -⟩ := insertPeer_split h
  exact ⟨front ++ back, (sublist_append_right old back).append_left front, perm_middle⟩

/-- What follows the first element of a sorted row comes after what comes before it. -/
theorem forall_lt_of_head (hl : l.Pairwise (rank · < rank ·)) (h : ∀ e ∈ l.head?, rank x < rank e) :
    ∀ e ∈ l, rank x < rank e := by
  cases l with
  | nil => simp
  | cons a l =>
    have ha : rank x < rank a := h a rfl
    exact forall_mem_cons.mpr ⟨ha, fun e he => lt_trans ha (rel_of_pairwise_cons hl he)⟩

theorem insertPeer_sorted (hl : l.Pairwise (rank · < rank ·))
    (h : insertPeer rank replace x l = some l') :
    l'.Pairwise (rank · < rank ·) ∧ l'.Perm (x :: l.filter fun y => rank y ≠ rank x) := by
  obtain ⟨front, old, back, rfl, rfl, hfront, hold⟩ := insertPeer_split h
  obtain ⟨hf, hob, hcross⟩ := pairwise_append.mp hl
  have hback : ∀ e ∈ back, rank x < rank e := by
    rcases hold with ⟨rfl, hhead⟩ | ⟨e, rfl, he⟩
    · exact forall_lt_of_head hob hhead
    · exact fun y hy => he ▸ rel_of_pairwise_cons hob hy
  have hkeep : (front ++ (old ++ back)).filter (fun y => rank y ≠ rank x) = front ++ back := by
    have hold' : old.filter (fun y => rank y ≠ rank x) = [] := by
      rcases hold with ⟨rfl, -⟩ | ⟨e, rfl, he⟩
      · rfl
      · simp [he]
    rw [filter_append, filter_append, hold',
      filter_eq_self.mpr fun e he => by simpa using (hfront e he).ne,
      filter_eq_self.mpr fun e he => by simpa using (hback e he).ne']
    rfl
  constructor
  · refine pairwise_append.mpr ⟨hf, pairwise_cons.mpr ⟨hback, (pairwise_append.mp hob).2.1⟩, ?_⟩
    intro a ha b hb
    rcases mem_cons.mp hb with rfl | hb
    · exact hfront a ha
    · exact hcross a ha b (mem_append_right old hb)
  · rw [hkeep]
    exact perm_middle

/-- A new element stands in the row that compares equal, or in a row of its own before the first
that comes after it. -/
theorem insert_split (h : insert cmp rank replace x t = some t') :
    ∃ front row back, (∀ r ∈ front, cmp r.1 x = .lt) ∧ t' = front ++ row :: back ∧
      (t = front ++ back ∧ row = (x, []) ∧ (∀ r ∈ back.head?, cmp r.1 x = .gt) ∨
        ∃ r, t = front ++ r :: back ∧ cmp r.1 x = .eq ∧
          insertPeer rank replace x (r.1 :: r.2) = some (row.1 :: row.2)) := by
  induction t generalizing t' with
  | nil =>
    cases h
    exact ⟨[], _, [], by simp, rfl, .inl ⟨rfl, rfl, by simp⟩⟩
  | cons r t ih =>
    unfold insert at h
    split at h
    · rename_i hc
      obtain ⟨r', hr, rfl⟩ := map_eq_some_iff.mp h
      refine ⟨[], r', t, by simp, rfl, .inr ⟨r, rfl, hc, ?_⟩⟩
      rw [← insertRow_toList, hr]
      rfl
    · rename_i hc
      cases h
      exact ⟨[], _, r :: t, by simp, rfl, .inl ⟨rfl, rfl, by simpa using hc⟩⟩
    · rename_i hc
      obtain ⟨t'', ht, rfl⟩ := map_eq_some_iff.mp h
      obtain ⟨front, row, back, hfront, rfl, hcase⟩ := ih ht
      refine ⟨r :: front, row, back, forall_mem_cons.mpr ⟨hc, hfront⟩, rfl, ?_⟩
      rcases hcase with ⟨rfl, hrow⟩ | ⟨r', rfl, hr⟩
      · exact .inl ⟨rfl, hrow⟩
      · exact .inr ⟨r', rfl, hr⟩

theorem insert_sublist (h : insert cmp rank replace x t = some t') :
    ∃ m, m.Sublist (entries t) ∧ (entries t').Perm (x :: m) := by
  obtain ⟨front, row, back, -, rfl, ⟨rfl, rfl, -⟩ | ⟨r, rfl, -, hr⟩⟩ := insert_split h
  · exact ⟨_, .refl _, by simp⟩
  · obtain ⟨m, hm, hp⟩ := insertPeer_sublist hr
    simp only [entries_append, entries_cons]
    exact ⟨entries front ++ (m ++ entries back), (hm.append_right _).append_left _,
      ((hp.append_right _).append_left _).trans perm_middle⟩

structure Graded {κ : Type*} (key : β → κ) (rank : β → ι) (t : List (β × List β)) : Prop where
  ranks : ∀ r ∈ t, (r.1 :: r.2).Pairwise (rank · < rank ·)
  peers : ∀ r ∈ t, ∀ y ∈ r.2, key y = key r.1

theorem graded_nil : Graded key rank [] := ⟨by simp, by simp⟩

/-- Insertion keeps rows sorted, in any order, if only elements with the same key compare equal. -/
theorem insert_graded (ht : Graded key rank t) (hx : ∀ r ∈ t, cmp r.1 x = .eq → key x = key r.1)
    (h : insert cmp rank replace x t = some t') : Graded key rank t' := by
  obtain ⟨front, row, back, -, rfl, hcase⟩ := insert_split h
  have hold : ∀ r ∈ front ++ row :: back, r = row ∨ r ∈ t := by
    rcases hcase with ⟨rfl, -⟩ | ⟨r, rfl, -⟩ <;> simp <;> tauto
  have hrow : (row.1 :: row.2).Pairwise (rank · < rank ·) ∧ ∀ y ∈ row.2, key y = key row.1 := by
    rcases hcase with ⟨-, rfl, -⟩ | ⟨r, rfl, hc, hi⟩
    · exact ⟨pairwise_singleton _ _, by simp⟩
    · have hr : r ∈ front ++ r :: back := by simp
      obtain ⟨hsorted, hperm⟩ := insertPeer_sorted (ht.ranks r hr) hi
      have hkey : ∀ y ∈ row.1 :: row.2, key y = key r.1 := by
        intro y hy
        rcases mem_cons.mp (hperm.mem_iff.mp hy) with rfl | hy
        · exact hx r hr hc
        · rcases mem_cons.mp (mem_filter.mp hy).1 with rfl | hy
          · rfl
          · exact ht.peers r hr y hy
      exact ⟨hsorted,
        fun y hy => (hkey y (mem_cons_of_mem _ hy)).trans (hkey row.1 mem_cons_self).symm⟩
  constructor
  · intro r hr
    rcases hold r hr with rfl | hr
    · exact hrow.1
    · exact ht.ranks r hr
  · intro r hr
    rcases hold r hr with rfl | hr
    · exact hrow.2
    · exact ht.peers r hr

/-- The rows are in order and each is sorted by rank, among elements that compare equal. -/
structure Sorted (cmp : β → β → Ordering) (rank : β → ι) (t : List (β × List β)) : Prop where
  heads : t.Pairwise fun r r' => cmp r.1 r'.1 = .lt
  ranks : ∀ r ∈ t, (r.1 :: r.2).Pairwise (rank · < rank ·)
  peers : ∀ r ∈ t, ∀ y ∈ r.2, cmp r.1 y = .eq

theorem sorted_nil : Sorted cmp rank [] := ⟨.nil, by simp, by simp⟩

section Insert

variable [TransCmp cmp]

theorem cmp_mem_row (hp : ∀ z ∈ r.2, cmp r.1 z = .eq) (hy : y ∈ r.1 :: r.2) :
    cmp y x = cmp r.1 x := by
  rcases mem_cons.mp hy with rfl | hy
  · rfl
  · exact (TransCmp.congr_left (hp y hy)).symm

theorem insert_eq_none_iff (ht : Sorted cmp rank t) : insert cmp rank replace x t = none ↔
    replace = false ∧ ∃ y ∈ entries t, cmp y x = .eq ∧ rank y = rank x := by
  rw [insert_eq_none_iff_first ht.ranks]
  refine and_congr_right fun _ => ⟨?_, ?_⟩
  · rintro ⟨front, r, back, rfl, -, hc, y, hy, hrank⟩
    exact ⟨y, mem_entries.mpr ⟨r, by simp, hy⟩,
      (cmp_mem_row (ht.peers r (by simp)) hy).trans hc, hrank⟩
  · rintro ⟨y, hy, hc, hrank⟩
    obtain ⟨r, hr, hyr⟩ := mem_entries.mp hy
    rw [cmp_mem_row (ht.peers r hr) hyr] at hc
    obtain ⟨front, back, rfl⟩ := append_of_mem hr
    refine ⟨front, r, back, rfl, fun q hq => ?_, hc, y, hyr, hrank⟩
    rw [← TransCmp.congr_right hc]
    exact (pairwise_append.mp ht.heads).2.2 q hq r mem_cons_self

/-- In a sorted table all rows behind the place of a new element come after it. -/
theorem insert_split_sorted (ht : Sorted cmp rank t) (h : insert cmp rank replace x t = some t') :
    ∃ front row back, (∀ r ∈ front, cmp r.1 x = .lt) ∧ (∀ r ∈ back, cmp r.1 x = .gt) ∧
      t' = front ++ row :: back ∧
      (t = front ++ back ∧ row = (x, []) ∨ ∃ r, t = front ++ r :: back ∧ cmp r.1 x = .eq ∧
        insertPeer rank replace x (r.1 :: r.2) = some (row.1 :: row.2)) := by
  obtain ⟨front, row, back, hfront, rfl, ⟨rfl, rfl, hhead⟩ | ⟨r, rfl, hc, hr⟩⟩ := insert_split h
  · refine ⟨front, _, back, hfront, ?_, rfl, .inl ⟨rfl, rfl⟩⟩
    cases back with
    | nil => simp
    | cons b back =>
      have hb : cmp b.1 x = .gt := hhead b rfl
      refine forall_mem_cons.mpr ⟨hb, fun r hr => ?_⟩
      have hlt := rel_of_pairwise_cons (pairwise_append.mp ht.heads).2.1 hr
      exact TransCmp.gt_trans (OrientedCmp.gt_iff_lt.mpr hlt) hb
  · refine ⟨front, row, back, hfront, fun q hq => ?_, rfl, .inr ⟨r, rfl, hc, hr⟩⟩
    rw [← TransCmp.congr_right hc]
    exact OrientedCmp.gt_iff_lt.mpr (rel_of_pairwise_cons (pairwise_append.mp ht.heads).2.1 hq)

theorem filter_entries (hp : ∀ r ∈ t, ∀ y ∈ r.2, cmp r.1 y = .eq) (hx : ∀ r ∈ t, cmp r.1 x ≠ .eq) :
    (entries t).filter (fun y => ¬ (cmp y x = .eq ∧ rank y = rank x)) = entries t := by
  apply filter_eq_self.mpr
  intro y hy
  obtain ⟨r, hr, hyr⟩ := mem_entries.mp hy
  exact decide_eq_true fun h => hx r hr ((cmp_mem_row (hp r hr) hyr).symm.trans h.1)

variable (ht : Sorted cmp rank t) (h : insert cmp rank replace x t = some t')

include ht h

theorem insert_perm :
    (entries t').Perm
      (x :: (entries t).filter fun y => ¬ (cmp y x = .eq ∧ rank y = rank x)) := by
  obtain ⟨front, row, back, hfront, hback, rfl, hcase⟩ := insert_split_sorted ht h
  have hf : ∀ r ∈ front, cmp r.1 x ≠ .eq := fun r hr => by simp [hfront r hr]
  have hb : ∀ r ∈ back, cmp r.1 x ≠ .eq := fun r hr => by simp [hback r hr]
  rcases hcase with ⟨rfl, rfl⟩ | ⟨r, rfl, hc, hi⟩
  · rw [filter_entries ht.peers (forall_mem_append.mpr ⟨hf, hb⟩), entries_append, entries_append]
    exact perm_middle
  · have hp := ht.peers
    simp only [forall_mem_append, forall_mem_cons] at hp
    have hrow : (r.1 :: r.2).filter (fun y => ¬ (cmp y x = .eq ∧ rank y = rank x)) =
        (r.1 :: r.2).filter fun y => rank y ≠ rank x :=
      filter_congr fun y hy => by simp [(cmp_mem_row hp.2.1 hy).trans hc]
    rw [entries_append, entries_append, entries_cons, entries_cons, filter_append, filter_append,
      hrow, filter_entries hp.1 hf, filter_entries hp.2.2 hb]
    exact (((insertPeer_sorted (ht.ranks r (by simp)) hi).2.append_right _).append_left _).trans
      perm_middle

theorem insert_sorted : Sorted cmp rank t' := by
  -- elements that compare equal compare in the same way to every other
  have hgraded : Graded (fun y => cmp y) rank t' := by
    refine insert_graded ⟨ht.ranks, fun r hr y hy => ?_⟩ (fun r _ hc => ?_) h
    · exact funext fun z => (TransCmp.congr_left (ht.peers r hr y hy)).symm
    · exact funext fun z => (TransCmp.congr_left hc).symm
  obtain ⟨front, row, back, hfront, hback, rfl, hcase⟩ := insert_split_sorted ht h
  have hrow : cmp row.1 x = .eq := by
    rcases hcase with ⟨-, rfl⟩ | ⟨r, rfl, hc, hi⟩
    · exact Std.ReflCmp.compare_self
    · obtain ⟨m, hm, hp⟩ := insertPeer_sublist hi
      rcases mem_cons.mp (hp.mem_iff.mp mem_cons_self) with he | hy
      · rw [he]
        exact Std.ReflCmp.compare_self
      · exact (cmp_mem_row (ht.peers r (by simp)) (hm.mem hy)).trans hc
  have hheads : front.Pairwise (fun r r' => cmp r.1 r'.1 = .lt) ∧
      back.Pairwise (fun r r' => cmp r.1 r'.1 = .lt) := by
    have := ht.heads
    rcases hcase with ⟨rfl, -⟩ | ⟨r, rfl, -⟩
    · exact ⟨(pairwise_append.mp this).1, (pairwise_append.mp this).2.1⟩
    · exact ⟨(pairwise_append.mp this).1, (pairwise_append.mp this).2.1.of_cons⟩
  have hbefore : ∀ r ∈ back, cmp row.1 r.1 = .lt := fun r hr => by
    rw [TransCmp.congr_left hrow]
    exact OrientedCmp.gt_iff_lt.mp (hback r hr)
  refine ⟨pairwise_append.mpr ⟨hheads.1, pairwise_cons.mpr ⟨hbefore, hheads.2⟩, ?_⟩,
    hgraded.ranks, ?_⟩
  · intro r hr q hq
    rcases mem_cons.mp hq with rfl | hq
    · rw [TransCmp.congr_right hrow, hfront r hr]
    · exact TransCmp.lt_trans (hfront r hr) (OrientedCmp.gt_iff_lt.mp (hback q hq))
  · intro r hr y hy
    rw [← congrFun (hgraded.peers r hr y hy) y]
    exact Std.ReflCmp.compare_self

end Insert

end CallWeaver.Table
