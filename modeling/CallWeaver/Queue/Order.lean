import CallWeaver.Base.Sorting
import CallWeaver.Base.Links
import CallWeaver.Queue.Callers

/-! # The order of the callers

The callers are listed by descending priority and, where the priority is the same, in the order of
their arrival. The list is numbered from one, and the counter of the queue is its length.
-/

namespace CallWeaver.Queue

open Function List Option Int

variable {q : CallQueue} {l A B : List ℕ} {a qe i b fuel : ℕ} {pos : ℤ} {prev p r : Option ℕ}

def CallQueue.link (q : CallQueue) (a : ℕ) : Option ℕ := (q.ent a).next

def Numbered (q : CallQueue) : ℤ → List ℕ → Prop
  | _, [] => True
  | pos, a :: l => (q.ent a).pos = pos + 1 ∧ Numbered q (pos + 1) l

section Numbered

variable {q' : CallQueue}

theorem Numbered.append_iff :
    Numbered q pos (A ++ B) ↔ Numbered q pos A ∧ Numbered q (pos + A.length) B := by
  induction A generalizing pos with
  | nil => simp [Numbered]
  | cons a A ih =>
    simp only [cons_append, Numbered, ih, and_assoc, length_cons]
    rw [show pos + 1 + (A.length : ℤ) = pos + ((A.length + 1 : ℕ) : ℤ) by omega]

theorem Numbered.congr (h : Numbered q pos l) (hl : ∀ a ∈ l, (q'.ent a).pos = (q.ent a).pos) :
    Numbered q' pos l := by
  induction l generalizing pos with
  | nil => trivial
  | cons a l ih =>
    obtain ⟨ha, hl⟩ := forall_mem_cons.mp hl
    exact ⟨ha.trans h.1, ih h.2 hl⟩

theorem Numbered.getElem? (h : Numbered q pos l) (ha : l[i]? = some a) :
    (q.ent a).pos = pos + i + 1 := by
  induction l generalizing pos i with
  | nil => simp at ha
  | cons b l ih =>
    cases i with
    | zero =>
      obtain rfl : b = a := by simpa using ha
      simpa using h.1
    | succ i =>
      rw [ih h.2 (by simpa using ha)]
      omega

end Numbered

def renumber (q : CallQueue) (pos : ℤ) : List ℕ → CallQueue
  | [] => q
  | a :: l => renumber (setPos q a (pos + 1)) (pos + 1) l

theorem ent_setPos_of_ne (h : b ≠ a) :
    (setPos q a pos).ent b = q.ent b := update_of_ne h _ _

theorem ent_renumber (q : CallQueue) (pos : ℤ) (l : List ℕ) (b : ℕ) :
    ∃ pos', (renumber q pos l).ent b = { q.ent b with pos := pos' } := by
  induction l generalizing q pos with
  | nil => exact ⟨(q.ent b).pos, rfl⟩
  | cons a l ih =>
    obtain ⟨pos', h⟩ := ih (setPos q a (pos + 1)) (pos + 1)
    refine ⟨pos', h.trans ?_⟩
    by_cases hb : b = a
    · simp [setPos, hb]
    · rw [ent_setPos_of_ne hb]

@[simp] theorem link_renumber (q : CallQueue) (pos : ℤ) (l : List ℕ) :
    (renumber q pos l).link = q.link := by
  funext b
  obtain ⟨_, h⟩ := ent_renumber q pos l b
  rw [CallQueue.link, h, CallQueue.link]

@[simp] theorem prio_renumber (b : ℕ) : ((renumber q pos l).ent b).prio = (q.ent b).prio := by
  obtain ⟨_, h⟩ := ent_renumber q pos l b
  rw [h]

@[simp] theorem parent_renumber (b : ℕ) : ((renumber q pos l).ent b).parent = (q.ent b).parent := by
  obtain ⟨_, h⟩ := ent_renumber q pos l b
  rw [h]

@[simp] theorem head_renumber : (renumber q pos l).head = q.head := by
  induction l generalizing q pos with
  | nil => rfl
  | cons a l ih => rw [renumber, ih]; rfl

@[simp] theorem count_renumber : (renumber q pos l).count = q.count := by
  induction l generalizing q pos with
  | nil => rfl
  | cons a l ih => rw [renumber, ih]; rfl

theorem ent_renumber_of_notMem (h : a ∉ l) : (renumber q pos l).ent a = q.ent a := by
  induction l generalizing q pos with
  | nil => rfl
  | cons b l ih =>
    rw [mem_cons, not_or] at h
    rw [renumber, ih h.2, ent_setPos_of_ne h.1]

theorem numbered_renumber (h : l.Nodup) : Numbered (renumber q pos l) pos l := by
  induction l generalizing q pos with
  | nil => trivial
  | cons a l ih =>
    obtain ⟨ha, hl⟩ := nodup_cons.mp h
    exact ⟨by rw [renumber, ent_renumber_of_notMem ha]; simp [setPos], ih hl⟩

theorem link_setLink (a : ℕ) :
    (setLink q prev p).link a = if prev = some a then p else q.link a := by
  cases prev with
  | none => rfl
  | some b =>
    by_cases h : b = a
    · simp [setLink, CallQueue.link, h]
    · simp [setLink, CallQueue.link, update_of_ne (Ne.symm h), h]

theorem head_setLink : (setLink q prev p).head = if prev = none then p else q.head := by
  cases prev <;> rfl

theorem ent_setLink (q : CallQueue) (prev p : Option ℕ) (a : ℕ) :
    ∃ next, (setLink q prev p).ent a = { q.ent a with next := next } := by
  cases prev with
  | none => exact ⟨_, rfl⟩
  | some b =>
    by_cases h : a = b
    · exact ⟨p, by simp [setLink, h]⟩
    · exact ⟨(q.ent a).next, by simp [setLink, update_of_ne h]⟩

theorem count_setLink : (setLink q prev p).count = q.count := by cases prev <;> rfl

theorem getLink_eq (h : Seg q.link q.head (A ++ B) none) : getLink q A.getLast? = B.head? := by
  rcases eq_nil_or_concat A with rfl | ⟨A, a, rfl⟩
  · simpa [getLink] using h.start_eq
  · have hlink := h
    rw [concat_eq_append, append_assoc] at hlink
    simpa [getLink, CallQueue.link] using hlink.link_eq

structure Shape (q : CallQueue) (l : List ℕ) : Prop where
  list : Seg q.link q.head l none
  nodup : l.Nodup
  count : q.count = l.length
  numbered : Numbered q 0 l
  parent : ∀ a ∈ l, (q.ent a).parent = true

theorem seg_setPos (h : Seg q.link (q.link a) l r) :
    Seg (setPos q a pos).link ((setPos q a pos).ent a).next l r := by
  have hlink : (setPos q a pos).link = q.link := by
    simpa [renumber] using link_renumber q (pos - 1) [a]
  rw [show ((setPos q a pos).ent a).next = (setPos q a pos).link a from rfl, hlink]
  exact h

theorem getLast?_or_cons (a : ℕ) (l : List ℕ) (prev : Option ℕ) :
    l.getLast?.or (some a) = (a :: l).getLast?.or prev := by
  rw [getLast?_cons]
  cases l.getLast? <;> rfl

theorem add_length_cons (pos : ℤ) (a : ℕ) (l : List ℕ) :
    pos + 1 + l.length = pos + (a :: l).length := by
  rw [length_cons]
  omega

theorem joinLoop_passed (inserted : Bool) (h : Seg q.link p A r)
    (hprio : ∀ a ∈ A, (!inserted && decide ((q.ent qe).prio > (q.ent a).prio)) = false) :
    joinLoop qe (A.length + fuel) q prev p pos inserted =
      joinLoop qe fuel (renumber q pos A) (A.getLast?.or prev) r (pos + A.length) inserted := by
  induction A generalizing q prev p pos with
  | nil =>
    obtain rfl : p = r := h
    simp [renumber]
  | cons a A ih =>
    obtain ⟨rfl, h⟩ := h
    obtain ⟨ha, hA⟩ := forall_mem_cons.mp hprio
    rw [show (a :: A).length + fuel = A.length + fuel + 1 from Nat.add_right_comm .., joinLoop]
    simp only [ha, Bool.false_eq_true, if_false, Bool.or_false]
    have hset : setPos q a (pos + 1) = renumber q pos [a] := rfl
    rw [ih (seg_setPos h) (by simpa [hset] using hA), renumber, getLast?_or_cons a A prev,
      add_length_cons pos a A]

theorem link_insertEntry (a : ℕ) : (insertEntry q prev qe pos).1.link a =
    if a = qe then getLink q prev else if prev = some a then some qe else q.link a := by
  by_cases h : a = qe
  · simp [insertEntry, CallQueue.link, h]
  · simp only [insertEntry, CallQueue.link, update_of_ne h, if_neg h]
    exact link_setLink a

theorem ent_insertEntry (q : CallQueue) (prev : Option ℕ) (pos : ℤ) (h : a ≠ qe) :
    ∃ next, (insertEntry q prev qe pos).1.ent a = { q.ent a with next := next } := by
  simp only [insertEntry, update_of_ne h]
  exact ent_setLink q prev (some qe) a

theorem prio_insertEntry (a : ℕ) : ((insertEntry q prev qe pos).1.ent a).prio = (q.ent a).prio := by
  by_cases h : a = qe
  · obtain ⟨next, hnext⟩ := ent_setLink q prev (some qe) qe
    simp [insertEntry, h, hnext]
  · obtain ⟨next, hnext⟩ := ent_insertEntry q prev pos h
    rw [hnext]

theorem insertEntry_list (pos : ℤ) (h : Seg q.link q.head (A ++ B) none) (hnd : (A ++ B).Nodup)
    (hqe : qe ∉ A ++ B) :
    Seg (insertEntry q A.getLast? qe pos).1.link (insertEntry q A.getLast? qe pos).1.head
      (A ++ qe :: B) none := by
  obtain ⟨hA, -, hne⟩ := nodup_append.mp hnd
  apply h.insert hA
  · rw [insertEntry, head_setLink]
    simp
  · rw [link_insertEntry, if_pos rfl, getLink_eq h, or_none]
  · intro b hb
    rw [link_insertEntry, if_neg fun he : b = qe => hqe (he ▸ hb)]
  · intro b hb hbA
    exact hne b hbA b hb rfl

def joined (q : CallQueue) (qe : ℕ) (A B : List ℕ) : CallQueue :=
  renumber (insertEntry (renumber q 0 A) A.getLast? qe A.length).1 (A.length + 1) B

def admitted (q : CallQueue) (qe : ℕ) : CallQueue :=
  { q with
    ent := update q.ent qe { q.ent qe with texts := q.settings.texts }
    count := q.count + 1 }

theorem joinQueue_eq (h : Seg q.link q.head (A ++ B) none) (hnd : (A ++ B).Nodup)
    (hqe : qe ∉ A ++ B) (hcount : q.count = (A ++ B).length)
    (hA : ∀ a ∈ A, ¬ (q.ent qe).prio > (q.ent a).prio)
    (hB : ∀ b ∈ B.head?, (q.ent qe).prio > (q.ent b).prio) (hr : refusal q = none) :
    joinQueue q qe = some (none, admitted (joined q qe A B) qe) := by
  obtain ⟨r, hfront, hback⟩ := Seg.append_iff.mp h
  have hfuel : q.count.toNat + 1 = A.length + (B.length + 1) := by
    rw [hcount, toNat_natCast, length_append, Nat.add_assoc]
  have hseg : Seg (renumber q 0 A).link (renumber q 0 A).head (A ++ B) none := by simpa using h
  have hpassed : ∀ a ∈ A, (!false && decide ((q.ent qe).prio > (q.ent a).prio)) = false := by
    simpa using hA
  simp only [joinQueue, hr, hfuel, joinLoop_passed false hfront hpassed, or_none, Int.zero_add]
  cases B with
  | nil =>
    obtain rfl : r = none := hback
    rfl
  | cons b B =>
    obtain ⟨rfl, -⟩ := hback
    have hb : ((renumber q 0 A).ent qe).prio > ((renumber q 0 A).ent b).prio := by
      simpa using hB b rfl
    have hins := insertEntry_list A.length hseg hnd hqe
    rw [joinLoop]
    simp only [hb, decide_true, Bool.not_false, Bool.and_true, if_true, Bool.or_true]
    generalize hq : insertEntry (renumber q 0 A) A.getLast? qe A.length = qp at hins ⊢
    have hpos : qp.2 = A.length + 1 := by rw [← hq]; rfl
    obtain ⟨_, -, -, -, hB⟩ := Seg.append_iff.mp hins
    rw [length_cons, joinLoop_passed true (seg_setPos hB) fun _ _ =>
      rfl, joined, hq, renumber, hpos]
    rfl

theorem ent_admitted (q : CallQueue) (qe a : ℕ) :
    ∃ texts, (admitted q qe).ent a = { q.ent a with texts := texts } := by
  by_cases h : a = qe
  · exact ⟨q.settings.texts, by simp [admitted, h]⟩
  · exact ⟨(q.ent a).texts, by simp [admitted, update_of_ne h]⟩

theorem pos_admitted (a : ℕ) : ((admitted q qe).ent a).pos = (q.ent a).pos := by
  obtain ⟨texts, h⟩ := ent_admitted q qe a
  rw [h]

theorem prio_joined (a : ℕ) : ((admitted (joined q qe A B) qe).ent a).prio = (q.ent a).prio := by
  obtain ⟨texts, h⟩ := ent_admitted (joined q qe A B) qe a
  rw [h, joined, prio_renumber, prio_insertEntry, prio_renumber]

theorem shape_joined (h : Shape q (A ++ B)) (hqe : qe ∉ A ++ B) :
    Shape (admitted (joined q qe A B) qe) (A ++ qe :: B) := by
  have hseg : Seg (renumber q 0 A).link (renumber q 0 A).head (A ++ B) none := by simpa using h.list
  obtain ⟨hA, hB, hne⟩ := nodup_append.mp h.nodup
  rw [mem_append, not_or] at hqe
  have hlink : (admitted (joined q qe A B) qe).link =
      (insertEntry (renumber q 0 A) A.getLast? qe A.length).1.link := by
    funext a
    obtain ⟨texts, ha⟩ := ent_admitted (joined q qe A B) qe a
    rw [CallQueue.link, ha, ← link_renumber _ (A.length + 1) B]
    rfl
  -- outside of `B` only the caller has changed since the entries of `A` were numbered
  have hpos : ∀ a ∉ B, a ≠ qe →
      ((admitted (joined q qe A B) qe).ent a).pos = ((renumber q 0 A).ent a).pos := by
    intro a ha hqa
    obtain ⟨next, hnext⟩ := ent_insertEntry (renumber q 0 A) A.getLast? A.length hqa
    rw [pos_admitted, joined, ent_renumber_of_notMem ha, hnext]
  constructor
  · rw [hlink]
    have hhead : (admitted (joined q qe A B) qe).head =
        (insertEntry (renumber q 0 A) A.getLast? qe A.length).1.head := head_renumber
    rw [hhead]
    exact insertEntry_list A.length hseg h.nodup (by simpa using hqe)
  · refine nodup_middle.mpr (nodup_cons.mpr ⟨by simpa using hqe, h.nodup⟩)
  · have hcount : (joined q qe A B).count = q.count := by
      rw [joined, count_renumber, insertEntry, count_setLink, count_renumber]
    rw [admitted, hcount, h.count]
    simp
    omega
  · refine Numbered.append_iff.mpr ⟨?_, ?_, ?_⟩
    · refine (numbered_renumber hA).congr fun a ha => hpos a (fun hb => hne a ha a hb rfl) ?_
      rintro rfl
      exact hqe.1 ha
    · rw [pos_admitted, joined, ent_renumber_of_notMem hqe.2]
      simp [insertEntry]
    · rw [Int.zero_add]
      exact (numbered_renumber hB).congr fun a _ => pos_admitted a
  · intro a ha
    obtain ⟨texts, hentry⟩ := ent_admitted (joined q qe A B) qe a
    rw [hentry, joined, parent_renumber]
    by_cases hqa : a = qe
    · simp [insertEntry, hqa]
    · obtain ⟨next, hnext⟩ := ent_insertEntry (renumber q 0 A) A.getLast? A.length hqa
      rw [hnext]
      simpa using h.parent a (by simpa [hqa] using ha)

theorem leaveLoop_passed (h : Seg q.link p A r) (hqe : qe ∉ A) :
    leaveLoop qe (A.length + fuel) q prev p pos =
      leaveLoop qe fuel (renumber q pos A) (A.getLast?.or prev) r (pos + A.length) := by
  induction A generalizing q prev p pos with
  | nil =>
    obtain rfl : p = r := h
    simp [renumber]
  | cons a A ih =>
    obtain ⟨rfl, h⟩ := h
    rw [mem_cons, not_or] at hqe
    rw [show (a :: A).length + fuel = A.length + fuel + 1 from Nat.add_right_comm .., leaveLoop,
      if_neg (Ne.symm hqe.1)]
    rw [ih (seg_setPos h) hqe.2, renumber, getLast?_or_cons a A prev, add_length_cons pos a A]

def left (q : CallQueue) (qe : ℕ) (A B : List ℕ) : CallQueue :=
  renumber (setLink { renumber q 0 A with count := q.count - 1 } A.getLast? (q.link qe)) A.length B

theorem leaveLoop_eq (h : Seg q.link q.head (A ++ qe :: B) none) (hnd : (A ++ qe :: B).Nodup)
    (hcount : q.count = (A ++ qe :: B).length) :
    leaveLoop qe (q.count.toNat + 1) q none q.head 0 = some (left q qe A B) := by
  obtain ⟨r, hfront, rfl, hback⟩ := Seg.append_iff.mp h
  obtain ⟨hqe, hnd⟩ := nodup_cons.mp (nodup_middle.mp hnd)
  rw [mem_append, not_or] at hqe
  have hfuel : q.count.toNat + 1 = A.length + ((B.length + 1) + 1) := by
    rw [hcount, toNat_natCast, length_append, length_cons, Nat.add_assoc]
  have hlink : ((renumber q 0 A).ent qe).next = q.link qe := by
    rw [← link_renumber q 0 A]; rfl
  rw [hfuel, leaveLoop_passed hfront hqe.1, leaveLoop, if_pos rfl]
  simp only [hlink, or_none, count_renumber, Int.zero_add]
  generalize hq : setLink { renumber q 0 A with count := q.count - 1 } A.getLast? (q.link qe) = q₂
  have hq₂ : ∀ b ∉ A, q₂.link b = q.link b := by
    intro b hb
    rw [← hq, link_setLink, if_neg fun he => hb (mem_of_getLast? he)]
    exact congrFun (link_renumber q 0 A) b
  obtain ⟨-, -, hne⟩ := nodup_append.mp hnd
  have hseg : Seg q₂.link (q₂.ent qe).next B none := by
    rw [show (q₂.ent qe).next = q₂.link qe from rfl, hq₂ qe hqe.1]
    exact hback.congr fun b hb => hq₂ b fun hA => hne b hA b hb rfl
  rw [leaveLoop_passed hseg hqe.2, leaveLoop, left, hq]

theorem leaveLoop_absent (h : Seg q.link q.head l none) (hcount : q.count = l.length)
    (hqe : qe ∉ l) : leaveLoop qe (q.count.toNat + 1) q none q.head 0 = some (renumber q 0 l) := by
  rw [hcount, toNat_natCast, leaveLoop_passed h hqe, leaveLoop]

theorem shape_left (h : Shape q (A ++ qe :: B)) : Shape (left q qe A B) (A ++ B) := by
  obtain ⟨hqe, hnd⟩ := nodup_cons.mp (nodup_middle.mp h.nodup)
  obtain ⟨hA, hB, hne⟩ := nodup_append.mp hnd
  have hdisj : ∀ b ∈ B, b ∉ A := fun b hb hbA => hne b hbA b hb rfl
  have hent : ∀ a,
    ∃ next, (setLink { renumber q 0 A with count := q.count - 1 } A.getLast? (q.link qe)).ent a =
      { (renumber q 0 A).ent a with next := next } := ent_setLink _ _ _
  constructor
  · rw [left, link_renumber, head_renumber]
    apply h.list.unlink hA
    · rw [head_setLink]
      simp
    · intro b _
      rw [link_setLink]
      exact if_congr .rfl rfl (congrFun (link_renumber q 0 A) b)
    · exact hdisj
  · exact hnd
  · rw [left, count_renumber, count_setLink, h.count]
    simp
    omega
  · refine Numbered.append_iff.mpr ⟨?_, ?_⟩
    · refine (numbered_renumber (q := q) hA).congr fun a ha => ?_
      obtain ⟨next, hnext⟩ := hent a
      rw [left, ent_renumber_of_notMem fun hb => hdisj a hb ha, hnext]
    · rw [Int.zero_add]
      exact numbered_renumber hB
  · intro a ha
    obtain ⟨next, hnext⟩ := hent a
    rw [left, parent_renumber, hnext]
    simpa using h.parent a (by simp only [mem_append, mem_cons] at ha ⊢; tauto)

theorem prio_left (a : ℕ) : ((left q qe A B).ent a).prio = (q.ent a).prio := by
  obtain ⟨next, hnext⟩ :=
    ent_setLink { renumber q 0 A with count := q.count - 1 } A.getLast? (q.link qe) a
  rw [left, prio_renumber, hnext]
  exact prio_renumber a

theorem shape_renumber (h : Shape q l) : Shape (renumber q 0 l) l where
  list := by simpa using h.list
  nodup := h.nodup
  count := by simpa using h.count
  numbered := numbered_renumber h.nodup
  parent := by simpa using h.parent

theorem Shape.leaveQueue (h : Shape q l) (qe : ℕ) :
    ∃ q' d, leaveQueue q qe = some (q', d) ∧ Shape q' (l.filter (· ≠ qe)) ∧
      ∀ a, (q'.ent a).prio = (q.ent a).prio := by
  by_cases hqe : qe ∈ l
  · obtain ⟨A, B, rfl⟩ := append_of_mem hqe
    have hnotin := (nodup_cons.mp (nodup_middle.mp h.nodup)).1
    rw [mem_append, not_or] at hnotin
    have hfilter : (A ++ qe :: B).filter (· ≠ qe) = A ++ B := by
      rw [filter_append, filter_cons_of_neg (by simp), filter_eq_self.mpr, filter_eq_self.mpr]
      · intro b hb
        simpa using ne_of_mem_of_not_mem hb hnotin.2
      · intro b hb
        simpa using ne_of_mem_of_not_mem hb hnotin.1
    rw [hfilter]
    have hleave : Queue.leaveQueue q qe = some (left q qe A B,
        (left q qe A B).settings.dead && decide ((left q qe A B).count = 0)) := by
      rw [Queue.leaveQueue, if_pos (h.parent qe hqe), leaveLoop_eq h.list h.nodup h.count]
      rfl
    exact ⟨_, _, hleave, shape_left h, prio_left⟩
  · have hfilter : l.filter (· ≠ qe) = l := by
      rw [filter_eq_self]
      intro b hb
      simpa using ne_of_mem_of_not_mem hb hqe
    rw [hfilter, Queue.leaveQueue]
    split
    · rw [leaveLoop_absent h.list h.count hqe]
      exact ⟨_, _, rfl, shape_renumber h, prio_renumber⟩
    · exact ⟨_, _, rfl, h, fun _ => rfl⟩

section Runs

variable {s t : State} {arr : List ℕ} {op : Op}

theorem Shape.update (h : Shape q l) (ha : a ∉ l) (e : QueueEnt) :
    Shape { q with ent := update q.ent a e } l := by
  have hent : ∀ b ∈ l, Function.update q.ent a e b = q.ent b :=
    fun b hb => update_of_ne (ne_of_mem_of_not_mem hb ha) _ _
  refine ⟨?_, h.nodup, h.count, ?_, fun b hb => ?_⟩
  · exact h.list.congr fun b hb => congrArg QueueEnt.next (hent b hb)
  · exact h.numbered.congr fun b hb => congrArg QueueEnt.pos (hent b hb)
  · exact (congrArg QueueEnt.parent (hent b hb)).trans (h.parent b hb)

theorem Shape.joinQueue (h : Shape q l) (hqe : qe ∉ l) (hr : refusal q = none) :
    ∃ q', joinQueue q qe = some (none, q') ∧
      Shape q' (insertStable (fun a b => decide ((q.ent b).prio < (q.ent a).prio)) qe l) ∧
      ∀ a, (q'.ent a).prio = (q.ent a).prio := by
  obtain ⟨A, B, rfl, hA, hB, hins⟩ :=
    insertStable_split (fun a b => decide ((q.ent b).prio < (q.ent a).prio)) qe l
  rw [hins]
  refine ⟨_, joinQueue_eq h.list h.nodup hqe h.count (fun a ha => ?_) (fun b hb => ?_) hr,
    shape_joined h hqe, prio_joined⟩
  · exact of_decide_eq_false (hA a ha)
  · exact of_decide_eq_true (hB b hb)

theorem joinQueue_refused {reason : QueueResult} (hr : refusal q = some reason) :
    joinQueue q qe = some (some reason, q) := by rw [joinQueue, hr]

structure Waiting (s : State) (l arr : List ℕ) : Prop where
  shape : Shape s.q l
  sorted : StablySorted (fun a => (s.q.ent a).prio) l arr
  onStack : ∀ a ∈ l, s.onStack a = true

def arrive (arr : List ℕ) : Op → List ℕ
  | .join qe _ none => arr ++ [qe]
  | .join _ _ (some _) => arr
  | .leave qe => arr.filter (· ≠ qe)
  | .depart qe => arr.filter (· ≠ qe)
  | .reload _ => arr

def arrivals (ops : List Op) : List ℕ := ops.foldl arrive []

theorem waiting_initial (settings : Settings) : Waiting (initial settings) [] [] :=
  ⟨⟨rfl, .nil, rfl, trivial, by simp⟩, .nil, by simp⟩

theorem Waiting.join (h : Waiting s l arr) (hd : s.destroyed = false) (hqe : s.onStack qe = false)
    (prio : ℤ) :
    ∃ refused t l', step s (.join qe prio refused) = some t ∧
      Waiting t l' (arrive arr (.join qe prio refused)) := by
  have hnotin : qe ∉ l := fun hmem => by simp [h.onStack qe hmem] at hqe
  have hshape := h.shape.update hnotin (freshEnt prio)
  set q := { s.q with ent := update s.q.ent qe (freshEnt prio) } with hq
  have hprio : ∀ a ∈ l, (q.ent a).prio = (s.q.ent a).prio := by
    intro a ha
    rw [hq]
    exact congrArg QueueEnt.prio (update_of_ne (ne_of_mem_of_not_mem ha hnotin) _ _)
  have hsorted : StablySorted (fun a => (q.ent a).prio) l arr := h.sorted.congr hprio
  have hstack : ∀ b, ∀ a ∈ l, update s.onStack qe b a = true := fun b a ha =>
    (update_of_ne (ne_of_mem_of_not_mem ha hnotin) _ _).trans (h.onStack a ha)
  cases hr : refusal q with
  | some reason =>
    refine ⟨some reason, { s with q := q, onStack := update s.onStack qe false }, l, ?_, hshape,
      hsorted, hstack false⟩
    simp [step, hd, hqe, ← hq, joinQueue_refused hr]
  | none =>
    obtain ⟨q', hjoin, hshape', hprio'⟩ := hshape.joinQueue hnotin hr
    refine ⟨none, { s with q := q', onStack := update s.onStack qe true }, _, ?_, hshape', ?_, ?_⟩
    · simp [step, hd, hqe, ← hq, hjoin]
    · exact (hsorted.insert qe).congr fun a _ => hprio' a
    · intro a ha
      rcases mem_insertStable.mp ha with rfl | ha
      · simp
      · exact hstack true a ha

theorem Waiting.leave (h : Waiting s l arr) (hd : s.destroyed = false) (hqe : s.onStack qe = true) :
    (∃ t, step s (.leave qe) = some t ∧ Waiting t (l.filter (· ≠ qe)) (arrive arr (.leave qe))) ∧
    ∃ t, step s (.depart qe) = some t ∧
      Waiting t (l.filter (· ≠ qe)) (arrive arr (.depart qe)) := by
  obtain ⟨q', d, hleave, hshape, hprio⟩ := h.shape.leaveQueue qe
  have hsorted :
      StablySorted (fun a => (q'.ent a).prio) (l.filter (· ≠ qe)) (arr.filter (· ≠ qe)) :=
    (h.sorted.filter _).congr fun a _ => hprio a
  constructor
  · refine ⟨{ s with q := q', destroyed := d }, by simp [step, hd, hqe, hleave], hshape, hsorted,
      fun a ha => ?_⟩
    exact h.onStack a (mem_of_mem_filter ha)
  · refine ⟨{ s with q := q', destroyed := d, onStack := update s.onStack qe false },
      by simp [step, hd, hqe, hleave], hshape, hsorted, fun a ha => ?_⟩
    have hne : a ≠ qe := by simpa using of_mem_filter ha
    exact (update_of_ne hne _ _).trans (h.onStack a (mem_of_mem_filter ha))

theorem step_enabled (hs : step s op = some t) : s.destroyed = false ∧
    (∀ qe prio refused, op = .join qe prio refused → s.onStack qe = false ∧
      ∃ q', joinQueue { s.q with ent := update s.q.ent qe (freshEnt prio) } qe =
      some (refused, q')) ∧
    ∀ qe, op = .leave qe ∨ op = .depart qe → s.onStack qe = true := by
  cases op with
  | join qe prio refused =>
    simp only [step] at hs
    split at hs
    · cases hs
    · obtain ⟨⟨r, q'⟩, hj, hs⟩ := bind_eq_some_iff.mp hs
      split at hs
      · simp_all
      · cases hs
  | leave qe | depart qe | reload settings => simp only [step] at hs; split at hs <;> simp_all

theorem Waiting.step (h : Waiting s l arr) (hs : step s op = some t) :
    ∃ l', Waiting t l' (arrive arr op) := by
  obtain ⟨hd, hjoin, hleave⟩ := step_enabled hs
  cases op with
  | join qe prio refused =>
    obtain ⟨hqe, q', hq'⟩ := hjoin qe prio refused rfl
    obtain ⟨refused', t', l', hs', hw⟩ := h.join hd hqe prio
    -- the outcome is determined by the queue
    obtain ⟨-, q'', hq''⟩ := (step_enabled hs').2.1 qe prio refused' rfl
    obtain ⟨rfl, -⟩ := Prod.mk.inj (some.inj (hq'.symm.trans hq''))
    obtain rfl := some.inj (hs.symm.trans hs')
    exact ⟨l', hw⟩
  | leave qe =>
    obtain ⟨⟨t', ht', hw⟩, -⟩ := h.leave hd (hleave qe (.inl rfl))
    obtain rfl := some.inj (hs.symm.trans ht')
    exact ⟨_, hw⟩
  | depart qe =>
    obtain ⟨-, t', ht', hw⟩ := h.leave hd (hleave qe (.inr rfl))
    obtain rfl := some.inj (hs.symm.trans ht')
    exact ⟨_, hw⟩
  | reload settings =>
    simp only [Queue.step, hd, Bool.false_eq_true, if_false, some.injEq] at hs
    subst hs
    exact ⟨l, ⟨h.shape.list, h.shape.nodup, h.shape.count, h.shape.numbered.congr fun _ _ =>
      rfl, h.shape.parent⟩, h.sorted, h.onStack⟩

/-- In every run, the waiting list is the stable sort of the callers that have arrived by descending
priority; it is numbered from one and counted, every caller can join or leave, and a leave keeps the
order of the others. -/
theorem waiting_list_order {settings : Settings} {ops : List Op}
    (h : Runs step anyStep (initial settings) ops s) :
    ∃ l, Seg s.q.link s.q.head l none ∧ l.Nodup ∧
      l.Pairwise (fun a b => (s.q.ent b).prio ≤ (s.q.ent a).prio) ∧
      (∀ p, l.filter (fun a => (s.q.ent a).prio = p) = (arrivals ops).filter fun a =>
        (s.q.ent a).prio = p) ∧
      (∀ (i : ℕ) a, l[i]? = some a → (s.q.ent a).pos = i + 1) ∧ s.q.count = l.length ∧
      (s.destroyed = false → ∀ qe,
        (s.onStack qe = false → ∀ prio, ∃ refused t, step s (.join qe prio refused) = some t) ∧
        (s.onStack qe = true → ∃ t u, step s (.leave qe) = some t ∧ step s (.depart qe) = some u ∧
          Seg t.q.link t.q.head (l.filter (· ≠ qe)) none ∧
          Seg u.q.link u.q.head (l.filter (· ≠ qe)) none)) := by
  have hsim : ∃ l, Waiting s l (arrivals ops) := by
    refine Runs.simulates (R := fun s arr => ∃ l, Waiting s l arr) ?_ h ⟨[],
      waiting_initial settings⟩
    rintro s arr op t ⟨l, hl⟩ hs -
    exact hl.step hs
  obtain ⟨l, hl⟩ := hsim
  refine ⟨l, hl.shape.list, hl.shape.nodup, hl.sorted.sorted, hl.sorted.stable, fun i a ha => ?_,
    hl.shape.count, fun hd qe => ⟨fun hqe prio => ?_, fun hqe => ?_⟩⟩
  · rw [hl.shape.numbered.getElem? ha, Int.zero_add]
  · obtain ⟨refused, t, _, ht, -⟩ := hl.join hd hqe prio
    exact ⟨refused, t, ht⟩
  · obtain ⟨⟨t, ht, hwt⟩, u, hu, hwu⟩ := hl.leave hd hqe
    exact ⟨t, u, ht, hu, hwt.shape.list, hwu.shape.list⟩

def overtaking : List Op :=
  [.join 1 0 none, .join 2 5 none, .join 3 5 none, .join 4 0 none, .leave 2]

def openQueue : Settings := ⟨⟨[], [], []⟩, 1, 0, [.other], false⟩

theorem waiting_list_order_overtaking : ∃ s l, Runs step anyStep (initial openQueue) overtaking s ∧
    s.q.head = some 3 ∧ Seg s.q.link s.q.head l none ∧ s.q.count = l.length ∧
    l.Pairwise (fun a b => (s.q.ent b).prio ≤ (s.q.ent a).prio) := by
  obtain ⟨s, hs, hhead⟩ := exists_runs_of_exec (P := fun s : State => s.q.head = some 3)
    (show (exec step anyStep (initial openQueue) overtaking).any _ = true by decide +kernel)
  obtain ⟨l, hl, -, hsorted, -, -, hcount, -⟩ := waiting_list_order hs
  exact ⟨s, l, hs, hhead, hl, hcount, hsorted⟩

end Runs

end CallWeaver.Queue
