import Mathlib.Data.List.Chain
import Mathlib.Data.List.Nodup

/-! # Doubly linked nodes in a heap

Consecutive pointers of a path are linked in both directions. A list is a path from the null
pointer, whose links are the two ends, back to it; a ring is a path from its first node back to it.
-/

namespace CallWeaver

open Function List Option Prod

section Path

variable {P : Type*} {nx pv nx' pv' : P → P} {p q x : P} {l A B : List P}

def Path (nx pv : P → P) (l : List P) : Prop := l.IsChain fun p q => nx p = q ∧ pv q = p

namespace Path

theorem split : Path nx pv (A ++ p :: B) ↔ Path nx pv (A ++ [p]) ∧ Path nx pv (p :: B) :=
  isChain_split

theorem cons_cons : Path nx pv (p :: q :: B) ↔ (nx p = q ∧ pv q = p) ∧ Path nx pv (q :: B) :=
  isChain_cons_cons

/-- A path depends on the forward links of all its pointers but the last and on the backward links
of all but the first. -/
theorem congr (h : Path nx pv l) (hnx : ∀ p ∈ l.dropLast, nx' p = nx p)
    (hpv : ∀ q ∈ l.tail, pv' q = pv q) : Path nx' pv' l := by
  induction l with
  | nil => exact .nil
  | cons p l ih =>
    cases l with
    | nil => exact .singleton p
    | cons q l =>
      obtain ⟨⟨hp, hq⟩, hl⟩ := cons_cons.mp h
      refine cons_cons.mpr ⟨⟨?_, ?_⟩, ih hl (fun p hp => hnx p ?_) fun q hq => hpv q ?_⟩
      · rw [hnx p (by simp), hp]
      · rw [hpv q (by simp), hq]
      · simp only [dropLast_cons_cons, mem_cons] at hp ⊢
        exact .inr hp
      · exact mem_cons_of_mem _ hq

variable [DecidableEq P]

theorem glue (h : Path nx pv (A ++ [p])) (h' : Path nx pv (q :: B)) (hpA : p ∉ A)
    (hpB : p ∉ (q :: B).dropLast) (hqA : q ∉ (A ++ [p]).tail) (hqB : q ∉ B) :
    Path (update nx p q) (update pv q p) (A ++ p :: q :: B) := by
  refine split.mpr ⟨h.congr (fun a ha => ?_) fun a ha => ?_, cons_cons.mpr ⟨?_, ?_⟩⟩
  · rw [dropLast_concat] at ha
    exact update_of_ne (ne_of_mem_of_not_mem ha hpA) _ _
  · exact update_of_ne (ne_of_mem_of_not_mem ha hqA) _ _
  · exact ⟨update_self .., update_self ..⟩
  · refine h'.congr (fun a ha => ?_) fun a ha => ?_
    · exact update_of_ne (ne_of_mem_of_not_mem ha hpB) _ _
    · exact update_of_ne (ne_of_mem_of_not_mem ha hqB) _ _

theorem link (h : Path nx pv (A ++ p :: q :: B)) (hx : x ∉ A ++ p :: q :: B) (hpA : p ∉ A)
    (hpB : p ∉ (q :: B).dropLast) (hqA : q ∉ (A ++ [p]).tail) (hqB : q ∉ B) :
    Path (update (update nx x q) p x) (update (update pv q x) x p) (A ++ p :: x :: q :: B) := by
  obtain ⟨hA, hB⟩ := split.mp h
  obtain ⟨-, hB⟩ := cons_cons.mp hB
  have hxA : x ∉ A ++ [p] := fun hm => hx (by
    rw [append_cons]
    exact mem_append_left _ hm)
  have hxB : x ∉ q :: B := fun hm => hx (by
    rw [append_cons]
    exact mem_append_right _ hm)
  have hright : Path (update nx x q) (update pv q x) (x :: q :: B) := by
    apply glue (A := []) (List.IsChain.singleton x) hB not_mem_nil _ not_mem_nil hqB
    exact fun hm => hxB ((dropLast_sublist _).mem hm)
  have hleft : Path (update nx x q) (update pv q x) (A ++ [p]) := by
    refine hA.congr (fun a ha => update_of_ne ?_ _ _) fun a ha => update_of_ne ?_ _ _
    · exact ne_of_mem_of_not_mem ((dropLast_sublist _).mem ha) hxA
    · exact ne_of_mem_of_not_mem ha hqA
  apply glue hleft hright hpA
  · rw [dropLast_cons_cons, mem_cons, not_or]
    exact ⟨fun he => hxA (by simp [he]), hpB⟩
  · exact fun hm => hxA (mem_of_mem_tail hm)
  · exact hxB

end Path

end Path

structure Cell (α : Type*) where
  val : α
  next : Option ℕ
  prev : Option ℕ
  deriving DecidableEq, Repr

abbrev Cells (α : Type*) := ℕ → Option (Cell α)

namespace Cells

variable {α : Type*} {h h' : Cells α} {a : ℕ} {v : α} {q n p : Option ℕ}
  {nx pv nx' pv' : ℕ → Option ℕ} {vl vl' : ℕ → Option α}

/-- The `next` link of an address, none if it is not allocated. -/
def nextOf (h : Cells α) (a : ℕ) : Option ℕ := (h a).bind Cell.next

def prevOf (h : Cells α) (a : ℕ) : Option ℕ := (h a).bind Cell.prev

def valOf (h : Cells α) (a : ℕ) : Option α := (h a).map Cell.val

/-- `a->next = q`; an address that is not allocated is not written. -/
def setNext (h : Cells α) (a : ℕ) (q : Option ℕ) : Option (Cells α) :=
  (h a).map fun c => update h a (some { c with next := q })

def setPrev (h : Cells α) (a : ℕ) (q : Option ℕ) : Option (Cells α) :=
  (h a).map fun c => update h a (some { c with prev := q })

def setVal (h : Cells α) (a : ℕ) (v : α) : Option (Cells α) :=
  (h a).map fun c => update h a (some { c with val := v })

def alloc (h : Cells α) (a : ℕ) (v : α) : Cells α := update h a (some ⟨v, none, none⟩)

def free (h : Cells α) (a : ℕ) : Cells α := update h a none

theorem cell_of_valOf (ha : h.valOf a = some v) : h a = some ⟨v, h.nextOf a, h.prevOf a⟩ := by
  obtain ⟨c, hc, rfl⟩ := map_eq_some_iff.mp ha
  simp [nextOf, prevOf, hc]

theorem valOf_eq_none : h.valOf a = none ↔ h a = none := map_eq_none_iff

structure Shows (h : Cells α) (nx pv : ℕ → Option ℕ) (vl : ℕ → Option α) : Prop where
  next : h.nextOf = nx
  prev : h.prevOf = pv
  val : h.valOf = vl

theorem shows_self (h : Cells α) : Shows h h.nextOf h.prevOf h.valOf := ⟨rfl, rfl, rfl⟩

namespace Shows

variable (hs : Shows h nx pv vl)

include hs

theorem write (a : ℕ) (c : Option (Cell α)) :
    Shows (update h a c) (update nx a (c.bind Cell.next)) (update pv a (c.bind Cell.prev))
      (update vl a (c.map Cell.val)) := by
  obtain ⟨rfl, rfl, rfl⟩ := hs
  constructor <;> funext b <;> by_cases hb : b = a <;> simp [nextOf, prevOf, valOf, hb]

section

variable (ha : vl a = some v)

include ha

theorem cell : h a = some ⟨v, nx a, pv a⟩ := by
  obtain ⟨rfl, rfl, rfl⟩ := hs
  exact cell_of_valOf ha

theorem update_next (q : Option ℕ) :
    ∃ h', h.setNext a q = some h' ∧ Shows h' (update nx a q) pv vl := by
  have hw := hs.write a (some ⟨v, q, pv a⟩)
  simp only [bind_some, map_some, ← ha, update_eq_self] at hw
  exact ⟨_, by rw [setNext, hs.cell ha, map_some], hw⟩

theorem update_prev (q : Option ℕ) :
    ∃ h', h.setPrev a q = some h' ∧ Shows h' nx (update pv a q) vl := by
  have hw := hs.write a (some ⟨v, nx a, q⟩)
  simp only [bind_some, map_some, ← ha, update_eq_self] at hw
  exact ⟨_, by rw [setPrev, hs.cell ha, map_some], hw⟩

theorem update_val (w : α) :
    ∃ h', h.setVal a w = some h' ∧ Shows h' nx pv (update vl a (some w)) := by
  have hw := hs.write a (some ⟨w, nx a, pv a⟩)
  simp only [bind_some, map_some, update_eq_self] at hw
  exact ⟨_, by rw [setVal, hs.cell ha, map_some], hw⟩

end

theorem alloc (a : ℕ) (v : α) :
    Shows (h.alloc a v) (update nx a none) (update pv a none) (update vl a (some v)) :=
  hs.write a (some ⟨v, none, none⟩)

theorem free (a : ℕ) : Shows (h.free a) (update nx a none) (update pv a none) (update vl a none) :=
  hs.write a none

theorem cell_congr (hs' : Shows h' nx' pv' vl') (hnx : nx a = nx' a) (hpv : pv a = pv' a)
    (hvl : vl a = vl' a) : h a = h' a := by
  cases hv : vl a with
  | some v => rw [hs.cell hv, hs'.cell (hvl.symm.trans hv), hnx, hpv]
  | none =>
    obtain ⟨-, -, rfl⟩ := hs
    obtain ⟨-, -, rfl⟩ := hs'
    rw [valOf_eq_none.mp hv, valOf_eq_none.mp (hvl.symm.trans hv)]

end Shows

end Cells

/-- The links of the null pointer are the given end, those of others are in the heap. -/
def ptr (e : Option ℕ) (f : ℕ → Option ℕ) : Option ℕ → Option ℕ
  | none => e
  | some a => f a

section Ptr

variable {e x : Option ℕ} {f : ℕ → Option ℕ} {a : ℕ}

@[simp] theorem ptr_none : ptr e f none = e := rfl

@[simp] theorem ptr_some : ptr e f (some a) = f a := rfl

@[simp] theorem update_ptr_none : update (ptr e f) none x = ptr x f := by
  funext q
  cases q <;> simp [ptr]

@[simp] theorem update_ptr_some : update (ptr e f) (some a) x = ptr e (update f a x) := by
  funext q
  cases q with
  | none => simp
  | some b => by_cases hb : b = a <;> simp [hb]

end Ptr

section Lists

variable {α : Type*} {h h' : Cells α} {head tail head' tail' q : Option ℕ} {x : ℕ} {v : α}
  {c : ℕ × α} {l A B B' : List (ℕ × α)}

def pointers (l : List (ℕ × α)) : List (Option ℕ) := l.map fun c => some c.1

def headPtr (l : List (ℕ × α)) : Option ℕ := l.head?.map fst

def lastPtr (l : List (ℕ × α)) : Option ℕ := l.getLast?.map fst

@[simp] theorem pointers_nil : pointers ([] : List (ℕ × α)) = [] := rfl

@[simp] theorem pointers_cons : pointers (c :: l) = some c.1 :: pointers l := rfl

@[simp] theorem pointers_append : pointers (A ++ B) = pointers A ++ pointers B := map_append

@[simp] theorem headPtr_nil : headPtr ([] : List (ℕ × α)) = none := rfl

@[simp] theorem headPtr_cons : headPtr (c :: l) = some c.1 := rfl

@[simp] theorem lastPtr_nil : lastPtr ([] : List (ℕ × α)) = none := rfl

@[simp] theorem lastPtr_concat : lastPtr (l ++ [c]) = some c.1 := by simp [lastPtr]

theorem lastPtr_append_cons : lastPtr (A ++ c :: B) = lastPtr (c :: B) := by
  rw [lastPtr, lastPtr, getLast?_append_cons]

theorem exists_lastPtr (c : ℕ × α) (l : List (ℕ × α)) :
    ∃ z ∈ c :: l, lastPtr (c :: l) = some z.1 := by
  obtain ⟨M, z, hz⟩ := (c :: l).eq_nil_or_concat'.resolve_left (by simp)
  exact ⟨z, by simp [hz], by rw [hz, lastPtr_concat]⟩

theorem none_not_mem_pointers : none ∉ pointers l := by simp [pointers]

theorem nodup_pointers (hl : (l.map fst).Nodup) : (pointers l).Nodup := by
  have he : pointers l = (l.map fst).map some := by simp [pointers]
  rw [he]
  exact hl.map (fun _ _ => some.inj)

theorem nodup_insert :
    ((A ++ c :: B).map fst).Nodup ↔ c.1 ∉ (A ++ B).map fst ∧ ((A ++ B).map fst).Nodup := by
  rw [map_append, map_cons, nodup_middle, nodup_cons, ← map_append]

theorem exists_concat_lastPtr (l : List (ℕ × α)) : ∃ M, none :: pointers l = M ++ [lastPtr l] := by
  rcases l.eq_nil_or_concat' with rfl | ⟨l, c, rfl⟩
  · exact ⟨[], rfl⟩
  · exact ⟨none :: pointers l, by simp⟩

theorem exists_cons_headPtr (l : List (ℕ × α)) : ∃ M, pointers l ++ [none] = headPtr l :: M := by
  cases l with
  | nil => exact ⟨[], rfl⟩
  | cons c l => exact ⟨pointers l ++ [none], rfl⟩

structure DList (h : Cells α) (head tail : Option ℕ) (l : List (ℕ × α)) : Prop where
  path : Path (ptr head h.nextOf) (ptr tail h.prevOf) (none :: pointers l ++ [none])
  val : ∀ c ∈ l, h.valOf c.1 = some c.2
  nodup : (l.map fst).Nodup

namespace DList

theorem nil_iff : DList h head tail [] ↔ head = none ∧ tail = none := by
  constructor
  · rintro ⟨hp, -, -⟩
    exact (Path.cons_cons.mp hp).1
  · rintro ⟨rfl, rfl⟩
    exact ⟨Path.cons_cons.mpr ⟨⟨rfl, rfl⟩, .singleton none⟩, by simp, by simp⟩

theorem mid (hd : DList h head tail (A ++ B)) :
    ptr head h.nextOf (lastPtr A) = headPtr B ∧ ptr tail h.prevOf (headPtr B) = lastPtr A := by
  obtain ⟨M, hM⟩ := exists_concat_lastPtr A
  obtain ⟨N, hN⟩ := exists_cons_headPtr B
  have hp := hd.path
  rw [pointers_append, ← cons_append, hM, append_assoc, append_assoc, hN] at hp
  exact (Path.cons_cons.mp (Path.split.mp hp).2).1

theorem head_eq (hd : DList h head tail l) : head = headPtr l := by
  simpa using (mid (A := []) hd).1

theorem tail_eq (hd : DList h head tail l) : tail = lastPtr l := by
  rw [← append_nil l] at hd
  simpa using (mid hd).2

theorem cell (hd : DList h head tail (A ++ c :: B)) : h c.1 = some ⟨c.2, headPtr B, lastPtr A⟩ := by
  have hprev : h.prevOf c.1 = lastPtr A := by simpa using (mid hd).2
  have hnext : h.nextOf c.1 = headPtr B := by
    rw [append_cons] at hd
    simpa using (mid hd).1
  rw [Cells.cell_of_valOf (hd.val c (by simp)), hprev, hnext]

theorem unique (hd : DList h head tail (A ++ B)) (hd' : DList h head tail (A ++ B')) : B = B' := by
  have hhead : headPtr B = headPtr B' := hd.mid.1.symm.trans hd'.mid.1
  induction B generalizing A B' with
  | nil =>
    cases B' with
    | nil => rfl
    | cons c B' => cases hhead
  | cons b B ih =>
    cases B' with
    | nil => cases hhead
    | cons c B' =>
      have hfst : b.1 = c.1 := some.inj hhead
      have hval := hd'.val c (by simp)
      rw [← hfst, hd.val b (by simp)] at hval
      obtain rfl : b = c := Prod.ext hfst (some.inj hval)
      rw [append_cons] at hd hd'
      rw [ih hd hd' (hd.mid.1.symm.trans hd'.mid.1)]

theorem apart (hl : ((A ++ B).map fst).Nodup) :
    ∃ M N, none :: pointers A = M ++ [lastPtr A] ∧ pointers B ++ [none] = headPtr B :: N ∧
      lastPtr A ∉ M ∧ lastPtr A ∉ (headPtr B :: N).dropLast ∧
      headPtr B ∉ (M ++ [lastPtr A]).tail ∧ headPtr B ∉ N := by
  obtain ⟨M, hM⟩ := exists_concat_lastPtr A
  obtain ⟨N, hN⟩ := exists_cons_headPtr B
  have hnd : (pointers A ++ pointers B).Nodup := by
    rw [← pointers_append]
    exact nodup_pointers hl
  obtain ⟨hA, hB, hAB⟩ := nodup_append.mp hnd
  have hMA : (M ++ [lastPtr A]).Nodup := by
    rw [← hM]
    exact nodup_cons.mpr ⟨none_not_mem_pointers, hA⟩
  have hNB : (headPtr B :: N).Nodup := by
    rw [← hN]
    simpa using hB.concat none_not_mem_pointers
  refine ⟨M, N, hM, hN, ?_, ?_, ?_, (nodup_cons.mp hNB).1⟩
  · intro hm
    exact (nodup_append.mp hMA).2.2 _ hm _ (by simp) rfl
  · rw [← hN, dropLast_concat]
    intro hm
    have hlast : lastPtr A ∈ none :: pointers A := by simp [hM]
    rcases mem_cons.mp hlast with he | hlast
    · exact none_not_mem_pointers (he ▸ hm)
    · exact hAB _ hlast _ hm rfl
  · rw [← hM, tail_cons]
    intro hm
    have hhead : headPtr B ∈ pointers B ++ [none] := by simp [hN]
    rcases mem_append.mp hhead with hhead | he
    · exact hAB _ hm _ hhead rfl
    · rw [mem_singleton.mp he] at hm
      exact none_not_mem_pointers hm

theorem insert (hd : DList h head tail (A ++ B)) (hx : h.valOf x = none)
    (hnx : ptr head' h'.nextOf =
      update (update (ptr head h.nextOf) (some x) (headPtr B)) (lastPtr A) (some x))
    (hpv : ptr tail' h'.prevOf =
      update (update (ptr tail h.prevOf) (headPtr B) (some x)) (some x) (lastPtr A))
    (hvl : h'.valOf = update h.valOf x (some v)) : DList h' head' tail' (A ++ (x, v) :: B) := by
  obtain ⟨hp, hv, hl⟩ := hd
  have hxl : x ∉ (A ++ B).map fst := fun hm => by
    obtain ⟨c, hc, rfl⟩ := mem_map.mp hm
    rw [hv c hc] at hx
    cases hx
  obtain ⟨M, N, hM, hN, h₁, h₂, h₃, h₄⟩ := apart hl
  refine ⟨?_, fun c hc => ?_, ?_⟩
  · have hfresh : some x ∉ M ++ lastPtr A :: headPtr B :: N := by
      rw [append_cons, ← hM, ← hN]
      simpa [pointers] using hxl
    rw [pointers_append, ← cons_append, hM, append_assoc, append_assoc, hN] at hp
    have he : none :: pointers (A ++ (x, v) :: B) ++ [none] =
        M ++ lastPtr A :: some x :: headPtr B :: N := by
      rw [pointers_append, ← cons_append, hM, ← hN]
      simp
    rw [hnx, hpv, he]
    exact hp.link hfresh h₁ h₂ h₃ h₄
  · rw [hvl]
    by_cases hc' : c = (x, v)
    · rw [hc', update_self]
    · have hm : c ∈ A ++ B := by simpa [hc'] using hc
      rw [update_of_ne (ne_of_mem_of_not_mem (mem_map_of_mem hm) hxl), hv c hm]
  · exact nodup_insert.mpr ⟨hxl, hl⟩

theorem pop (hd : DList h head tail (c :: l))
    (hnx : ptr head' h'.nextOf = update (ptr (headPtr l) h.nextOf) (some c.1) none)
    (hpv :
      ptr tail' h'.prevOf = update (update (ptr tail h.prevOf) (headPtr l) none) (some c.1) none)
    (hvl : h'.valOf = update h.valOf c.1 none) : DList h' head' tail' l := by
  obtain ⟨hp, hv, hl⟩ := hd
  obtain ⟨hc, hl'⟩ := nodup_cons.mp hl
  obtain ⟨M, N, hM, hN, h₁, h₂, h₃, h₄⟩ := apart (A := []) hl'
  refine ⟨?_, fun d hd => ?_, hl'⟩
  · have hout : Path (ptr (headPtr l) h.nextOf) (update (ptr tail h.prevOf) (headPtr l) none)
        (none :: pointers l ++ [none]) := by
      rw [pointers_cons] at hp
      obtain ⟨-, hp⟩ := Path.cons_cons.mp hp
      rw [append_eq, hN] at hp
      obtain ⟨-, hp⟩ := Path.cons_cons.mp hp
      rw [← update_ptr_none (e := head), cons_append, hN]
      exact Path.glue (A := []) (.singleton _) hp (by simp) h₂ (by simp) h₄
    have hcp : some c.1 ∉ none :: pointers l ++ [none] := by simpa [pointers] using hc
    rw [hnx, hpv]
    refine hout.congr (fun p hp => ?_) fun p hp => ?_
    · exact update_of_ne (ne_of_mem_of_not_mem ((dropLast_sublist _).mem hp) hcp) _ _
    · exact update_of_ne (ne_of_mem_of_not_mem (mem_of_mem_tail hp) hcp) _ _
  · rw [hvl, update_of_ne (ne_of_mem_of_not_mem (mem_map_of_mem hd) hc), hv d (by simp [hd])]

theorem setVal (hd : DList h head tail (A ++ c :: B)) (v : α) :
    ∃ h', h.setVal c.1 v = some h' ∧ DList h' head tail (A ++ (c.1, v) :: B) ∧
      ∀ a, h a = none → h' a = none := by
  obtain ⟨hp, hv, hl⟩ := hd
  obtain ⟨h', hset, hs⟩ := h.shows_self.update_val (hv c (by simp)) v
  refine ⟨h', hset, ⟨?_, fun d hd => ?_, by simpa using hl⟩, fun a ha => ?_⟩
  · rw [hs.next, hs.prev]
    simpa using hp
  · rw [hs.val]
    by_cases hdc : d = (c.1, v)
    · rw [hdc, update_self]
    · have hm : d ∈ A ++ B := by simpa [hdc] using hd
      rw [update_of_ne (ne_of_mem_of_not_mem (mem_map_of_mem hm) (nodup_insert.mp hl).1)]
      refine hv d ?_
      rcases mem_append.mp hm with hm | hm <;> simp [hm]
  · rw [← Cells.valOf_eq_none] at ha ⊢
    have hac : a ≠ c.1 := by
      rintro rfl
      rw [hv c (by simp)] at ha
      cases ha
    rw [hs.val, update_of_ne hac, ha]

end DList

structure Ring (h : Cells α) (l : List (ℕ × α)) : Prop where
  path : Path (ptr none h.nextOf) (ptr none h.prevOf) (pointers l ++ (pointers l).take 1)
  val : ∀ c ∈ l, h.valOf c.1 = some c.2
  nodup : (l.map fst).Nodup

namespace Ring

theorem nil : Ring h [] := ⟨.nil, by simp, by simp⟩

theorem rotate_one (hr : Ring h (c :: l)) : Ring h (l ++ [c]) := by
  obtain ⟨hp, hv, hl⟩ := hr
  refine ⟨?_, fun d hd => hv d (by simpa [or_comm] using hd), ?_⟩
  · cases l with
    | nil => exact hp
    | cons d m =>
      simp only [pointers_cons, cons_append, take_succ_cons, take_zero] at hp
      obtain ⟨hcd, hp⟩ := Path.cons_cons.mp hp
      rw [← cons_append] at hp
      have he : pointers (d :: m ++ [c]) ++ (pointers (d :: m ++ [c])).take 1 =
          (some d.1 :: pointers m) ++ some c.1 :: [some d.1] := by simp
      rw [he]
      exact Path.split.mpr ⟨hp, Path.cons_cons.mpr ⟨hcd, .singleton _⟩⟩
  · rw [nodup_insert, append_nil]
    exact nodup_cons.mp hl

theorem rotate (hr : Ring h (A ++ B)) : Ring h (B ++ A) := by
  induction A generalizing B with
  | nil => simpa using hr
  | cons c A ih =>
    have hone : Ring h (A ++ (B ++ [c])) := by
      rw [← append_assoc]
      exact rotate_one hr
    simpa using ih hone

theorem cell (hr : Ring h (c :: l)) : h c.1 = some ⟨c.2, headPtr (l ++ [c]), lastPtr (c :: l)⟩ := by
  have hp := hr.path
  simp only [pointers_cons, cons_append, take_succ_cons, take_zero] at hp
  have hnext : h.nextOf c.1 = headPtr (l ++ [c]) := by
    cases l with
    | nil | cons d m => exact (Path.cons_cons.mp hp).1.1
  have hprev : h.prevOf c.1 = lastPtr (c :: l) := by
    rcases l.eq_nil_or_concat' with rfl | ⟨m, d, rfl⟩
    · exact (Path.cons_cons.mp hp).1.2
    · rw [← cons_append, pointers_append, ← cons_append, append_assoc] at hp
      rw [← cons_append, lastPtr_concat]
      exact (Path.cons_cons.mp (Path.split.mp hp).2).1.2
  rw [Cells.cell_of_valOf (hr.val c (by simp)), hprev, hnext]

theorem start (hr : Ring h (B ++ c :: A)) :
    ∃ q S, B ++ c :: A = q :: S ∧ h q.1 = some ⟨q.2, headPtr (S ++ [q]), lastPtr (c :: A)⟩ := by
  obtain ⟨q, S, hq⟩ : ∃ q S, B ++ c :: A = q :: S := exists_cons_of_ne_nil (by simp)
  have hlast : lastPtr (q :: S) = lastPtr (c :: A) := by rw [← hq, lastPtr_append_cons]
  rw [hq] at hr
  exact ⟨q, S, hq, hlast ▸ hr.cell⟩

theorem singleton (hnx : h.nextOf x = some x) (hpv : h.prevOf x = some x)
    (hvl : h.valOf x = some v) : Ring h [(x, v)] := by
  constructor
  · exact Path.cons_cons.mpr ⟨⟨hnx, hpv⟩, .singleton _⟩
  · simpa using hvl
  · simp

theorem congr (hr : Ring h l) (hl : ∀ c ∈ l, h' c.1 = h c.1) : Ring h' l := by
  have hmem : ∀ p ∈ pointers l ++ (pointers l).take 1, ∃ c ∈ l, some c.1 = p := by
    intro p hp
    rcases mem_append.mp hp with hp | hp
    · exact mem_map.mp hp
    · exact mem_map.mp (mem_of_mem_take hp)
  refine ⟨hr.path.congr (fun p hp => ?_) fun p hp => ?_, fun c hc => ?_, hr.nodup⟩
  · obtain ⟨c, hc, rfl⟩ := hmem p ((dropLast_sublist _).mem hp)
    simp [Cells.nextOf, hl c hc]
  · obtain ⟨c, hc, rfl⟩ := hmem p (mem_of_mem_tail hp)
    simp [Cells.prevOf, hl c hc]
  · rw [← hr.val c hc, Cells.valOf, Cells.valOf, hl c hc]

theorem round (hl : l ≠ []) (hnd : (l.map fst).Nodup) :
    ∃ M, pointers l = M ++ [lastPtr l] ∧
      pointers l ++ (pointers l).take 1 = M ++ [lastPtr l, headPtr l] ∧
      lastPtr l ∉ M ∧ headPtr l ∉ (pointers l).tail := by
  obtain ⟨c, m, rfl⟩ := exists_cons_of_ne_nil hl
  obtain ⟨M, z, hM⟩ := (c :: m).eq_nil_or_concat'.resolve_left hl
  have hptrs : pointers (c :: m) = pointers M ++ [lastPtr (c :: m)] := by
    rw [hM]
    simp
  have hpn := nodup_pointers hnd
  refine ⟨pointers M, hptrs, ?_, fun hm => ?_, (nodup_cons.mp hpn).1⟩
  · rw [append_cons, ← hptrs]
    simp
  · rw [hptrs] at hpn
    exact (nodup_append.mp hpn).2.2 _ hm _ (by simp) rfl

theorem push (hr : Ring h l) (hl : l ≠ []) (hx : x ∉ l.map fst) (hxv : h.valOf x = some v)
    (hnx : ptr none h'.nextOf =
      update (update (ptr none h.nextOf) (some x) (headPtr l)) (lastPtr l) (some x))
    (hpv : ptr none h'.prevOf =
      update (update (ptr none h.prevOf) (headPtr l) (some x)) (some x) (lastPtr l))
    (hvl : h'.valOf = h.valOf) : Ring h' (l ++ [(x, v)]) := by
  obtain ⟨hp, hv, hnd⟩ := hr
  obtain ⟨M, hptrs, hround, hlast, hhead⟩ := round hl hnd
  refine ⟨?_, fun d hd => ?_, ?_⟩
  · have hfresh : some x ∉ M ++ [lastPtr l, headPtr l] := by
      rw [← hround, mem_append, not_or]
      have hxl : some x ∉ pointers l := by simpa [pointers] using hx
      exact ⟨hxl, fun hm => hxl (mem_of_mem_take hm)⟩
    have he : pointers (l ++ [(x, v)]) ++ (pointers (l ++ [(x, v)])).take 1 =
        M ++ [lastPtr l, some x, headPtr l] := by
      rw [pointers_append, hptrs]
      cases M <;> simp_all
    rw [hnx, hpv, he]
    rw [hround] at hp
    exact hp.link hfresh hlast (by simp) (by rwa [← hptrs]) (by simp)
  · rw [hvl]
    rcases mem_append.mp hd with hd | hd
    · exact hv d hd
    · rw [mem_singleton.mp hd, hxv]
  · rw [nodup_insert, append_nil]
    exact ⟨hx, hnd⟩

theorem pop (hr : Ring h (c :: l))
    (hnx : ptr none h'.nextOf = update (update (ptr none h.nextOf) (lastPtr (c :: l))
      (headPtr (l ++ [c]))) (some c.1) q)
    (hpv : ptr none h'.prevOf = update (ptr none h.prevOf) (headPtr (l ++ [c])) (lastPtr (c :: l)))
    (hvl : h'.valOf = h.valOf) : Ring h' l := by
  obtain ⟨hp, hv, hnd⟩ := hr
  obtain ⟨hc, hnd'⟩ := nodup_cons.mp hnd
  refine ⟨?_, fun d hd => by rw [hvl, hv d (by simp [hd])], hnd'⟩
  cases l with
  | nil => exact .nil
  | cons d m =>
    obtain ⟨M, hptrs, hround, hlast, hhead⟩ := round (l := d :: m) (by simp) hnd'
    have hlast' : lastPtr (c :: d :: m) = lastPtr (d :: m) := lastPtr_append_cons (A := [c])
    -- the path behind the first node, without the way back to it
    have hrest : Path (ptr none h.nextOf) (ptr none h.prevOf) (M ++ [lastPtr (d :: m)]) := by
      simp only [pointers_cons, cons_append] at hp
      have hp' := (Path.cons_cons.mp hp).2
      rw [← pointers_cons, ← cons_append, ← pointers_cons, hptrs, append_assoc] at hp'
      exact (Path.split.mp hp').1
    have hring :=
      Path.glue hrest (.singleton (headPtr (d :: m))) hlast (by simp) (by rwa [← hptrs]) (by simp)
    rw [hround, hnx, hpv, hlast']
    refine hring.congr (fun p hp => update_of_ne ?_ _ _) fun p hp => rfl
    rw [append_cons, ← hptrs, dropLast_concat] at hp
    exact ne_of_mem_of_not_mem hp (by simpa [pointers] using hc)

end Ring

end Lists

end CallWeaver
