import CallWeaver.Io.Context

/-! # Registered entries

Every address in use holds the index of its own entry, also while callbacks add and remove entries.
The entries in use are those added and not removed, in this order.
-/

namespace CallWeaver.Io

open Function List Option

variable {ioc ioc' : IoContext} {s t : State} {x n id y getfrom putto : ℕ}

structure Entry where
  id : ℕ
  fd : ℤ
  events : ℤ
  callback : Option ℕ
  data : Option ℕ
  deriving DecidableEq, Repr

def IoContext.entryAt (ioc : IoContext) (x : ℕ) : Option Entry :=
  (ioc.ior x).id.map fun id =>
    ⟨id, (ioc.fds x).fd, (ioc.fds x).events, (ioc.ior x).callback, (ioc.ior x).data⟩

/-- The entries in use, in the order of the arrays. -/
def IoContext.live (ioc : IoContext) : List Entry := (range ioc.fdcnt).filterMap ioc.entryAt

structure Wf (ioc : IoContext) : Prop where
  index : ∀ x < ioc.fdcnt, ∀ id, (ioc.ior x).id = some id → ioc.ids id = some (x : ℤ)
  owned : ∀ id v, ioc.ids id = some v → ∃ x < ioc.fdcnt, (ioc.ior x).id = some id
  dense : ioc.needshrink = false → ∀ x < ioc.fdcnt, (ioc.ior x).id ≠ none

theorem wf_create : Wf ioContextCreate :=
  ⟨fun _ h => absurd h (Nat.not_lt_zero _), fun _ _ h => by simp [ioContextCreate] at h,
    fun _ _ h => absurd h (Nat.not_lt_zero _)⟩

theorem Wf.eq_of_id (h : Wf ioc) (hx : x < ioc.fdcnt) (hy : y < ioc.fdcnt)
    (hidx : (ioc.ior x).id = some id) (hidy : (ioc.ior y).id = some id) : x = y := by
  have hxy := (h.index x hx id hidx).symm.trans (h.index y hy id hidy)
  exact Int.ofNat.inj (some.inj hxy)

section Add

variable (fd events : ℤ) (callback data : Option ℕ)

theorem cwIoAdd_eq (ioc : IoContext) (id : ℕ) :
    ∃ m, cwIoAdd ioc fd callback events data id = { ioc with
    maxfdcnt := m
    fds := update ioc.fds ioc.fdcnt ⟨fd, events, 0⟩
    ior := update ioc.ior ioc.fdcnt ⟨callback, data, some id⟩
    ids := update ioc.ids id (some ioc.fdcnt)
    fdcnt := ioc.fdcnt + 1 } := by
  unfold cwIoAdd
  split
  · exact ⟨_, rfl⟩
  · exact ⟨_, rfl⟩

theorem Wf.add (h : Wf ioc) (hid : ioc.ids id = none) :
    Wf (cwIoAdd ioc fd callback events data id) := by
  obtain ⟨m, hm⟩ := cwIoAdd_eq fd events callback data ioc id
  rw [hm]
  have hfresh : ∀ y < ioc.fdcnt, (ioc.ior y).id ≠ some id := by
    intro y hy he
    simp [h.index y hy id he] at hid
  constructor
  · intro y hy p hp
    by_cases hyn : y = ioc.fdcnt
    · subst hyn
      obtain rfl : id = p := by simpa using hp
      exact update_self ..
    · simp only [update_of_ne hyn] at hp
      have hy' : y < ioc.fdcnt := Nat.lt_of_le_of_ne (Nat.le_of_lt_succ hy) hyn
      have hpid : p ≠ id := fun he => hfresh y hy' (he ▸ hp)
      exact (update_of_ne hpid _ _).trans (h.index y hy' p hp)
  · intro p v hp
    by_cases hpid : p = id
    · exact ⟨ioc.fdcnt, Nat.lt_succ_self _, by simp [hpid]⟩
    · simp only [update_of_ne hpid] at hp
      obtain ⟨y, hy, hyp⟩ := h.owned p v hp
      exact ⟨y, Nat.lt_succ_of_lt hy, by simpa only [update_of_ne (Nat.ne_of_lt hy)] using hyp⟩
  · intro hn y hy
    by_cases hyn : y = ioc.fdcnt
    · simp [hyn]
    · simpa only [update_of_ne hyn]
        using h.dense hn y (Nat.lt_of_le_of_ne (Nat.le_of_lt_succ hy) hyn)

theorem live_add : (cwIoAdd ioc fd callback events data id).live =
    ioc.live ++ [⟨id, fd, events, callback, data⟩] := by
  obtain ⟨m, hm⟩ := cwIoAdd_eq fd events callback data ioc id
  rw [hm, IoContext.live, range_succ, filterMap_append]
  congr 1
  · apply filterMap_congr
    intro y hy
    have hyn : y ≠ ioc.fdcnt := Nat.ne_of_lt (mem_range.mp hy)
    simp only [IoContext.entryAt, update_of_ne hyn]
  · simp [IoContext.entryAt]

end Add

section Change

variable {fd events v : ℤ} {callback data : Option ℕ}

def Entry.change (e : Entry) (fd : ℤ) (callback : Option ℕ) (events : ℤ) (data : Option ℕ) :
    Entry :=
  { e with
    fd := if fd > -1 then fd else e.fd
    events := if events ≠ 0 then events else e.events
    callback := callback <|> e.callback
    data := data <|> e.data }

theorem Wf.exists_index (h : Wf ioc) (hv : ioc.ids id = some v) :
    ∃ x < ioc.fdcnt, (ioc.ior x).id = some id ∧ v = x := by
  obtain ⟨x, hx, hid⟩ := h.owned id v hv
  exact ⟨x, hx, hid, some.inj (hv.symm.trans (h.index x hx id hid))⟩

theorem Wf.change (h : Wf ioc) (hc : cwIoChange ioc id fd callback events data = some ioc') :
    Wf ioc' ∧ ioc'.live =
      ioc.live.map (fun e => if e.id = id then e.change fd callback events data else e) ∧
      ioc'.needshrink = ioc.needshrink ∧ ioc'.currentIoc = ioc.currentIoc := by
  obtain ⟨v, hv, hc⟩ := bind_eq_some_iff.mp hc
  obtain ⟨x, hx, hid, rfl⟩ := h.exists_index hv
  rw [if_pos (by exact_mod_cast hx)] at hc
  obtain rfl := some.inj hc
  simp only [Int.toNat_natCast]
  have hior : ∀ y, (update ioc.ior x { ioc.ior x with
      callback := callback <|> (ioc.ior x).callback, data := data <|> (ioc.ior x).data } y).id =
          (ioc.ior y).id := by
    intro y
    by_cases hy : y = x
    · simp [hy]
    · rw [update_of_ne hy]
  refine ⟨⟨?_, ?_, ?_⟩, ?_, by trivial⟩
  · exact fun y hy p hp => h.index y hy p ((hior y).symm.trans hp)
  · intro p v hp
    obtain ⟨y, hy, hyp⟩ := h.owned p v hp
    exact ⟨y, hy, (hior y).trans hyp⟩
  · exact fun hn y hy he => h.dense hn y hy ((hior y).symm.trans he)
  · rw [IoContext.live, IoContext.live, map_filterMap]
    apply filterMap_congr
    intro y hy
    by_cases hyx : y = x
    · subst hyx
      simp [IoContext.entryAt, hid, Entry.change]
    · simp only [IoContext.entryAt, update_of_ne hyx, Option.map_map]
      cases hp : (ioc.ior y).id with
      | none => rfl
      | some p =>
        have hpid : p ≠ id := fun he => hyx (h.eq_of_id (mem_range.mp hy) hx (he ▸ hp) hid)
        simp [hpid]

end Change

def hole (ioc : IoContext) (id x : ℕ) : IoContext :=
  { ioc with
    ids := update ioc.ids id none
    ior := update ioc.ior x { ioc.ior x with id := none }
    fds := update ioc.fds x { ioc.fds x with events := 0, revents := 0 }
    needshrink := true }

section

variable (h : Wf ioc) (hx : x < ioc.fdcnt) (hid : (ioc.ior x).id = some id)

include h hx hid

theorem findId_eq : findId ioc id ioc.fdcnt 0 = some x := by
  have hloop : ∀ k y, y ≤ x → y + k = ioc.fdcnt → findId ioc id k y = some x := by
    intro k
    induction k with
    | zero => intro y hy hk; omega
    | succ k ih =>
      intro y hy hk
      by_cases hyx : y = x
      · subst hyx
        exact if_pos hid
      · have hne : (ioc.ior y).id ≠ some id := fun he => hyx (h.eq_of_id (by omega) hx he hid)
        rw [findId, if_neg hne]
        exact ih (y + 1) (by omega) (by omega)
  exact hloop _ 0 (Nat.zero_le _) (Nat.zero_add _)

theorem Wf.hole : Wf (hole ioc id x) := by
  have hmem : ∀ y p, (update ioc.ior x { ioc.ior x with id := none } y).id = some p →
      y ≠ x ∧ (ioc.ior y).id = some p := by
    intro y p hp
    by_cases hy : y = x
    · simp [hy] at hp
    · exact ⟨hy, by rwa [update_of_ne hy] at hp⟩
  constructor
  · intro y hy p hp
    obtain ⟨hyx, hp⟩ := hmem y p hp
    have hpid : p ≠ id := fun he => hyx (h.eq_of_id hy hx (he ▸ hp) hid)
    exact (update_of_ne hpid _ _).trans (h.index y hy p hp)
  · intro p v hp
    by_cases hpid : p = id
    · simp [Io.hole, hpid] at hp
    · simp only [Io.hole, update_of_ne hpid] at hp
      obtain ⟨y, hy, hyp⟩ := h.owned p v hp
      have hyx : y ≠ x := by
        rintro rfl
        exact hpid (some.inj (hyp.symm.trans hid))
      exact ⟨y, hy, by simpa only [Io.hole, update_of_ne hyx] using hyp⟩
  · intro hn
    cases hn

theorem live_hole : (hole ioc id x).live = ioc.live.filter (·.id ≠ id) := by
  rw [IoContext.live, IoContext.live, filter_filterMap]
  apply filterMap_congr
  intro y hy
  by_cases hyx : y = x
  · subst hyx
    simp [IoContext.entryAt, hole, hid, Option.filter]
  · simp only [IoContext.entryAt, hole, update_of_ne hyx]
    cases hp : (ioc.ior y).id with
    | none => rfl
    | some p =>
      have hpid : p ≠ id := fun he => hyx (h.eq_of_id (mem_range.mp hy) hx (he ▸ hp) hid)
      simp [hpid, Option.filter]

end

def IoContext.slot (ioc : IoContext) (x : ℕ) : PollFd × IoRec := (ioc.fds x, ioc.ior x)

/-- The context after the entry at `getfrom` has moved to `putto`. -/
def moved (ioc : IoContext) (getfrom putto id : ℕ) : IoContext :=
  { ioc with
    fds := update ioc.fds putto (ioc.fds getfrom)
    ior := update ioc.ior putto (ioc.ior getfrom)
    ids := update ioc.ids id (some putto) }

section Moved

variable {p : ℕ}

theorem moved_self (hself : ioc.ids id = some (putto : ℤ)) : moved ioc putto putto id = ioc := by
  rw [moved, ← hself, update_eq_self, update_eq_self, update_eq_self]

theorem slot_moved : (moved ioc getfrom putto id).slot putto = ioc.slot getfrom := by
  simp [moved, IoContext.slot]

theorem map_slot_moved {l : List ℕ} (h : ∀ y ∈ l, y ≠ putto) :
    l.map (moved ioc getfrom putto id).slot = l.map ioc.slot :=
  map_congr_left fun y hy => by simp only [moved, IoContext.slot, update_of_ne (h y hy)]

theorem moved_index (hid : (ioc.ior getfrom).id = some id)
    (hindex : ∀ x, x < putto ∨ getfrom ≤ x ∧ x < getfrom + (n + 1) →
      ∀ id, (ioc.ior x).id = some id → ioc.ids id = some (x : ℤ))
    (hx : x < putto + 1 ∨ getfrom + 1 ≤ x ∧ x < getfrom + 1 + n) (hle : putto ≤ getfrom)
    (hp : ((moved ioc getfrom putto id).ior x).id = some p) :
    (moved ioc getfrom putto id).ids p = some (x : ℤ) := by
  by_cases hxp : x = putto
  · subst hxp
    obtain rfl : id = p := by simpa [moved, hid] using hp
    exact update_self ..
  · have hpx : (ioc.ior x).id = some p := by simpa only [moved, update_of_ne hxp] using hp
    have hx' := hindex x (by omega) p hpx
    have hpid : p ≠ id := by
      rintro rfl
      have hxg := some.inj (hx'.symm.trans (hindex getfrom (by omega) p hid))
      omega
    exact (update_of_ne hpid _ _).trans hx'

end Moved

theorem ioShrinkLoop_spec (hle : putto ≤ getfrom)
    (hindex : ∀ x, x < putto ∨ getfrom ≤ x ∧ x < getfrom + n →
      ∀ id, (ioc.ior x).id = some id → ioc.ids id = some (x : ℤ)) :
    ∃ ioc' m, ioShrinkLoop n getfrom putto ioc = (ioc', m) ∧
      (range m).map ioc'.slot = (range putto).map ioc.slot ++
        ((range' getfrom n).map ioc.slot).filter (fun p => p.2.id ≠ none) ∧
      (∀ x < m, ∀ id, (ioc'.ior x).id = some id → ioc'.ids id = some (x : ℤ)) ∧
      (∀ id, (∀ x < m, (ioc'.ior x).id ≠ some id) → ioc'.ids id = ioc.ids id) ∧
      ioc'.currentIoc = ioc.currentIoc := by
  induction n generalizing getfrom putto ioc with
  | zero => exact ⟨ioc, putto, rfl, by simp, fun x hx => hindex x (.inl hx), fun _ _ => rfl, rfl⟩
  | succ n ih =>
    cases hid : (ioc.ior getfrom).id with
    | none =>
      obtain ⟨ioc', m, hloop, hslots, hrest⟩ :=
        ih (show putto ≤ getfrom + 1 by omega) fun x hx => hindex x (by omega)
      refine ⟨ioc', m, by rw [ioShrinkLoop, hid]; exact hloop, ?_, hrest⟩
      rw [hslots, range'_succ, map_cons, filter_cons_of_neg]
      simp [IoContext.slot, hid]
    | some id =>
      obtain ⟨ioc', m, hloop, hslots, hix, hids, hcur⟩ :=
        ih (show putto + 1 ≤ getfrom + 1 by omega) fun x hx p => moved_index hid hindex hx hle
      rw [range_succ, map_append, map_singleton, slot_moved,
        map_slot_moved fun y hy => Nat.ne_of_lt (mem_range.mp hy),
        map_slot_moved fun y hy => by have := mem_range'_1.mp hy; omega] at hslots
      refine ⟨ioc', m, ?_, ?_, hix, fun p hp => ?_, hcur⟩
      · simp only [ioShrinkLoop, hid, ← hloop]
        split
        · rfl
        · -- an entry that stays where it is can be seen as moved to its own place
          obtain rfl : getfrom = putto := not_not.mp ‹_›
          rw [moved_self (hindex getfrom (by omega) id hid)]
      · rw [hslots, range'_succ, map_cons, filter_cons_of_pos, append_assoc, singleton_append]
        simp [IoContext.slot, hid]
      · -- the address of this entry is among those at the end
        have hmem : ioc.slot getfrom ∈ (range m).map ioc'.slot := by simp [hslots]
        obtain ⟨y, hy, hyg⟩ := mem_map.mp hmem
        have hyid : (ioc'.ior y).id = some id := (congrArg (·.2.id) hyg).trans hid
        rw [hids p hp]
        exact update_of_ne (fun he : p = id => hp y (mem_range.mp hy) (he ▸ hyid)) _ _

theorem Wf.shrink (h : Wf ioc) : Wf (ioShrink ioc) ∧ (ioShrink ioc).live = ioc.live ∧
    (ioShrink ioc).needshrink = false ∧ (ioShrink ioc).currentIoc = ioc.currentIoc := by
  obtain ⟨ioc', m, hloop, hslots, hindex, hids, hcur⟩ := ioShrinkLoop_spec (n := ioc.fdcnt)
    (Nat.le_refl 0) fun x hx => h.index x (by omega)
  have hshrink : ioShrink ioc = { ioc' with fdcnt := m, needshrink := false } := by
    rw [ioShrink, hloop]
  rw [← range_eq_range', range_zero, map_nil, nil_append] at hslots
  have hmem : ∀ x < m, ioc'.slot x ∈ ((range ioc.fdcnt).map ioc.slot).filter fun p =>
    p.2.id ≠ none := by
    intro x hx
    rw [← hslots]
    exact mem_map_of_mem (mem_range.mpr hx)
  rw [hshrink]
  refine ⟨⟨hindex, fun p v hp => ?_, fun _ x hx => ?_⟩, ?_, rfl, hcur⟩
  · by_contra hnone
    have hnone : ∀ x < m, (ioc'.ior x).id ≠ some p := fun x hx he => hnone ⟨x, hx, he⟩
    obtain ⟨y, hy, hyp⟩ := h.owned p v ((hids p hnone).symm.trans hp)
    have hmem' : ioc.slot y ∈ (range m).map ioc'.slot := by
      rw [hslots, mem_filter]
      exact ⟨mem_map_of_mem (mem_range.mpr hy), by simp [IoContext.slot, hyp]⟩
    obtain ⟨x, hx, hxy⟩ := mem_map.mp hmem'
    exact hnone x (mem_range.mp hx) ((congrArg (fun q : PollFd × IoRec => q.2.id) hxy).trans hyp)
  · exact of_decide_eq_true (mem_filter.mp (hmem x hx)).2
  · -- both lists come from the same slots
    let f : PollFd × IoRec → Option Entry := fun p =>
      p.2.id.map fun id => ⟨id, p.1.fd, p.1.events, p.2.callback, p.2.data⟩
    have hlive :
        ∀ (i : IoContext) k, (range k).filterMap i.entryAt = ((range k).map i.slot).filterMap f :=
      fun i k => by rw [filterMap_map]; rfl
    show (range m).filterMap ioc'.entryAt = _
    rw [hlive, hslots, IoContext.live, hlive, filterMap_filter]
    apply filterMap_congr
    intro p _
    by_cases hp : p.2.id = none
    · simp [hp, f]
    · simp [hp]

theorem cwIoRemove_at (h : Wf ioc) (hx : x < ioc.fdcnt) (hid : (ioc.ior x).id = some id) :
    cwIoRemove ioc (some id) = if ioc.currentIoc = -1 then ioShrink (hole ioc id x)
      else hole ioc id x := by
  simp only [cwIoRemove, findId_eq h hx hid]
  rfl

theorem cwIoRemove_eq (h : Wf ioc) (hid : ioc.ids id ≠ none) :
    ∃ x < ioc.fdcnt, (ioc.ior x).id = some id ∧
      cwIoRemove ioc (some id) = if ioc.currentIoc = -1 then ioShrink (hole ioc id x)
      else hole ioc id x := by
  obtain ⟨v, hv⟩ := ne_none_iff_exists'.mp hid
  obtain ⟨x, hx, hxid⟩ := h.owned id v hv
  exact ⟨x, hx, hxid, cwIoRemove_at h hx hxid⟩

theorem Wf.remove (h : Wf ioc) (hid : ioc.ids id ≠ none) :
    Wf (cwIoRemove ioc (some id)) ∧ (cwIoRemove ioc (some id)).live = ioc.live.filter (·.id ≠ id) ∧
      (cwIoRemove ioc (some id)).currentIoc = ioc.currentIoc ∧
      (ioc.currentIoc = -1 → (cwIoRemove ioc (some id)).needshrink = false) := by
  obtain ⟨x, hx, hxid, hremove⟩ := cwIoRemove_eq h hid
  have hw := h.hole hx hxid
  have hl := live_hole h hx hxid
  rw [hremove]
  split
  · obtain ⟨hws, hls, hns, hcs⟩ := hw.shrink
    exact ⟨hws, hls.trans hl, hcs, fun _ => hns⟩
  · rename_i hc
    exact ⟨hw, hl, rfl, fun he => absurd he hc⟩

theorem Wf.poll (h : Wf ioc) (revents : List ℤ) : Wf (poll ioc revents) := { h with }

theorem live_poll (revents : List ℤ) : (poll ioc revents).live = ioc.live := by
  apply filterMap_congr
  intro x _
  simp only [IoContext.entryAt, poll]
  split <;> rfl

section Runs

variable {a : Act}

/-- What is registered after some steps, in this order, and the address whose callback runs and has
not been removed. -/
structure Registry where
  entries : List Entry
  current : Option ℕ

def Registry.record (r : Registry) : Act → Registry
  | .add fd callback events data id =>
    { r with entries := r.entries ++ [⟨id, fd, events, callback, data⟩] }
  | .change id fd callback events data => { r with
      entries := r.entries.map fun e => if e.id = id then e.change fd callback events data else e }
  | .remove id => ⟨r.entries.filter (·.id ≠ id), if r.current = some id then none else r.current⟩
  | .wait _ _ => r
  | .call _ c => { r with current := some c.id }
  | .ret res => ⟨if res = 0 then r.entries.filter (some ·.id ≠ r.current) else r.entries, none⟩
  | .finish => r

def registry (acts : List Act) : Registry := acts.foldl Registry.record ⟨[], none⟩

def ModeInv (ioc : IoContext) : Mode → Prop
  | .idle => ioc.needshrink = false ∧ ioc.currentIoc = -1
  | .pass x n => x ≤ n ∧ n ≤ ioc.fdcnt ∧ ioc.currentIoc = -1
  | .callback x n => x < n ∧ n ≤ ioc.fdcnt ∧ ioc.currentIoc = x

structure Inv (s : State) (r : Registry) : Prop where
  wf : Wf s.ioc
  mode : ModeInv s.ioc s.mode
  live : s.ioc.live = r.entries
  current : r.current = match s.mode with
    | .callback x _ => (s.ioc.ior x).id
    | _ => none

theorem inv_initial : Inv initial ⟨[], none⟩ := ⟨wf_create, ⟨rfl, rfl⟩, rfl, rfl⟩

/-- An entry that a pass leaves out. -/
def Passed (ioc : IoContext) (z : ℕ) : Prop :=
  (ioc.fds z).revents = 0 ∨ (ioc.ior z).id = none ∨ (ioc.ior z).callback = none

theorem nextDue_spec (ioc : IoContext) (n x : ℕ) :
    (∀ y, nextDue ioc n x = some y → x ≤ y ∧ y < x + n ∧ ¬ Passed ioc y) ∧
      ∀ z, x ≤ z → z < (nextDue ioc n x).getD (x + n) → Passed ioc z := by
  induction n generalizing x with
  | zero => exact ⟨by simp [nextDue], fun z hz hz' => absurd hz' (Nat.not_lt.mpr hz)⟩
  | succ n ih =>
    obtain ⟨hfound, hpassed⟩ := ih (x + 1)
    rw [nextDue]
    split
    · refine ⟨?_, fun z hz hz' => absurd hz' (Nat.not_lt.mpr hz)⟩
      rintro _ ⟨⟩
      rw [Passed]
      exact ⟨Nat.le_refl _, by omega, by tauto⟩
    · rw [Nat.add_right_comm] at hpassed
      refine ⟨fun y hy => ?_, fun z hz hz' => ?_⟩
      · obtain ⟨hle, hlt, hy⟩ := hfound y hy
        exact ⟨by omega, by omega, hy⟩
      · by_cases hzx : z = x
        · rw [hzx, Passed]
          tauto
        · exact hpassed z (by omega) hz'

section Steps

variable {r : Registry} {c : Call} {res fd events : ℤ} {callback data : Option ℕ}

theorem Inv.add (h : Inv s r) (hs : step s (.add fd callback events data id) = some t) :
    Inv t (r.record (.add fd callback events data id)) := by
  obtain ⟨ioc, mode⟩ := s
  obtain ⟨m, hm⟩ := cwIoAdd_eq fd events callback data ioc id
  have hlive : (cwIoAdd ioc fd callback events data id).live =
      (r.record (.add fd callback events data id)).entries := by
    rw [live_add, h.live]
    rfl
  cases mode with
  | pass x n => simp [step] at hs
  | idle =>
    simp only [step, ite_none_right_eq_some, some.injEq] at hs
    obtain ⟨hid, rfl⟩ := hs
    exact ⟨h.wf.add _ _ _ _ hid, by rw [hm]; exact h.mode, hlive, h.current⟩
  | callback x n =>
    simp only [step, ite_none_right_eq_some, some.injEq] at hs
    obtain ⟨hid, rfl⟩ := hs
    obtain ⟨hxn, hn, hcur⟩ := h.mode
    have hne : x ≠ ioc.fdcnt := Nat.ne_of_lt (Nat.lt_of_lt_of_le hxn hn)
    refine ⟨h.wf.add _ _ _ _ hid, by rw [hm]; exact ⟨hxn, Nat.le_succ_of_le hn, hcur⟩, hlive, ?_⟩
    simp only [hm, update_of_ne hne]
    exact h.current

theorem Inv.change (h : Inv s r) (hs : step s (.change id fd callback events data) = some t) :
    Inv t (r.record (.change id fd callback events data)) := by
  obtain ⟨ioc, mode⟩ := s
  cases mode <;> simp only [step, reduceCtorEq, map_eq_some_iff] at hs
  obtain ⟨ioc', hc, rfl⟩ := hs
  obtain ⟨hwf, hlive, hns, hcur⟩ := h.wf.change hc
  exact ⟨hwf, ⟨hns.trans h.mode.1, hcur.trans h.mode.2⟩,
    hlive.trans (by rw [h.live]; rfl), h.current⟩

theorem Inv.remove_in_callback (h : Inv ⟨ioc, .callback x n⟩ r)
    (hs : step ⟨ioc, .callback x n⟩ (.remove id) = some t) :
    ∃ y < ioc.fdcnt, (ioc.ior y).id = some id ∧ t = ⟨hole ioc id y, .callback x n⟩ := by
  simp only [step, ite_none_left_eq_some, some.injEq] at hs
  obtain ⟨hid, rfl⟩ := hs
  have hwf : Wf ioc := h.wf
  obtain ⟨y, hy, hyid, hremove⟩ := cwIoRemove_eq hwf hid
  have hcur : ioc.currentIoc = x := h.mode.2.2
  exact ⟨y, hy, hyid, by rw [hremove, if_neg (by omega)]⟩

theorem Inv.remove (h : Inv s r) (hs : step s (.remove id) = some t) :
    Inv t (r.record (.remove id)) := by
  obtain ⟨ioc, mode⟩ := s
  cases mode with
  | pass x n => simp [step] at hs
  | idle =>
    simp only [step, ite_none_left_eq_some, some.injEq] at hs
    obtain ⟨hid, rfl⟩ := hs
    obtain ⟨hwf, hlive, hcur, hns⟩ := h.wf.remove hid
    have hnone : r.current = none := h.current
    refine ⟨hwf, ⟨hns h.mode.2, hcur.trans h.mode.2⟩, hlive.trans (by rw [h.live]; rfl), ?_⟩
    simp [Registry.record, hnone]
  | callback x n =>
    obtain ⟨y, hy, hyid, rfl⟩ := h.remove_in_callback hs
    refine ⟨h.wf.hole hy hyid, h.mode, (live_hole h.wf hy hyid).trans (by rw [h.live]; rfl), ?_⟩
    show (if r.current = some id then none else r.current) = ((hole ioc id y).ior x).id
    rw [show r.current = (ioc.ior x).id from h.current]
    by_cases hxy : x = y
    · subst hxy
      simp [hole, hyid]
    · have hx : x < ioc.fdcnt := Nat.lt_of_lt_of_le h.mode.1 h.mode.2.1
      rw [if_neg fun he => hxy (h.wf.eq_of_id hx hy he hyid)]
      simp only [hole, update_of_ne hxy]

theorem Inv.wait {revents : List ℤ} (h : Inv s r) (hs : step s (.wait res revents) = some t) :
    Inv t (r.record (.wait res revents)) := by
  obtain ⟨ioc, mode⟩ := s
  cases mode <;> simp only [step, reduceCtorEq, some.injEq] at hs
  subst hs
  have hlive := (live_poll revents).trans h.live
  split
  · exact ⟨h.wf.poll revents, ⟨Nat.zero_le _, Nat.le_refl _, h.mode.2⟩, hlive, h.current⟩
  · exact ⟨h.wf.poll revents, h.mode, hlive, h.current⟩

theorem step_call (hs : step s (.call y c) = some t) :
    ∃ x n currentIoc, s.mode = .pass x n ∧ nextDue s.ioc (n - x) x = some y ∧
      (s.ioc.ior y).id = some c.id ∧ (s.ioc.ior y).callback = some c.callback ∧
      c = ⟨c.callback, c.id, (s.ioc.fds y).fd, (s.ioc.fds y).revents, (s.ioc.ior y).data⟩ ∧
      s.ioc.ids c.id = some currentIoc ∧
      t = ⟨{ s.ioc with currentIoc := currentIoc }, .callback y n⟩ := by
  obtain ⟨ioc, mode⟩ := s
  cases mode with
  | idle | callback x n => simp [step] at hs
  | pass x n =>
    simp only [step] at hs
    split at hs
    · cases hs
    · rename_i z hz
      obtain ⟨id, hid, hs⟩ := bind_eq_some_iff.mp hs
      obtain ⟨callback, hcb, hs⟩ := bind_eq_some_iff.mp hs
      obtain ⟨cur, hcur, hs⟩ := bind_eq_some_iff.mp hs
      simp only [ite_none_right_eq_some, some.injEq] at hs
      obtain ⟨⟨rfl, rfl⟩, rfl⟩ := hs
      exact ⟨x, n, cur, rfl, hz, hid, hcb, rfl, hcur, rfl⟩

theorem Inv.call (h : Inv s r) (hs : step s (.call y c) = some t) :
    Inv t (r.record (.call y c)) := by
  obtain ⟨x, n, cur, hpass, hz, hid, -, -, hcur, rfl⟩ := step_call hs
  obtain ⟨hle, hlt, -⟩ := (nextDue_spec ..).1 y hz
  have hmode := h.mode
  rw [hpass] at hmode
  obtain ⟨hxn, hn, -⟩ := hmode
  have hindex := h.wf.index y (by omega) c.id hid
  exact ⟨{ h.wf with }, ⟨by omega, hn, some.inj (hcur.symm.trans hindex)⟩, h.live, hid.symm⟩

/-- A callback that gives up its own entry leaves a hole there, unless it has removed the entry
itself. -/
theorem Inv.return_cases (h : Inv ⟨ioc, .callback x n⟩ r)
    (hs : step ⟨ioc, .callback x n⟩ (.ret res) = some t) :
    (res = 0 → (ioc.ior x).id = none) ∧ t = ⟨{ ioc with currentIoc := -1 }, .pass (x + 1) n⟩ ∨
      res = 0 ∧ ∃ id, (ioc.ior x).id = some id ∧
        t = ⟨{ hole ioc id x with currentIoc := -1 }, .pass (x + 1) n⟩ := by
  obtain rfl := some.inj hs
  have hwf : Wf ioc := h.wf
  obtain ⟨hxn, hn, hcur⟩ : x < n ∧ n ≤ ioc.fdcnt ∧ ioc.currentIoc = x := h.mode
  by_cases hres : res = 0
  · cases hid : (ioc.ior x).id with
    | none => exact .inl ⟨fun _ => rfl, by simp only [if_pos hres]; rfl⟩
    | some id =>
      refine .inr ⟨hres, id, rfl, ?_⟩
      simp only [if_pos hres]
      rw [cwIoRemove_at hwf (by omega) hid, if_neg (by omega)]
  · exact .inl ⟨fun he => absurd he hres, by simp only [if_neg hres]⟩

theorem Inv.ret (h : Inv s r) (hs : step s (.ret res) = some t) : Inv t (r.record (.ret res)) := by
  obtain ⟨ioc, mode⟩ := s
  cases mode with
  | idle | pass x n => simp [step] at hs
  | callback x n =>
    have hcurrent : r.current = (ioc.ior x).id := h.current
    obtain ⟨hxn, hn, -⟩ := h.mode
    obtain ⟨hnone, rfl⟩ | ⟨hres, id, hid, rfl⟩ := h.return_cases hs
    · refine ⟨{ h.wf with }, ⟨hxn, hn, rfl⟩, h.live.trans ?_, rfl⟩
      simp only [Registry.record, hcurrent]
      split
      · rename_i hres
        exact (filter_eq_self.mpr fun e _ => by simp [hnone hres]).symm
      · rfl
    · have hx := Nat.lt_of_lt_of_le hxn hn
      refine ⟨{ h.wf.hole hx hid with }, ⟨hxn, hn, rfl⟩, (live_hole h.wf hx hid).trans ?_, rfl⟩
      simp [Registry.record, hres, hcurrent, hid, ← h.live]

theorem Inv.finish (h : Inv s r) (hs : step s .finish = some t) : Inv t (r.record .finish) := by
  obtain ⟨ioc, mode⟩ := s
  cases mode with
  | idle | callback x n => simp [step] at hs
  | pass x n =>
    simp only [step] at hs
    split at hs
    · obtain rfl := some.inj hs
      split
      · obtain ⟨hwf, hlive, hns, hcur⟩ := h.wf.shrink
        exact ⟨hwf, ⟨hns, hcur.trans h.mode.2.2⟩, hlive.trans h.live, h.current⟩
      · rename_i hn
        exact ⟨h.wf, ⟨by simpa using hn, h.mode.2.2⟩, h.live, h.current⟩
    · cases hs

theorem Inv.step (h : Inv s r) (hs : step s a = some t) : Inv t (r.record a) := by
  cases a with
  | add => exact h.add hs
  | change => exact h.change hs
  | remove => exact h.remove hs
  | wait => exact h.wait hs
  | call => exact h.call hs
  | ret => exact h.ret hs
  | finish => exact h.finish hs

end Steps

end Runs

end CallWeaver.Io
