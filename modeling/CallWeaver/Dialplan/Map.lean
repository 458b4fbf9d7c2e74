import CallWeaver.Dialplan.Calls

/-! # The store as a finite map

A context maps an extension, a Caller*ID up to case and a priority to an entry. Every sequence of
additions to an empty context refines the updates of such a map, and keeps the extensions and their
priorities in order.
-/

namespace CallWeaver.Dialplan

open Function List Prod
open Std (TransCmp)
open Table (entries)

variable {s s' : Store} {t t' : List (Cell × List Cell)} {tmp fuel : ℕ} {x y : Exten} {c : Adding}

theorem compareWith_eq_compare (f : UInt8 → UInt8) (s t : CStr) :
    compareWith f s t = compare (s.map f) (t.map f) := by
  induction s generalizing t with
  | nil => cases t <;> rfl
  | cons a s ih =>
    cases t with
    | nil => rfl
    | cons b t =>
      have hc : compare ((a :: s).map f) ((b :: t).map f) =
          (compare (f a) (f b)).then (compare (s.map f) (t.map f)) := List.compareLex_cons_cons
      have hb : compare (f a) (f b) =
          if f a < f b then .lt else if f a = f b then .eq else .gt := rfl
      rw [hc, hb, ← ih, compareWith]
      split_ifs with h₁ h₂ h₃ h₃
      · rfl
      · exact absurd h₃ (UInt8.ne_of_lt h₂).symm
      · rfl
      · rfl
      · exact absurd (UInt8.le_antisymm (UInt8.not_lt.mp h₂) (UInt8.not_lt.mp h₁)) h₃

def cellCmp (a b : Cell) : Ordering := addCompare a.2 b.2.exten b.2

def Exten.cid (e : Exten) : Option CStr :=
  if e.matchcid then some (e.cidmatch.map tolower) else none

/-- Patterns last, then by extension, then those without a Caller*ID last, then by Caller*ID. -/
def cellOrder : Cell → Cell → Ordering :=
  compareLex (compareOn fun a => isPattern a.2.exten)
    (compareLex (compareOn fun a => a.2.exten)
      (compareLex (compareOn fun a => !a.2.matchcid) (compareOn fun a => a.2.cid.getD [])))

theorem cellCmp_eq : cellCmp = cellOrder := by
  funext a b
  have hs : strcmp a.2.exten b.2.exten = compare a.2.exten b.2.exten := by
    rw [strcmp, compareWith_eq_compare]
    simp
  have hc : strcasecmp a.2.cidmatch b.2.cidmatch =
      compare (a.2.cidmatch.map tolower) (b.2.cidmatch.map tolower) := compareWith_eq_compare ..
  unfold cellCmp addCompare cellOrder
  simp only [compareLex, compareOn, hs, hc, Exten.cid]
  -- the cases of the source are those of the four keys in turn
  cases isPattern a.2.exten <;> cases isPattern b.2.exten <;> try rfl
  all_goals
    cases compare a.2.exten b.2.exten <;> try rfl
    cases a.2.matchcid <;> cases b.2.matchcid <;> rfl

instance : TransCmp cellCmp := by
  rw [cellCmp_eq]
  unfold cellOrder
  infer_instance

abbrev Key := CStr × Option CStr × ℤ

def Exten.key (e : Exten) : Key := (e.exten, e.cid, e.priority)

def Adding.key (c : Adding) : Key :=
  (c.extension, c.callerid.map fun cid => cid.map tolower, c.priority)

def Adding.SpaceFree (c : Adding) : Prop :=
  chr ' ' ∉ c.extension ∧ ∀ cid ∈ c.callerid, chr ' ' ∉ cid
  deriving Decidable

theorem extStrncpy_eq {src : CStr} (h : chr ' ' ∉ src) : extStrncpy src = src :=
  filter_eq_self.mpr fun a ha => by
    simp only [ne_eq, decide_not, Bool.not_eq_true', decide_eq_false_iff_not]
    rintro rfl
    exact h ha

theorem Adding.exten_exten (h : c.SpaceFree) : c.exten.exten = c.extension := extStrncpy_eq h.1

theorem Adding.key_exten (h : c.SpaceFree) : c.exten.key = c.key := by
  have hcid : c.exten.cid = c.callerid.map fun cid => cid.map tolower := by
    have h₂ := h.2
    cases hc : c.callerid with
    | none => simp [Exten.cid, Adding.exten, hc]
    | some cid => simp [Exten.cid, Adding.exten, hc, extStrncpy_eq (h₂ cid (by simp [hc]))]
  simp only [Exten.key, Adding.key, hcid, Adding.exten_exten h]
  rfl

variable {a b : Cell}

theorem cellCmp_eq_iff : cellCmp a b = .eq ↔ a.2.exten = b.2.exten ∧ a.2.cid = b.2.cid := by
  rw [cellCmp_eq, cellOrder]
  simp only [compareLex, compareOn, Ordering.then_eq_eq, Std.LawfulEqOrd.compare_eq_iff_eq]
  constructor
  · rintro ⟨-, he, hm, hc⟩
    refine ⟨he, ?_⟩
    unfold Exten.cid at hc ⊢
    cases h₁ : a.2.matchcid <;> cases h₂ : b.2.matchcid <;> simp_all
  · rintro ⟨he, hc⟩
    refine ⟨by rw [he], he, ?_, by rw [hc]⟩
    unfold Exten.cid at hc
    cases h₁ : a.2.matchcid <;> cases h₂ : b.2.matchcid <;> simp_all

theorem same_iff : (cellCmp a b = .eq ∧ cellRank a = cellRank b) ↔ a.2.key = b.2.key := by
  simp only [cellCmp_eq_iff, cellRank, Exten.key, Prod.mk.injEq, and_assoc]

structure Shape (s : Store) (t : List (Cell × List Cell)) : Prop extends Laid s t where
  sorted : Table.Sorted cellCmp cellRank t

theorem Shape.empty : Shape .empty [] := ⟨.empty, Table.sorted_nil⟩

abbrev DialMap := Key → Option Exten

/-- Adding to the map: a key that is present is only overwritten on request. -/
def DialMap.add (m : DialMap) (c : AddCall) : DialMap × AddResult :=
  if c.tmp = none then (m, .enomem)
  else if c.locked = false then (m, .ebusy)
  else if (m c.args.key).isSome ∧ c.args.replace = false then (m, .eexist)
  else (update m c.args.key (some c.args.exten), .ok)

def Maps (l : List Exten) (m : DialMap) : Prop := ∀ k y, m k = some y ↔ y ∈ l ∧ y.key = k

/-- What a call requires: no spaces, and `malloc` returns an address that is not in use. -/
structure AddCall.Allowed (s : Store) (c : AddCall) : Prop where
  spaceFree : c.args.SpaceFree
  fresh : c.Fresh s

variable {m : DialMap} {l l' : List Exten}

theorem Maps.isSome_iff (h : Maps l m) {k : Key} : (m k).isSome ↔ ∃ y ∈ l, y.key = k := by
  rw [Option.isSome_iff_exists]
  exact exists_congr fun y => h k y

theorem Maps.insert (h : Maps l m) (hp : ∀ y, y ∈ l' ↔ y = x ∨ y ∈ l ∧ y.key ≠ x.key) :
    Maps l' (update m x.key (some x)) := by
  intro k y
  rcases eq_or_ne k x.key with rfl | hk
  · rw [update_self, hp]
    grind
  · rw [update_of_ne hk, h k y, hp]
    grind

theorem mem_map_insert {replace : Bool} (ht : Table.Sorted cellCmp cellRank t)
    (hi : Table.insert cellCmp cellRank replace (tmp, x) t = some t') :
    y ∈ (entries t').map snd ↔ y = x ∨ y ∈ (entries t).map snd ∧ y.key ≠ x.key := by
  simp only [mem_map, (Table.insert_perm ht hi).mem_iff, mem_cons, mem_filter,
    same_iff, decide_eq_true_eq]
  constructor
  · rintro ⟨d, rfl | ⟨hd, hk⟩, rfl⟩
    · exact .inl rfl
    · exact .inr ⟨⟨d, hd, rfl⟩, hk⟩
  · rintro (rfl | ⟨⟨d, hd, rfl⟩, hk⟩)
    · exact ⟨(tmp, y), .inl rfl, rfl⟩
    · exact ⟨d, .inr ⟨hd, hk⟩, rfl⟩

theorem cwAddExtension2_step {call : AddCall} (h : Shape s t) (hm : Maps ((entries t).map snd) m)
    (hc : call.Allowed s) (hfuel : (entries t).length + 1 < fuel) :
    ∃ s' t', cwAddExtension2 fuel s call.args call.tmp call.locked = some (s', (m.add call).2) ∧
      Shape s' t' ∧ Maps ((entries t').map snd) (m.add call).1 ∧
      ((m.add call).2 ≠ .ok → s' = s) := by
  obtain ⟨c, tmp, locked⟩ := call
  obtain ⟨hsp, hfresh⟩ := hc
  cases tmp with
  | none => exact ⟨s, t, rfl, h, hm, fun _ => rfl⟩
  | some tmp =>
    have hfree : s.heap tmp = none := hfresh tmp rfl
    cases locked with
    | false =>
      have hback : Store.free { s with heap := s.heap.alloc tmp c.exten } tmp = s := by
        simp [Store.free, Heap.free, Heap.alloc, ← hfree]
      exact ⟨s, t, by simp [cwAddExtension2, hback, DialMap.add], h, hm, fun _ => rfl⟩
    | true =>
      have hcmp : ∀ d, cellCmp d (tmp, c.exten) = addCompare d.2 c.extension c.exten := fun d => by
        rw [cellCmp, Adding.exten_exten hsp]
      obtain ⟨hfail, hadded⟩ := cwAddExtension2_table cellCmp h.toLaid hfree hcmp hfuel
      have hkey : (∃ y ∈ entries t, cellCmp y (tmp, c.exten) = .eq ∧
          cellRank y = cellRank (tmp, c.exten)) ↔ (m c.key).isSome := by
        simp only [same_iff, hm.isSome_iff, mem_map, Adding.key_exten hsp]
        constructor
        · rintro ⟨y, hy, hk⟩
          exact ⟨y.2, ⟨y, hy, rfl⟩, hk⟩
        · rintro ⟨_, ⟨y, hy, rfl⟩, hk⟩
          exact ⟨y, hy, hk⟩
      have hnone : Table.insert cellCmp cellRank c.replace (tmp, c.exten) t = none ↔
          (m c.key).isSome ∧ c.replace = false := by
        rw [Table.insert_eq_none_iff h.sorted, hkey, and_comm]
      cases hi : Table.insert cellCmp cellRank c.replace (tmp, c.exten) t with
      | none =>
        have hadd : m.add ⟨c, some tmp, true⟩ = (m, .eexist) := by
          simp [DialMap.add, hnone.mp hi]
        rw [hadd]
        exact ⟨s, t, hfail hi, h, hm, fun _ => rfl⟩
      | some t' =>
        have hadd : m.add ⟨c, some tmp, true⟩ = (update m c.key (some c.exten), .ok) := by
          have hn : ¬ ((m c.key).isSome ∧ c.replace = false) := fun hn => by
            rw [← hnone, hi] at hn
            cases hn
          simp only [DialMap.add, if_neg hn]
          simp
        obtain ⟨s', hs', hL⟩ := hadded t' hi
        rw [hadd]
        refine ⟨s', t', hs', ⟨hL, Table.insert_sorted h.sorted hi⟩, ?_, fun h => absurd rfl h⟩
        rw [← Adding.key_exten hsp]
        exact hm.insert fun y => mem_map_insert h.sorted hi

/-- The extensions are in order, without two for one extension and Caller*ID, and the entries of
each are ordered by priority. -/
structure Ordered (root : List Chain) : Prop where
  extensions : root.Pairwise fun c c' => addCompare c.head c'.head.exten c'.head = .lt
  distinct : root.Pairwise fun c c' => ¬ (c.head.exten = c'.head.exten ∧ c.head.cid = c'.head.cid)
  priorities : ∀ c ∈ root, c.entries.Pairwise fun e e' => e.priority < e'.priority
  peers : ∀ c ∈ root, ∀ e ∈ c.peers, e.exten = c.head.exten ∧ e.cid = c.head.cid

/-- What is reachable from the root is in order and is the map. -/
def Refines (s : Store) (m : DialMap) : Prop :=
  ∃ root, s.Holds root ∧ Ordered root ∧ Maps (root.flatMap Chain.entries) m

theorem ordered_chains (h : Table.Sorted cellCmp cellRank t) : Ordered (chains t) := by
  constructor
  · exact pairwise_map.mpr h.heads
  · refine pairwise_map.mpr (h.heads.imp fun {r r'} hlt he => ?_)
    rw [cellCmp_eq_iff.mpr he] at hlt
    cases hlt
  · intro c hc
    obtain ⟨r, hr, rfl⟩ := mem_map.mp hc
    change ((r.1 :: r.2).map snd).Pairwise _
    exact pairwise_map.mpr (h.ranks r hr)
  · intro c hc e he
    obtain ⟨r, hr, rfl⟩ := mem_map.mp hc
    obtain ⟨d, hd, rfl⟩ := mem_map.mp he
    exact (cellCmp_eq_iff.mp (h.peers r hr d hd)).imp Eq.symm Eq.symm

theorem Shape.refines (h : Shape s t) (hm : Maps ((entries t).map snd) m) : Refines s m :=
  ⟨chains t, ⟨_, readRoot_linked h.linked (Nat.lt_succ_self _)⟩, ordered_chains h.sorted,
    flatMap_chains ▸ hm⟩

def mapRun (calls : List (ℕ × AddCall)) (m : DialMap) : DialMap :=
  calls.foldl (fun m a => (m.add a.2).1) m

theorem runs_shape {calls : List (ℕ × AddCall)}
    (hrun : Runs addStep (fun s a _ => a.2.Allowed s) s calls s') (h : Shape s t)
    (hm : Maps ((entries t).map snd) m) :
    ∃ t', Shape s' t' ∧ Maps ((entries t').map snd) (mapRun calls m) := by
  induction hrun generalizing t m with
  | nil => exact ⟨t, h, hm⟩
  | @cons s u _ a as hs ha _ ih =>
    obtain ⟨⟨u', r⟩, hres, rfl⟩ := Option.map_eq_some_iff.mp hs
    obtain ⟨s', t', hs', hsh, hmp, -⟩ := cwAddExtension2_step h hm ha (Nat.lt_succ_self _)
    obtain rfl : u' = s' := congrArg fst (cwAddExtension2_unique hres hs')
    exact ih hsh hmp

/-- Every sequence of additions to an empty context refines a finite map: the context is in order
and holds the map, and the next call does to it what it does to the map. A call that fails leaves
the context as it is. -/
theorem cwAddExtension2_refines {calls : List (ℕ × AddCall)}
    (hrun : Runs addStep (fun s a _ => a.2.Allowed s) .empty calls s) :
    Refines s (mapRun calls fun _ => none) ∧
      ∀ call : AddCall, call.Allowed s → ∃ n s', (∀ fuel, n ≤ fuel →
          cwAddExtension2 fuel s call.args call.tmp call.locked =
            some (s', (DialMap.add (mapRun calls fun _ => none) call).2)) ∧
        Refines s' (DialMap.add (mapRun calls fun _ => none) call).1 ∧
        ((DialMap.add (mapRun calls fun _ => none) call).2 ≠ .ok → s' = s) := by
  obtain ⟨t, h, hm⟩ := runs_shape hrun Shape.empty (m := fun _ => none) (by simp [Maps])
  refine ⟨h.refines hm, fun call hc => ?_⟩
  obtain ⟨s', t', hs', hsh, hmp, hf⟩ := cwAddExtension2_step h hm hc (Nat.lt_succ_self _)
  refine ⟨(entries t).length + 2, s', fun fuel hle => ?_, hsh.refines hmp, hf⟩
  exact Within.of_le (f := (cwAddExtension2 · s call.args call.tmp call.locked))
    (fun _ => cwAddExtension2_mono) hle _ hs'

def addingCid (cid : CStr) : Adding := { addingAt '1' 1 with callerid := some cid }

/-- Two extensions, a second priority of the first one, and a replacement of this. -/
def fourCalls : List (ℕ × AddCall) :=
  [(9, ⟨addingAt '2' 1, some 0, true⟩), (9, ⟨addingAt '1' 1, some 1, true⟩),
    (9, ⟨addingAt '2' 2, some 2, true⟩),
    (9, ⟨{ addingAt '2' 2 with replace := true }, some 3, true⟩)]

/-- After the four calls one more for an entry that is there is refused. -/
theorem cwAddExtension2_refines_fourCalls : ∃ s : Store,
    Runs addStep (fun s a _ => a.2.Allowed s) .empty fourCalls s ∧
      Refines s (mapRun fourCalls fun _ => none) ∧
      ∃ n s', (∀ fuel, n ≤ fuel →
        cwAddExtension2 fuel s (addingAt '1' 1) (some 4) true = some (s', .eexist)) ∧ s' = s := by
  have hrun : Runs addStep (fun s a _ => a.2.Allowed s) .empty fourCalls _ :=
    .cons rfl ⟨by decide, fun _ _ => rfl⟩ (.cons rfl ⟨by decide, by rintro _ ⟨⟩; rfl⟩
      (.cons rfl ⟨by decide, by rintro _ ⟨⟩; rfl⟩ (.single rfl ⟨by decide, by rintro _ ⟨⟩; rfl⟩)))
  obtain ⟨hrefines, hnext⟩ := cwAddExtension2_refines hrun
  obtain ⟨n, s', hcall, -, hsame⟩ := hnext ⟨addingAt '1' 1, some 4, true⟩
    ⟨by decide, by rintro _ ⟨⟩; rfl⟩
  have heexist : (DialMap.add (mapRun fourCalls fun _ => none)
      ⟨addingAt '1' 1, some 4, true⟩).2 = .eexist := by decide
  rw [heexist] at hcall hsame
  exact ⟨_, hrun, hrefines, n, s', hcall, hsame (by decide)⟩

/-- The key of an entry with its Caller*ID as it is written. -/
def Exten.exactKey (e : Exten) : Key :=
  (e.exten, if e.matchcid then some e.cidmatch else none, e.priority)

/-- A Caller*ID that differs from a present one in case only is refused, although no entry has its
exact key. -/
theorem exactKey_absent_refused : ∃ (s s' : Store) (root : List Chain) (call : AddCall),
    Runs addStep (fun s a _ => a.2.Allowed s) .empty
      [(3, ⟨addingCid [chr 'a'], some 0, true⟩)] s ∧
    s.Holds root ∧ call.Allowed s ∧
    (∀ e ∈ root.flatMap Chain.entries, e.exactKey ≠ call.args.exten.exactKey) ∧
    cwAddExtension2 9 s call.args call.tmp call.locked = some (s', .eexist) := by
  refine ⟨_, _, [⟨(addingCid [chr 'a']).exten, []⟩], ⟨addingCid [chr 'A'], some 1, true⟩,
    .single rfl ⟨by decide, fun _ _ => rfl⟩, ⟨3, rfl⟩, ⟨by decide, ?_⟩, by decide, rfl⟩
  rintro _ ⟨⟩
  rfl

end CallWeaver.Dialplan
