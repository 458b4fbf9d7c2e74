import CallWeaver.Dialplan.Map

/-! # Extensions with spaces

An extension is stored without its spaces, but its place is found by a comparison with the string
as given. So a string with spaces equals no stored extension, and its place need not be that of what
is stored.
-/

namespace CallWeaver.Dialplan

open List
open Table (entries)

variable {s s₀ s' : Store} {t t' : List (Cell × List Cell)} {tmp tmp₁ fuel fuel₁ : ℕ}
  {c c₁ : Adding} {r : Cell × List Cell} {root : List Chain}

theorem addCompare_eq_iff {e x : Exten} {extension : CStr} :
    addCompare e extension x = .eq ↔ e.exten = extension ∧ e.cid = x.cid :=
  cellCmp_eq_iff (a := (0, e)) (b := (0, { x with exten := extension }))

structure Keyed (s : Store) (t : List (Cell × List Cell)) : Prop extends Rows s t where
  keyed : Table.Graded (fun d : Cell => (d.2.exten, d.2.cid)) cellRank t

theorem Keyed.insert (h : Keyed s t)
    (hi : Table.insert (fun d _ => addCompare d.2 c.extension c.exten) cellRank c.replace
      (tmp, c.exten) t = some t') (hL : Laid s' t') : Keyed s' t' := by
  refine ⟨h.toRows.insert hi hL, Table.insert_graded h.keyed (fun r hr hc => ?_) hi⟩
  obtain ⟨he, hcid⟩ := addCompare_eq_iff.mp hc
  have hr' := h.spaceless r.1 (Table.mem_entries.mpr ⟨r, hr, mem_cons_self⟩)
  rw [he] at hr'
  exact Prod.ext (hr'.trans he.symm) hcid.symm

theorem runs_keyed {calls : List (ℕ × AddCall)}
    (hrun : Runs addStep (fun s a _ => a.2.Fresh s) .empty calls s) : ∃ t, Keyed s t := by
  refine hrun.invariant (I := fun s => ∃ t, Keyed s t) ?_
    ⟨[], ⟨.empty, Table.graded_nil, by simp⟩, Table.graded_nil⟩
  rintro s a s' ⟨t, h⟩ hs hf
  rcases addStep_laid h.toLaid hf hs with rfl | ⟨tmp, t', hi, hL⟩
  · exact ⟨t, h⟩
  · exact ⟨t', h.insert hi hL⟩

def Chain.holds (ch : Chain) (k : Key) : Bool := ch.entries.any (·.key = k)

def rowChain (r : Cell × List Cell) : Chain := ⟨r.1.2, r.2.map Prod.snd⟩

theorem rowChain_holds {k : Key} : (rowChain r).holds k = true ↔ ∃ d ∈ r.1 :: r.2, d.2.key = k := by
  simp [Chain.holds, Chain.entries, rowChain]

theorem spaceless_iff (src : CStr) : extStrncpy src = src ↔ chr ' ' ∉ src := by
  refine ⟨fun h => ?_, extStrncpy_eq⟩
  rw [← h]
  simp [extStrncpy]

theorem Keyed.row_iff (h : Keyed s t) (hr : r ∈ t) :
    (addCompare r.1.2 c.extension c.exten = .eq ∧ ∃ d ∈ r.1 :: r.2, cellRank d = c.priority) ↔
      chr ' ' ∉ c.extension ∧ (rowChain r).holds c.exten.key = true := by
  have hkey : ∀ d ∈ r.1 :: r.2, d.2.exten = r.1.2.exten ∧ d.2.cid = r.1.2.cid := by
    intro d hd
    rcases mem_cons.mp hd with rfl | hd
    · exact ⟨rfl, rfl⟩
    · exact Prod.ext_iff.mp (h.keyed.peers r hr d hd)
  have hspace := h.spaceless r.1 (Table.mem_entries.mpr ⟨r, hr, mem_cons_self⟩)
  rw [rowChain_holds, addCompare_eq_iff, ← spaceless_iff]
  constructor
  · rintro ⟨⟨he, hcid⟩, d, hd, hrank⟩
    rw [he] at hspace
    refine ⟨hspace, d, hd, ?_⟩
    obtain ⟨h₁, h₂⟩ := hkey d hd
    exact Prod.ext (h₁.trans (he.trans hspace.symm)) (Prod.ext (h₂.trans hcid) hrank)
  · rintro ⟨hext, d, hd, hk⟩
    obtain ⟨h₁, h₂⟩ := hkey d hd
    have hk₁ : d.2.exten = extStrncpy c.extension := congrArg Prod.fst hk
    exact ⟨⟨h₁.symm.trans (hk₁.trans hext), h₂.symm.trans (congrArg (·.2.1) hk)⟩, d, hd,
      congrArg (·.2.2) hk⟩

theorem Keyed.insert_eq_none_iff (h : Keyed s t) :
    Table.insert (fun d _ => addCompare d.2 c.extension c.exten) cellRank false (tmp,
      c.exten) t = none ↔ chr ' ' ∉ c.extension ∧ ∃ front r back, t = front ++ r :: back ∧
    (rowChain r).holds c.exten.key = true ∧
        ∀ q ∈ front, addCompare q.1.2 c.extension c.exten = .lt := by
  rw [Table.insert_eq_none_iff_first h.keyed.ranks, and_iff_right rfl]
  constructor
  · rintro ⟨front, r, back, rfl, hfront, hrow⟩
    obtain ⟨hext, hholds⟩ := (h.row_iff (by simp)).mp hrow
    exact ⟨hext, front, r, back, rfl, hholds, hfront⟩
  · rintro ⟨hext, front, r, back, rfl, hholds, hfront⟩
    exact ⟨front, r, back, rfl, hfront, (h.row_iff (by simp)).mpr ⟨hext, hholds⟩⟩

/-- A list can be split with `q` in front of an element in `p` only at the first one in `p`, if at
all. -/
theorem exists_split_iff {α : Type*} {p : α → Bool} {q : α → Prop} {l : List α}
    (h : ∃ a ∈ l, p a = true) :
    (∃ front a back, l = front ++ a :: back ∧ p a = true ∧ ∀ b ∈ front, q b) ↔
      ∀ b ∈ l.takeWhile (!p ·), q b := by
  constructor
  · rintro ⟨front, a, back, rfl, ha, hfront⟩ b hb
    apply hfront
    rw [takeWhile_append, takeWhile_cons_of_neg (by simp [ha])] at hb
    split_ifs at hb
    · simpa using hb
    · exact takeWhile_subset _ hb
  · intro hall
    obtain ⟨a, ha⟩ := Option.isSome_iff_exists.mp (List.find?_isSome.mpr h)
    obtain ⟨hp, front, back, rfl, hfront⟩ := List.find?_eq_some_iff_append.mp ha
    refine ⟨front, a, back, rfl, hp, fun b hb => hall b ?_⟩
    rw [takeWhile_append_of_pos hfront]
    exact mem_append_left _ hb

theorem Adding.key_exten_congr (hext : extStrncpy c.extension = extStrncpy c₁.extension)
    (hcid : c.callerid = c₁.callerid) (hprio : c.priority = c₁.priority) :
    c.exten.key = c₁.exten.key := by
  simp only [Exten.key, Exten.cid, Adding.exten, hext, hcid, hprio]
  rfl

/-- After a first string, a second one stored as the same extension is refused and changes nothing
if and only if it has no spaces itself and every extension in front of the stored one is ordered
before it. -/
theorem spaces_eexist_iff {calls : List (ℕ × AddCall)}
    (hrun : Runs addStep (fun s a _ => a.2.Fresh s) .empty calls s₀) (hfresh₁ : s₀.heap tmp₁ = none)
    (hfirst : cwAddExtension2 fuel₁ s₀ c₁ (some tmp₁) true = some (s, .ok)) (hroot : s.Holds root)
    (hext : extStrncpy c.extension = extStrncpy c₁.extension) (hcid : c.callerid = c₁.callerid)
    (hprio : c.priority = c₁.priority) (hreplace : c.replace = false) (hfresh : s.heap tmp = none) :
    (∃ n, ∀ fuel, n ≤ fuel → cwAddExtension2 fuel s c (some tmp) true = some (s, .eexist)) ↔
      chr ' ' ∉ c.extension ∧ ∀ ch ∈ root.takeWhile (!·.holds c.exten.key),
        addCompare ch.head c.extension c.exten = .lt := by
  obtain ⟨t₀, h₀⟩ := runs_keyed hrun
  -- the table after the first call, which has its entry
  obtain ⟨t, h, hstored⟩ : ∃ t, Keyed s t ∧ ∃ r ∈ t, (rowChain r).holds c.exten.key = true := by
    obtain ⟨-, he⟩ | ⟨t, hi, hL⟩ := cwAddExtension2_laid h₀.toLaid hfresh₁ hfirst
    · cases he
    · obtain ⟨m, -, hp⟩ := Table.insert_sublist hi
      obtain ⟨r, hr, hd⟩ := Table.mem_entries.mp (hp.mem_iff.mpr mem_cons_self)
      refine ⟨t, h₀.insert hi hL, r, hr, rowChain_holds.mpr ⟨_, hd, ?_⟩⟩
      exact (Adding.key_exten_congr hext hcid hprio).symm
  obtain rfl : root = t.map rowChain := hroot.unique (holds_chains h.linked)
  -- the call is an insertion into this table
  have hcall :
      (∃ n, ∀ fuel, n ≤ fuel → cwAddExtension2 fuel s c (some tmp) true = some (s, .eexist)) ↔
      Table.insert (fun d _ => addCompare d.2 c.extension c.exten) cellRank false (tmp, c.exten) t =
        none := by
    have htable : ∀ fuel, (entries t).length + 1 < fuel → _ := fun fuel hfuel =>
      cwAddExtension2_table (c := c) (fun d _ => addCompare d.2 c.extension c.exten) h.toLaid hfresh
        (fun _ => rfl) hfuel
    rw [hreplace] at htable
    constructor
    · rintro ⟨n, hn⟩
      by_contra hi
      obtain ⟨t', ht'⟩ := Option.ne_none_iff_exists'.mp hi
      obtain ⟨s', hs', -⟩ := (htable _ (Nat.lt_succ_self _)).2 t' ht'
      cases cwAddExtension2_unique (hn n (Nat.le_refl n)) hs'
    · exact fun hi => ⟨(entries t).length + 2, fun fuel hfuel => (htable fuel hfuel).1 hi⟩
  rw [hcall, h.insert_eq_none_iff, exists_split_iff hstored, takeWhile_map, forall_mem_map]
  rfl

def addingPlain (extension : CStr) : Adding :=
  { addingAt '1' 1 with extension := extension }

/-- The extension 10 is stored between two others. -/
theorem spaces_eexist_iff_between : ∃ s₀ s,
    Runs addStep (fun s a _ => a.2.Fresh s) .empty
        [(9, ⟨addingPlain [chr '2'], some 0, true⟩),
          (9, ⟨addingPlain [chr '0'], some 1, true⟩)] s₀ ∧
      cwAddExtension2 9 s₀ (addingPlain [chr '1', chr ' ', chr '0']) (some 2) true = some (s, .ok) ∧
      ∃ n, ∀ fuel, n ≤ fuel →
        cwAddExtension2 fuel s (addingPlain [chr '1', chr '0']) (some 3) true =
        some (s, .eexist) := by
  have hrun : Runs addStep (fun s a _ => a.2.Fresh s) .empty
      [(9, ⟨addingPlain [chr '2'], some 0, true⟩), (9, ⟨addingPlain [chr '0'], some 1, true⟩)] _ :=
    .cons rfl (fun _ _ => rfl) (.single rfl (by rintro _ ⟨⟩; rfl))
  refine ⟨_, _, hrun, rfl, (spaces_eexist_iff (c := addingPlain [chr '1', chr '0']) hrun rfl
    (show cwAddExtension2 9 _ (addingPlain [chr '1', chr ' ', chr '0']) (some 2) true = _ from rfl)
    (show Store.Holds _ [⟨(addingPlain [chr '0']).exten, []⟩,
      ⟨(addingPlain [chr '1', chr '0']).exten, []⟩,
      ⟨(addingPlain [chr '2']).exten, []⟩] from ⟨9, rfl⟩)
    rfl rfl rfl rfl rfl).mpr ⟨by decide, by decide⟩⟩

/-- The extension 10 is added once more with a space, and stands twice in the list. -/
theorem spaced_extension_added : ∃ s s',
    cwAddExtension2 9 .empty (addingPlain [chr '1', chr '0']) (some 0) true = some (s, .ok) ∧
      cwAddExtension2 9 s (addingPlain [chr '1', chr ' ', chr '0']) (some 1) true = some (s', .ok) ∧
      s'.Holds [⟨(addingPlain [chr '1', chr '0']).exten, []⟩,
        ⟨(addingPlain [chr '1', chr '0']).exten, []⟩] :=
  ⟨_, _, rfl, rfl, 9, rfl⟩

end CallWeaver.Dialplan
