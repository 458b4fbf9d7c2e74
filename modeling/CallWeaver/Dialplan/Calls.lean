import CallWeaver.Dialplan.Adding

/-! # Sequences of additions

A call of `cw_add_extension2` inserts an entry into the table by which the lists of a context are
laid out. After any calls, each row of the table has the entries of one extension, by priority.
-/

namespace CallWeaver.Dialplan

open Function List Prod
open Table (entries)

variable {s s' : Store} {t t' : List (Cell × List Cell)} {tmp fuel f : ℕ} {x : Exten} {c : Adding}
  {el ep e : Option ℕ} {replace locked : Bool} {res res' : Store × AddResult}

theorem addPeer_mono :
    Within (addPeer replace tmp el fuel s ep e) (addPeer replace tmp el (fuel + 1) s ep e) := by
  induction fuel generalizing s ep e with
  | zero => exact .none
  | succ fuel ih =>
    cases e with
    | none => exact .refl
    | some e => exact .bind .refl fun ne => .bind .refl fun nt => .ite .refl (.ite .refl ih)

variable {extension : CStr}

theorem addNode_mono :
    Within (addNode replace extension tmp fuel s el e)
      (addNode replace extension tmp (fuel + 1) s el e) := by
  induction fuel generalizing s el e with
  | zero => exact .none
  | succ fuel ih =>
    cases e with
    | none => exact .refl
    | some e =>
      refine .bind .refl fun ne => .bind .refl fun nt => ?_
      cases addCompare ne.val extension nt.val with
      | eq => exact addPeer_mono
      | gt => exact .refl
      | lt => exact ih

theorem cwAddExtension2_mono {tmp : Option ℕ} :
    Within (cwAddExtension2 fuel s c tmp locked) (cwAddExtension2 (fuel + 1) s c tmp locked) := by
  cases tmp with
  | none => exact .refl
  | some tmp => exact .ite addNode_mono .refl

theorem cwAddExtension2_unique {tmp : Option ℕ} (h : cwAddExtension2 fuel s c tmp locked = some res)
    (h' : cwAddExtension2 f s c tmp locked = some res') : res = res' :=
  Within.unique (f := (cwAddExtension2 · s c tmp locked)) (fun _ => cwAddExtension2_mono) h h'

structure Laid (s : Store) (t : List (Cell × List Cell)) : Prop where
  linked : Linked s.heap s.root t
  nodup : (addrs t).Nodup

namespace Laid

theorem empty : Laid .empty [] := ⟨⟨rfl, by simp, by simp⟩, by simp⟩

theorem root_eq (h : Laid s t) : s.root = (heads t).head? := by
  simpa using h.linked.next.start_eq

theorem not_mem (h : Laid s t) (htmp : s.heap tmp = none) : tmp ∉ addrs t := fun hm => by
  obtain ⟨d, hd, rfl⟩ := List.mem_map.mp hm
  have hv := h.linked.val d hd
  simp [Heap.valOf, htmp] at hv

theorem ready (h : Laid s t) (htmp : s.heap tmp = none) (x : Exten) :
    Ready { s with heap := s.heap.alloc tmp x } t tmp x := by
  have hne := h.not_mem htmp
  refine ⟨h.linked.congr fun a ha => ?_, nodup_cons.mpr ⟨hne, h.nodup⟩, update_self ..⟩
  exact update_of_ne (fun he : a = tmp => hne (he ▸ ha)) _ _

end Laid

/-- A call inserts into the table: it fails and changes nothing, or the lists are laid out by the
new table. -/
theorem cwAddExtension2_table (cmp : Cell → Cell → Ordering) (h : Laid s t)
    (htmp : s.heap tmp = none)
    (hcmp : ∀ d, cmp d (tmp, c.exten) = addCompare d.2 c.extension c.exten)
    (hfuel : (entries t).length + 1 < fuel) :
    (Table.insert cmp cellRank c.replace (tmp, c.exten) t = none →
      cwAddExtension2 fuel s c (some tmp) true = some (s, .eexist)) ∧
    ∀ t', Table.insert cmp cellRank c.replace (tmp, c.exten) t = some t' →
      ∃ s', cwAddExtension2 fuel s c (some tmp) true = some (s', .ok) ∧ Laid s' t' := by
  have ho : Outcome _ tmp (addNode c.replace c.extension tmp fuel _ none (heads t).head?) _ :=
    addNode_table (A := []) (h.ready htmp c.exten) hcmp hfuel
  rw [← h.root_eq] at ho
  constructor
  · intro hi
    rw [hi] at ho
    have hback : Store.free { s with heap := s.heap.alloc tmp c.exten } tmp = s := by
      simp [Store.free, Heap.free, Heap.alloc, ← htmp]
    exact ho.trans (by rw [hback])
  · intro t' hi
    rw [hi] at ho
    obtain ⟨s', hs', hL⟩ := ho
    refine ⟨s', hs', hL, ?_⟩
    -- the new address is added to some of the others
    obtain ⟨m, hm, hp⟩ := Table.insert_sublist hi
    refine (hp.map fst).nodup_iff.mpr (nodup_cons.mpr ⟨fun hx => ?_, ?_⟩)
    · exact h.not_mem htmp ((hm.map fst).mem hx)
    · exact h.nodup.sublist (hm.map fst)

theorem cwAddExtension2_laid {r : AddResult} (h : Laid s t) (htmp : s.heap tmp = none)
    (hres : cwAddExtension2 fuel s c (some tmp) true = some (s', r)) : (s' = s ∧ r = .eexist) ∨
      ∃ t', Table.insert (fun d _ => addCompare d.2 c.extension c.exten) cellRank c.replace
        (tmp, c.exten) t = some t' ∧ Laid s' t' := by
  obtain ⟨hnone, hsome⟩ := cwAddExtension2_table (c := c)
    (fun d _ => addCompare d.2 c.extension c.exten) h htmp (fun _ => rfl) (Nat.lt_succ_self _)
  cases hi : Table.insert (fun d _ => addCompare d.2 c.extension c.exten) cellRank c.replace
      (tmp, c.exten) t with
  | none =>
    cases cwAddExtension2_unique hres (hnone hi)
    exact .inl ⟨rfl, rfl⟩
  | some t' =>
    obtain ⟨u, hu, hL⟩ := hsome t' hi
    cases cwAddExtension2_unique hres hu
    exact .inr ⟨t', rfl, hL⟩

structure AddCall where
  args : Adding
  tmp : Option ℕ
  locked : Bool
  deriving DecidableEq, Repr

def addingAt (extension : Char) (priority : ℤ) : Adding where
  replace := false
  extension := [chr extension]
  priority := priority
  label := none
  callerid := none
  application := []
  data := []
  registrar := []

def addStep (s : Store) (a : ℕ × AddCall) : Option Store :=
  (cwAddExtension2 a.1 s a.2.args a.2.tmp a.2.locked).map fst

def AddCall.Fresh (s : Store) (call : AddCall) : Prop := ∀ tmp ∈ call.tmp, s.heap tmp = none

theorem addStep_laid {a : ℕ × AddCall} (h : Laid s t) (hf : a.2.Fresh s)
    (hs : addStep s a = some s') : s' = s ∨ ∃ tmp t',
      Table.insert (fun d _ => addCompare d.2 a.2.args.extension a.2.args.exten) cellRank
        a.2.args.replace (tmp, a.2.args.exten) t = some t' ∧ Laid s' t' := by
  obtain ⟨f, c, tmp, locked⟩ := a
  obtain ⟨⟨u, r⟩, hres, rfl⟩ := Option.map_eq_some_iff.mp hs
  cases tmp with
  | none => cases hres; exact .inl rfl
  | some tmp =>
    have htmp := hf tmp rfl
    cases locked with
    | false =>
      cases hres
      exact .inl (by simp [Store.free, Heap.free, Heap.alloc, ← htmp])
    | true =>
      rcases cwAddExtension2_laid h htmp hres with ⟨rfl, -⟩ | ⟨t', hi, hL⟩
      · exact .inl rfl
      · exact .inr ⟨tmp, t', hi, hL⟩

structure Rows (s : Store) (t : List (Cell × List Cell)) : Prop extends Laid s t where
  graded : Table.Graded (fun d : Cell => d.2.exten) cellRank t
  spaceless : ∀ d ∈ entries t, extStrncpy d.2.exten = d.2.exten

theorem exten_of_addCompare {e : Exten} (h : addCompare e extension x = .eq) :
    e.exten = extension := by
  unfold addCompare at h
  dsimp only at h
  split_ifs at h <;> simp_all [strcmp_eq_iff]

theorem extStrncpy_idem (src : CStr) : extStrncpy (extStrncpy src) = extStrncpy src := by
  simp [extStrncpy, filter_filter]

theorem Rows.insert (h : Rows s t)
    (hi : Table.insert (fun d _ => addCompare d.2 c.extension c.exten) cellRank c.replace
      (tmp, c.exten) t = some t') (hL : Laid s' t') : Rows s' t' := by
  refine ⟨hL, Table.insert_graded h.graded (fun r hr hc => ?_) hi, fun d hd => ?_⟩
  · have he := exten_of_addCompare hc
    have hr' := h.spaceless r.1 (Table.mem_entries.mpr ⟨r, hr, mem_cons_self⟩)
    rw [he] at hr'
    exact hr'.trans he.symm
  · obtain ⟨m, hm, hp⟩ := Table.insert_sublist hi
    rcases mem_cons.mp (hp.mem_iff.mp hd) with rfl | hd
    · exact extStrncpy_idem c.extension
    · exact h.spaceless d (hm.mem hd)

theorem runs_rows {calls : List (ℕ × AddCall)}
    (hrun : Runs addStep (fun s a _ => a.2.Fresh s) .empty calls s) : ∃ t, Rows s t := by
  refine hrun.invariant (I := fun s => ∃ t, Rows s t) (fun s a s' ⟨t, h⟩ hs hf => ?_)
    ⟨[], .empty, Table.graded_nil, by simp⟩
  rcases addStep_laid h.toLaid hf hs with rfl | ⟨tmp, t', hi, hL⟩
  · exact ⟨t, h⟩
  · exact ⟨t', h.insert hi hL⟩

end CallWeaver.Dialplan
