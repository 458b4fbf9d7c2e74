import Mathlib.Data.List.Nodup
import CallWeaver.Dialplan.Context

/-! # Registration of contexts

Contexts are created in the global list or in the local list of a module that loads its dialplan
anew. Then the old contexts of the module are deleted and the local list is put in front of the
global one. Contexts are told apart by their hash, and belong to their registrar.
-/

namespace CallWeaver.Dialplan

open List Function

structure Registered extends Context where
  registrar : CStr
  deriving DecidableEq, Repr

structure Registry where
  contexts : List Registered
  locals : ℕ → List Registered

def Registry.empty : Registry := ⟨[], fun _ => []⟩

def cwContextCreate (contexts : List Registered) (name registrar : CStr) (memory : Bool) :
    Option Registered × List Registered :=
  if contexts.any fun tmp => cwHashString name = tmp.hash then (none, contexts)
  else if memory then
    let tmp : Registered := { name, root := [], includes := [], alts := [], registrar }
    (some tmp, tmp :: contexts)
  else (none, contexts)

/-- Whether `__cw_context_destroy` takes a context. -/
def destroys (con : Option Registered) (registrar : Option CStr) (tmp : Registered) : Bool :=
  con.all (fun con => tmp.hash = con.hash) &&
    registrar.all fun registrar => strcasecmp registrar tmp.registrar = .eq

/-- The loop of `__cw_context_destroy`. -/
def destroyAll (p : Registered → Bool) (contexts : List Registered) : List Registered :=
  if contexts.any p then destroyAll p (contexts.eraseP p) else contexts
termination_by contexts.length
decreasing_by
  rename_i h
  obtain ⟨a, ha, hp⟩ := any_eq_true.mp h
  have hpos : 0 < contexts.length := length_pos_of_mem ha
  rw [length_eraseP_of_mem ha hp]
  omega

def cwContextDestroy (con : Option Registered) (registrar : Option CStr)
    (contexts : List Registered) : List Registered :=
  match con with
  | none => destroyAll (destroys none registrar) contexts
  | some con => contexts.eraseP (destroys (some con) registrar)

/-- What a merge leaves of the global list. Without a registrar the contexts of the local list are
deleted one by one, each for its own. -/
def mergeRemaining (s : Registry) (i : ℕ) (registrar : Option CStr) : List Registered :=
  match registrar with
  | some registrar => cwContextDestroy none (some registrar) s.contexts
  | none =>
    (s.locals i).foldl (fun l tmp => cwContextDestroy (some tmp) (some tmp.registrar) l) s.contexts

def cwMergeContextsAndDelete (s : Registry) (i : ℕ) (registrar : Option CStr) : Registry :=
  if s.locals i ≠ [] then
    { contexts := s.locals i ++ mergeRemaining s i registrar
      locals := update s.locals i [] }
  else { s with contexts := mergeRemaining s i registrar }

/-- The calls that change the lists. A context is created in the global list or in a local one. -/
inductive RegistryCall where
  | create (extcontexts : Option ℕ) (name registrar : CStr) (memory : Bool)
  | merge (extcontexts : ℕ) (registrar : Option CStr)
  | destroy (con : Option Registered) (registrar : Option CStr)

def registryStep (s : Registry) : RegistryCall → Option Registry
  | .create none name registrar memory =>
    some { s with contexts := (cwContextCreate s.contexts name registrar memory).2 }
  | .create (some i) name registrar memory =>
    some { s with
      locals := update s.locals i (cwContextCreate (s.locals i) name registrar memory).2 }
  | .merge i registrar => some (cwMergeContextsAndDelete s i registrar)
  | .destroy con registrar => some { s with contexts := cwContextDestroy con registrar s.contexts }

variable {c d : Registered} {l : List Registered}

section Lists

variable {contexts : List Registered} {name registrar : CStr} {p q : Registered → Bool}

theorem destroyAll_eq_filter (p : Registered → Bool) (contexts : List Registered) :
    destroyAll p contexts = contexts.filter fun c => !p c := by
  fun_induction destroyAll p contexts with
  | case1 contexts h ih =>
    obtain ⟨a, ha, hp⟩ := any_eq_true.mp h
    obtain ⟨a, l₁, l₂, -, hp, hsplit, herase⟩ := exists_of_eraseP ha hp
    rw [ih, herase, hsplit, filter_append, filter_append, filter_cons_of_neg (by simp [hp])]
  | case2 contexts h =>
    rw [eq_comm, filter_eq_self]
    intro c hc
    simpa using fun hp => h (any_eq_true.mpr ⟨c, hc, hp⟩)

theorem cwContextDestroy_sublist (con : Option Registered) (registrar : Option CStr)
    (contexts : List Registered) : (cwContextDestroy con registrar contexts).Sublist contexts := by
  cases con with
  | none =>
    rw [cwContextDestroy, destroyAll_eq_filter]
    exact filter_sublist
  | some con => exact eraseP_sublist

theorem mergeRemaining_sublist (s : Registry) (i : ℕ) (registrar : Option CStr) :
    (mergeRemaining s i registrar).Sublist s.contexts := by
  cases registrar with
  | some registrar => exact cwContextDestroy_sublist none _ _
  | none =>
    simp only [mergeRemaining]
    generalize s.contexts = contexts
    induction s.locals i generalizing contexts with
    | nil => exact .refl _
    | cons tmp l ih =>
      exact (ih _).trans (cwContextDestroy_sublist (some tmp) (some tmp.registrar) contexts)

theorem find?_eraseP (hpq : ∀ c, p c → ¬ q c) (contexts : List Registered) :
    (contexts.eraseP p).find? q = contexts.find? q := by
  induction contexts with
  | nil => rfl
  | cons c contexts ih =>
    by_cases hp : p c
    · rw [eraseP_cons_of_pos hp, find?_cons_of_neg (hpq c hp)]
    · rw [eraseP_cons_of_neg hp, find?_cons, find?_cons, ih]

theorem mem_eraseP_iff (hc : contexts.Nodup) :
    c ∈ contexts.eraseP p ↔ c ∈ contexts ∧ contexts.find? p ≠ some c := by
  induction contexts with
  | nil => simp
  | cons d contexts ih =>
    obtain ⟨hd, hc⟩ := nodup_cons.mp hc
    by_cases hp : p d
    · rw [eraseP_cons_of_pos hp, find?_cons_of_pos hp]
      grind
    · rw [eraseP_cons_of_neg hp, find?_cons_of_neg hp, mem_cons, ih hc]
      grind

theorem hash_eq_of_destroys {registrar : Option CStr} (h : destroys (some c) registrar d) :
    d.hash = c.hash := by
  rw [destroys, Bool.and_eq_true] at h
  exact of_decide_eq_true h.1

theorem mem_foldl_destroy_of_hash (hd : ∀ tmp ∈ l, tmp.hash ≠ d.hash) :
    d ∈ l.foldl (fun l tmp => cwContextDestroy (some tmp) (some tmp.registrar) l) contexts ↔
      d ∈ contexts := by
  induction l generalizing contexts with
  | nil => rfl
  | cons tmp l ih =>
    obtain ⟨htmp, hl⟩ := forall_mem_cons.mp hd
    rw [foldl_cons, ih hl]
    exact mem_eraseP_of_neg fun h => htmp (hash_eq_of_destroys h).symm

theorem mem_foldl_destroy (hl : (l.map fun c => c.hash).Nodup) (hc : c ∈ l) (hcd : c.hash = d.hash)
    (hn : contexts.Nodup) :
    d ∈ l.foldl (fun l tmp => cwContextDestroy (some tmp) (some tmp.registrar) l) contexts ↔
      d ∈ contexts ∧ contexts.find? (destroys (some c) (some c.registrar)) ≠ some d := by
  induction l generalizing contexts with
  | nil => cases hc
  | cons tmp l ih =>
    rw [map_cons, nodup_cons] at hl
    obtain ⟨htmp, hl⟩ := hl
    have hne : ∀ e ∈ l, e.hash ≠ tmp.hash := fun e he heq => htmp (mem_map.mpr ⟨e, he, heq⟩)
    rw [foldl_cons]
    rcases mem_cons.mp hc with rfl | hc
    · rw [mem_foldl_destroy_of_hash fun e he => hcd ▸ hne e he]
      exact mem_eraseP_iff hn
    · have hother : ∀ e, destroys (some tmp) (some tmp.registrar) e →
          ¬ destroys (some c) (some c.registrar) e := by
        intro e htmp hcd
        exact hne c hc ((hash_eq_of_destroys hcd).symm.trans (hash_eq_of_destroys htmp))
      rw [ih hl hc (hn.sublist (cwContextDestroy_sublist _ _ _)), cwContextDestroy,
        find?_eraseP hother]
      refine and_congr_left fun _ => mem_eraseP_of_neg fun h => ?_
      exact hne c hc (hcd.trans (hash_eq_of_destroys h))

theorem cwContextCreate_cases (contexts : List Registered) (name registrar : CStr) (memory : Bool) :
    (cwContextCreate contexts name registrar memory).2 = contexts ∨
      ∃ c, (cwContextCreate contexts name registrar memory).2 = c :: contexts ∧
      ∀ d ∈ contexts, c.hash ≠ d.hash := by
  unfold cwContextCreate
  split_ifs with hany
  · exact .inl rfl
  · refine .inr ⟨_, rfl, fun d hd he => hany (any_eq_true.mpr ⟨d, hd, ?_⟩)⟩
    exact decide_eq_true he
  · exact .inl rfl

end Lists

variable {contexts : List Registered}

section Names

variable {s t : Registry} {c : RegistryCall}

def UniqueNames (contexts : List Registered) : Prop := (contexts.map fun c => c.name).Nodup

def UniqueHashes (contexts : List Registered) : Prop := (contexts.map fun c => c.hash).Nodup

/-- A merge is clean if each context with the name of one in the local list belongs to the registrar
for whom it is made. Without a registrar it is the first one with the hash and the registrar of the
local one. -/
def CleanMerge (s : Registry) : RegistryCall → Prop
  | .merge i registrar => ∀ c ∈ s.locals i, ∀ d ∈ s.contexts, c.name = d.name → match registrar with
    | some registrar => strcasecmp registrar d.registrar = .eq
    | none => s.contexts.find? (destroys (some c) (some c.registrar)) = some d
  | _ => True

theorem UniqueHashes.names (h : UniqueHashes contexts) : UniqueNames contexts := by
  refine List.Nodup.of_map cwHashString ?_
  rw [map_map]
  exact h

theorem nodup_create {κ : Type} {f : Registered → κ} (hf : ∀ c d, f c = f d → c.hash = d.hash)
    (h : (contexts.map f).Nodup) (name registrar : CStr) (memory : Bool) :
    ((cwContextCreate contexts name registrar memory).2.map f).Nodup := by
  rcases cwContextCreate_cases contexts name registrar memory with hc | ⟨c, hc, hne⟩
  · rw [hc]
    exact h
  · rw [hc, map_cons, nodup_cons]
    refine ⟨fun hmem => ?_, h⟩
    obtain ⟨d, hd, he⟩ := mem_map.mp hmem
    exact hne d hd (hf c d he.symm)

theorem UniqueNames.sublist (h : UniqueNames contexts) (hl : l.Sublist contexts) : UniqueNames l :=
  List.Nodup.sublist (hl.map _) h

theorem registryStep_locals (h : registryStep s c = some t) (hs : ∀ i, UniqueHashes (s.locals i))
    (i : ℕ) : UniqueHashes (t.locals i) := by
  have hupd (j : ℕ) {l : List Registered} (hl : UniqueHashes l) :
      UniqueHashes (update s.locals j l i) := by
    rw [update_apply]
    split_ifs
    · exact hl
    · exact hs i
  rcases c with ⟨⟨⟩ | j, name, registrar, memory⟩ | ⟨j, registrar⟩ | ⟨con, registrar⟩ <;> cases h
  · exact hs i
  · exact hupd j (nodup_create (fun _ _ h => h) (hs j) name registrar memory)
  · unfold cwMergeContextsAndDelete
    split_ifs
    · exact hupd j nodup_nil
    · exact hs i
  · exact hs i

section

variable (hs : ∀ i, UniqueHashes (s.locals i)) (hn : UniqueNames s.contexts)

include hs hn

/-- A context with the name of one in the local list survives unless it belongs to the registrar. -/
theorem mem_mergeRemaining_iff {i : ℕ} {c : Registered} (hc : c ∈ s.locals i)
    (hcd : c.name = d.name) (registrar : Option CStr) :
    d ∈ mergeRemaining s i registrar ↔ d ∈ s.contexts ∧ ¬ match registrar with
        | some registrar => strcasecmp registrar d.registrar = .eq
        | none => s.contexts.find? (destroys (some c) (some c.registrar)) = some d := by
  cases registrar with
  | some registrar =>
    simp [mergeRemaining, cwContextDestroy, destroyAll_eq_filter, destroys]
  | none => exact mem_foldl_destroy (hs i) hc (congrArg cwHashString hcd) (List.Nodup.of_map _ hn)

theorem merge_uniqueNames (i : ℕ) (registrar : Option CStr) :
    UniqueNames (cwMergeContextsAndDelete s i registrar).contexts ↔
      CleanMerge s (.merge i registrar) := by
  have hsub := mergeRemaining_sublist s i registrar
  have hrest : UniqueNames (mergeRemaining s i registrar) := hn.sublist hsub
  simp only [cwMergeContextsAndDelete, CleanMerge]
  split_ifs with hne
  · rw [UniqueNames, map_append, nodup_append]
    constructor
    · rintro ⟨-, -, hdisj⟩ c hc d hd hcd
      by_contra hkept
      have hmem := (mem_mergeRemaining_iff hs hn hc hcd registrar).mpr ⟨hd, hkept⟩
      exact hdisj _ (mem_map_of_mem hc) _ (mem_map_of_mem hmem) hcd
    · intro hclean
      refine ⟨(hs i).names, hrest, fun a ha b hb hab => ?_⟩
      obtain ⟨c, hc, rfl⟩ := mem_map.mp ha
      obtain ⟨d, hd, rfl⟩ := mem_map.mp hb
      obtain ⟨hmem, hkept⟩ := (mem_mergeRemaining_iff hs hn hc hab registrar).mp hd
      exact hkept (hclean c hc d hmem hab)
  · rw [not_not.mp hne]
    exact iff_of_true hrest fun c hc => absurd hc not_mem_nil

end

/-- From the empty lists on, the names in the global list are unique after every call if and only if
every merge is clean. -/
theorem unique_names_iff (calls : List RegistryCall) (t : Registry) :
    Runs registryStep (fun _ _ t => UniqueNames t.contexts) .empty calls t ↔
      Runs registryStep (fun s c _ => CleanMerge s c) .empty calls t := by
  refine Runs.iff_of_invariant
    (I := fun s => (∀ i, UniqueHashes (s.locals i)) ∧ UniqueNames s.contexts) ?_ ?_
  swap
  · exact ⟨fun _ => nodup_nil, nodup_nil⟩
  intro s c t hs h
  refine ⟨?_, fun hn => ⟨registryStep_locals h hs.1, hn⟩⟩
  rcases c with ⟨⟨⟩ | j, name, registrar, memory⟩ | ⟨j, registrar⟩ | ⟨con, registrar⟩ <;> cases h
  · refine iff_of_true ?_ trivial
    exact nodup_create (fun _ _ => congrArg cwHashString) hs.2 name registrar memory
  · exact iff_of_true hs.2 trivial
  · exact merge_uniqueNames hs.1 hs.2 j registrar
  · exact iff_of_true (hs.2.sublist (cwContextDestroy_sublist con registrar _)) trivial

/-- A merge leaves the contexts of other registrars in the list. -/
theorem merge_repeats_name :
    ((exec registryStep anyStep .empty
      [.create none [chr 's'] [chr 'x'] true, .create (some 0) [chr 's'] [chr 'y'] true,
        .merge 0 (some [chr 'y'])]).map fun s => s.contexts.map fun c => (c.name, c.registrar)) =
      some [([chr 's'], [chr 'y']), ([chr 's'], [chr 'x'])] := by
  decide +kernel

end Names

end CallWeaver.Dialplan
