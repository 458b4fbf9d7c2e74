import Mathlib.Data.List.Perm.Subperm
import CallWeaver.Base.Graphs
import CallWeaver.Dialplan.Context

/-! # The search through includes

The stack of names that keeps the search from running in circles makes it a depth-first traversal
of the included contexts.
-/

namespace CallWeaver.Dialplan

open List Bool

variable {env : Env} {q : Query} {c a b : Context} {s t vs : List Context} {f : Found} {α β : Type*}

def Env.next (env : Env) (c : Context) : List Context :=
  (c.includes.filter includeValid).filterMap fun i =>
    env.contexts.find? fun c' => c'.name = i.rname

/-- A context can be reached through includes that are currently valid. -/
def Env.Reachable (env : Env) : Context → Context → Prop :=
  Relation.ReflTransGen fun a b => b ∈ env.next a

/-- Contexts with distinct names that include existing contexts and have no switches. -/
structure Env.Ok (env : Env) : Prop where
  names : env.contexts.Pairwise fun a b => strcasecmp a.name b.name ≠ .eq
  hashes : env.contexts.Pairwise fun a b => a.hash ≠ b.hash
  includes : ∀ c ∈ env.contexts, ∀ i ∈ c.includes, ∃ c' ∈ env.contexts, c'.name = i.rname
  alts : ∀ c ∈ env.contexts, c.alts = []

/-- The pattern of an extension accepts the wanted one and its Caller*ID condition holds. -/
def accepts (q : Query) (e : Exten) : Bool :=
  (cwExtensionPatternMatch q.exten e.exten).accepted && cidOk q e

/-- The first entry of a context, in the order of its extension list, that is wanted. -/
def ownEntry (q : Query) (c : Context) : Option Exten :=
  c.root.findSome? fun chain =>
    if accepts q chain.head then chain.entries.find? fun e => e.priority = q.priority else none

theorem ownEntry_isSome_iff : (ownEntry q c).isSome ↔ ∃ chain ∈ c.root,
    accepts q chain.head = true ∧ ∃ e ∈ chain.entries, e.priority = q.priority := by
  simp only [ownEntry, findSome?_isSome_iff]
  refine exists_congr fun chain => and_congr_right fun _ => ?_
  split_ifs with h
  · simp [h, find?_isSome]
  · simp [h]

theorem find?_of_pairwise [DecidableEq β] {g : α → β} {l : List α} {a : α}
    (h : l.Pairwise fun a b => g a ≠ g b) (ha : a ∈ l) : l.find? (fun b => g a = g b) = some a := by
  induction l with
  | nil => cases ha
  | cons b l ih =>
    rw [pairwise_cons] at h
    rcases mem_cons.mp ha with rfl | ha
    · simp
    · rw [find?_cons_of_neg (by simpa using (h.1 a ha).symm)]
      exact ih h.2 ha

theorem Env.Ok.eq_of_strcasecmp (henv : env.Ok) (ha : a ∈ env.contexts) (hb : b ∈ env.contexts)
    (h : strcasecmp a.name b.name = .eq) : a = b := by
  have hpair : env.contexts.Pairwise fun a b => a.name.map tolower ≠ b.name.map tolower :=
    henv.names.imp fun h he => h (compareWith_eq_iff.mpr he)
  have hfa := find?_of_pairwise hpair ha
  have hfb := find?_of_pairwise hpair hb
  rw [compareWith_eq_iff.mp h] at hfa
  exact Option.some.inj (hfa.symm.trans hfb)

theorem Env.Ok.find?_hash (henv : env.Ok) (hc : c ∈ env.contexts) :
    env.contexts.find? (fun c' => cwHashString c.name = c'.hash) = some c :=
  find?_of_pairwise (g := Context.hash) henv.hashes hc

theorem Env.find?_name {name : CStr} (h : ∃ c ∈ env.contexts, c.name = name) :
    ∃ c ∈ env.contexts, c.name = name ∧ env.contexts.find? (fun c => c.name = name) = some c := by
  obtain ⟨c, hc, rfl⟩ := h
  cases hf : env.contexts.find? fun c' => c'.name = c.name with
  | none => exact absurd (find?_eq_none.mp hf c hc) (by simp)
  | some c' =>
    have hname : c'.name = c.name := by simpa using find?_some hf
    have hmem := mem_of_find?_eq_some hf
    exact ⟨c', hmem, hname, rfl⟩

theorem Env.Ok.next_names (henv : env.Ok) (hc : c ∈ env.contexts) :
    (c.includes.filter includeValid).map Include.rname = (env.next c).map Context.name := by
  have h : ∀ i ∈ c.includes.filter includeValid, ∃ c' ∈ env.contexts, c'.name = i.rname :=
    fun i hi => henv.includes c hc i (mem_of_mem_filter hi)
  unfold Env.next
  generalize c.includes.filter includeValid = is at h ⊢
  induction is with
  | nil => rfl
  | cons i is ih =>
    obtain ⟨c', _, hname, hf⟩ := Env.find?_name (h i (by simp))
    rw [map_cons, filterMap_cons, hf, map_cons, hname, ih fun j hj => h j (by simp [hj])]

theorem Env.next_subset (h : b ∈ env.next a) : b ∈ env.contexts := by
  obtain ⟨i, _, hf⟩ := mem_filterMap.mp h
  exact mem_of_find?_eq_some hf

def searchNames (find : CStr → Found → Option (Found × Option Exten)) :
    List CStr → Found → Option (Found × Option Exten)
  | [], f => some (f, none)
  | name :: names, f =>
    match find name f with
    | none => none
    | some (f, some e) => some (f, some e)
    | some (f, none) => if f.swo.isSome then some (f, none) else searchNames find names f

theorem searchIncludes_eq (find : CStr → Found → Option (Found × Option Exten)) (is : List Include)
    (f : Found) :
    searchIncludes find is f = searchNames find ((is.filter includeValid).map Include.rname) f := by
  induction is generalizing f with
  | nil => rfl
  | cons i is ih =>
    by_cases hi : includeValid i = true
    · rw [filter_cons_of_pos hi, map_cons]
      rcases hf : find i.rname f with _ | ⟨f', _ | e⟩ <;>
        simp only [searchIncludes, searchNames, hi, if_true, hf, ih]
    · simp only [searchIncludes, if_neg hi, filter_cons_of_neg hi, ih]

theorem searchRoot_eq (hq : q.action = .helperExists) (status : Status) (root : List Chain) :
    (searchRoot q false status root).2 = (root.findSome? fun chain =>
      if accepts q chain.head then chain.entries.find? fun e => e.priority = q.priority else none,
      false) := by
  have hw : wanted q = fun e => decide (e.priority = q.priority) := by
    funext e
    simp [wanted, hq]
  induction root generalizing status with
  | nil => rfl
  | cons chain root ih =>
    have ht : takes q false chain.head = (accepts q chain.head, false) := by
      by_cases hcid : cidOk q chain.head = true <;> simp [takes, accepts, hcid, hq]
    cases ha : accepts q chain.head with
    | false =>
      simp only [searchRoot, ht, ha, findSome?_cons, Bool.or_false, ih,
        Bool.false_eq_true, if_false]
    | true =>
      simp only [searchRoot, ht, ha, findSome?_cons, hw, if_true]
      cases hf : chain.entries.find? fun e => decide (e.priority = q.priority) with
      | none => exact ih _
      | some e => rfl

theorem pbxFindExtension_new (henv : env.Ok) (hq : q.action = .helperExists) (hc : c ∈ env.contexts)
    (hs : ∀ a ∈ s, a ∈ env.contexts) (hnew : c ∉ s) (hlen : s.length < cwPbxMaxStack)
    (hf : f.incstack = s.map Context.name) (hsw : s ≠ [] → f.swo = none) :
    (∀ e, ownEntry q c = some e →
      ∃ f', ∀ fuel, pbxFindExtension env q none (fuel + 1) c.name f = some (f', some e)) ∧
    (ownEntry q c = none → ∃ f', f'.incstack = (s ++ [c]).map Context.name ∧ f'.swo = none ∧
      ∀ fuel, pbxFindExtension env q none (fuel + 1) c.name f =
        searchNames (pbxFindExtension env q none fuel) ((env.next c).map Context.name) f') := by
  obtain ⟨f₀, hf₀, hstack, hsw₀⟩ : ∃ f₀, (if f.incstack = [] then
      { f with status := .noContext, swo := none, data := none } else f) = f₀ ∧
      f₀.incstack = s.map Context.name ∧ f₀.swo = none := by
    refine ⟨_, rfl, ?_, ?_⟩ <;> split_ifs with h
    · exact hf
    · exact hf
    · rfl
    · exact hsw fun hs => h (by rw [hf, hs]; rfl)
  have hany : (f₀.incstack.any fun name => strcasecmp name c.name = .eq) = false := by
    rw [hstack, any_map, any_eq_false]
    intro a ha he
    have heq := henv.eq_of_strcasecmp (hs a ha) hc (by simpa using he)
    exact hnew (heq ▸ ha)
  have hlen' : ¬ f₀.incstack.length ≥ cwPbxMaxStack := by
    rw [hstack, length_map]
    omega
  have hroot := searchRoot_eq hq (f₀.status.raise .noExtension) c.root
  have hlook : (none <|> env.contexts.find? fun c' => cwHashString c.name = c'.hash) = some c :=
    henv.find?_hash hc
  constructor
  · intro e he
    obtain ⟨status, early, hsr⟩ : ∃ status early,
        searchRoot q false (f₀.status.raise .noExtension) c.root = (status, some e, early) :=
      ⟨_, _, Prod.ext rfl (hroot.trans (Prod.ext he rfl))⟩
    refine ⟨{ f₀ with status := status, foundcontext := some c.name }, fun fuel => ?_⟩
    simp only [pbxFindExtension, hf₀, if_neg hlen', hany, false_eq_true, if_false, hlook, hsr]
  · intro he
    obtain ⟨status, hsr⟩ : ∃ status,
        searchRoot q false (f₀.status.raise .noExtension) c.root = (status, none, false) :=
      ⟨_, Prod.ext rfl (hroot.trans (Prod.ext he rfl))⟩
    refine ⟨{ f₀ with status := status, incstack := f₀.incstack ++ [c.name] }, by simp [hstack],
      hsw₀, fun fuel => ?_⟩
    simp only [pbxFindExtension, hf₀, if_neg hlen', hany, false_eq_true, if_false, hlook, hsr,
      henv.alts c hc, searchAlts, searchIncludes_eq, henv.next_names hc]

theorem pbxFindExtension_seen (env : Env) (q : Query) (hne : s ≠ []) (hc : c ∈ s)
    (hf : f.incstack = s.map Context.name) (fuel : ℕ) :
    pbxFindExtension env q none (fuel + 1) c.name f = some (f, none) := by
  have hnil : f.incstack ≠ [] := by simpa [hf] using hne
  have hany : (f.incstack.any fun name => strcasecmp name c.name = .eq) = true := by
    rw [hf, any_map, any_eq_true]
    exact ⟨c, hc, by simp [strcasecmp, compareWith_eq_iff]⟩
  simp only [pbxFindExtension, if_neg hnil, hany, if_true, ite_self]

theorem findSome?_drop_append {g : α → Option β} {a b c : List α} (hab : a <+: b) (hbc : b <+: c) :
    (c.drop a.length).findSome? g = ((b.drop a.length).findSome? g).or
      ((c.drop b.length).findSome? g) := by
  obtain ⟨x, rfl⟩ := hab
  obtain ⟨y, rfl⟩ := hbc
  simp [findSome?_append]

structure Found.At (f : Found) (s : List Context) : Prop where
  incstack : f.incstack = s.map Context.name
  swo : f.swo = none

/-- The search along a traversal gives the first wanted entry of the new contexts, or goes on with
all of them on the stack. -/
theorem searchNames_visits (henv : env.Ok) (hq : q.action = .helperExists)
    (h : Visits env.next s vs t) (hne : s ≠ []) (hs : ∀ a ∈ s, a ∈ env.contexts)
    (hvs : ∀ a ∈ vs, a ∈ env.contexts) (hlen : t.length ≤ cwPbxMaxStack) (hf : f.At s) :
    ∃ n f', (∀ fuel ≥ n, searchNames (pbxFindExtension env q none fuel) (vs.map Context.name) f =
        some (f', (t.drop s.length).findSome? (ownEntry q))) ∧
      ((t.drop s.length).findSome? (ownEntry q) = none → f'.At t) := by
  induction h generalizing f with
  | nil => exact ⟨0, f, fun _ _ => by simp [searchNames], fun _ => hf⟩
  | @seen s t vs c hc _ ih =>
    obtain ⟨n, f', hn, hnone⟩ := ih hne hs (fun a ha => hvs a (by simp [ha])) hlen hf
    refine ⟨n + 1, f', fun fuel hfuel => ?_, hnone⟩
    obtain ⟨fuel, rfl⟩ := exists_round hfuel
    have hseen := pbxFindExtension_seen env q hne hc hf.incstack fuel
    simp only [map_cons, searchNames, hseen, hf.swo, Option.isSome_none, false_eq_true, if_false]
    exact hn _ (by omega)
  | @new s t u vs c hc ht hu ih₁ ih₂ =>
    have hsc : s ++ [c] <+: t := ht.prefix_of
    have htu : t <+: u := hu.prefix_of
    have hcmem : c ∈ env.contexts := hvs c (by simp)
    have hslen := (hsc.trans htu).length_le
    rw [length_append, length_singleton] at hslen
    have hs' : ∀ a ∈ s ++ [c], a ∈ env.contexts := by
      intro a ha
      rcases mem_append.mp ha with ha | ha
      · exact hs a ha
      · exact mem_singleton.mp ha ▸ hcmem
    have hown : (t.drop s.length).findSome? (ownEntry q) =
        (ownEntry q c).or ((t.drop (s ++ [c]).length).findSome? (ownEntry q)) := by
      rw [findSome?_drop_append (prefix_append s [c]) hsc]
      simp [findSome?_cons]
      cases ownEntry q c <;> rfl
    obtain ⟨hfound, hnone⟩ := pbxFindExtension_new henv hq hcmem hs hc (by omega) hf.incstack
      fun _ => hf.swo
    rw [findSome?_drop_append ((prefix_append s [c]).trans hsc) htu, hown]
    cases he : ownEntry q c with
    | some e =>
      obtain ⟨f', hf'⟩ := hfound e he
      refine ⟨1, f', fun fuel hfuel => ?_, by simp⟩
      obtain ⟨fuel, rfl⟩ := exists_round hfuel
      simp [searchNames, hf' fuel]
    | none =>
      obtain ⟨f₁, hstack, hsw, hstep⟩ := hnone he
      obtain ⟨n₁, f₂, hn₁, hnone₁⟩ := ih₁ (by simp) hs' (fun a ha => env.next_subset ha)
        (Nat.le_trans htu.length_le hlen) ⟨hstack, hsw⟩
      cases he₁ : (t.drop (s ++ [c]).length).findSome? (ownEntry q) with
      | some e =>
        refine ⟨n₁ + 1, f₂, fun fuel hfuel => ?_, by simp⟩
        obtain ⟨fuel, rfl⟩ := exists_round hfuel
        have hrun := hn₁ fuel (by omega)
        rw [he₁] at hrun
        simp [searchNames, hstep, hrun]
      | none =>
        have hf₂ := hnone₁ he₁
        have ht' : ∀ a ∈ t, a ∈ env.contexts :=
          ht.forall_mem hs' (fun a ha => env.next_subset ha) fun a _ b hb => env.next_subset hb
        have hnet : t ≠ [] := fun h => by simp [h] at hsc
        obtain ⟨n₂, f₃, hn₂, hnone₂⟩ := ih₂ hnet ht' (fun a ha => hvs a (by simp [ha])) hlen hf₂
        refine ⟨max n₁ n₂ + 1, f₃, fun fuel hfuel => ?_, by simpa using hnone₂⟩
        obtain ⟨fuel, rfl⟩ := exists_round hfuel
        have hrun := hn₁ fuel (by omega)
        rw [he₁] at hrun
        simp only [map_cons, searchNames, hstep, hrun, hf₂.swo, Option.isSome_none,
          false_eq_true, if_false, Option.none_or]
        exact hn₂ _ (by omega)

/-- The search for an existing extension ends. Its result is the first wanted entry over the
contexts in the order of a depth-first traversal through the valid includes, and there is one
exactly when some reachable context has one. -/
theorem pbxFindExtension_exists (env : Env) (henv : env.Ok) (start : Context)
    (hstart : start ∈ env.contexts) (reach : List Context) (hlen : reach.length ≤ cwPbxMaxStack)
    (hreach : ∀ c, env.Reachable start c → c ∈ reach) (q : Query) (hq : q.action = .helperExists)
    (f : Found) (hf : f.incstack = []) :
    ∃ order, Visits env.next [] [start] order ∧ order.Nodup ∧
      (∀ c, c ∈ order ↔ env.Reachable start c) ∧
      ∃ n f', (∀ fuel ≥ n, pbxFindExtension env q none fuel start.name f =
          some (f', order.findSome? (ownEntry q))) ∧
        ((order.findSome? (ownEntry q)).isSome ↔ ∃ c, env.Reachable start c ∧
          ∃ chain ∈ c.root, accepts q chain.head = true ∧
          ∃ e ∈ chain.entries, e.priority = q.priority) := by
  obtain ⟨order, horder⟩ : ∃ order, Visits env.next [] [start] order :=
    Visits.exists_of_finite env.contexts (fun a _ b hb => env.next_subset hb)
      (by simpa using hstart)
  have hmem : ∀ c, c ∈ order ↔ env.Reachable start c := fun c => horder.mem_iff
  have hnodup := horder.nodup nodup_nil
  have hlen' : order.length ≤ cwPbxMaxStack :=
    Nat.le_trans (subperm_of_subset hnodup fun c hc => hreach c ((hmem c).mp hc)).length_le hlen
  refine ⟨order, horder, hnodup, hmem, ?_⟩
  have hsome : (order.findSome? (ownEntry q)).isSome ↔ ∃ c, env.Reachable start c ∧
      ∃ chain ∈ c.root, accepts q chain.head = true ∧
      ∃ e ∈ chain.entries, e.priority = q.priority := by
    simp only [findSome?_isSome_iff, ownEntry_isSome_iff, hmem]
  -- the first step searches the start itself
  cases horder with
  | seen hs _ => cases hs
  | new _ ht hu =>
    cases hu
    obtain ⟨hfound, hnone⟩ := pbxFindExtension_new henv hq hstart (s := []) (by simp) (by simp)
      (by decide) hf (fun h => absurd rfl h)
    have hown : order.findSome? (ownEntry q) =
        (ownEntry q start).or ((order.drop 1).findSome? (ownEntry q)) := by
      obtain ⟨l, rfl⟩ := ht.prefix_of
      simp only [nil_append, singleton_append, findSome?_cons, drop_one, tail_cons]
      cases ownEntry q start <;> rfl
    cases he : ownEntry q start with
    | some e =>
      obtain ⟨f', hf'⟩ := hfound e he
      refine ⟨1, f', fun fuel hfuel => ?_, hsome⟩
      obtain ⟨fuel, rfl⟩ := exists_round hfuel
      rw [hf' fuel, hown, he, Option.some_or]
    | none =>
      obtain ⟨f₁, hstack, hsw, hstep⟩ := hnone he
      obtain ⟨n, f₂, hn, _⟩ := searchNames_visits henv hq ht (by simp) (by simpa using hstart)
        (fun a ha => env.next_subset ha) hlen' ⟨hstack, hsw⟩
      refine ⟨n + 1, f₂, fun fuel hfuel => ?_, hsome⟩
      obtain ⟨fuel, rfl⟩ := exists_round hfuel
      rw [hstep, hn fuel (by omega), hown, he, Option.none_or]
      rfl

def contextA : Context := ⟨[chr 'a'], [], [⟨[chr 'b'], false, false⟩], []⟩

def contextB : Context :=
  ⟨[chr 'b'], [⟨⟨[chr '7'], false, [], 1, none, [], [], []⟩, []⟩], [⟨[chr 'a'], true, true⟩], []⟩

def twoContexts : Env := ⟨[contextA, contextB], [], id⟩

theorem pbxFindExtension_exists_twoContexts :
    ∃ n f' e,
      ∀ fuel ≥ n, pbxFindExtension twoContexts ⟨[chr '7'], 1, none, none, .helperExists⟩ none
      fuel [chr 'a'] ⟨[], .noContext, none, none, none⟩ = some (f', some e) := by
  have ha : contextA ∈ twoContexts.contexts := by decide
  have henv : twoContexts.Ok := ⟨by decide, by decide, by decide, by decide⟩
  have hreach : ∀ c, twoContexts.Reachable contextA c → c ∈ twoContexts.contexts := by
    intro c h
    induction h with
    | refl => exact ha
    | tail _ hb _ => exact Env.next_subset hb
  obtain ⟨order, _, _, _, n, f', hn, hsome⟩ := pbxFindExtension_exists twoContexts henv contextA ha
    twoContexts.contexts (by decide) hreach ⟨[chr '7'], 1, none, none, .helperExists⟩ rfl
    ⟨[], .noContext, none, none, none⟩ rfl
  have hb : twoContexts.Reachable contextA contextB := .single (by decide)
  obtain ⟨e, he⟩ := Option.isSome_iff_exists.mp
    (hsome.mpr ⟨contextB, hb, _, mem_singleton.mpr rfl, by decide +kernel, _, mem_cons_self, rfl⟩)
  exact ⟨n, f', e, fun fuel hfuel => by rw [← he]; exact hn fuel hfuel⟩

end CallWeaver.Dialplan
