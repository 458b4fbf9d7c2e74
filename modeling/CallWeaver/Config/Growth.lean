import CallWeaver.Config.File

/-! # What loading changes

Categories and entries are only appended. The names and entries that come in are those of the
lines, or copies of entries.
-/

namespace CallWeaver.Config

open List Option Int

def CwConfig.Has (cfg : CwConfig) (v : CwVariable) : Prop := ∃ c ∈ cfg.root, v ∈ c.root

/-- The categories of one configuration are extended to those of another. What is new is one of the
given names and entries, or a copy of an entry. -/
structure Grows (N : CStr → Prop) (V : CwVariable → Prop) (cfg cfg' : CwConfig) : Prop where
  keeps : ∀ (i : ℕ) (c : CwCategory), cfg.root[i]? = some c →
    ∃ c', cfg'.root[i]? = some c' ∧ c'.name = c.name ∧ c.root <+: c'.root
  names : ∀ c' ∈ cfg'.root, N c'.name ∨ ∃ c ∈ cfg.root, c.name = c'.name
  entries : ∀ v, cfg'.Has v → ∃ u, (V u ∨ cfg.Has u) ∧ (v = u ∨ v = variableClone u)

structure Yields (N : CStr → Prop) (V : CwVariable → Prop) (t : CStr) : Prop where
  name : ∀ name rest, t = chr '[' :: (name ++ chr ']' :: rest) → chr ']' ∉ name →
    N (cwCopyString name 80)
  entry : t.head? ≠ some (chr '[') → t.head? ≠ some (chr '#') → ∀ n v, entryOf t n = some v → V v

namespace Grows

variable {N : CStr → Prop} {V : CwVariable → Prop} {cfg cfg₁ cfg₂ cfg' : CwConfig} {i : ℕ}

theorem refl (cfg : CwConfig) : Grows N V cfg cfg where
  keeps _ c hc := ⟨c, hc, rfl, prefix_rfl⟩
  names c hc := .inr ⟨c, hc, rfl⟩
  entries v hv := ⟨v, .inr hv, .inl rfl⟩

theorem trans (h : Grows N V cfg cfg₁) (h' : Grows N V cfg₁ cfg₂) : Grows N V cfg cfg₂ where
  keeps i c hc := by
    obtain ⟨c₁, hc₁, hname₁, hroot₁⟩ := h.keeps i c hc
    obtain ⟨c₂, hc₂, hname₂, hroot₂⟩ := h'.keeps i c₁ hc₁
    exact ⟨c₂, hc₂, hname₂.trans hname₁, hroot₁.trans hroot₂⟩
  names c₂ hc₂ := by
    rcases h'.names c₂ hc₂ with hN | ⟨c₁, hc₁, hname⟩
    · exact .inl hN
    · rw [← hname]
      exact h.names c₁ hc₁
  entries v hv := by
    obtain ⟨u, hV | hu, huv⟩ := h'.entries v hv
    · exact ⟨u, .inl hV, huv⟩
    · obtain ⟨w, hw, huw⟩ := h.entries u hu
      refine ⟨w, hw, ?_⟩
      -- a copy of a copy is a copy
      rcases huv with rfl | rfl <;> rcases huw with rfl | rfl
      · exact .inl rfl
      · exact .inr rfl
      · exact .inr rfl
      · exact .inr rfl

theorem level (n : ℕ) : Grows N V cfg { cfg with includeLevel := n } := by
  have h : Grows N V cfg cfg := refl cfg
  exact { h with }

variable {vs : List CwVariable}

theorem modify {f : CwCategory → CwCategory} (hroot : cfg'.root = cfg.root.modify i f)
    (hname : ∀ c, (f c).name = c.name) (hvs : ∀ c, (f c).root = c.root ++ vs)
    (hnew : ∀ v ∈ vs, ∃ u, (V u ∨ cfg.Has u) ∧ (v = u ∨ v = variableClone u)) :
    Grows N V cfg cfg' := by
  have hmem : ∀ c' ∈ cfg'.root,
      ∃ c ∈ cfg.root, c'.name = c.name ∧ (c'.root = c.root ∨ c'.root = c.root ++ vs) := by
    intro c' hc'
    rw [hroot] at hc'
    obtain ⟨j, hj⟩ := mem_iff_getElem?.mp hc'
    rw [getElem?_modify] at hj
    obtain ⟨c, hc, rfl⟩ := map_eq_some_iff.mp hj
    refine ⟨c, mem_of_getElem? hc, ?_⟩
    split_ifs
    · exact ⟨hname c, .inr (hvs c)⟩
    · exact ⟨rfl, .inl rfl⟩
  refine ⟨fun j c hc => ?_, fun c' hc' => ?_, ?_⟩
  · refine ⟨if i = j then f c else c, ?_, ?_, ?_⟩
    · rw [hroot, getElem?_modify, hc]
      rfl
    · split_ifs
      · exact hname c
      · rfl
    · split_ifs
      · rw [hvs]
        exact prefix_append _ _
      · exact prefix_rfl
  · obtain ⟨c, hc, hname', -⟩ := hmem c' hc'
    exact .inr ⟨c, hc, hname'.symm⟩
  · rintro v ⟨c', hc', hv⟩
    obtain ⟨c, hc, -, hr | hr⟩ := hmem c' hc'
    · exact ⟨v, .inr ⟨c, hc, hr ▸ hv⟩, .inl rfl⟩
    · rw [hr, mem_append] at hv
      rcases hv with hv | hv
      · exact ⟨v, .inr ⟨c, hc, hv⟩, .inl rfl⟩
      · exact hnew v hv

theorem setIgnored (i : ℕ) : Grows N V cfg (cfg.setIgnored i) :=
  modify rfl (fun _ => rfl) (fun _ => (append_nil _).symm) (by simp)

theorem addVariables (hnew : ∀ v ∈ vs, ∃ u, (V u ∨ cfg.Has u) ∧ (v = u ∨ v = variableClone u)) :
    Grows N V cfg (cfg.addVariables i vs) :=
  modify rfl (fun _ => rfl) (fun _ => rfl) hnew

theorem append {c : CwCategory} (hname : N c.name)
    (hroot : ∀ v ∈ c.root, ∃ u, cfg.Has u ∧ v = variableClone u) :
    Grows N V cfg (cfg.cwCategoryAppend c) where
  keeps i c' hc' := by
    refine ⟨c', ?_, rfl, prefix_rfl⟩
    rw [CwConfig.cwCategoryAppend, List.getElem?_append_left (List.getElem?_eq_some_iff.mp hc').1,
      hc']
  names c' hc' := by
    rcases mem_append.mp hc' with hc' | hc'
    · exact .inr ⟨c', hc', rfl⟩
    · exact .inl (mem_singleton.mp hc' ▸ hname)
  entries := by
    rintro v ⟨c', hc', hv⟩
    rcases mem_append.mp hc' with hc' | hc'
    · exact ⟨v, .inr ⟨c', hc', hv⟩, .inl rfl⟩
    · obtain ⟨u, hu, rfl⟩ := hroot v (mem_singleton.mp hc' ▸ hv)
      exact ⟨u, .inr hu, .inr rfl⟩

end Grows

def Leaves {α : Type} (E : CwConfig → Prop) (Q : α → Prop) : Result α → Prop
  | some (.ok a) => Q a
  | some (.error (some cfg)) => E cfg
  | _ => True

theorem Leaves.imp {α : Type} {E E' : CwConfig → Prop} {Q Q' : α → Prop} {r : Result α}
    (h : Leaves E Q r) (hE : ∀ cfg, E cfg → E' cfg) (hQ : ∀ a, Q a → Q' a) : Leaves E' Q' r :=
  match r, h with
  | none, _ => trivial
  | some (.error none), _ => trivial
  | some (.error (some cfg)), h => hE cfg h
  | some (.ok a), h => hQ a h

section Header

variable {N : CStr → Prop} {V : CwVariable → Prop} {cfg cfg₁ : CwConfig} {cat : Target}

theorem has_of_mem_variablesAt {i : ℕ} {v : CwVariable} (hv : v ∈ cfg.variablesAt i) :
    cfg.Has v := by
  unfold CwConfig.variablesAt at hv
  cases hc : cfg.root[i]? with
  | none => simp [hc] at hv
  | some c =>
    rw [hc] at hv
    exact ⟨c, mem_of_getElem? hc, hv⟩

/-- Where the options of a header have got to: a new category is still apart from the configuration,
with copied entries only. -/
def Pending (N : CStr → Prop) (V : CwVariable → Prop) (cfg : CwConfig) : CwConfig × Target → Prop
  | (cfg', .fresh c) => cfg' = cfg ∧ N c.name ∧ ∀ v ∈ c.root, ∃ u, cfg.Has u ∧ v = variableClone u
  | (cfg', .existing _) => Grows N V cfg cfg'

theorem headerOption_pending (catname : CStr) (h : Pending N V cfg (cfg₁, cat)) (opt : CStr) :
    Leaves (Grows N V cfg) (Pending N V cfg) (headerOption catname cfg₁ cat opt) := by
  unfold headerOption
  split_ifs
  · cases cat with
    | fresh c => exact h
    | existing i => exact h.trans (.setIgnored i)
  · cases cfg₁.categoryGet catname true with
    | none => trivial
    | some i =>
      cases cat with
      | fresh c =>
        obtain ⟨rfl, -, hroot⟩ := h
        refine Grows.addVariables fun v hv => ?_
        obtain ⟨u, hu, huv⟩ := hroot v hv
        exact ⟨u, .inr hu, .inr huv⟩
      | existing j => exact h
  · cases hget : cfg₁.categoryGet opt true with
    | none =>
      cases cat with
      | fresh c => exact h.1 ▸ Grows.refl cfg₁
      | existing j => exact h
    | some i =>
      cases cat with
      | fresh c =>
        obtain ⟨rfl, hname, hroot⟩ := h
        refine ⟨rfl, hname, fun v hv => ?_⟩
        rcases mem_append.mp hv with hv | hv
        · exact hroot v hv
        · obtain ⟨u, hu, rfl⟩ := mem_map.mp hv
          exact ⟨u, has_of_mem_variablesAt hu, rfl⟩
      | existing j =>
        simp only
        split_ifs
        · trivial
        · refine Grows.trans h (Grows.addVariables fun v hv => ?_)
          obtain ⟨u, hu, rfl⟩ := mem_map.mp hv
          exact ⟨u, .inr (has_of_mem_variablesAt hu), .inr rfl⟩

theorem headerOptions_pending (catname : CStr) (h : Pending N V cfg (cfg₁, cat))
    (opts : List CStr) :
    Leaves (Grows N V cfg) (Pending N V cfg) (headerOptions catname cfg₁ cat opts) := by
  induction opts generalizing cfg₁ cat with
  | nil => exact h
  | cons opt opts ih =>
    have hopt := headerOption_pending catname h opt
    rw [headerOptions]
    match headerOption catname cfg₁ cat opt, hopt with
    | none, _ => trivial
    | some (.error none), _ => trivial
    | some (.error (some cfg')), hopt => exact hopt
    | some (.ok (cfg', cat')), hopt => exact ih hopt

theorem categoryHeader_grows {cur : CStr}
    (hN : ∀ name rest, cur = name ++ chr ']' :: rest → chr ']' ∉ name → N (cwCopyString name 80)) :
    Leaves (Grows N V cfg) (fun r => Grows N V cfg r.1) (categoryHeader cfg cur) := by
  unfold categoryHeader
  cases hcut : cut (chr ']') cur with
  | none => exact Grows.refl cfg
  | some r =>
    obtain ⟨catname, c⟩ := r
    obtain ⟨hcur, hmem⟩ := cut_eq_some_iff.mp hcut
    have hname : N (cwCategoryNew catname).name := hN catname c hcur hmem
    simp only
    split_ifs
    · cases cut (chr ')') c.tail with
      | none => exact Grows.refl cfg
      | some r =>
        have hpending := headerOptions_pending (N := N) (V := V) catname
          (show Pending N V cfg (cfg, .fresh (cwCategoryNew catname)) from
            ⟨rfl, hname, fun v hv => absurd hv not_mem_nil⟩) (r.1.splitOn (chr ','))
        simp only
        match headerOptions catname cfg (.fresh (cwCategoryNew catname)) (r.1.splitOn (chr ',')),
            hpending with
        | none, _ => trivial
        | some (.error none), _ => trivial
        | some (.error (some cfg')), hpending => exact hpending
        | some (.ok (_, .fresh c')), ⟨he, hname', hroot⟩ =>
          subst he
          exact Grows.append hname' hroot
        | some (.ok (cfg', .existing i)), hpending => exact hpending
    · exact Grows.append hname fun v hv => absurd hv not_mem_nil

end Header

def textLines (rs : List (Option CStr)) : List CStr := rs.reduceOption.map (·.takeWhile (· ≠ 0))

def depthAfter : ℕ → List CStr → ℕ
  | d, [] => d
  | d, l :: ls => depthAfter ((marks l).depth d) ls

def Supplies (N : CStr → Prop) (V : CwVariable → Prop) (d : ℕ) (lines : List CStr) : Prop :=
  ∀ x ∈ strippedLines d lines, ∀ t, x.2 = some t → Yields N V t

theorem supplies_all {d : ℕ} {lines : List CStr} :
    Supplies (fun _ => True) (fun _ => True) d lines :=
  fun _ _ _ _ => ⟨fun _ _ _ _ => trivial, fun _ _ _ _ _ => trivial⟩

variable {comment c : ℤ} {line t filename : CStr} {n : ℕ}
  {r : Except (Option CwConfig) (CwConfig × Option ℕ)}

section Load

variable {N : CStr → Prop} {V : CwVariable → Prop} {env : Env}
  {load : Source → CwConfig → Result CwConfig}
  {fuel : ℕ} {cfg : CwConfig} {cat : Option ℕ} {lineno d : ℕ} {rs : List (Option CStr)}

theorem stripLine_neg {behind : List UInt8} {r : ℤ × Option CStr} (hc : comment < 0)
    (h : stripLine behind fuel comment line = some r) : r.1 < 0 := by
  obtain ⟨s, hs, rfl⟩ := map_eq_some_iff.mp h
  exact commentLoop_neg hc hs

theorem textLines_some (line : CStr) :
    textLines (some line :: rs) = line.takeWhile (· ≠ 0) :: textLines rs := by
  simp [textLines, List.reduceOption]

theorem strippedLines_append (d : ℕ) (l₁ l₂ : List CStr) :
    strippedLines d (l₁ ++ l₂) = strippedLines d l₁ ++ strippedLines (depthAfter d l₁) l₂ := by
  induction l₁ generalizing d with
  | nil => rfl
  | cons l l₁ ih => rw [cons_append, strippedLines, ih, strippedLines, depthAfter, cons_append]

def fileLines (fs : List (List UInt8)) : List CStr := fs.flatMap fun f => textLines (reads [] f)

section Files

variable (hload : ∀ src cfg, Leaves (Grows N V cfg) (Grows N V cfg) (load src cfg))

include hload

theorem processTextLine_grows (ht : Yields N V t) :
    Leaves (Grows N V cfg) (fun r => Grows N V cfg r.1)
      (processTextLine env load cfg cat t lineno) := by
  unfold processTextLine
  split_ifs with hopen hsign
  · apply categoryHeader_grows
    intro name rest htail
    apply ht.name name rest
    rw [← htail]
    exact (cons_head?_tail hopen).symm
  · cases directive env.optionExecIncludes t.tail with
    | none => exact Grows.refl cfg
    | some src =>
      simp only
      match load src cfg, hload src cfg with
      | none, _ => trivial
      | some (.error none), _ => trivial
      | some (.error (some cfg')), hsrc => exact hsrc
      | some (.ok cfg'), hsrc => exact hsrc
  · cases cat with
    | none => exact Grows.refl cfg
    | some i =>
      cases hentry : entryOf t lineno with
      | none => exact Grows.refl cfg
      | some v =>
        refine Grows.addVariables fun u hu => ?_
        rw [mem_singleton.mp hu]
        exact ⟨v, .inl (ht.entry hopen hsign lineno v hentry), .inl rfl⟩

/-- A counter that gets negative stays negative up to the end. -/
theorem loadLines_grows (h : loadLines env load fuel comment lineno cfg cat rs = some (c, n, r))
    (hc : 0 ≤ c) : ∃ d : ℕ, comment = d ∧ (Supplies N V d (textLines rs) →
      Leaves (Grows N V cfg) (fun r => Grows N V cfg r.1 ∧ c = depthAfter d (textLines rs))
      (some r)) := by
  induction rs generalizing comment lineno cfg cat with
  | nil =>
    rw [loadLines] at h
    cases h
    obtain ⟨d, rfl⟩ := eq_ofNat_of_zero_le hc
    exact ⟨d, rfl, fun _ => ⟨.refl cfg, rfl⟩⟩
  | cons line rs ih =>
    cases line with
    | none => exact ih h
    | some line =>
      rw [loadLines] at h
      match hs : stripLine (env.behind (lineno + 1)) fuel comment line with
      | none => simp [hs] at h
      | some (comment', text) =>
        suffices hrest : ∃ d : ℕ, comment' = d ∧
          (Supplies N V d (textLines rs) → (∀ buf ∈ text, Yields N V buf) →
            Leaves (Grows N V cfg) (fun r => Grows N V cfg r.1 ∧ c = depthAfter d (textLines rs))
            (some r)) by
          obtain ⟨d', rfl, hrest⟩ := hrest
          have hcomment : 0 ≤ comment := by
            by_contra hneg
            exact absurd (stripLine_neg (not_le.mp hneg) hs) (not_lt.mpr (natCast_nonneg d'))
          obtain ⟨d, rfl⟩ := eq_ofNat_of_zero_le hcomment
          obtain ⟨hd', rfl⟩ := Prod.mk.inj (stripLine_eq hs (natCast_nonneg d'))
          obtain rfl := natCast_inj.mp hd'
          rw [textLines_some]
          exact ⟨d, rfl,
            fun hP => hrest (fun x hx => hP x (mem_cons_of_mem _ hx)) (hP _ mem_cons_self)⟩
        cases text with
        | none =>
          simp only [hs] at h
          obtain ⟨d, hd, hrest⟩ := ih h
          exact ⟨d, hd, fun hP _ => hrest hP⟩
        | some buf =>
          simp only [hs] at h
          have hline : Yields N V buf →
              Leaves _ _ (processTextLine env load cfg cat buf (lineno + 1)) :=
            processTextLine_grows hload
          match processTextLine env load cfg cat buf (lineno + 1), h, hline with
          | none, h, _ => cases h
          | some (.error e), h, hline =>
            simp only [some.injEq, Prod.mk.injEq] at h
            obtain ⟨rfl, -, rfl⟩ := h
            obtain ⟨d, rfl⟩ := eq_ofNat_of_zero_le hc
            refine ⟨d, rfl, fun _ hy => ?_⟩
            cases e with
            | none => trivial
            | some cfg' => exact hline (hy buf rfl)
          | some (.ok (cfg', cat')), h, hline =>
            obtain ⟨d, hd, hrest⟩ := ih h
            refine ⟨d, hd, fun hP hy => ?_⟩
            have hgrows : Grows N V cfg cfg' := hline (hy buf rfl)
            exact (hrest hP).imp (fun _ => hgrows.trans) fun _ ⟨hg, hd⟩ => ⟨hgrows.trans hg, hd⟩

theorem loadFiles_grows {fs : List (List UInt8)} (hP : Supplies N V d (fileLines fs)) :
    Leaves (Grows N V cfg) (Grows N V cfg) (loadFiles env load fuel d lineno cfg cat fs) := by
  induction fs generalizing d lineno cfg cat with
  | nil => exact Grows.refl cfg
  | cons f fs ih =>
    rw [fileLines, flatMap_cons] at hP
    rw [loadFiles]
    match hl : loadLines env load fuel d lineno cfg cat (reads [] f) with
    | none => trivial
    | some (c, n, r) =>
      simp only
      split_ifs with hc
      · trivial
      · rw [Supplies, strippedLines_append] at hP
        obtain ⟨d', hd, hgrows⟩ := loadLines_grows hload hl (by omega)
        obtain rfl := natCast_inj.mp hd
        match r, hgrows fun x hx => hP x (mem_append_left _ hx) with
        | .error none, _ => trivial
        | .error (some cfg'), hgrows => exact hgrows
        | .ok (cfg', cat'), ⟨hgrows, hdepth⟩ =>
          rw [hdepth]
          have hrest := @ih cfg' cat' n _ fun x hx => hP x (mem_append_right _ hx)
          exact hrest.imp (fun _ => hgrows.trans) fun _ => hgrows.trans

end Files

variable (hP : ∀ src, Supplies N V 0 (fileLines (env.contents src)))

include hP

theorem cwConfigInternalLoad_grows (depth : ℕ) (src : Source) (cfg : CwConfig) :
    Leaves (Grows N V cfg) (Grows N V cfg) (cwConfigInternalLoad env fuel depth src cfg) := by
  induction depth generalizing src cfg with
  | zero => trivial
  | succ depth ih =>
    rw [cwConfigInternalLoad]
    split_ifs
    · exact Grows.refl cfg
    · have hfiles : Leaves (Grows N V cfg) (Grows N V cfg)
        (configTextFileLoad env (cwConfigInternalLoad env fuel depth)
          fuel src { cfg with includeLevel := cfg.includeLevel + 1 }) := by
        rw [configTextFileLoad]
        split_ifs
        · exact Grows.level _
        · exact (loadFiles_grows ih (hP src)).imp (fun _ => (Grows.level _).trans) fun _ =>
            (Grows.level _).trans
      match configTextFileLoad env (cwConfigInternalLoad env fuel depth) fuel src
          { cfg with includeLevel := cfg.includeLevel + 1 }, hfiles with
      | none, _ => trivial
      | some (.error none), _ => trivial
      | some (.error (some cfg')), hfiles => exact hfiles
      | some (.ok cfg'), hfiles => exact Grows.trans hfiles (.level _)

theorem grows_of_cwConfigLoad (h : cwConfigLoad env fuel filename = some (.ok cfg)) :
    Grows N V cwConfigNew cfg := by
  have hleaves :
      Leaves (Grows N V cwConfigNew) (Grows N V cwConfigNew) (cwConfigLoad env fuel filename) :=
    cwConfigInternalLoad_grows hP _ _ _
  rw [h] at hleaves
  exact hleaves

end Load

end CallWeaver.Config
