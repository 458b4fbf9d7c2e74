import CallWeaver.Config.Escapes

/-! # Saving and loading again

A saved configuration is loaded again with the same categories and entries if and only if no
category is ignored, no name or value has a semicolon and all lines fit into the buffer.
-/

namespace CallWeaver.Config

open Terminated List

/-- The categories with their marks and their entries, in order. -/
def CwConfig.entries (cfg : CwConfig) : List (CStr × Bool × List (CStr × CStr × Bool)) :=
  cfg.root.map fun c => (c.name, c.ignored, c.root.map fun v => (v.name, v.value, v.object))

def Survives (cfg : CwConfig) : Prop :=
  ∀ c ∈ cfg.root, c.ignored = false ∧ chr ';' ∉ c.name ∧ ∀ v ∈ c.root,
    chr ';' ∉ v.name ∧ chr ';' ∉ v.value ∧ (cwTrimBlanks (variableLine v)).length < bufSize

def SaveInfo.commentLines (info : SaveInfo) (day : CStr) : List CStr :=
  [str ";!", str ";! Automatically generated configuration file",
    str ";! Filename: " ++ info.configfile ++ str " (" ++ info.fn ++ str ")",
    str ";! Generator: " ++ info.generator,
    str ";! Creation Date: " ++ day, str ";!"]

/-- The comments are single lines that fit into the buffer. -/
def SaveInfo.Ok (info : SaveInfo) : Prop :=
  ∃ day, info.date = day ++ [chr '\n'] ∧ ∀ l ∈ info.commentLines day, chr '\n' ∉ l ∧
    l.length + 1 < bufSize

variable {info : SaveInfo} {ls : List CStr}

section Comments

variable {env : Env} {load : Source → CwConfig → Result CwConfig} {cfg : CwConfig} {cat : Option ℕ}
  {day l t : CStr}

theorem comments_eq (h : info.date = day ++ [chr '\n']) :
    info.comments = (info.commentLines day).flatMap (· ++ [chr '\n']) := by
  have hlines : info.comments = (str ";!" ++ [chr '\n']) ++
      (str ";! Automatically generated configuration file" ++ [chr '\n']) ++
      (str ";! Filename: " ++ info.configfile ++ str " (" ++ info.fn ++ (str ")" ++ [chr '\n'])) ++
      (str ";! Generator: " ++ info.generator ++ [chr '\n']) ++
      (str ";! Creation Date: " ++ info.date) ++
      (str ";!" ++ [chr '\n']) := rfl
  rw [hlines, h, SaveInfo.commentLines]
  simp only [flatMap_cons, flatMap_nil, append_nil, append_assoc]

theorem commentLines_start (h : l ∈ info.commentLines day) : ∃ x, l = chr ';' :: chr '!' :: x := by
  simp only [SaveInfo.commentLines, mem_cons, not_mem_nil, or_false] at h
  rcases h with rfl | rfl | rfl | rfl | rfl | rfl <;> exact ⟨_, rfl⟩

theorem stripLine_comment (behind : List UInt8) (fuel : ℕ) (x : CStr) :
    stripLine behind (fuel + 2) 0 (chr ';' :: chr '!' :: x) = some (0, none) := by
  have hne : chr ';' ≠ 0 := by decide
  have hmark : chr '!' ≠ chr '-' := by decide
  simp [stripLine, commentLoop, search, textAt, Scan.turn, passed, cwStrip_blanks, hne, hmark]

theorem reads_comments (hls : ∀ l ∈ ls, chr '\n' ∉ l ∧ l.length + 1 < bufSize) (rest : List UInt8) :
    reads [] (ls.flatMap (· ++ [chr '\n']) ++ rest) = ls.map (fun l => some (l ++ [chr '\n'])) ++
      reads [] rest := by
  induction ls with
  | nil => rfl
  | cons l ls ih =>
    obtain ⟨hnewline, hlen⟩ := hls l mem_cons_self
    have hassoc : (l :: ls).flatMap (· ++ [chr '\n']) ++ rest =
        l ++ chr '\n' :: (ls.flatMap (· ++ [chr '\n']) ++ rest) := by simp
    rw [hassoc, reads_short hnewline (by simpa using hlen), ih fun l' hl' =>
      hls l' (mem_cons_of_mem _ hl')]
    rfl

variable (hls : ∀ l ∈ ls, ∃ x, l = chr ';' :: chr '!' :: x)

include hls

theorem loadLines_comments (fuel lineno : ℕ) (rs : List (Option CStr)) :
    loadLines env load (fuel + 2) 0 lineno cfg cat
      (ls.map (fun l => some (l ++ [chr '\n'])) ++ rs) =
      loadLines env load (fuel + 2) 0 (lineno + ls.length) cfg cat rs := by
  induction ls generalizing lineno with
  | nil => rfl
  | cons l ls ih =>
    obtain ⟨x, rfl⟩ := hls l mem_cons_self
    rw [map_cons, cons_append, loadLines, cons_append, cons_append, stripLine_comment]
    simp only
    rw [ih fun l' hl' => hls l' (mem_cons_of_mem _ hl'), length_cons]
    congr 1
    omega

theorem strippedLines_comments (rs : List (Option CStr)) {x : ℤ × Option CStr}
    (hx : x ∈ strippedLines 0 (textLines (ls.map (fun l => some (l ++ [chr '\n'])) ++ rs)))
    (ht : x.2 = some t) : x ∈ strippedLines 0 (textLines rs) := by
  induction ls with
  | nil => exact hx
  | cons l ls ih =>
    obtain ⟨y, rfl⟩ := hls l mem_cons_self
    have hline : (chr ';' :: chr '!' :: y ++ [chr '\n']).takeWhile (· ≠ 0) =
        [] ++ chr ';' :: chr '!' :: (y ++ [chr '\n']).takeWhile (· ≠ 0) := rfl
    have hmark : ∀ w, markOf [] (chr '!' :: w) = .plain := by
      have hne : chr '-' ≠ chr '!' := by decide
      simp [markOf, hne]
    rw [map_cons, cons_append, textLines_some, strippedLines, hline, marks_marked not_mem_nil,
      hmark] at hx
    rcases mem_cons.mp hx with rfl | hx
    · cases ht
    · exact ih (fun l' hl' => hls l' (mem_cons_of_mem _ hl')) hx

end Comments

variable {cfg cfg' : CwConfig}

section Categories

def Item.isEntry : Item → Bool
  | .header _ => false
  | .entry _ _ _ => true

variable {cs cs' : List CwCategory} {c c' : CwCategory} {e : Item} {rest : List Item}

theorem isEntry_of_mem {vs : List CwVariable} :
    ∀ it ∈ vs.map CwVariable.item, it.isEntry = true := by
  intro it hit
  obtain ⟨v, -, rfl⟩ := mem_map.mp hit
  rfl

theorem takeWhile_items (cs : List CwCategory) :
    (cs.flatMap CwCategory.items).takeWhile Item.isEntry = [] := by
  cases cs <;> rfl

theorem dropWhile_items (cs : List CwCategory) :
    (cs.flatMap CwCategory.items).dropWhile Item.isEntry = cs.flatMap CwCategory.items := by
  cases cs <;> rfl

theorem items_cons_inj (h : c.items ++ rest = (c' :: cs').flatMap CwCategory.items) :
    c.name = c'.name ∧
      c'.root.map CwVariable.item = c.root.map CwVariable.item ++ rest.takeWhile Item.isEntry ∧
      rest.dropWhile Item.isEntry = cs'.flatMap CwCategory.items := by
  rw [flatMap_cons, CwCategory.items, CwCategory.items, cons_append, cons_append] at h
  obtain ⟨hname, hrest⟩ := cons.inj h
  have htake := congrArg (takeWhile Item.isEntry) hrest
  have hdrop := congrArg (dropWhile Item.isEntry) hrest
  rw [takeWhile_append_of_pos isEntry_of_mem, takeWhile_append_of_pos isEntry_of_mem,
    takeWhile_items, append_nil] at htake
  rw [dropWhile_append_of_pos isEntry_of_mem, dropWhile_append_of_pos isEntry_of_mem,
    dropWhile_items] at hdrop
  exact ⟨Item.header.inj hname, htake.symm, hdrop⟩

def Item.fields : Item → CStr × CStr × Bool
  | .header name => (name, [], false)
  | .entry name value object => (name, value, object)

theorem entries_eq_of_items (h : cfg.items = cfg'.items) (hcfg : ∀ c ∈ cfg.root, c.ignored = false)
    (hcfg' : ∀ c ∈ cfg'.root, c.ignored = false) : cfg.entries = cfg'.entries := by
  have hfields : (fun v : CwVariable => (v.name, v.value, v.object)) =
    Item.fields ∘ CwVariable.item := rfl
  unfold CwConfig.entries
  unfold CwConfig.items at h
  generalize cfg.root = cs at *
  generalize cfg'.root = cs' at *
  induction cs generalizing cs' with
  | nil =>
    cases cs' with
    | nil => rfl
    | cons c' cs' => cases h
  | cons c cs ih =>
    cases cs' with
    | nil => cases h
    | cons c' cs' =>
      rw [flatMap_cons] at h
      obtain ⟨hname, hroot, hrest⟩ := items_cons_inj h
      rw [takeWhile_items, append_nil] at hroot
      rw [dropWhile_items] at hrest
      have htail := ih (fun x hx => hcfg x (mem_cons_of_mem _ hx)) cs'
        (fun x hx => hcfg' x (mem_cons_of_mem _ hx)) hrest
      rw [map_cons, map_cons, htail, hname, hcfg c mem_cons_self, hcfg' c' mem_cons_self, hfields,
        ← map_map, ← map_map, hroot]

theorem items_eq_of_entries (h : cfg.entries = cfg'.entries) : cfg.items = cfg'.items := by
  have hitems : ∀ cfg : CwConfig, cfg.items =
      cfg.entries.flatMap fun e => .header e.1 :: e.2.2.map fun v => .entry v.1 v.2.1 v.2.2 := by
    intro cfg
    rw [CwConfig.entries, flatMap_map]
    apply flatMap_congr
    intro c _
    rw [CwCategory.items, map_map]
    rfl
  rw [hitems, hitems, h]

theorem ignored_of_entries (h : cfg.entries = cfg'.entries)
    (hcfg : ∀ c ∈ cfg.root, c.ignored = false) : ∀ c ∈ cfg'.root, c.ignored = false := by
  intro c hc
  have hmem :
      (c.name, c.ignored, c.root.map fun v => (v.name, v.value, v.object)) ∈ cfg.entries := by
    rw [h]
    exact mem_map_of_mem hc
  obtain ⟨c', hc', heq⟩ := mem_map.mp hmem
  rw [← (Prod.mk.inj (Prod.mk.inj heq).2).1]
  exact hcfg c' hc'

theorem exists_of_items
    (h : cs.flatMap CwCategory.items ++ e :: rest = cs'.flatMap CwCategory.items)
    (he : e.isEntry = true) (hne : cs ≠ []) :
    ∃ c c' es, cs[cs.length - 1]? = some c ∧ cs'[cs.length - 1]? = some c' ∧
      c'.root.map CwVariable.item = c.root.map CwVariable.item ++ e :: es := by
  induction cs generalizing cs' with
  | nil => exact absurd rfl hne
  | cons c cs ih =>
    cases cs' with
    | nil => cases h
    | cons c' cs' =>
      rw [flatMap_cons, append_assoc] at h
      obtain ⟨-, hroot, hrest⟩ := items_cons_inj h
      cases cs with
      | nil =>
        rw [flatMap_nil, nil_append, takeWhile_cons_of_pos he] at hroot
        exact ⟨c, c', _, rfl, rfl, hroot⟩
      | cons c₂ cs => exact ih hrest (cons_ne_nil _ _)

end Categories

section Saving

theorem saveCategory_eq {c : CwCategory} (h : ∀ v ∈ c.root, LoadedEntry v) :
    saveCategory c = body c.items := by
  have hsave : ∀ v ∈ c.root, saveVariable v = v.item.line ++ [chr '\n'] := by
    intro v hv
    rw [saveVariable, (h v hv).blanklines, (h v hv).sameline]
    simp [variableLine, CwVariable.item, Item.line]
  rw [saveCategory, flatMap_congr hsave, body, CwCategory.items, flatMap_cons, flatMap_map]
  simp [headerLine, Item.line]

theorem save_eq (h : Loaded cfg) (info : SaveInfo) :
    configTextFileSave info cfg = info.comments ++ body cfg.items := by
  have hsave : cfg.root.flatMap saveCategory = body cfg.items := by
    rw [flatMap_congr fun c hc => saveCategory_eq (h c hc).2, CwConfig.items, body, flatMap_assoc]
    rfl
  rw [configTextFileSave, hsave]

theorem forall_items {P : Item → Prop} :
    (∀ it ∈ cfg.items, P it) ↔ ∀ c ∈ cfg.root, P (.header c.name) ∧ ∀ v ∈ c.root, P v.item := by
  constructor
  · intro h c hc
    constructor
    · exact h _ (mem_flatMap.mpr ⟨c, hc, mem_cons_self⟩)
    · intro v hv
      exact h _ (mem_flatMap.mpr ⟨c, hc, mem_cons_of_mem _ (mem_map_of_mem hv)⟩)
  · intro h it hit
    obtain ⟨c, hc, hit⟩ := mem_flatMap.mp hit
    rcases mem_cons.mp hit with rfl | hit
    · exact (h c hc).1
    · obtain ⟨v, hv, rfl⟩ := mem_map.mp hit
      exact (h c hc).2 v hv

theorem ok_of_loaded (h : Loaded cfg) : ∀ it ∈ cfg.items, it.Ok :=
  forall_items.mpr fun c hc => ⟨(h c hc).1, fun v hv => ((h c hc).2 v hv).toEntryOk⟩

theorem readable_header_iff {name : CStr} (h : LoadedName name) :
    Readable (.header name) ↔ chr ';' ∉ name := by
  have hmem : chr ';' ∈ (Item.header name).line ↔ chr ';' ∈ name := mem_line_iff (by decide)
  constructor
  · intro hread
    exact fun hname => hread.semi (hmem.mpr hname)
  · intro hname
    exact ⟨h, fun hline => hname (hmem.mp hline), trim_header_lt h⟩

theorem readable_item_iff {v : CwVariable} (h : LoadedEntry v) : Readable v.item ↔
    chr ';' ∉ v.name ∧ chr ';' ∉ v.value ∧ (cwTrimBlanks (variableLine v)).length < bufSize := by
  have hmem : chr ';' ∈ v.item.line ↔ chr ';' ∈ v.name ∨ chr ';' ∈ v.value :=
    mem_line_iff (by decide)
  constructor
  · rintro ⟨-, hsemi, hfits⟩
    rw [hmem, not_or] at hsemi
    exact ⟨hsemi.1, hsemi.2, hfits⟩
  · rintro ⟨hname, hvalue, hfits⟩
    exact ⟨h.toEntryOk, fun hline => (hmem.mp hline).elim hname hvalue, hfits⟩

theorem survives_iff (h : Loaded cfg) :
    Survives cfg ↔ (∀ c ∈ cfg.root, c.ignored = false) ∧ ∀ it ∈ cfg.items, Readable it := by
  rw [forall_items]
  constructor
  · intro hs
    refine ⟨fun c hc => (hs c hc).1, fun c hc => ⟨?_, fun v hv => ?_⟩⟩
    · exact (readable_header_iff (h c hc).1).mpr (hs c hc).2.1
    · exact (readable_item_iff ((h c hc).2 v hv)).mpr ((hs c hc).2.2 v hv)
  · rintro ⟨hignored, hread⟩ c hc
    refine ⟨hignored c hc, (readable_header_iff (h c hc).1).mp (hread c hc).1, fun v hv => ?_⟩
    exact (readable_item_iff ((h c hc).2 v hv)).mp ((hread c hc).2 v hv)

end Saving

section Loading

variable {env : Env} {fuel : ℕ} {name : CStr} {f : List UInt8} {R : CwConfig}

theorem cwConfigLoad_eq_ok_iff (hfile : env.contents (.file name) = [f]) :
    cwConfigLoad env fuel name = some (.ok R) ↔ ∃ c n cfg cat,
      loadLines env (cwConfigInternalLoad env fuel maxIncludeLevel) fuel 0 0 ⟨[], none,
        1⟩ none (reads [] f) = some (c, n, .ok (cfg, cat)) ∧ 0 ≤ c ∧ c < maxNestedComments ∧
      R = { cfg with includeLevel := cfg.includeLevel - 1 } := by
  have hlevel : cwConfigNew.includeLevel ≠ maxIncludeLevel := by decide
  have hnew : { cwConfigNew with includeLevel := cwConfigNew.includeLevel + 1 } =
    (⟨[], none, 1⟩ : CwConfig) := rfl
  rw [cwConfigLoad, cwConfigInternalLoad, if_neg hlevel, configTextFileLoad, hfile,
    if_neg (cons_ne_nil _ _), loadFiles, hnew]
  rcases loadLines env (cwConfigInternalLoad env fuel maxIncludeLevel) fuel 0 0 ⟨[], none, 1⟩ none
      (reads [] f) with
    _ | ⟨c, n, e | ⟨cfg, cat⟩⟩
  · simp
  · simp only
    split_ifs <;> simp
  · simp only [Option.some.injEq, Prod.mk.injEq, Except.ok.injEq]
    split_ifs with hc
    · constructor
      · intro h
        cases h
      · rintro ⟨c', n', cfg', cat', ⟨rfl, -⟩, hpos, hlt, -⟩
        omega
    · rw [loadFiles]
      constructor
      · intro h
        cases h
        exact ⟨c, n, cfg, cat, ⟨rfl, rfl, rfl, rfl⟩, by omega, by omega, rfl⟩
      · rintro ⟨c', n', cfg', cat', ⟨rfl, rfl, rfl, rfl⟩, -, -, rfl⟩
        rfl

theorem reads_save (hinfo : info.Ok) (hcfg : Loaded cfg) :
    ∃ ls : List CStr, (∀ l ∈ ls, ∃ x, l = chr ';' :: chr '!' :: x) ∧
      reads [] (configTextFileSave info cfg) = ls.map (fun l => some (l ++ [chr '\n'])) ++
      reads [] (body cfg.items) := by
  obtain ⟨day, hdate, hlines⟩ := hinfo
  refine ⟨info.commentLines day, fun l hl => commentLines_start hl, ?_⟩
  rw [save_eq hcfg, comments_eq hdate, reads_comments hlines]

theorem head?_items : ∀ it ∈ cfg.items.head?, ∃ name, it = .header name := by
  intro it hit
  unfold CwConfig.items at hit
  cases hroot : cfg.root with
  | nil => simp [hroot] at hit
  | cons c cs =>
    rw [hroot] at hit
    exact ⟨c.name, (Option.some.inj hit).symm⟩

theorem reloaded_new : Reloaded ⟨[], none, 1⟩ none [] where
  items := rfl
  cat h := absurd rfl h
  ignored _ hc := absurd hc not_mem_nil

theorem exists_first_long {its : List Item}
    (h : ¬ ∀ it ∈ its, (cwTrimBlanks it.line).length < bufSize) :
    ∃ it its₁ its₂, its = its₁ ++ it :: its₂ ∧ bufSize ≤ (cwTrimBlanks it.line).length ∧
      ∀ it' ∈ its₁, (cwTrimBlanks it'.line).length < bufSize := by
  have hsome : (its.find? fun it => bufSize ≤ (cwTrimBlanks it.line).length).isSome := by
    rw [find?_isSome]
    simpa using h
  obtain ⟨it, hfind⟩ := Option.isSome_iff_exists.mp hsome
  obtain ⟨hit, its₁, its₂, hsplit, hbefore⟩ := find?_eq_some_iff_append.mp hfind
  exact ⟨it, its₁, its₂, hsplit, by simpa using hit,
    fun it' hit' => by simpa using hbefore it' hit'⟩

section Reload

variable (hinfo : info.Ok) (hcfg : Loaded cfg)
  (hfile : env.contents (.file info.configfile) = [configTextFileSave info cfg])
include hinfo hcfg hfile

theorem exists_reload (hread : ∀ it ∈ cfg.items, Readable it) (fuel : ℕ) :
    ∃ R, cwConfigLoad env (fuel + 2) info.configfile = some (.ok R) ∧ R.items = cfg.items ∧
      ∀ c ∈ R.root, c.ignored = false := by
  obtain ⟨ls, hls, hreads⟩ := reads_save hinfo hcfg
  obtain ⟨lineno', cfg', cat', hload, hreloaded⟩ := loadLines_body env
    (cwConfigInternalLoad env (fuel + 2) maxIncludeLevel) (fuel + 1) (0 + ls.length) []
    reloaded_new hread
    fun _ => head?_items
  refine ⟨{ cfg' with includeLevel := cfg'.includeLevel - 1 }, ?_, hreloaded.items,
    hreloaded.ignored⟩
  rw [cwConfigLoad_eq_ok_iff hfile]
  refine ⟨0, lineno' + 1, cfg', cat', ?_, Int.le_refl 0, by decide, rfl⟩
  rw [hreads, loadLines_comments hls]
  rw [append_nil] at hload
  rw [hload]
  rfl

variable (hload : cwConfigLoad env (fuel + 2) info.configfile = some (.ok R))

include hload

theorem exists_other {its₁ its₂ : List Item} {it : Item} (hsplit : cfg.items = its₁ ++ it :: its₂)
    (hread : ∀ it ∈ its₁, Readable it) (hok : it.Ok) (hsemi : chr ';' ∉ it.line)
    (hlong : bufSize ≤ (cwTrimBlanks it.line).length) :
    ∃ (cfg₁ : CwConfig) (v : CwVariable), cfg₁.root ≠ [] ∧ cfg₁.items = its₁ ∧ v.item ≠ it ∧
      Grows (fun _ => True) (fun _ => True) (cfg₁.addVariables (cfg₁.root.length - 1) [v]) R := by
  obtain ⟨ls, hls, hreads⟩ := reads_save hinfo hcfg
  obtain ⟨c, n, cfg', cat', hlines, hc, -, rfl⟩ := (cwConfigLoad_eq_ok_iff hfile).mp hload
  have hfirst : ∀ it ∈ its₁.head?, ∃ name, it = .header name := by
    intro it hit
    apply head?_items it
    rw [hsplit, head?_append, hit]
    rfl
  have hbody : body cfg.items = body its₁ ++ (it.line ++ chr '\n' :: body its₂) := by
    simp [hsplit, body]
  -- up to this entry everything is loaded as it is
  obtain ⟨lineno₁, cfg₁, cat₁, hload₁, h₁⟩ :=
    loadLines_body env (cwConfigInternalLoad env (fuel + 2) maxIncludeLevel)
    (fuel + 1) (0 + ls.length) (it.line ++ chr '\n' :: body its₂) reloaded_new hread fun _ => hfirst
  rw [nil_append] at h₁
  have hne : cfg₁.root ≠ [] := by
    intro hnil
    have hits₁ : its₁ = [] := by rw [← h₁.items, CwConfig.items, hnil, flatMap_nil]
    obtain ⟨_, rfl⟩ := head?_items it (by rw [hsplit, hits₁]; rfl)
    exact absurd (trim_header_lt hok) (Nat.not_lt.mpr hlong)
  obtain ⟨v, lineno₂, rs, hv, hload₂⟩ :=
    loadLines_tooLong env (cwConfigInternalLoad env (fuel + 2) maxIncludeLevel)
    (fuel + 1) lineno₁ (body its₂) hok hsemi hlong cfg₁ (cfg₁.root.length - 1)
  rw [hreads, loadLines_comments hls, hbody, hload₁, h₁.cat hne, hload₂] at hlines
  obtain ⟨_, -, hgrows⟩ :=
    loadLines_grows (cwConfigInternalLoad_grows (fun _ => supplies_all) _) hlines hc
  exact ⟨cfg₁, v, hne, h₁.items, hv, (hgrows supplies_all).1.trans (.level _)⟩

theorem fits_of_reload
    (hitems : R.items = cfg.items) (hsemi : ∀ it ∈ cfg.items, chr ';' ∉ it.line) :
    ∀ it ∈ cfg.items, (cwTrimBlanks it.line).length < bufSize := by
  have hok := ok_of_loaded hcfg
  by_contra hlong
  obtain ⟨it, its₁, its₂, hsplit, hit, hbefore⟩ := exists_first_long hlong
  have hread : ∀ it' ∈ its₁, Readable it' := by
    intro it' hit'
    have hmem : it' ∈ cfg.items := hsplit ▸ mem_append_left _ hit'
    exact ⟨hok it' hmem, hsemi it' hmem, hbefore it' hit'⟩
  have hmem : it ∈ cfg.items := by simp [hsplit]
  obtain ⟨cfg₁, v, hne, hitems₁, hv, hgrows⟩ :=
    exists_other hinfo hcfg hfile hload hsplit hread (hok _ hmem) (hsemi _ hmem) hit
  obtain ⟨name, value, object, rfl⟩ := isEntry_of_long (hok _ hmem) hit
  rw [hsplit, ← hitems₁] at hitems
  obtain ⟨c, c', es, hc, hc', hes⟩ := exists_of_items hitems.symm rfl hne
  have hadd : (cfg₁.addVariables (cfg₁.root.length - 1) [v]).root[cfg₁.root.length - 1]? =
      some { c with root := c.root ++ [v] } := by
    rw [CwConfig.addVariables, getElem?_modify_eq, hc]
    rfl
  obtain ⟨c'', hc'', -, hroot⟩ := hgrows.keeps _ _ hadd
  rw [hc', Option.some.injEq] at hc''
  subst hc''
  have hmap := hroot.map CwVariable.item
  rw [hes, map_append, prefix_append_right_inj] at hmap
  exact hv (cons_prefix_cons.mp hmap).1

end Reload

def savedEnv (info : SaveInfo) (cfg : CwConfig) : Env where
  contents src := if src = .file info.configfile then [configTextFileSave info cfg] else []
  optionExecIncludes := false
  behind _ := []

theorem semi_not_mem_of_reload (hinfo : info.Ok) (hcfg : Loaded cfg)
    (hload : cwConfigLoad (savedEnv info cfg) fuel info.configfile = some (.ok R))
    (hitems : R.items = cfg.items) : ∀ it ∈ cfg.items, chr ';' ∉ it.line := by
  have hok := ok_of_loaded hcfg
  -- what comes in has lost a backslash
  have hgrows : Grows (fun s => ∀ r, run r <:+: s → Marked cfg.items (r + 1))
      (fun v => ∀ r, run r <:+: v.name ∨ run r <:+: v.value → Marked cfg.items (r + 1))
      cwConfigNew R := by
    refine grows_of_cwConfigLoad (fun src x hx t ht => ?_) hload
    obtain ⟨ls, hls, hreads⟩ := reads_save hinfo hcfg
    by_cases hsrc : src = .file info.configfile
    · have hlines : fileLines ((savedEnv info cfg).contents src) =
          textLines (ls.map (fun l => some (l ++ [chr '\n'])) ++ reads [] (body cfg.items)) := by
        simp [savedEnv, hsrc, fileLines, hreads]
      rw [hlines] at hx
      obtain ⟨l, hl, d, hpassed⟩ := mem_strippedLines (strippedLines_comments hls _ hx ht)
      exact yields_of_passed hok hl (hpassed ▸ ht)
    · have hlines : fileLines ((savedEnv info cfg).contents src) = [] := by
        simp [savedEnv, hsrc, fileLines]
      rw [hlines] at hx
      cases hx
  have hmarked : ∀ it ∈ R.items, ∀ r, run r <:+: it.line → Marked cfg.items (r + 1) := by
    rw [forall_items]
    refine fun c hc => ⟨fun r hr => ?_, fun v hv r hr => ?_⟩
    · rcases hgrows.names c hc with hN | ⟨c', hc', -⟩
      · exact hN r (run_line hr)
      · cases hc'
    · obtain ⟨u, hu | ⟨c', hc', -⟩, rfl | rfl⟩ := hgrows.entries v ⟨c, hc, hv⟩
      · exact hu r (run_line hr)
      · exact hu r (run_line hr)
      · cases hc'
      · cases hc'
  have hnext : ∀ r, Marked cfg.items r → Marked cfg.items (r + 1) := by
    rintro r ⟨it, hit, hrun⟩
    exact hmarked it (hitems ▸ hit) r hrun
  intro it hit hsemi
  apply not_marked hnext 0
  obtain ⟨a, b, hline⟩ := append_of_mem hsemi
  exact ⟨it, hit, a, b, by simp [run, hline]⟩

end Loading

/-- A loaded configuration that is saved and loaded again has the same categories, marks and entries
exactly if it survives. -/
theorem save_load_iff {env : Env} {fuel : ℕ} {filename : CStr} {cfg : CwConfig}
    (hload : cwConfigLoad env fuel filename = some (.ok cfg)) {info : SaveInfo} (hinfo : info.Ok) :
    (∀ env', env'.contents (.file info.configfile) = [configTextFileSave info cfg] →
      ∃ n, ∀ fuel', n ≤ fuel' → ∃ cfg', cwConfigLoad env' fuel' info.configfile = some (.ok cfg') ∧
        cfg'.entries = cfg.entries) ↔ Survives cfg := by
  have hcfg := loaded_of_cwConfigLoad hload
  rw [survives_iff hcfg]
  constructor
  · intro h
    have hfile : (savedEnv info cfg).contents (.file info.configfile) =
      [configTextFileSave info cfg] := if_pos rfl
    obtain ⟨n, hn⟩ := h (savedEnv info cfg) hfile
    obtain ⟨R, hR, hentries⟩ := hn (n + 2) (Nat.le_add_right n 2)
    have hitems := items_eq_of_entries hentries
    have hsemi := semi_not_mem_of_reload hinfo hcfg hR hitems
    have hfits := fits_of_reload hinfo hcfg hfile hR hitems hsemi
    have hread : ∀ it ∈ cfg.items, Readable it :=
      fun it hit => ⟨ok_of_loaded hcfg it hit, hsemi it hit, hfits it hit⟩
    obtain ⟨R', hR', -, hignored⟩ := exists_reload hinfo hcfg hfile hread n
    rw [hR] at hR'
    obtain rfl := Except.ok.inj (Option.some.inj hR')
    exact ⟨ignored_of_entries hentries hignored, hread⟩
  · rintro ⟨hignored, hread⟩ env' hfile
    refine ⟨2, fun fuel' hfuel' => ?_⟩
    obtain ⟨k, rfl⟩ := Nat.exists_eq_add_of_le' hfuel'
    obtain ⟨R, hR, hitems, hignored'⟩ := exists_reload hinfo hcfg hfile hread k
    exact ⟨R, hR, entries_eq_of_items hitems hignored' hignored⟩

def sipInfo : SaveInfo :=
  ⟨str "/etc/callweaver", str "sip.conf", str "cli", str "Thu Jan  1 00:00:00 1970\n"⟩

def sipEnv (f : String) : Env where
  contents src := if src = .file sipInfo.configfile then [str f] else []
  optionExecIncludes := false
  behind _ := []

def sipCfg : CwConfig :=
  ⟨[⟨str "general", false, [⟨str "port", str "5060", 2, false, 0, none⟩]⟩,
    ⟨str "peer", false,
      [⟨str "port", str "5060", 2, false, 0, none⟩, ⟨str "allow", str "alaw", 4, true, 0, none⟩]⟩],
    some 1, 0⟩

theorem save_load_iff_sip :
    cwConfigLoad (sipEnv "[general]\nport=5060\n[peer](general)\nallow=>alaw ; codec\n") 8
      sipInfo.configfile =
      some (.ok sipCfg) ∧
      ∀ env', env'.contents (.file sipInfo.configfile) = [configTextFileSave sipInfo sipCfg] →
      ∃ n,
      ∀ fuel', n ≤ fuel' → ∃ cfg', cwConfigLoad env' fuel' sipInfo.configfile = some (.ok cfg') ∧
        cfg'.entries = sipCfg.entries := by
  have hload :
      cwConfigLoad (sipEnv "[general]\nport=5060\n[peer](general)\nallow=>alaw ; codec\n") 8
      sipInfo.configfile = some (.ok sipCfg) := by decide +kernel
  have hinfo : sipInfo.Ok := ⟨str "Thu Jan  1 00:00:00 1970", by decide, by decide +kernel⟩
  have hsurvives : Survives sipCfg := by
    unfold Survives
    decide +kernel
  exact ⟨hload, (save_load_iff hload hinfo).mpr hsurvives⟩

def lostCfg : CwConfig :=
  ⟨[⟨str "tmpl", true, [⟨str "a", str "b;c", 2, false, 0, none⟩]⟩], some 0, 0⟩

/-- A template comes back without its mark, and a value without what follows the semicolon. -/
theorem template_not_saved :
    cwConfigLoad (sipEnv "[tmpl](!)\na=b\\;c\n") 8 sipInfo.configfile = some (.ok lostCfg) ∧
    lostCfg.entries = [(str "tmpl", true, [(str "a", str "b;c", false)])] ∧ ∀ fuel, ∃ cfg',
      cwConfigLoad (savedEnv sipInfo lostCfg) (fuel + 2) sipInfo.configfile = some (.ok cfg') ∧
        cfg'.entries = [(str "tmpl", false, [(str "a", str "b", false)])] := by
  refine ⟨by decide +kernel, rfl, fun fuel => ?_⟩
  exact ⟨⟨[⟨str "tmpl", false, [⟨str "a", str "b", 8, false, 0, none⟩]⟩], some 0, 0⟩, rfl, rfl⟩

end CallWeaver.Config
