import CallWeaver.Config.Stripping

/-! # Configuration files

A configuration is a list of categories, each a list of entries. Text files are parsed line by
line, with the files they include, and written back as text. The pointer to the category that a line
is about is its index.
-/

namespace CallWeaver.Config

abbrev str (s : String) : CStr := s.toList.map chr

structure CwVariable where
  name : CStr
  value : CStr
  lineno : ℕ
  object : Bool
  blanklines : ℕ
  sameline : Option CStr
  deriving DecidableEq, Repr

structure CwCategory where
  name : CStr
  ignored : Bool
  root : List CwVariable
  deriving DecidableEq, Repr

structure CwConfig where
  root : List CwCategory
  current : Option ℕ
  includeLevel : ℕ
  deriving DecidableEq, Repr

def maxIncludeLevel : ℕ := 10

def cwVariableNew (name value : CStr) : CwVariable := ⟨name, value, 0, false, 0, none⟩

def variableClone (old : CwVariable) : CwVariable :=
  { cwVariableNew old.name old.value with
    lineno := old.lineno, object := old.object, blanklines := old.blanklines }

def cwCategoryNew (name : CStr) : CwCategory := ⟨cwCopyString name 80, false, []⟩

def cwConfigNew : CwConfig := ⟨[], none, 0⟩

namespace CwConfig

def categoryGet (cfg : CwConfig) (name : CStr) (ignored : Bool) : Option ℕ :=
  cfg.root.findIdx? fun c => strcasecmp c.name name = .eq && (ignored || !c.ignored)

def cwCategoryAppend (cfg : CwConfig) (c : CwCategory) : CwConfig :=
  { cfg with root := cfg.root ++ [c], current := some cfg.root.length }

def setIgnored (cfg : CwConfig) (i : ℕ) : CwConfig :=
  { cfg with root := cfg.root.modify i fun c => { c with ignored := true } }

def addVariables (cfg : CwConfig) (i : ℕ) (vs : List CwVariable) : CwConfig :=
  { cfg with root := cfg.root.modify i fun c => { c with root := c.root ++ vs } }

def variablesAt (cfg : CwConfig) (i : ℕ) : List CwVariable :=
  (cfg.root[i]?.map CwCategory.root).getD []

end CwConfig

/-- The string in front of the first `c` and the one behind it. -/
def cut (c : UInt8) (s : CStr) : Option (CStr × CStr) :=
  if c ∈ s then some (s.takeWhile (· ≠ c), (s.dropWhile (· ≠ c)).tail) else none

theorem cut_append {c : UInt8} {a : CStr} (ha : c ∉ a) (b : CStr) :
    cut c (a ++ c :: b) = some (a, b) := by
  have hpos : ∀ x ∈ a, decide (x ≠ c) = true :=
    fun x hx => by simpa using ne_of_mem_of_not_mem hx ha
  rw [cut, if_pos (by simp), List.takeWhile_append_of_pos hpos, List.dropWhile_append_of_pos hpos]
  simp

theorem cut_eq_some_iff {c : UInt8} {s a b : CStr} :
    cut c s = some (a, b) ↔ s = a ++ c :: b ∧ c ∉ a := by
  constructor
  · intro h
    by_cases hmem : c ∈ s
    · obtain ⟨a', b', rfl, ha'⟩ := List.eq_append_cons_of_mem hmem
      rw [cut_append ha', Option.some.injEq, Prod.mk.injEq] at h
      obtain ⟨rfl, rfl⟩ := h
      exact ⟨rfl, ha'⟩
    · rw [cut, if_neg hmem] at h
      cases h
  · rintro ⟨rfl, ha⟩
    exact cut_append ha b

/-- What a call returns, undefined if freed memory is used or it does not end. An error leaves the
configuration as it is then, or none if it has been destroyed. -/
abbrev Result (α : Type) := Option (Except (Option CwConfig) α)

inductive Target where
  | fresh (c : CwCategory)
  | existing (i : ℕ)
  deriving DecidableEq, Repr

/-- An option of a category header in `process_text_line`. -/
def headerOption (catname : CStr) (cfg : CwConfig) (cat : Target) (opt : CStr) :
    Result (CwConfig × Target) :=
  if strcasecmp opt (str "!") = .eq then
    match cat with
    | .fresh c => some (.ok (cfg, .fresh { c with ignored := true }))
    | .existing i => some (.ok (cfg.setIgnored i, cat))
  else if strcasecmp opt (str "+") = .eq then
    match cfg.categoryGet catname true, cat with
    | none, _ => some (.error none)
    | some i, .fresh c => some (.ok (cfg.addVariables i c.root, .existing i))
    | some i, .existing _ => some (.ok (cfg, .existing i))
  else
    match cfg.categoryGet opt true, cat with
    | none, _ => some (.error (some cfg))
    | some i, .fresh c =>
      some (.ok (cfg, .fresh { c with root := c.root ++ (cfg.variablesAt i).map variableClone }))
    | some i, .existing j =>
      -- the entries of a category are appended to itself without end
      if i = j ∧ cfg.variablesAt i ≠ [] then none
      else some (.ok (cfg.addVariables j ((cfg.variablesAt i).map variableClone), cat))

def headerOptions (catname : CStr) : CwConfig → Target → List CStr → Result (CwConfig × Target)
  | cfg, cat, [] => some (.ok (cfg, cat))
  | cfg, cat, opt :: opts =>
    match headerOption catname cfg cat opt with
    | none => none
    | some (.error e) => some (.error e)
    | some (.ok (cfg, cat)) => headerOptions catname cfg cat opts

/-- The category header in `process_text_line`. -/
def categoryHeader (cfg : CwConfig) (cur : CStr) : Result (CwConfig × Option ℕ) :=
  match cut (chr ']') cur with
  | none => some (.error (some cfg))
  | some (catname, c) =>
    if c.head? = some (chr '(') then
      match cut (chr ')') c.tail with
      | none => some (.error (some cfg))
      | some (opts, _) =>
        match headerOptions catname cfg (.fresh (cwCategoryNew catname)) (opts.splitOn (chr ','))
            with
        | none => none
        | some (.error e) => some (.error e)
        | some (.ok (cfg, .fresh c)) => some (.ok (cfg.cwCategoryAppend c, some cfg.root.length))
        | some (.ok (cfg, .existing i)) => some (.ok (cfg, some i))
    else some (.ok (cfg.cwCategoryAppend (cwCategoryNew catname), some cfg.root.length))

inductive Source where
  | file (name : CStr)
  | command (cmd : CStr)
  deriving DecidableEq, Repr

/-- What loading depends on: the contents of the files that can be opened, where a name may stand
for several, the option for commands and the bytes left in the line buffer. -/
structure Env where
  contents : Source → List (List UInt8)
  optionExecIncludes : Bool
  behind : ℕ → List UInt8

def isQuote (c : UInt8) : Bool := c = chr '<' || c = chr '>' || c = chr '"'

/-- `#include` and `#exec` in `process_text_line`. -/
def directive (execIncludes : Bool) (cur : CStr) : Option Source :=
  let word := cur.takeWhile fun c => !isBlank c
  let c := cwSkipBlanks (cur.dropWhile fun c => !isBlank c).tail
  let arg := (c.dropWhile isQuote).rdropWhile isQuote
  if c = [] then none
  else if strcasecmp word (str "include") = .eq then some (.file arg)
  else if strcasecmp word (str "exec") = .eq && execIncludes then some (.command arg)
  else none

/-- An entry in `process_text_line`. -/
def entryOf (cur : CStr) (lineno : ℕ) : Option CwVariable :=
  (cut (chr '=') cur).map fun (name, c) =>
    if c.head? = some (chr '>') then
      { cwVariableNew (cwStrip name) (cwStrip c.tail) with lineno, object := true }
    else { cwVariableNew (cwStrip name) (cwStrip c) with lineno, object := false }

theorem entryOf_append {b : CStr} (hb : chr '=' ∉ b) (a : CStr) (lineno : ℕ) :
    entryOf (b ++ chr '=' :: a) lineno =
      some (if a.head? = some (chr '>') then ⟨cwStrip b, cwStrip a.tail, lineno, true, 0, none⟩
        else ⟨cwStrip b, cwStrip a, lineno, false, 0, none⟩) := by
  rw [entryOf, cut_append hb]
  rfl

theorem entryOf_eq_none {t : CStr} (ht : chr '=' ∉ t) (lineno : ℕ) : entryOf t lineno = none := by
  rw [entryOf, cut, if_neg ht]
  rfl

def processTextLine (env : Env) (load : Source → CwConfig → Result CwConfig) (cfg : CwConfig)
    (cat : Option ℕ) (buf : CStr) (lineno : ℕ) : Result (CwConfig × Option ℕ) :=
  if buf.head? = some (chr '[') then categoryHeader cfg buf.tail
  else if buf.head? = some (chr '#') then
    match directive env.optionExecIncludes buf.tail with
    | none => some (.ok (cfg, cat))
    | some src =>
      match load src cfg with
      | none => none
      | some (.ok cfg) => some (.ok (cfg, cat))
      -- what has been loaded before the error stays
      | some (.error (some cfg)) => some (.ok (cfg, cat))
      | some (.error none) => none
  else
    match cat with
    | none => some (.error (some cfg))
    | some i =>
      match entryOf buf lineno with
      | none => some (.ok (cfg, cat))
      | some v => some (.ok (cfg.addVariables i [v], cat))

/-- The loop over `fgets`, with the counter of comments and the number of the last line. -/
def loadLines (env : Env) (load : Source → CwConfig → Result CwConfig) (fuel : ℕ) :
    ℤ → ℕ → CwConfig → Option ℕ → List (Option CStr) →
      Option (ℤ × ℕ × Except (Option CwConfig) (CwConfig × Option ℕ))
  | comment, lineno, cfg, cat, [] => some (comment, lineno, .ok (cfg, cat))
  | comment, lineno, cfg, cat, none :: rs => loadLines env load fuel comment (lineno + 1) cfg cat rs
  | comment, lineno, cfg, cat, some line :: rs =>
    match stripLine (env.behind (lineno + 1)) fuel comment line with
    | none => none
    | some (comment, none) => loadLines env load fuel comment (lineno + 1) cfg cat rs
    | some (comment, some buf) =>
      match processTextLine env load cfg cat buf (lineno + 1) with
      | none => none
      | some (.error e) => some (comment, lineno + 1, .error e)
      | some (.ok (cfg, cat)) => loadLines env load fuel comment (lineno + 1) cfg cat rs

/-- The loop over the files that a name stands for. A comment still open behind a file is reported
with `nest[comment]`, which has to be inside the array. -/
def loadFiles (env : Env) (load : Source → CwConfig → Result CwConfig) (fuel : ℕ) :
    ℤ → ℕ → CwConfig → Option ℕ → List (List UInt8) → Result CwConfig
  | _, _, cfg, _, [] => some (.ok cfg)
  | comment, lineno, cfg, cat, f :: fs =>
    match loadLines env load fuel comment lineno cfg cat (reads [] f) with
    | none => none
    | some (comment, lineno, r) =>
      if comment < 0 ∨ maxNestedComments ≤ comment then none
      else
        match r with
        | .error e => some (.error e)
        | .ok (cfg, cat) => loadFiles env load fuel comment lineno cfg cat fs

def configTextFileLoad (env : Env) (load : Source → CwConfig → Result CwConfig) (fuel : ℕ)
    (src : Source) (cfg : CwConfig) : Result CwConfig :=
  if env.contents src = [] then some (.error (some cfg))
  else loadFiles env load fuel 0 0 cfg cfg.current (env.contents src)

/-- `cw_config_internal_load` for text files, also included ones; the first argument bounds how deep
they are nested. -/
def cwConfigInternalLoad (env : Env) (fuel : ℕ) : ℕ → Source → CwConfig → Result CwConfig
  | 0, _, _ => none
  | depth + 1, src, cfg =>
    if cfg.includeLevel = maxIncludeLevel then some (.error (some cfg))
    else
      match configTextFileLoad env (cwConfigInternalLoad env fuel depth) fuel src
          { cfg with includeLevel := cfg.includeLevel + 1 } with
      | some (.ok cfg) => some (.ok { cfg with includeLevel := cfg.includeLevel - 1 })
      | r => r

def cwConfigLoad (env : Env) (fuel : ℕ) (filename : CStr) : Result CwConfig :=
  cwConfigInternalLoad env fuel (maxIncludeLevel + 1) (.file filename) cwConfigNew

def sign (object : Bool) : CStr := str (if object then "=>" else "=")

/-- The line of an entry in `config_text_file_save`. -/
def variableLine (v : CwVariable) : CStr := v.name ++ chr ' ' :: sign v.object ++ chr ' ' :: v.value

def saveVariable (v : CwVariable) : List UInt8 :=
  variableLine v ++ (v.sameline.elim [] fun cmt => str "  ; " ++ cmt) ++ chr '\n' ::
    .replicate v.blanklines (chr '\n')

/-- The line of a category in `config_text_file_save`. -/
def headerLine (c : CwCategory) : CStr := chr '[' :: c.name ++ [chr ']']

def saveCategory (c : CwCategory) : List UInt8 :=
  headerLine c ++ chr '\n' :: c.root.flatMap saveVariable

/-- The directory of the files, the name of this one, the generator and the result of `ctime`. -/
structure SaveInfo where
  configDir : CStr
  configfile : CStr
  generator : CStr
  date : CStr

def SaveInfo.fn (info : SaveInfo) : CStr :=
  if info.configfile.head? = some (chr '/') then cwCopyString info.configfile 256
  else (info.configDir ++ chr '/' :: info.configfile).take 255

def SaveInfo.comments (info : SaveInfo) : List UInt8 :=
  str ";!\n" ++ str ";! Automatically generated configuration file\n" ++
    (str ";! Filename: " ++ info.configfile ++ str " (" ++ info.fn ++ str ")\n") ++
    (str ";! Generator: " ++ info.generator ++ str "\n") ++
    (str ";! Creation Date: " ++ info.date) ++ str ";!\n"

def configTextFileSave (info : SaveInfo) (cfg : CwConfig) : List UInt8 :=
  info.comments ++ cfg.root.flatMap saveCategory

end CallWeaver.Config
