import CallWeaver.Config.Loaded

/-! # Saved configurations

A saved configuration has one line for each category and each entry. Here such a line is read
again: it may be cut in two when it does not fit into the buffer.
-/

namespace CallWeaver.Config

open Terminated List

inductive Item where
  | header (name : CStr)
  | entry (name value : CStr) (object : Bool)
  deriving DecidableEq, Repr

def Item.line : Item → CStr
  | .header name => chr '[' :: name ++ [chr ']']
  | .entry name value object => name ++ chr ' ' :: sign object ++ chr ' ' :: value

def Item.Ok : Item → Prop
  | .header name => LoadedName name
  | .entry name value object => EntryOk name value object

def CwVariable.item (v : CwVariable) : Item := .entry v.name v.value v.object

def CwCategory.items (c : CwCategory) : List Item := .header c.name :: c.root.map CwVariable.item

def CwConfig.items (cfg : CwConfig) : List Item := cfg.root.flatMap CwCategory.items

def body (its : List Item) : List UInt8 := its.flatMap fun it => it.line ++ [chr '\n']

section Reading

variable {acc x l : CStr} {rest : List UInt8}

theorem reads_append (hx : chr '\n' ∉ x) (hlen : acc.length + x.length + 1 < bufSize) :
    reads acc (x ++ rest) = reads (acc ++ x) rest := by
  induction x generalizing acc with
  | nil => rw [append_nil, nil_append]
  | cons c x ih =>
    rw [mem_cons, not_or] at hx
    rw [length_cons] at hlen
    rw [cons_append, reads, if_neg (by rw [not_or]; exact ⟨Ne.symm hx.1, by omega⟩),
      ih hx.2 (by simp; omega)]
    simp

theorem reads_short (hl : chr '\n' ∉ l) (hlen : acc.length + l.length + 1 < bufSize) :
    reads acc (l ++ chr '\n' :: rest) = some (acc ++ l ++ [chr '\n']) :: reads [] rest := by
  rw [reads_append hl hlen, reads, if_pos (.inl rfl)]

theorem reads_long (hl : chr '\n' ∉ l) (hge : bufSize ≤ l.length + 1)
    (hlt : l.length < 2 * (bufSize - 1)) : reads [] (l ++ chr '\n' :: rest) =
      some (l.take (bufSize - 1)) :: some (l.drop (bufSize - 1) ++ [chr '\n']) ::
      reads [] rest := by
  obtain ⟨c, z, hdrop⟩ := exists_cons_of_length_pos (l := l.drop (bufSize - 2)) (by simp; omega)
  obtain ⟨x, rfl, hx⟩ : ∃ x, x ++ c :: z = l ∧ x.length + 2 = bufSize :=
    ⟨l.take (bufSize - 2), by rw [← hdrop, take_append_drop], by simp; omega⟩
  have hfull : (x ++ [c]).length = bufSize - 1 := by simp; omega
  rw [mem_append, mem_cons, not_or, not_or] at hl
  rw [length_append, length_cons] at hlt
  rw [append_assoc, reads_append hl.1 (by simp; omega), cons_append, reads,
    if_pos (.inr (by simpa using hfull)), reads_short hl.2.2 (by simp; omega), append_cons x,
    ← hfull, take_left, drop_left]
  rfl

end Reading

section Lines

variable {env : Env} {load : Source → CwConfig → Result CwConfig} {fuel lineno : ℕ}
  {cfg cfg' : CwConfig}
  {cat cat' : Option ℕ} {l : CStr} {rs : List (Option CStr)}

section

variable (hzero : 0 ∉ l) (hsemi : chr ';' ∉ l)

include hzero hsemi

theorem stripLine_plain {behind : List UInt8} :
    stripLine behind (fuel + 1) 0 l = some (0, passed l) := by
  have hsearch := search_eq_none (a := []) (z := behind) hzero hsemi
  have htext := textAt_terminated (a := []) (z := behind) hzero
  simp only [nil_append, length_nil] at hsearch htext
  simp [stripLine, commentLoop, hsearch, htext]

theorem loadLines_plain (hne : cwStrip l ≠ [])
    (hp : processTextLine env load cfg cat (cwStrip l) (lineno + 1) = some (.ok (cfg', cat'))) :
    loadLines env load (fuel + 1) 0 lineno cfg cat (some l :: rs) =
      loadLines env load (fuel + 1) 0 (lineno + 1) cfg' cat' rs := by
  rw [loadLines, stripLine_plain hzero hsemi, passed, if_neg hne]
  simp only [hp]

theorem loadLines_blank (hblank : cwStrip l = []) :
    loadLines env load (fuel + 1) 0 lineno cfg cat (some l :: rs) =
      loadLines env load (fuel + 1) 0 (lineno + 1) cfg cat rs := by
  rw [loadLines, stripLine_plain hzero hsemi, passed, if_pos hblank]

end

theorem loadLines_line (hn : chr '\n' ∉ l) (hzero : 0 ∉ l) (hsemi : chr ';' ∉ l)
    (hlt : l.length < 2 * (bufSize - 1)) (hfit : (cwTrimBlanks l).length < bufSize)
    (hne : cwStrip l ≠ [])
    (hp : processTextLine env load cfg cat (cwStrip l) (lineno + 1) = some (.ok (cfg', cat')))
    (fuel : ℕ) (rest : List UInt8) :
    ∃ lineno', loadLines env load (fuel + 1) 0 lineno cfg cat (reads [] (l ++ chr '\n' :: rest)) =
      loadLines env load (fuel + 1) 0 lineno' cfg' cat' (reads [] rest) := by
  have hmem : ∀ {c : UInt8} {s : CStr}, c ≠ chr '\n' → c ∉ s → c ∉ s ++ [chr '\n'] := by
    intro c s hc hs
    simp [hc, hs]
  by_cases hshort : l.length + 1 < bufSize
  · refine ⟨lineno + 1, ?_⟩
    rw [reads_short hn (by simpa using hshort), nil_append]
    refine loadLines_plain (hmem (by decide) hzero) (hmem (by decide) hsemi) ?_ ?_
    · rwa [cwStrip_append isBlank_feed]
    · rwa [cwStrip_append isBlank_feed]
  · -- only blanks are left for the second piece
    obtain ⟨w, hw, hblank⟩ := exists_cwTrimBlanks l
    have htake : cwStrip (l.take (bufSize - 1)) = cwStrip l := by
      conv_lhs => rw [hw, take_append, take_of_length_le (by omega)]
      rw [cwStrip_append fun x hx => hblank x (mem_of_mem_take hx), cwStrip_cwTrimBlanks]
    have hdrop : cwStrip (l.drop (bufSize - 1) ++ [chr '\n']) = [] := by
      apply cwStrip_blanks
      intro x hx
      rw [hw, drop_append, drop_eq_nil_of_le (by omega), nil_append] at hx
      exact (mem_append.mp hx).elim (fun hx => hblank x (mem_of_mem_drop hx)) (isBlank_feed x)
    refine ⟨lineno + 1 + 1, ?_⟩
    rw [reads_long hn (by omega) hlt, loadLines_plain (fun h => hzero (mem_of_mem_take h))
      (fun h => hsemi (mem_of_mem_take h)) (htake ▸ hne) (htake ▸ hp),
      loadLines_blank (hmem (by decide) fun h => hzero (mem_of_mem_drop h))
      (hmem (by decide) fun h => hsemi (mem_of_mem_drop h)) hdrop]

end Lines

section Entries

variable {name value a b : CStr} {object : Bool} {n : ℕ}

theorem entryOf_cwStrip (t : CStr) (n : ℕ) : entryOf (cwStrip t) n = entryOf t n := by
  by_cases ht : chr '=' ∈ t
  · obtain ⟨b, a, rfl, hb⟩ := eq_append_cons_of_mem ht
    have hb' : chr '=' ∉ cwSkipBlanks b := fun h => hb ((dropWhile_suffix _).subset h)
    rw [cwStrip_append_cons (by decide), entryOf_append hb', entryOf_append hb,
      cwStrip_cwSkipBlanks, cwStrip_cwTrimBlanks]
    by_cases ha : a.head? = some (chr '>')
    · obtain ⟨a, rfl⟩ := head?_eq_some_iff.mp ha
      have htrim := cwTrimBlanks_append_cons (b := []) (a := a) (c := chr '>') (by decide)
      rw [nil_append, nil_append] at htrim
      simp [htrim, cwStrip_cwTrimBlanks]
    · have ha' : (cwTrimBlanks a).head? ≠ some (chr '>') := by
        intro h
        obtain ⟨x, hx⟩ := head?_eq_some_iff.mp h
        obtain ⟨w, hw⟩ : cwTrimBlanks a <+: a := rdropWhile_prefix _ a
        rw [← hw, hx] at ha
        exact ha rfl
      rw [if_neg ha, if_neg ha']
  · rw [entryOf_eq_none ht, entryOf_eq_none fun h => ht ((infix_cwStrip t).subset h)]

theorem head?_cwStrip_line {c : UInt8} (hname : cwStrip name = name) (hc : name.head? ≠ some c)
    (hne : c ≠ chr '=') : (cwStrip (name ++ [chr ' '] ++ chr '=' :: a)).head? ≠ some c := by
  rw [cwStrip_append_cons (by decide)]
  cases name with
  | nil =>
    have hskip : cwSkipBlanks ([] ++ [chr ' ']) = [] := by decide
    rw [hskip]
    simpa using Ne.symm hne
  | cons x name =>
    have hskip := cwSkipBlanks_append_cons (b := []) (a := name ++ [chr ' ']) (isBlank_head hname)
    rw [nil_append] at hskip
    rw [cons_append, hskip]
    simpa [cwSkipBlanks] using hc

theorem entryOf_line (hname : cwStrip name = name) (hequal : chr '=' ∉ name) (a : CStr) (n : ℕ) :
    entryOf (name ++ [chr ' '] ++ chr '=' :: a) n =
      some (if a.head? = some (chr '>') then ⟨name, cwStrip a.tail, n, true, 0, none⟩
        else ⟨name, cwStrip a, n, false, 0, none⟩) := by
  have hmem : chr '=' ∉ name ++ [chr ' '] := by
    rw [mem_append, not_or]
    exact ⟨hequal, by decide⟩
  rw [entryOf_append hmem, cwStrip_append isBlank_space, hname]

variable {env : Env} {load : Source → CwConfig → Result CwConfig} {cfg : CwConfig} {i : ℕ}
  {v : CwVariable}

theorem processTextLine_entry (hname : cwStrip name = name)
    (hhead : name.head? ≠ some (chr '[') ∧ name.head? ≠ some (chr '#'))
    (hv : entryOf (name ++ [chr ' '] ++ chr '=' :: a) n = some v) :
    processTextLine env load cfg (some i) (cwStrip (name ++ [chr ' '] ++ chr '=' :: a)) n =
      some (.ok (cfg.addVariables i [v], some i)) := by
  rw [processTextLine, if_neg (head?_cwStrip_line hname hhead.1 (by decide)),
    if_neg (head?_cwStrip_line hname hhead.2 (by decide))]
  simp only [entryOf_cwStrip, hv]

theorem cwStrip_line_ne_nil : cwStrip (name ++ [chr ' '] ++ chr '=' :: a) ≠ [] := by
  rw [cwStrip_append_cons (by decide)]
  simp

end Entries

section Items

variable {env : Env} {load : Source → CwConfig → Result CwConfig} {fuel lineno j k n : ℕ}
  {cfg : CwConfig} {cat : Option ℕ} {rest : List UInt8} {its new : List Item} {it : Item}
  {name value : CStr}

theorem line_entry (name value : CStr) (object : Bool) : (Item.entry name value object).line =
    name ++ [chr ' '] ++ chr '=' :: ((if object then [chr '>'] else []) ++ chr ' ' :: value) := by
  have hsign : sign object = chr '=' :: if object then [chr '>'] else [] := by cases object <;> rfl
  simp [Item.line, hsign]

theorem entryOf_line_entry {object : Bool} (h : EntryOk name value object) (n : ℕ) :
    entryOf (Item.entry name value object).line n = some ⟨name, value, n, object, 0, none⟩ := by
  have hvalue : cwStrip (chr ' ' :: value) = value := by
    rw [cwStrip, ← singleton_append, cwSkipBlanks_append isBlank_space]
    exact h.value_strip
  rw [line_entry, entryOf_line h.name_strip h.equal]
  cases object with
  | true => simp [hvalue]
  | false =>
    have hhead : chr ' ' ≠ chr '>' := by decide
    simp [hvalue, hhead]

theorem modify_concat {α : Type*} (l : List α) (x : α) (f : α → α) :
    (l ++ [x]).modify l.length f = l ++ [f x] := by
  induction l with
  | nil => rfl
  | cons y l ih => simpa using ih

theorem items_append (c : CwCategory) : (cfg.cwCategoryAppend c).items = cfg.items ++ c.items := by
  simp [CwConfig.items, CwConfig.cwCategoryAppend]

/-- What has been loaded of a saved file: the lines so far, the last category, and no marks. -/
structure Reloaded (cfg : CwConfig) (cat : Option ℕ) (its : List Item) : Prop where
  items : cfg.items = its
  cat : cfg.root ≠ [] → cat = some (cfg.root.length - 1)
  ignored : ∀ c ∈ cfg.root, c.ignored = false

theorem Reloaded.header (h : Reloaded cfg cat its) (name : CStr) :
    Reloaded (cfg.cwCategoryAppend ⟨name, false, []⟩) (some cfg.root.length)
      (its ++ [.header name]) where
  items := by
    rw [items_append, h.items]
    rfl
  cat _ := by simp [CwConfig.cwCategoryAppend]
  ignored c hc := by
    rcases mem_append.mp hc with hc | hc
    · exact h.ignored c hc
    · rw [mem_singleton.mp hc]

theorem Reloaded.entry (h : Reloaded cfg cat its) (hne : cfg.root ≠ []) (v : CwVariable) :
    Reloaded (cfg.addVariables (cfg.root.length - 1) [v]) cat (its ++ [v.item]) := by
  obtain ⟨cs, c, hroot⟩ := cfg.root.eq_nil_or_concat'.resolve_left hne
  have hadd : (cfg.addVariables (cfg.root.length - 1) [v]).root =
      cs ++ [{ c with root := c.root ++ [v] }] := by
    simp [CwConfig.addVariables, hroot, modify_concat]
  refine ⟨?_, fun _ => ?_, fun c' hc' => ?_⟩
  · rw [← h.items, CwConfig.items, CwConfig.items, hadd, hroot]
    simp [CwCategory.items]
  · rw [h.cat hne, hadd, hroot]
    simp
  · rw [hadd] at hc'
    have hold : ∀ x ∈ cs ++ [c], x.ignored = false := hroot ▸ h.ignored
    rcases mem_append.mp hc' with hc' | hc'
    · exact hold c' (mem_append_left _ hc')
    · rw [mem_singleton.mp hc']
      exact hold c (by simp)

structure Readable (it : Item) : Prop where
  ok : it.Ok
  semi : chr ';' ∉ it.line
  fits : (cwTrimBlanks it.line).length < bufSize

theorem length_line_lt (h : it.Ok) : it.line.length < 2 * (bufSize - 1) := by
  have hsize : bufSize = 8192 := rfl
  cases it with
  | header name | entry name value object =>
    have := h.length
    simp [Item.line]
    omega

theorem mem_line_iff {c : UInt8}
    (hc : c ≠ chr '[' ∧ c ≠ chr ']' ∧ c ≠ chr ' ' ∧ c ≠ chr '=' ∧ c ≠ chr '>') :
    c ∈ it.line ↔ match it with
      | .header name => c ∈ name
      | .entry name value _ => c ∈ name ∨ c ∈ value := by
  cases it with
  | header name => simp [Item.line, hc]
  | entry name value object =>
    rw [line_entry]
    cases object <;> simp [hc]

theorem Item.Ok.not_mem_line (h : it.Ok) : chr '\n' ∉ it.line ∧ 0 ∉ it.line := by
  rw [mem_line_iff (by decide), mem_line_iff (by decide)]
  cases it with
  | header name => exact ⟨h.newline, h.zero⟩
  | entry name value object => exact ⟨not_or.mpr h.newline, not_or.mpr h.zero⟩

theorem processTextLine_header (h : LoadedName name) (n : ℕ) :
    processTextLine env load cfg cat (Item.header name).line n =
      some (.ok (cfg.cwCategoryAppend ⟨name, false, []⟩, some cfg.root.length)) := by
  have hcut : cut (chr ']') (name ++ [chr ']']) = some (name, []) := cut_append h.bracket []
  have hcopy : cwCopyString name 80 = name := take_of_length_le (by have := h.length; omega)
  simp [processTextLine, Item.line, categoryHeader, hcut, cwCategoryNew, hcopy]

variable (env : Env) (load : Source → CwConfig → Result CwConfig) (fuel lineno : ℕ)
  (rest : List UInt8)

theorem loadLines_item (h : Reloaded cfg cat its) (hit : Readable it)
    (hfirst : its = [] → ∃ name, it = .header name) :
    ∃ lineno' cfg' cat',
      loadLines env load (fuel + 1) 0 lineno cfg cat (reads [] (it.line ++ chr '\n' :: rest)) =
      loadLines env load (fuel + 1) 0 lineno' cfg' cat' (reads [] rest) ∧
      Reloaded cfg' cat' (its ++ [it]) := by
  obtain ⟨hnewline, hzero⟩ := hit.ok.not_mem_line
  have hlen := length_line_lt hit.ok
  cases it with
  | header name =>
    have hstrip : cwStrip (Item.header name).line = (Item.header name).line := by
      have hbracket := cwStrip_append_cons (b := []) (a := name ++ [chr ']']) (c :=
        chr '[') (by decide)
      rw [cwTrimBlanks_append_cons (by decide)] at hbracket
      exact hbracket
    have hp : processTextLine env load cfg cat (cwStrip (Item.header name).line) (lineno + 1) =
        some (.ok (cfg.cwCategoryAppend ⟨name, false, []⟩, some cfg.root.length)) := by
      rw [hstrip]
      exact processTextLine_header hit.ok _
    obtain ⟨lineno', hload⟩ := loadLines_line hnewline hzero hit.semi hlen hit.fits
      (by rw [hstrip]; exact cons_ne_nil _ _) hp fuel rest
    exact ⟨lineno', _, _, hload, h.header name⟩
  | entry name value object =>
    have hroot : cfg.root ≠ [] := by
      intro hnil
      obtain ⟨_, hname⟩ := hfirst (by rw [← h.items, CwConfig.items, hnil, flatMap_nil])
      cases hname
    have hok : EntryOk name value object := hit.ok
    have hentry := entryOf_line_entry hok (lineno + 1)
    rw [line_entry] at hentry
    have hp : processTextLine env load cfg cat (cwStrip (Item.entry name value object).line)
      (lineno + 1) =
        some (.ok
          (cfg.addVariables (cfg.root.length - 1) [⟨name, value, lineno + 1, object, 0, none⟩],
          some (cfg.root.length - 1))) := by
      rw [line_entry, h.cat hroot]
      exact processTextLine_entry hok.name_strip hok.head hentry
    obtain ⟨lineno', hload⟩ := loadLines_line hnewline hzero hit.semi hlen hit.fits
      (by rw [line_entry]; exact cwStrip_line_ne_nil) hp fuel rest
    refine ⟨lineno', _, _, hload, ?_⟩
    rw [← h.cat hroot]
    exact h.entry hroot ⟨name, value, lineno + 1, object, 0, none⟩

theorem loadLines_body (h : Reloaded cfg cat its) (hnew : ∀ it ∈ new, Readable it)
    (hfirst : its = [] → ∀ it ∈ new.head?, ∃ name, it = .header name) :
    ∃ lineno' cfg' cat',
      loadLines env load (fuel + 1) 0 lineno cfg cat (reads [] (body new ++ rest)) =
      loadLines env load (fuel + 1) 0 lineno' cfg' cat' (reads [] rest) ∧
      Reloaded cfg' cat' (its ++ new) := by
  induction new generalizing its lineno cfg cat with
  | nil => exact ⟨lineno, cfg, cat, rfl, by rwa [append_nil]⟩
  | cons it new ih =>
    have hbody : body (it :: new) ++ rest = it.line ++ chr '\n' :: (body new ++ rest) := by
      simp [body]
    obtain ⟨lineno₁, cfg₁, cat₁, hload₁, h₁⟩ :=
      loadLines_item env load fuel lineno (body new ++ rest) h
      (hnew it mem_cons_self) fun hnil => hfirst hnil it rfl
    obtain ⟨lineno₂, cfg₂, cat₂, hload₂, h₂⟩ :=
      ih lineno₁ h₁ (fun it' hit' => hnew it' (mem_cons_of_mem _ hit'))
      fun hnil => absurd hnil (by simp)
    exact ⟨lineno₂, cfg₂, cat₂, by rw [hbody, hload₁, hload₂], by simpa using h₂⟩

section TooLong

variable {object : Bool}

theorem length_cwStrip_take_lt (h : cwStrip ((chr ' ' :: value).take j) = value)
    (hne : value ≠ []) : value.length < j := by
  cases j with
  | zero =>
    rw [take_zero] at h
    exact absurd h.symm hne
  | succ j =>
    have hskip : cwStrip ([chr ' '] ++ value.take j) = cwStrip (value.take j) := by
      rw [cwStrip, cwSkipBlanks_append isBlank_space]
      rfl
    rw [take_succ_cons, ← singleton_append, hskip] at h
    have hle := length_cwStrip_le (value.take j)
    rw [h, length_take] at hle
    omega

theorem length_cwTrimBlanks_le (s : CStr) : (cwTrimBlanks s).length ≤ s.length :=
  (List.rdropWhile_prefix isBlank s).length_le

theorem trim_header_lt (h : LoadedName name) :
    (cwTrimBlanks (Item.header name).line).length < bufSize := by
  have hle := length_cwTrimBlanks_le (Item.header name).line
  have hlen : (Item.header name).line.length = name.length + 2 := by simp [Item.line]
  have hsize : bufSize = 8192 := rfl
  have hname := h.length
  omega

theorem isEntry_of_long (h : it.Ok) (hlong : bufSize ≤ (cwTrimBlanks it.line).length) :
    ∃ name value object, it = .entry name value object := by
  cases it with
  | header name => exact absurd (trim_header_lt h) (Nat.not_lt.mpr hlong)
  | entry name value object => exact ⟨name, value, object, rfl⟩

theorem length_trim_line_le : (cwTrimBlanks (Item.entry name value object).line).length ≤
    name.length + 1 + (sign object).length + if value = [] then 0 else value.length + 1 := by
  split_ifs with hvalue
  · have hline : (Item.entry name value object).line = name ++ chr ' ' :: sign object ++
        [chr ' '] := by
      rw [hvalue]
      rfl
    rw [hline, cwTrimBlanks_append isBlank_space]
    have hle := length_cwTrimBlanks_le (name ++ chr ' ' :: sign object)
    simp at hle
    omega
  · have hle := length_cwTrimBlanks_le (Item.entry name value object).line
    have hlen : (Item.entry name value object).line.length =
        name.length + 1 + (sign object).length + (value.length + 1) := by
      simp [Item.line]
      omega
    omega

theorem entryOf_take_ne (h : EntryOk name value object)
    (hlong : bufSize ≤ (cwTrimBlanks (Item.entry name value object).line).length)
    (hk : name.length + 2 + k + 1 = bufSize) {v : CwVariable}
    (hv : entryOf (name ++ [chr ' '] ++ chr '=' ::
      ((if object then [chr '>'] else []) ++ chr ' ' :: value).take k) n = some v) :
    v.item ≠ .entry name value object := by
  have hle := Nat.le_trans hlong length_trim_line_le
  have hcut : ∀ {j : ℕ}, name.length + 1 + (sign object).length + j + 1 = bufSize →
      cwStrip ((chr ' ' :: value).take j) ≠ value := by
    intro j hj heq
    split_ifs at hle with hnil
    · omega
    · have := length_cwStrip_take_lt heq hnil
      omega
  rw [entryOf_line h.name_strip h.equal, Option.some.injEq] at hv
  intro hitem
  cases object with
  | false =>
    have hhead : ((chr ' ' :: value).take k).head? ≠ some (chr '>') := by
      cases k with
      | zero => simp
      | succ k =>
        rw [take_succ_cons, head?_cons]
        decide
    simp only [Bool.false_eq_true, if_false, nil_append, if_neg hhead] at hv
    subst hv
    exact hcut hk (Item.entry.inj hitem).2.1
  | true =>
    have hsign : (sign true).length = 2 := rfl
    cases k with
    | zero =>
      subst hv
      exact absurd (Item.entry.inj hitem).2.2 Bool.false_ne_true
    | succ k =>
      subst hv
      exact hcut (by omega) (Item.entry.inj hitem).2.1

theorem loadLines_tooLong (hok : it.Ok) (hsemi : chr ';' ∉ it.line)
    (hlong : bufSize ≤ (cwTrimBlanks it.line).length) (cfg : CwConfig) (i : ℕ) :
    ∃ v lineno' rs, v.item ≠ it ∧
      loadLines env load (fuel + 1) 0 lineno cfg (some i) (reads [] (it.line ++ chr '\n' :: rest)) =
        loadLines env load (fuel + 1) 0 lineno' (cfg.addVariables i [v]) (some i) rs := by
  have hsize : bufSize = 8192 := rfl
  obtain ⟨hnewline, hzero⟩ := hok.not_mem_line
  have hge := Nat.le_trans hlong (length_cwTrimBlanks_le _)
  rw [reads_long hnewline (Nat.le_succ_of_le hge) (length_line_lt hok)]
  obtain ⟨name, value, object, rfl⟩ := isEntry_of_long hok hlong
  have h : EntryOk name value object := hok
  by_cases hname : name.length + 2 < bufSize
  · obtain ⟨k, hk⟩ : ∃ k, name.length + 2 + k + 1 = bufSize :=
      ⟨bufSize - 1 - (name.length + 2), by omega⟩
    have htake : (Item.entry name value object).line.take (bufSize - 1) =
      name ++ [chr ' '] ++ chr '=' ::
        ((if object then [chr '>'] else []) ++ chr ' ' :: value).take k := by
      have hrest : bufSize - 1 - (name ++ [chr ' ']).length = k + 1 := by simp; omega
      rw [line_entry, take_append, take_of_length_le (by simp; omega), hrest, take_succ_cons]
    obtain ⟨v, hentry⟩ : ∃ v, entryOf (name ++ [chr ' '] ++ chr '=' ::
        ((if object then [chr '>'] else []) ++ chr ' ' :: value).take k) (lineno + 1) = some v :=
      ⟨_, entryOf_line h.name_strip h.equal _ _⟩
    have hne := entryOf_take_ne h hlong hk hentry
    refine ⟨v, lineno + 1,
      some ((Item.entry name value object).line.drop (bufSize - 1) ++ [chr '\n']) ::
      reads [] rest, hne, ?_⟩
    apply loadLines_plain (fun hx => hzero (mem_of_mem_take hx)) (fun hx =>
      hsemi (mem_of_mem_take hx))
    · rw [htake]
      exact cwStrip_line_ne_nil
    · rw [htake]
      exact processTextLine_entry h.name_strip h.head hentry
  · -- the sign is behind the first piece, which is no entry
    have hlength := h.length
    have hsign : 0 < (sign object).length := by cases object <;> decide
    have hnil : value = [] := eq_nil_of_length_eq_zero (by omega)
    obtain rfl : object = false := by
      cases object with
      | false => rfl
      | true =>
        have : (sign true).length = 2 := rfl
        omega
    subst hnil
    have hline : (Item.entry name [] false).line = name ++ [chr ' '] ++ [chr '=', chr ' '] :=
      line_entry name [] false
    have hfull : (name ++ [chr ' ']).length = bufSize - 1 := by
      simp
      omega
    have hstrip : cwStrip (name ++ [chr ' ']) = name := by
      rw [cwStrip_append isBlank_space, h.name_strip]
    have hne : name ≠ [] := ne_nil_of_length_pos (by omega)
    have hzero' : 0 ∉ name ++ [chr ' '] := fun hx => hzero (hline ▸ mem_append_left _ hx)
    have hsemi' : chr ';' ∉ name ++ [chr ' '] := fun hx => hsemi (hline ▸ mem_append_left _ hx)
    have hname' : processTextLine env load cfg (some i) (cwStrip (name ++ [chr ' '])) (lineno + 1) =
        some (.ok (cfg, some i)) := by
      rw [hstrip, processTextLine, if_neg h.head.1, if_neg h.head.2]
      simp only [entryOf_eq_none h.equal]
    have hsecond : cwStrip ([chr '=', chr ' '] ++ [chr '\n']) = [chr '='] := by decide
    have hentry : processTextLine env load cfg (some i) (cwStrip ([chr '=', chr ' '] ++ [chr '\n']))
      (lineno + 1 + 1) =
        some (.ok (cfg.addVariables i [⟨[], [], lineno + 1 + 1, false, 0, none⟩], some i)) := by
      rw [hsecond]
      rfl
    refine ⟨⟨[], [], lineno + 1 + 1, false, 0, none⟩, lineno + 1 + 1, reads [] rest, ?_, ?_⟩
    · exact fun hitem => hne (Item.entry.inj hitem).1.symm
    · rw [hline, ← hfull, take_left, drop_left,
        loadLines_plain hzero' hsemi' (by rwa [hstrip]) hname',
        loadLines_plain (by decide) (by decide) (by rw [hsecond]; exact cons_ne_nil _ _) hentry]

end TooLong

end Items

end CallWeaver.Config
