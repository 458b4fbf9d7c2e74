import CallWeaver.Config.Growth

/-! # Loaded configurations

What is passed on of a line is a part of it, without line feeds and blanks around it. So loaded
names and values are free of the characters at which lines are cut.
-/

namespace CallWeaver.Config

open Terminated Option List

/-- What a segment and its mark leave of a line: nothing inside a block comment, otherwise the
segment or an escaped semicolon. -/
theorem content_marked {s r : CStr} (hs : chr ';' ∉ s) (d : ℕ) {l : Line}
    (hl : marks (r.drop (markOf s r).skip) = l) :
    (∃ d', (marks (s ++ chr ';' :: r)).content d = l.content d') ∨
      (marks (s ++ chr ';' :: r)).content d = s ∨
      s.getLast? ≠ some (chr '\\') ∧ (marks (s ++ chr ';' :: r)).content d = s ++ l.content 1 ∨
      ∃ s', s = s' ++ [chr '\\'] ∧
      (marks (s ++ chr ';' :: r)).content d = s' ++ chr ';' :: l.content 0 := by
  rw [marks_marked hs, hl]
  cases hm : markOf s r with
  | escaped =>
    cases d with
    | zero =>
      obtain ⟨s, rfl⟩ := exists_of_escaped hm
      exact .inr (.inr (.inr ⟨s, rfl, by simp [Line.content]⟩))
    | succ d => exact .inl ⟨d + 1, by simp [Line.content]⟩
  | opening =>
    cases d with
    | zero =>
      refine .inr (.inr (.inl ⟨fun hlast => ?_, by simp [Line.content]⟩))
      rw [markOf, if_pos hlast] at hm
      cases hm
    | succ d => exact .inl ⟨d + 2, by simp [Line.content]⟩
  | closing | plain =>
    cases d with
    | zero => exact .inr (.inl rfl)
    | succ d => exact .inl ⟨_, rfl⟩

theorem content_sublist (d : ℕ) (t : CStr) : ((marks t).content d).Sublist t := by
  induction t using marks_induction generalizing d with
  | text t ht =>
    rw [marks_text ht, Line.content]
    split_ifs
    · exact .refl t
    · exact nil_sublist t
  | marked s r hs ih =>
    have hrest : ∀ d, ((marks (r.drop (markOf s r).skip)).content d).Sublist r :=
      fun d => (ih d).trans (drop_sublist _ r)
    rcases content_marked hs d rfl with ⟨d', h⟩ | h | ⟨-, h⟩ | ⟨s', hs', h⟩ <;> rw [h]
    · exact ((hrest d').cons _).trans (sublist_append_right s _)
    · exact sublist_append_left s _
    · exact (List.Sublist.refl s).append ((hrest 1).cons _)
    · exact (hs' ▸ sublist_append_left s' _).append ((hrest 0).cons_cons _)

theorem mem_strippedLines {d : ℕ} {lines : List CStr} {x : ℤ × Option CStr}
    (hx : x ∈ strippedLines d lines) : ∃ l ∈ lines, ∃ d', x.2 = passed ((marks l).content d') := by
  induction lines generalizing d with
  | nil => cases hx
  | cons l lines ih =>
    rcases mem_cons.mp hx with rfl | hx
    · exact ⟨l, mem_cons_self, d, rfl⟩
    · obtain ⟨l', hl', h⟩ := ih hx
      exact ⟨l', mem_cons_of_mem _ hl', h⟩

theorem mem_reads {acc line : CStr} {cs : List UInt8} (h : some line ∈ reads acc cs)
    (hlen : acc.length < bufSize - 1) (hacc : chr '\n' ∉ acc) :
    line.length < bufSize ∧ ∃ a, chr '\n' ∉ a ∧ (line = a ∨ line = a ++ [chr '\n']) := by
  induction cs generalizing acc with
  | nil =>
    by_cases hnil : acc = []
    · simp [reads, hnil] at h
    · rw [reads, if_neg hnil, mem_singleton, some.injEq] at h
      subst h
      exact ⟨by omega, line, hacc, .inl rfl⟩
  | cons c cs ih =>
    have hconcat : (acc ++ [c]).length < bufSize := by
      simp
      omega
    rw [reads] at h
    split_ifs at h with hend
    · rcases mem_cons.mp h with h | h
      · obtain rfl := some.inj h
        refine ⟨hconcat, ?_⟩
        by_cases hc : c = chr '\n'
        · exact ⟨acc, hacc, .inr (by rw [hc])⟩
        · exact ⟨acc ++ [c], by simp [hacc, Ne.symm hc], .inl rfl⟩
      · exact ih h (by decide) not_mem_nil
    · rw [not_or] at hend
      refine ih h ?_ (by simp [hacc, Ne.symm hend.1])
      simp
      omega

theorem newline_not_mem_cwStrip {a s : CStr} (ha : chr '\n' ∉ a)
    (hs : s.Sublist (a ++ [chr '\n'])) : chr '\n' ∉ cwStrip s := by
  obtain ⟨s₁, s₂, rfl, h₁, h₂⟩ := sublist_append_iff.mp hs
  have hblank : ∀ x ∈ s₂, isBlank x = true := by
    intro x hx
    rw [mem_singleton.mp (h₂.subset hx)]
    decide
  rw [cwStrip_append hblank]
  exact fun h => ha (h₁.subset ((infix_cwStrip s₁).subset h))

structure TextOk (t : CStr) : Prop where
  strip : cwStrip t = t
  length : t.length < bufSize
  zero : 0 ∉ t
  newline : chr '\n' ∉ t

theorem textOk_of_mem {fs : List (List UInt8)} {d : ℕ} {x : ℤ × Option CStr}
    (hx : x ∈ strippedLines d (fileLines fs)) {t : CStr} (ht : x.2 = some t) : TextOk t := by
  obtain ⟨l, hl, d', hpassed⟩ := mem_strippedLines hx
  obtain ⟨f, -, hl⟩ := mem_flatMap.mp hl
  obtain ⟨line, hline, rfl⟩ := mem_map.mp hl
  obtain ⟨hlen, a, ha, hend⟩ := mem_reads (reduceOption_mem_iff.mp hline) (by decide) not_mem_nil
  rw [ht, passed] at hpassed
  split_ifs at hpassed with hnil
  obtain rfl := some.inj hpassed
  have hcontent := content_sublist d' (line.takeWhile (· ≠ 0))
  have hsub :
      (cwStrip ((marks (line.takeWhile (· ≠ 0))).content d')).Sublist (line.takeWhile (· ≠ 0)) :=
    (infix_cwStrip _).sublist.trans hcontent
  have hwhile : (line.takeWhile (· ≠ 0)).Sublist line := takeWhile_sublist _
  refine ⟨cwStrip_cwStrip _, Nat.lt_of_le_of_lt (hsub.trans hwhile).length_le hlen,
    fun h0 => ?_, ?_⟩
  · simpa using mem_takeWhile_imp (hsub.subset h0)
  · apply newline_not_mem_cwStrip ha ((hcontent.trans hwhile).trans _)
    rcases hend with rfl | rfl
    · exact sublist_append_left _ _
    · exact .refl _

structure LoadedName (s : CStr) : Prop where
  length : s.length < 80
  bracket : chr ']' ∉ s
  zero : 0 ∉ s
  newline : chr '\n' ∉ s

structure EntryOk (name value : CStr) (object : Bool) : Prop where
  name_strip : cwStrip name = name
  value_strip : cwStrip value = value
  head : name.head? ≠ some (chr '[') ∧ name.head? ≠ some (chr '#')
  equal : chr '=' ∉ name
  zero : 0 ∉ name ∧ 0 ∉ value
  newline : chr '\n' ∉ name ∧ chr '\n' ∉ value
  length : name.length + (sign object).length + value.length < bufSize

structure LoadedEntry (v : CwVariable) : Prop extends EntryOk v.name v.value v.object where
  blanklines : v.blanklines = 0
  sameline : v.sameline = none

theorem head?_cwStrip {b a : CStr} {x : UInt8} (hb : chr '=' ∉ b)
    (ht : cwStrip (b ++ chr '=' :: a) = b ++ chr '=' :: a) (hx : (cwStrip b).head? = some x) :
    (b ++ chr '=' :: a).head? = some x := by
  rw [cwStrip_append_cons (by decide)] at ht
  have hskip : cwSkipBlanks b = b := by
    have hb' : chr '=' ∉ cwSkipBlanks b := fun h => hb ((List.dropWhile_suffix _).subset h)
    have hcut := cut_append hb' (cwTrimBlanks a)
    rw [ht, cut_append hb] at hcut
    exact (Prod.mk.inj (some.inj hcut)).1.symm
  obtain ⟨w, hw⟩ : cwStrip b <+: b := by
    rw [cwStrip, hskip]
    exact List.rdropWhile_prefix _ b
  rw [← hw]
  obtain ⟨tail, htail⟩ := head?_eq_some_iff.mp hx
  simp [htail]

theorem TextOk.yields {t : CStr} (h : TextOk t) : Yields LoadedName LoadedEntry t where
  name name rest ht hname := by
    have hsub : ∀ x ∈ cwCopyString name 80, x ∈ name := fun x hx => mem_of_mem_take hx
    have hmem : ∀ x ∈ name, x ∈ t := by
      rw [ht]
      intro x hx
      simp [hx]
    refine ⟨?_, fun h' => hname (hsub _ h'), fun h' => h.zero (hmem _ (hsub _ h')),
      fun h' => h.newline (hmem _ (hsub _ h'))⟩
    rw [cwCopyString, length_take]
    omega
  entry hopen hsign n v hv := by
    obtain ⟨⟨b, a⟩, hcut, -⟩ := map_eq_some_iff.mp hv
    obtain ⟨rfl, hb⟩ := cut_eq_some_iff.mp hcut
    rw [entryOf_append hb, some.injEq] at hv
    -- the value is stripped from what is behind the sign
    obtain ⟨a', hname, hvalue, ha', hlen, hblank, hsame⟩ : ∃ a', v.name = cwStrip b ∧
      v.value = cwStrip a' ∧
        a'.Sublist a ∧ (sign v.object).length + a'.length ≤ a.length + 1 ∧ v.blanklines = 0 ∧
        v.sameline = none := by
      split_ifs at hv with hhead <;> subst hv
      · obtain ⟨a', rfl⟩ := head?_eq_some_iff.mp hhead
        exact ⟨a', rfl, rfl, sublist_cons_self _ _, by simp [sign]; omega, rfl, rfl⟩
      · exact ⟨a, rfl, rfl, .refl a, by simp [sign]; omega, rfl, rfl⟩
    have hmem : ∀ x, x ∈ v.name ∨ x ∈ v.value → x ∈ b ++ chr '=' :: a := by
      rintro x (hx | hx)
      · rw [hname] at hx
        exact mem_append_left _ ((infix_cwStrip b).subset hx)
      · rw [hvalue] at hx
        exact mem_append_right _ (mem_cons_of_mem _ (ha'.subset ((infix_cwStrip a').subset hx)))
    have hlength := h.length
    have hname_le := length_cwStrip_le b
    have hvalue_le := length_cwStrip_le a'
    refine ⟨⟨?_, ?_, ⟨fun hx => hopen ?_, fun hx => hsign ?_⟩, ?_,
      ⟨fun hx => h.zero (hmem _ (.inl hx)), fun hx => h.zero (hmem _ (.inr hx))⟩,
      ⟨fun hx => h.newline (hmem _ (.inl hx)),
      fun hx => h.newline (hmem _ (.inr hx))⟩, ?_⟩, hblank, hsame⟩
    · rw [hname, cwStrip_cwStrip]
    · rw [hvalue, cwStrip_cwStrip]
    · exact head?_cwStrip hb h.strip (hname ▸ hx)
    · exact head?_cwStrip hb h.strip (hname ▸ hx)
    · rw [hname]
      exact fun hx => hb ((infix_cwStrip b).subset hx)
    · rw [hname, hvalue]
      simp at hlength
      omega

def Loaded (cfg : CwConfig) : Prop :=
  ∀ c ∈ cfg.root, LoadedName c.name ∧ ∀ v ∈ c.root, LoadedEntry v

theorem loaded_of_cwConfigLoad {env : Env} {fuel : ℕ} {filename : CStr} {cfg : CwConfig}
    (h : cwConfigLoad env fuel filename = some (.ok cfg)) : Loaded cfg := by
  have hgrows : Grows LoadedName LoadedEntry cwConfigNew cfg :=
    grows_of_cwConfigLoad (fun src x hx t ht => (textOk_of_mem hx ht).yields) h
  intro c hc
  constructor
  · rcases hgrows.names c hc with hN | ⟨c', hc', -⟩
    · exact hN
    · cases hc'
  · intro v hv
    obtain ⟨u, hu | ⟨c', hc', -⟩, rfl | rfl⟩ := hgrows.entries v ⟨c, hc, hv⟩
    · exact hu
    · exact ⟨hu.toEntryOk, hu.blanklines, rfl⟩
    · cases hc'
    · cases hc'

end CallWeaver.Config
