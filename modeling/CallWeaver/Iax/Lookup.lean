import CallWeaver.Iax.Calls

/-! # Finding a call again

The bound of the upper half covers every call in it. That of the lower half is recomputed over all
its numbers but the last, which may be given to a call all the same; such a call is not found again.
-/

namespace CallWeaver.Iax.Calls

open Function List Option Bool Prod

variable {iaxs iaxs' : ℕ → Option ChanIax2Pvt} {start limit x c m : ℕ} {d : Driver} {s t : Session}

/-- The bound is the place behind the last call of the range, or the start of the range. -/
theorem updateMax_spec (iaxs : ℕ → Option ChanIax2Pvt) (start n : ℕ) :
    start ≤ updateMax iaxs start n ∧ updateMax iaxs start n ≤ start + n ∧
    (∀ x, start ≤ x → x < start + n → (iaxs x).isSome → x < updateMax iaxs start n) ∧
    (start < updateMax iaxs start n → (iaxs (updateMax iaxs start n - 1)).isSome) := by
  induction n with
  | zero => exact ⟨le_rfl, le_rfl, fun x hx hlt _ => by omega, fun h => absurd h (lt_irrefl _)⟩
  | succ n ih =>
    unfold updateMax
    split_ifs with hlast
    · exact ⟨by omega, le_rfl, fun x _ hlt _ => hlt, fun _ => hlast⟩
    · refine ⟨ih.1, by omega, fun x hx hlt hlive => ?_, ih.2.2.2⟩
      have hne : x ≠ start + n := fun he => hlast (he ▸ hlive)
      exact ih.2.2.1 x hx (by omega) hlive

def Placed (iaxs : ℕ → Option ChanIax2Pvt) : Prop :=
  ∀ x p, iaxs x = some p → p.callno = x ∧ 1 ≤ x ∧ x < iaxMaxCalls - 1

structure LowBound (iaxs : ℕ → Option ChanIax2Pvt) (m : ℕ) : Prop where
  le : m ≤ trunkCallStart - 1
  lt : ∀ x < trunkCallStart - 1, (iaxs x).isSome → x < m

structure HighBound (iaxs : ℕ → Option ChanIax2Pvt) (m : ℕ) : Prop where
  le : m ≤ iaxMaxCalls - 1
  lt : ∀ x, trunkCallStart ≤ x → (iaxs x).isSome → x < m

theorem Placed.lowBound (h : Placed iaxs) :
    LowBound iaxs (updateMax iaxs 1 (trunkCallStart - 1 - 1)) := by
  constructor
  · exact (updateMax_spec iaxs 1 (trunkCallStart - 1 - 1)).2.1
  · intro x hx hlive
    obtain ⟨p, hp⟩ := isSome_iff_exists.mp hlive
    exact (updateMax_spec iaxs 1 _).2.2.1 x (h x p hp).2.1 hx hlive

theorem Placed.highBound (h : Placed iaxs) :
    HighBound iaxs (updateMax iaxs trunkCallStart (iaxMaxCalls - 1 - trunkCallStart)) := by
  constructor
  · exact (updateMax_spec iaxs trunkCallStart (iaxMaxCalls - 1 - trunkCallStart)).2.1
  · intro x hx hlive
    obtain ⟨p, hp⟩ := isSome_iff_exists.mp hlive
    exact (updateMax_spec iaxs trunkCallStart _).2.2.1 x hx (h x p hp).2.2 hlive

theorem LowBound.mono (h : LowBound iaxs m) (hsub : ∀ x, (iaxs' x).isSome → (iaxs x).isSome) :
    LowBound iaxs' m :=
  ⟨h.le, fun x hx hlive => h.lt x hx (hsub x hlive)⟩

theorem HighBound.mono (h : HighBound iaxs m)
    (hsub : ∀ x, trunkCallStart ≤ x → (iaxs' x).isSome → (iaxs x).isSome) : HighBound iaxs' m :=
  ⟨h.le, fun x hx hlive => h.lt x hx (hsub x hx hlive)⟩

variable {p p' : ChanIax2Pvt} {sin : SockaddrIn} {callno dcallno : ℕ}

def ChanIax2Pvt.key (p : ChanIax2Pvt) : ℕ × ℕ × SockaddrIn × SockaddrIn × Bool :=
  (p.callno, p.peercallno, p.addr, p.transfer, p.transferring)

theorem matchCall_congr (h : p'.key = p.key) (sin : SockaddrIn) (callno dcallno : ℕ) :
    matchCall sin callno dcallno p' = matchCall sin callno dcallno p := by
  simp only [ChanIax2Pvt.key, Prod.mk.injEq] at h
  obtain ⟨hc, hpc, ha, ht, hr⟩ := h
  simp only [matchCall, hc, hpc, ha, ht, hr]

theorem matchCall_own (h : matchCall sin callno dcallno p = true) :
    matchCall sin callno p.callno p = true := by
  simp only [matchCall, or_eq_true, and_eq_true, decide_eq_true_eq] at h ⊢
  rcases h with ⟨ha, hpc | ⟨_, hz⟩⟩ | ⟨ht, _⟩
  · exact .inl ⟨ha, .inl hpc⟩
  · exact .inl ⟨ha, .inr ⟨trivial, hz⟩⟩
  · exact .inr ⟨ht, trivial⟩

theorem matchCall_moved (x : ℕ) (h : matchCall sin callno p.callno p = true) :
    matchCall sin callno x { p with callno := x } = true := by
  simpa [matchCall] using h

/-- The numbers that a lookup goes through. -/
def searched (d : Driver) : List ℕ :=
  range' 1 (d.maxnontrunkcall - 1) ++ range' trunkCallStart (d.maxtrunkcall - trunkCallStart)

theorem mem_searched : x ∈ searched d ↔
    1 ≤ x ∧ x < d.maxnontrunkcall ∨ trunkCallStart ≤ x ∧ x < d.maxtrunkcall := by
  rw [searched, mem_append, mem_range'_1, mem_range'_1]
  omega

theorem LowBound.ne_last (h : LowBound iaxs d.maxnontrunkcall) (hx : x ∈ searched d) :
    x ≠ 0 ∧ x ≠ trunkCallStart - 1 := by
  have hpos : 0 < trunkCallStart := by decide
  have hle := h.le
  rw [mem_searched] at hx
  omega

theorem lookup_eq (d : Driver) (callno dcallno : ℕ) (sin : SockaddrIn) :
    lookup d callno dcallno sin =
    ((searched d).find? fun x => (d.iaxs x).any (matchCall sin callno dcallno)).getD 0 := by
  simp only [lookup, searched, find?_append]
  split
  · rename_i hx
    rw [hx, some_or, getD_some]
  · rename_i hx
    rw [hx, none_or]

theorem lookup_spec (hne : lookup d callno dcallno sin ≠ 0) :
    lookup d callno dcallno sin ∈ searched d ∧
      ∃ p, d.iaxs (lookup d callno dcallno sin) = some p ∧
      matchCall sin callno dcallno p = true := by
  rw [lookup_eq] at hne ⊢
  cases hx : (searched d).find? fun x => (d.iaxs x).any (matchCall sin callno dcallno) with
  | none =>
    rw [hx] at hne
    exact absurd rfl hne
  | some x =>
    have hit := find?_some hx
    rw [Option.any_eq_true] at hit
    exact ⟨mem_of_find?_eq_some hx, hit⟩

theorem lookup_ne_zero (hx : x ∈ searched d) (hp : d.iaxs x = some p)
    (hm : matchCall sin callno dcallno p = true) (hlow : LowBound iaxs d.maxnontrunkcall) :
    lookup d callno dcallno sin ≠ 0 := by
  rw [lookup_eq]
  cases hy : (searched d).find? fun x => (d.iaxs x).any (matchCall sin callno dcallno) with
  | none =>
    have hmiss := find?_eq_none.mp hy x hx
    rw [hp] at hmiss
    exact absurd hm hmiss
  | some y => exact (hlow.ne_last (mem_of_find?_eq_some hy)).1

/-- Calls are where they belong, the bounds cover them, and each call matches the peers that were
directed to it. -/
structure Tables (s : Session) : Prop where
  placed : Placed s.driver.iaxs
  low : LowBound s.driver.iaxs s.driver.maxnontrunkcall
  high : HighBound s.driver.iaxs s.driver.maxtrunkcall
  sought : ∀ x p, s.driver.iaxs x = some p →
    ∀ q ∈ (s.history x).sought, matchCall q.1 q.2 x p = true

theorem Tables.initial (users : List Iax2User) : Tables (.start users) := by
  constructor
  · rintro x p ⟨⟩
  · exact ⟨(by decide : 1 ≤ trunkCallStart - 1), by rintro x _ ⟨⟩⟩
  · exact ⟨(by decide : trunkCallStart ≤ iaxMaxCalls - 1), by rintro x _ ⟨⟩⟩
  · rintro x p ⟨⟩

variable {o : Option ChanIax2Pvt} {d' : Driver} {h h' : ℕ → History}

/-- A step leaves every call in place, with what a lookup compares, or removes it. -/
structure Kept (s t : Session) : Prop where
  key : ∀ x p', t.driver.iaxs x = some p' → ∃ p, s.driver.iaxs x = some p ∧ p'.key = p.key
  nontrunk : t.driver.maxnontrunkcall = s.driver.maxnontrunkcall
  trunk : t.driver.maxtrunkcall = s.driver.maxtrunkcall ∨
    t.driver.maxtrunkcall =
    updateMax t.driver.iaxs trunkCallStart (iaxMaxCalls - 1 - trunkCallStart)
  sought : ∀ x, (t.history x).sought = (s.history x).sought

theorem Tables.kept (h : Tables s) (hk : Kept s t) : Tables t := by
  have hsub : ∀ x, (t.driver.iaxs x).isSome → (s.driver.iaxs x).isSome := by
    intro x hx
    obtain ⟨p', hp'⟩ := isSome_iff_exists.mp hx
    obtain ⟨p, hp, _⟩ := hk.key x p' hp'
    exact isSome_iff_exists.mpr ⟨p, hp⟩
  have hplaced : Placed t.driver.iaxs := by
    intro x p' hp'
    obtain ⟨p, hp, hkey⟩ := hk.key x p' hp'
    obtain ⟨hc, hx⟩ := h.placed x p hp
    exact ⟨(congrArg fst hkey).trans hc, hx⟩
  constructor
  · exact hplaced
  · rw [hk.nontrunk]
    exact h.low.mono hsub
  · rcases hk.trunk with he | he
    · rw [he]
      exact h.high.mono fun x _ => hsub x
    · rw [he]
      exact hplaced.highBound
  · intro x p' hp' q hq
    obtain ⟨p, hp, hkey⟩ := hk.key x p' hp'
    rw [hk.sought] at hq
    rw [matchCall_congr hkey]
    exact h.sought x p hp q hq

theorem update_eq_some_iff {α : Type*} {f : ℕ → Option α} {o : Option α} {a : α} :
    update f c o x = some a ↔ x = c ∧ o = some a ∨ x ≠ c ∧ f x = some a := by
  by_cases hx : x = c
  · subst hx
    simp
  · simp [hx]

theorem key_update (hp : iaxs c = some p) (ho : ∀ p', o = some p' → p'.key = p.key) (x : ℕ)
    (p' : ChanIax2Pvt) (h : update iaxs c o x = some p') :
    ∃ p, iaxs x = some p ∧ p'.key = p.key := by
  rcases update_eq_some_iff.mp h with ⟨rfl, ho'⟩ | ⟨_, h⟩
  · exact ⟨p, hp, ho p' ho'⟩
  · exact ⟨p', h, rfl⟩

theorem sought_update {h' : History} (hs : h'.sought = (h c).sought) (x : ℕ) :
    (update h c h' x).sought = (h x).sought := by
  by_cases hx : x = c
  · subst hx
    rw [update_self, hs]
  · rw [update_of_ne hx]

theorem releaseAuthreq_eq (d : Driver) (p : ChanIax2Pvt) :
    ∃ users, releaseAuthreq d p = { d with users := users } := by
  unfold releaseAuthreq
  split_ifs
  · exact ⟨_, rfl⟩
  · exact ⟨d.users, rfl⟩

theorem checkAccess_kept (users : List Iax2User) (a : Access) (p : ChanIax2Pvt) :
    (checkAccess users a p).key = p.key ∧ (checkAccess users a p).alreadygone = p.alreadygone := by
  unfold checkAccess
  dsimp only
  split
  · exact ⟨rfl, rfl⟩
  · split <;> exact ⟨rfl, rfl⟩

theorem authenticateRequest_cases (d : Driver) (p : ChanIax2Pvt) :
    (∃ u, p.maxauthreq = true ∧ d.users.find? (·.name = p.username) = some u ∧
      u.curauthreq = u.maxauthreq ∧ authenticateRequest d p = (iax2Predestroy d p.callno, false)) ∨
    (∃ u, p.maxauthreq = true ∧ d.users.find? (·.name = p.username) = some u ∧
      u.curauthreq ≠ u.maxauthreq ∧ authenticateRequest d p = ({ d with
        users := forUser p.username (fun u => { u with curauthreq := u.curauthreq + 1 }) d.users },
      true)) ∨
    ((p.maxauthreq = true → d.users.find? (·.name = p.username) = none) ∧
      authenticateRequest d p = (d, true)) := by
  unfold authenticateRequest
  split
  · rename_i u hu
    split at hu
    · rename_i hflag
      split
      · rename_i hcur
        exact .inl ⟨u, hflag, hu, hcur, rfl⟩
      · rename_i hcur
        exact .inr (.inl ⟨u, hflag, hu, hcur, rfl⟩)
    · cases hu
  · rename_i hu
    refine .inr (.inr ⟨fun hflag => ?_, rfl⟩)
    rwa [if_pos hflag] at hu

theorem kept_predestroy (s : Session) (c : ℕ) :
    Kept s { s with driver := iax2Predestroy s.driver c } := by
  unfold iax2Predestroy
  split
  · exact ⟨fun _ p' hp' => ⟨p', hp', rfl⟩, rfl, .inl rfl, fun _ => rfl⟩
  · rename_i p hp
    obtain ⟨users, he⟩ := releaseAuthreq_eq s.driver p
    have hkey : ∀ p', some { p with alreadygone := true, owner := none } = some p' →
        p'.key = p.key := by
      rintro p' ⟨⟩
      rfl
    rw [he]
    split_ifs
    all_goals exact ⟨key_update hp hkey, rfl, .inl rfl, fun _ => rfl⟩

theorem Kept.maxTrunk (h : Kept s ⟨d', h'⟩) (P : Prop) [Decidable P] :
    Kept s ⟨if P then updateMaxTrunk d' else d', h'⟩ := by
  split_ifs
  · exact ⟨h.key, h.nontrunk, .inr rfl, h.sought⟩
  · exact h

theorem kept_destroy (s : Session) (c : ℕ) (now : ℤ) :
    Kept s { s with driver := iax2Destroy s.driver c now } := by
  apply Kept.maxTrunk
  split
  · exact ⟨fun _ p' hp' => ⟨p', hp', rfl⟩, rfl, .inl rfl, fun _ => rfl⟩
  · rename_i p hp
    obtain ⟨users, he⟩ :=
      releaseAuthreq_eq { s.driver with lastused := update s.driver.lastused c now } p
    rw [he]
    refine ⟨key_update hp ?_, rfl, .inl rfl, fun _ => rfl⟩
    intro p' ho
    split_ifs at ho
    cases ho
    rfl

variable {now : ℤ} {res : Option ℕ}

theorem Placed.update (h : Placed iaxs)
    (ho : ∀ p, o = some p → p.callno = x ∧ 1 ≤ x ∧ x < iaxMaxCalls - 1) :
    Placed (update iaxs x o) := by
  intro y q hq
  rcases update_eq_some_iff.mp hq with ⟨rfl, ho'⟩ | ⟨_, hq⟩
  · exact ho q ho'
  · exact h y q hq

theorem find_unused {l : List ℕ} (hx : l.find? (unused d now) = some x) :
    x ∈ l ∧ d.iaxs x = none := by
  have hfree := find?_some hx
  rw [unused, and_eq_true, isNone_iff_eq_none] at hfree
  exact ⟨mem_of_find?_eq_some hx, hfree.1⟩

theorem makeTrunk_cases (h : makeTrunk d c now = some (d', res)) :
    d' = d ∧ res = none ∨ ∃ p x, d.iaxs c = some p ∧ trunkCallStart ≤ x ∧ x < iaxMaxCalls - 1 ∧
      d.iaxs x = none ∧ res = some x ∧ d' = updateMaxNontrunk (updateMaxTrunk { d with
        iaxs := update (update d.iaxs x (some { p with callno := x })) c none }) := by
  obtain ⟨p, hp, h⟩ := bind_eq_some_iff.mp h
  split at h
  · cases h
    exact .inl ⟨rfl, rfl⟩
  · split at h
    · cases h
      exact .inl ⟨rfl, rfl⟩
    · split at h
      · cases h
        exact .inl ⟨rfl, rfl⟩
      · rename_i x hx
        obtain ⟨hmem, hfree⟩ := find_unused hx
        obtain ⟨hle, hlt⟩ := mem_range'_1.mp hmem
        cases h
        exact .inr ⟨p, x, hp, hle, by omega, hfree, rfl, rfl⟩

theorem findCallno_cases (d : Driver) (callno dcallno : ℕ) (sin : SockaddrIn) (new : New) (now : ℤ)
    (memory : Bool) : (∃ res, findCallno d callno dcallno sin new now memory = (d, res) ∧
      (res ≠ 0 → ∃ p, d.iaxs res = some p ∧ matchCall sin callno dcallno p = true)) ∨
    findCallno d callno dcallno sin new now memory = (updateMaxNontrunk d, 0) ∨
    ∃ x, 1 ≤ x ∧ x < trunkCallStart ∧ d.iaxs x = none ∧
      findCallno d callno dcallno sin new now memory =
        (updateMaxNontrunk { d with iaxs := update d.iaxs x (some (newCall sin callno x)) },
          x) := by
  obtain ⟨res, hres⟩ : ∃ res, (if new = .force then 0 else lookup d callno dcallno sin) = res :=
    ⟨_, rfl⟩
  dsimp only [findCallno]
  rw [hres]
  split
  · split
    · exact .inl ⟨0, rfl, fun h => absurd rfl h⟩
    · rename_i x hx
      obtain ⟨hmem, hfree⟩ := find_unused hx
      obtain ⟨hle, hlt⟩ := mem_range'_1.mp hmem
      cases memory with
      | false => exact .inr (.inl rfl)
      | true => exact .inr (.inr ⟨x, hle, by omega, hfree, rfl⟩)
  · refine .inl ⟨res, rfl, fun hne => ?_⟩
    split at hres
    · exact absurd hres.symm hne
    · subst hres
      exact (lookup_spec hne).2

theorem Tables.find (h : Tables s) {res : ℕ} {new : New} {memory : Bool}
    (hd : findCallno s.driver callno dcallno sin new now memory = (d, res)) :
    Tables ⟨d, found s callno sin new res⟩ := by
  rcases findCallno_cases s.driver callno dcallno sin new now memory with
    ⟨res', he, hres⟩ | he | ⟨x, hx, hlt, hfree, he⟩
  · cases he.symm.trans hd
    refine ⟨h.placed, h.low, h.high, fun y p hp q hq => ?_⟩
    -- only the call that was found gets another peer
    dsimp only [found] at hp hq
    split at hq
    · exact h.sought y p hp q hq
    · rename_i hne
      by_cases hy : y = res
      · subst hy
        have hlive : s.driver.iaxs y ≠ none := by rw [hp]; exact some_ne_none p
        simp only [update_self, if_neg hlive] at hq
        split at hq
        · rcases mem_cons.mp hq with rfl | hq
          · obtain ⟨p', hp', hm⟩ := hres hne
            obtain rfl := some.inj (hp.symm.trans hp')
            have hown := matchCall_own hm
            rwa [(h.placed y p hp).1] at hown
          · exact h.sought y p hp q hq
        · exact h.sought y p hp q hq
      · rw [update_of_ne hy] at hq
        exact h.sought y p hp q hq
  · cases he.symm.trans hd
    exact ⟨h.placed, h.placed.lowBound, h.high, h.sought⟩
  · obtain ⟨rfl, rfl⟩ := Prod.mk.inj (he.symm.trans hd)
    have hplaced : Placed (update s.driver.iaxs x (some (newCall sin callno x))) := by
      apply h.placed.update
      rintro p ⟨⟩
      exact ⟨rfl, hx, lt_trans hlt (by decide)⟩
    refine ⟨hplaced, hplaced.lowBound, h.high.mono fun y hy hlive => ?_, fun y p hp q hq => ?_⟩
    · have hne : y ≠ x := by omega
      simpa only [updateMaxNontrunk, update_of_ne hne] using hlive
    · have hx0 : x ≠ 0 := by omega
      dsimp only [found, updateMaxNontrunk] at hp hq
      rw [if_neg hx0, if_pos hfree] at hq
      by_cases hy : y = x
      · subst hy
        rw [update_self] at hp hq
        cases hp
        split at hq
        · obtain rfl := mem_singleton.mp hq
          simp [matchCall, newCall]
        · simp [History.new] at hq
      · rw [update_of_ne hy] at hp hq
        exact h.sought y p hp q hq

theorem Tables.makeTrunk (h : Tables s) (hd : makeTrunk s.driver c now = some (d, res)) :
    Tables ⟨d, match res with
      | none => s.history | some x => update (update s.history x (s.history c)) c .new⟩ := by
  rcases makeTrunk_cases hd with ⟨rfl, rfl⟩ | ⟨p, x, hp, hle, hlt, _, rfl, rfl⟩
  · exact h
  · have hpos : 0 < trunkCallStart := by decide
    have hplaced :
        Placed (update (update s.driver.iaxs x (some { p with callno := x })) c none) := by
      apply (h.placed.update _).update
      · rintro q ⟨⟩
      · rintro q ⟨⟩
        exact ⟨rfl, by omega, hlt⟩
    refine ⟨hplaced, hplaced.lowBound, hplaced.highBound, fun y q hq r hr => ?_⟩
    rcases update_eq_some_iff.mp hq with ⟨_, hq⟩ | ⟨hy, hq⟩
    · cases hq
    · dsimp only at hr
      rw [update_of_ne hy] at hr
      rcases update_eq_some_iff.mp hq with ⟨rfl, hq⟩ | ⟨hyx, hq⟩
      · rw [update_self] at hr
        cases hq
        have hm := h.sought c p hp r hr
        rw [← (h.placed c p hp).1] at hm
        exact matchCall_moved y hm
      · rw [update_of_ne hyx] at hr
        exact h.sought y q hq r hr

theorem Tables.next (h : Tables s) {op : Op} (ht : step s op = some t) : Tables t := by
  cases op with
  | find callno dcallno sin new now memory =>
    cases ht
    exact h.find rfl
  | makeTrunk c now =>
    simp only [Calls.step, bind_eq_bind, bind_eq_some_iff] at ht
    obtain ⟨⟨d, res⟩, hd, ht⟩ := ht
    have hmoved := h.makeTrunk hd
    cases res <;> cases ht <;> exact hmoved
  | access c a =>
    obtain ⟨p, hp, ht⟩ := bind_eq_some_iff.mp ht
    cases ht
    refine h.kept ⟨key_update hp ?_, rfl, .inl rfl, fun _ => rfl⟩
    rintro p' ⟨⟩
    exact (checkAccess_kept _ _ _).1
  | request c =>
    simp only [Calls.step, bind_eq_bind, bind_eq_some_iff] at ht
    obtain ⟨p, hp, ht⟩ := ht
    cases ht
    apply h.kept
    rcases authenticateRequest_cases s.driver p with ⟨_, _, _, _, he⟩ | ⟨_, _, _, _, he⟩ | ⟨_, he⟩
    · rw [he]
      exact kept_predestroy s p.callno
    all_goals
      rw [he]
      exact ⟨fun _ p' hp' => ⟨p', hp', rfl⟩, rfl, .inl rfl, sought_update rfl⟩
  | verify c =>
    obtain ⟨p, hp, ht⟩ := bind_eq_some_iff.mp ht
    cases ht
    obtain ⟨users, he⟩ := releaseAuthreq_eq s.driver p
    rw [authenticateVerify, he]
    refine h.kept ⟨key_update hp ?_, rfl, .inl rfl, sought_update rfl⟩
    rintro p' ⟨⟩
    rfl
  | predestroy c =>
    cases ht
    exact h.kept (kept_predestroy s c)
  | destroy c now =>
    cases ht
    exact h.kept (kept_destroy s c now)
  | proceed c oseqno owner =>
    obtain ⟨p, hp, ht⟩ := bind_eq_some_iff.mp ht
    cases ht
    refine h.kept ⟨key_update hp ?_, rfl, .inl rfl, fun _ => rfl⟩
    rintro p' ⟨⟩
    rfl

theorem Tables.run {users : List Iax2User} {ops : List Op}
    (h : Runs step anyStep (.start users) ops t) : Tables t :=
  h.invariant (fun _ _ _ hs ht _ => hs.next ht) (.initial users)

/-- In every state that the driver reaches, a peer that was directed to a live call finds a call
that matches it again, if and only if that call has not got the last ordinary number or another call
matches. -/
theorem call_found_iff {users : List Iax2User} {ops : List Op}
    (h : Runs step anyStep (.start users) ops t) {p : ChanIax2Pvt} (hp : t.driver.iaxs c = some p)
    {sin : SockaddrIn} {callno : ℕ} (hq : (sin, callno) ∈ (t.history c).sought) (now : ℤ)
    (memory : Bool) :
    (∃ x q, findCallno t.driver callno c sin .prevent now memory = (t.driver, x) ∧ x ≠ 0 ∧
      t.driver.iaxs x = some q ∧ matchCall sin callno c q = true) ↔
    c ≠ trunkCallStart - 1 ∨
      ∃ x q, x ≠ trunkCallStart - 1 ∧ t.driver.iaxs x = some q ∧
      matchCall sin callno c q = true := by
  have ht := Tables.run h
  have hfind : findCallno t.driver callno c sin .prevent now memory =
      (t.driver, lookup t.driver callno c sin) := by
    simp [findCallno]
  rw [hfind]
  constructor
  · rintro ⟨x, q, hx, hne, hxq, hm⟩
    obtain rfl := (Prod.mk.inj hx).2
    exact .inr ⟨_, q, (ht.low.ne_last (lookup_spec hne).1).2, hxq, hm⟩
  · intro hor
    -- either way some call that is searched matches
    have hsearched : ∃ x q, x ≠ trunkCallStart - 1 ∧ t.driver.iaxs x = some q ∧
        matchCall sin callno c q = true := by
      rcases hor with hc | hx
      · exact ⟨c, p, hc, hp, ht.sought c p hp _ hq⟩
      · exact hx
    obtain ⟨x, q, hx, hxq, hm⟩ := hsearched
    have hlive : (t.driver.iaxs x).isSome := isSome_iff_exists.mpr ⟨q, hxq⟩
    have hmem : x ∈ searched t.driver := by
      rw [mem_searched]
      by_cases hhalf : x < trunkCallStart
      · exact .inl ⟨(ht.placed x q hxq).2.1, ht.low.lt x (by omega) hlive⟩
      · exact .inr ⟨not_lt.mp hhalf, ht.high.lt x (not_lt.mp hhalf) hlive⟩
    have hne := lookup_ne_zero hmem hxq hm ht.low
    obtain ⟨-, q', hq', hm'⟩ := lookup_spec hne
    exact ⟨_, q', rfl, hne, hq', hm'⟩

variable {n : ℕ}

def crowded (sin : SockaddrIn) (n : ℕ) (x : ℕ) : Option ChanIax2Pvt :=
  if 1 ≤ x ∧ x ≤ n then some (newCall sin 0 x) else none

def crowdedSession (sin : SockaddrIn) (n : ℕ) : Session :=
  ⟨⟨crowded sin n, fun _ => 0, n + 1, trunkCallStart, []⟩, fun _ => .new⟩

theorem updateMax_crowded (sin : SockaddrIn) (hn : n ≤ m) :
    updateMax (crowded sin n) 1 m = n + 1 := by
  obtain ⟨hge, _, hlive, hlast⟩ := updateMax_spec (crowded sin n) 1 m
  have hupper : 1 < updateMax (crowded sin n) 1 m → updateMax (crowded sin n) 1 m - 1 ≤ n := by
    intro h
    have := hlast h
    by_contra hlt
    rw [crowded, if_neg (by omega)] at this
    cases this
  have hlower : 1 ≤ n → n < updateMax (crowded sin n) 1 m := by
    intro hpos
    refine hlive n hpos (by omega) ?_
    rw [crowded, if_pos ⟨hpos, le_rfl⟩]
    rfl
  omega

theorem find_unused_crowded (sin : SockaddrIn) (hn : n < trunkCallStart - 1) :
    (range' 1 (trunkCallStart - 1)).find? (unused (crowdedSession sin n).driver 100) =
      some (n + 1) := by
  rw [find?_range'_eq_some, mem_range'_1]
  refine ⟨?_, ⟨by omega, by omega⟩, fun j hj hlt => ?_⟩
  · have hfree : crowded sin n (n + 1) = none := by rw [crowded, if_neg (by omega)]
    simp [unused, crowdedSession, hfree, minReuseTime]
  · have hused : crowded sin n j = some (newCall sin 0 j) := by
      rw [crowded, if_pos (by omega)]
    simp [unused, crowdedSession, hused]

theorem update_crowded (sin : SockaddrIn) (n : ℕ) :
    update (crowded sin n) (n + 1) (some (newCall sin 0 (n + 1))) = crowded sin (n + 1) := by
  funext x
  by_cases hx : x = n + 1
  · subst hx
    rw [update_self, crowded, if_pos (by omega)]
  · rw [update_of_ne hx, crowded, crowded]
    exact if_congr (by omega) rfl rfl

theorem findCallno_new {new : New} (hnew : new ≠ .prevent)
    (hmiss : new = .force ∨ lookup d callno dcallno sin = 0)
    (hx : (range' 1 (trunkCallStart - 1)).find? (unused d now) = some x) :
    findCallno d callno dcallno sin new now true =
      (updateMaxNontrunk { d with iaxs := update d.iaxs x (some (newCall sin callno x)) }, x) := by
  have hzero : (if new = .force then 0 else lookup d callno dcallno sin) = 0 := by
    split_ifs with hforce
    · rfl
    · exact hmiss.resolve_left hforce
  simp only [findCallno]
  rw [hzero, if_pos ⟨Nat.zero_lt_one, hnew⟩, hx]
  rfl

theorem step_crowded (sin : SockaddrIn) (hn : n < trunkCallStart - 1 - 1) :
    step (crowdedSession sin n) (.find 0 0 sin .force 100 true) =
      some (crowdedSession sin (n + 1)) := by
  have hfind : findCallno (crowdedSession sin n).driver 0 0 sin .force 100 true =
      ((crowdedSession sin (n + 1)).driver, n + 1) := by
    rw [findCallno_new (by decide) (.inl rfl) (find_unused_crowded sin (by omega))]
    simp only [crowdedSession, updateMaxNontrunk]
    rw [update_crowded, updateMax_crowded sin (by omega)]
  have hhist : found (crowdedSession sin n) 0 sin .force (n + 1) = fun _ => .new := by
    have hfree : (crowdedSession sin n).driver.iaxs (n + 1) = none := if_neg (by omega)
    simp only [found]
    rw [if_neg (Nat.succ_ne_zero n), if_pos hfree, if_neg (by decide)]
    exact update_eq_self (n + 1) _
  simp only [step, hfind, hhist]
  rfl

theorem crowded_run (sin : SockaddrIn) (hn : n ≤ trunkCallStart - 1 - 1) :
    Runs step anyStep (.start []) (replicate n (.find 0 0 sin .force 100 true))
      (crowdedSession sin n) := by
  induction n with
  | zero =>
    have htable : crowded sin 0 = fun _ => none := by
      funext x
      rw [crowded, if_neg (by omega)]
    rw [crowdedSession, htable]
    exact .nil _
  | succ n ih =>
    rw [replicate_succ']
    exact (ih (by omega)).append (.single (step_crowded sin (by omega)) trivial)

theorem matchCall_crowded (hp : crowded sin n x = some p) (hx : dcallno ≠ x) :
    matchCall sin 7 dcallno p = false := by
  unfold crowded at hp
  split at hp
  · cases hp
    simp [matchCall, newCall, newIax, hx]
  · cases hp

theorem crowded_found (sin : SockaddrIn) (hn : n < trunkCallStart - 1) : ∃ t,
    Runs step anyStep (.start []) (replicate n (.find 0 0 sin .force 100 true) ++
        [.find 7 0 sin .allow 100 true]) t ∧
      t.driver.iaxs = update (crowded sin n) (n + 1) (some (newCall sin 7 (n + 1))) ∧
      (t.history (n + 1)).sought = [(sin, 7)] := by
  have hmiss : lookup (crowdedSession sin n).driver 7 0 sin = 0 := by
    by_contra hne
    obtain ⟨_, p, hp, hm⟩ := lookup_spec hne
    rw [matchCall_crowded hp (Ne.symm hne)] at hm
    cases hm
  have hfind := findCallno_new (by decide : New.allow ≠ .prevent) (.inr hmiss)
    (find_unused_crowded sin (by omega))
  obtain ⟨t, hstep⟩ : ∃ t, step (crowdedSession sin n) (.find 7 0 sin .allow 100 true) = some t :=
    ⟨_, rfl⟩
  have hrun := (crowded_run sin (n := n) (by omega)).append (.single hstep trivial)
  simp only [step, hfind, some.injEq] at hstep
  refine ⟨t, hrun, ?_, ?_⟩
  · rw [← hstep]
    rfl
  · have hfree : (crowdedSession sin n).driver.iaxs (n + 1) = none := if_neg (by omega)
    rw [← hstep]
    simp only [found]
    rw [if_neg (Nat.succ_ne_zero n), if_pos hfree, update_self, if_pos trivial]
    rfl

/-- The fourth of four calls of one peer. -/
theorem call_found_iff_fourth : ∃ t p,
    Runs step anyStep (.start []) (replicate 3 (.find 0 0 ⟨1, 4569⟩ .force 100 true) ++
        [.find 7 0 ⟨1, 4569⟩ .allow 100 true]) t ∧
      t.driver.iaxs 4 = some p ∧
      ∃ x q, findCallno t.driver 7 4 ⟨1, 4569⟩ .prevent 101 true = (t.driver, x) ∧ x ≠ 0 ∧
        t.driver.iaxs x = some q ∧ matchCall ⟨1, 4569⟩ 7 4 q = true := by
  obtain ⟨t, hrun, htable, hhist⟩ := crowded_found ⟨1, 4569⟩ (show 3 < trunkCallStart - 1 by decide)
  have hp : t.driver.iaxs 4 = some (newCall ⟨1, 4569⟩ 7 4) := by rw [htable, update_self]
  have hq : (⟨1, 4569⟩, 7) ∈ (t.history 4).sought := by
    rw [hhist]
    exact mem_singleton.mpr rfl
  exact ⟨t, _, hrun, hp, (call_found_iff hrun hp hq 101 true).mpr (.inl (by decide))⟩

theorem crowded_last (sin : SockaddrIn) (hn : n + 1 = trunkCallStart - 1) : ∃ t p,
    Runs step anyStep (.start []) (replicate n (.find 0 0 sin .force 100 true) ++
        [.find 7 0 sin .allow 100 true]) t ∧
      t.driver.iaxs (n + 1) = some p ∧ (sin, 7) ∈ (t.history (n + 1)).sought ∧
      findCallno t.driver 7 (n + 1) sin .prevent 100 true = (t.driver, 0) := by
  obtain ⟨t, hrun, htable, hhist⟩ := crowded_found sin (show n < trunkCallStart - 1 by omega)
  have hzero : lookup t.driver 7 (n + 1) sin = 0 := by
    by_contra hne
    obtain ⟨hs, p, hp, hm⟩ := lookup_spec hne
    have hlast := ((Tables.run hrun).low.ne_last hs).2
    rw [← hn] at hlast
    rw [htable, update_of_ne hlast] at hp
    rw [matchCall_crowded hp (Ne.symm hlast)] at hm
    cases hm
  refine ⟨t, newCall sin 7 (n + 1), hrun, ?_, ?_, ?_⟩
  · rw [htable, update_self]
  · rw [hhist]
    exact mem_singleton.mpr rfl
  · simp [findCallno, hzero]

/-- All ordinary numbers are in use. The last one was just given to a peer, who does not find it. -/
theorem last_number_not_found : ∃ t p,
    Runs step anyStep (.start []) (replicate 16382 (.find 0 0 ⟨1, 4569⟩ .force 100 true) ++
      [.find 7 0 ⟨1, 4569⟩ .allow 100 true]) t ∧
    t.driver.iaxs 16383 = some p ∧ (⟨1, 4569⟩, 7) ∈ (t.history 16383).sought ∧
    findCallno t.driver 7 16383 ⟨1, 4569⟩ .prevent 100 true = (t.driver, 0) :=
  crowded_last ⟨1, 4569⟩ (by decide)

end CallWeaver.Iax.Calls
