import CallWeaver.Iax.Lookup

/-! # The limit of unauthenticated calls

A user's counter is meant to be the number of its calls that were asked for a password and neither
answered nor ended. It goes wrong where a call is released that was never counted, or twice: both
before it is destroyed and when it is, and when it is rejected at the limit.
-/

namespace CallWeaver.Iax.Calls

open Function Option List Prod

variable {n : String} {s t : Session} {c callno dcallno res x : ℕ} {p : ChanIax2Pvt} {d' : Driver}
  {o : Option ChanIax2Pvt} {b memory : Bool}

theorem countP_range_update (f : ℕ → Bool) {n : ℕ} (hc : c < n) (b : Bool) :
    (range n).countP (update f c b) + (f c).toNat = (range n).countP f + b.toNat := by
  have hcount : ∀ (g : ℕ → Bool) (k : ℕ),
      (range (k + 1)).countP g = (range k).countP g + (g k).toNat := by
    intro g k
    rw [range_succ, countP_append, countP_singleton]
    cases g k <;> rfl
  induction n with
  | zero => omega
  | succ n ih =>
    rw [hcount, hcount]
    by_cases he : c = n
    · subst he
      have hsame : (range c).countP (update f c b) = (range c).countP f := by
        apply countP_congr
        intro x hx
        rw [update_of_ne (mem_range.mp hx).ne]
      rw [hsame, update_self]
      omega
    · rw [update_of_ne (Ne.symm he)]
      omega

theorem countP_range_move {f : ℕ → Bool} {x n : ℕ} (hc : c < n) (hx : x < n) (hne : c ≠ x)
    (hfree : f x = false) :
    (range n).countP (update (update f x (f c)) c false) = (range n).countP f := by
  have hcopy := countP_range_update f hx (f c)
  have hclear := countP_range_update (update f x (f c)) hc false
  rw [hfree, Bool.toNat_false] at hcopy
  rw [update_of_ne hne, Bool.toNat_false] at hclear
  omega

/-- A call of the user has been asked for a password, and has neither answered nor ended. -/
def openCall (n : String) (o : Option ChanIax2Pvt) (h : History) : Bool :=
  o.any (fun p => p.username = n && !p.alreadygone) && h.pending

def outstanding (s : Session) (n : String) (c : ℕ) : Bool :=
  openCall n (s.driver.iaxs c) (s.history c)

/-- The number of live calls of a user for which an AUTHREQ was sent and that are neither verified
nor destroyed. -/
def countOutstanding (s : Session) (n : String) : ℕ := (range iaxMaxCalls).countP (outstanding s n)

def Limit (n : String) (s : Session) : Prop :=
  ∃ u, s.driver.users.find? (·.name = n) = some u ∧ u.curauthreq = countOutstanding s n ∧
    u.curauthreq ≤ u.maxauthreq

theorem outstanding_update (hi : d'.iaxs = update s.driver.iaxs c o) (h : History) :
    outstanding ⟨d', update s.history c h⟩ n = update (outstanding s n) c (openCall n o h) := by
  funext x
  simp only [outstanding, hi]
  by_cases hx : x = c
  · subst hx
    rw [update_self, update_self, update_self]
  · rw [update_of_ne hx, update_of_ne hx, update_of_ne hx]
    rfl

theorem outstanding_set (hi : d'.iaxs = update s.driver.iaxs c o) :
    outstanding ⟨d', s.history⟩ n = update (outstanding s n) c (openCall n o (s.history c)) := by
  rw [← outstanding_update hi, update_eq_self]

theorem countOutstanding_update (h : outstanding t n = update (outstanding s n) c b)
    (hc : c < iaxMaxCalls) :
    countOutstanding t n + (outstanding s n c).toNat = countOutstanding s n + b.toNat := by
  rw [countOutstanding, h]
  exact countP_range_update (outstanding s n) hc b

def Iax2User.shift (δ : ℤ) (u : Iax2User) : Iax2User := { u with curauthreq := u.curauthreq + δ }

theorem map_shift_zero (o : Option Iax2User) : o.map (Iax2User.shift 0) = o := by
  cases o with
  | none => rfl
  | some u => simp [Iax2User.shift]

theorem find?_forUser (δ : ℤ) (m : String) (users : List Iax2User) :
    (forUser m (Iax2User.shift δ) users).find? (·.name = n) =
      (users.find? (·.name = n)).map (Iax2User.shift (if m = n then δ else 0)) := by
  induction users with
  | nil => rfl
  | cons u users ih =>
    unfold forUser
    by_cases hu : u.name = m
    · subst hu
      by_cases hn : u.name = n
      · simp [hn, Iax2User.shift]
      · simp [hn, Iax2User.shift, map_shift_zero]
    · by_cases hn : u.name = n
      · subst hn
        simp [hu, Ne.symm hu, Iax2User.shift]
      · simpa [hu, hn] using ih

theorem find?_releaseAuthreq (d : Driver) (p : ChanIax2Pvt) :
    (releaseAuthreq d p).users.find? (·.name = n) = (d.users.find? (·.name = n)).map
      (Iax2User.shift (if p.maxauthreq && p.username = n then -1 else 0)) := by
  unfold releaseAuthreq
  cases p.maxauthreq with
  | true =>
    simp only [if_true, Bool.true_and, decide_eq_true_eq]
    exact find?_forUser (-1) p.username d.users
  | false => simp only [Bool.false_and, Bool.false_eq_true, if_false, map_shift_zero]

structure Effect (n : String) (s t : Session) (c : ℕ) (δ : ℤ) (b : Bool) : Prop where
  out : outstanding t n = Function.update (outstanding s n) c b
  user : t.driver.users.find? (·.name = n) =
    (s.driver.users.find? (·.name = n)).map (Iax2User.shift δ)

theorem Effect.limit_iff {δ : ℤ} (he : Effect n s t c δ b) (h : Limit n s) (hc : c < iaxMaxCalls)
    (hδ : δ ≤ 0 ∨ δ = 1 ∧
      ∀ u, s.driver.users.find? (·.name = n) = some u → u.curauthreq ≠ u.maxauthreq) :
    Limit n t ↔ δ + (outstanding s n c).toNat = b.toNat := by
  obtain ⟨u, hu, hcur, hmax⟩ := h
  have hcount := countOutstanding_update he.out hc
  have huser : t.driver.users.find? (·.name = n) = some (u.shift δ) := by rw [he.user, hu]; rfl
  have hle : u.curauthreq + δ ≤ u.maxauthreq := by
    rcases hδ with hδ | ⟨rfl, hne⟩
    · omega
    · have hlt := hne u hu
      omega
  unfold Limit
  rw [huser]
  simp only [some.injEq, exists_eq_left', Iax2User.shift, hle, and_true]
  rw [hcur]
  omega

theorem Effect.set (o : Option ChanIax2Pvt) :
    Effect n s ⟨{ s.driver with iaxs := update s.driver.iaxs c o }, s.history⟩ c 0
      (openCall n o (s.history c)) :=
  ⟨outstanding_set rfl, (map_shift_zero _).symm⟩

theorem limit_congr (hout : outstanding t n = outstanding s n)
    (hu : t.driver.users = s.driver.users) : Limit n t ↔ Limit n s := by
  rw [Limit, Limit, hu, countOutstanding, countOutstanding, hout]

theorem effect_predestroy (hp : s.driver.iaxs c = some p) :
    Effect n s { s with driver := iax2Predestroy s.driver c } c
      (if !p.alreadygone && (p.maxauthreq && p.username = n) then -1 else 0) false := by
  have hclosed :
      openCall n (some { p with alreadygone := true, owner := none }) (s.history c) = false := by
    simp [openCall]
  obtain ⟨users, he⟩ := releaseAuthreq_eq s.driver p
  rw [iax2Predestroy, hp]
  constructor
  · rw [← hclosed]
    apply outstanding_set
    dsimp only
    split_ifs <;> simp only [he]
  · dsimp only
    cases hgone : p.alreadygone with
    | true =>
      simp only [if_true, Bool.not_true, Bool.false_and, Bool.false_eq_true, if_false,
        map_shift_zero]
    | false =>
      exact find?_releaseAuthreq s.driver p

theorem iax2Destroy_eq (d : Driver) (c : ℕ) (now : ℤ) :
    ((iax2Destroy d c now).iaxs = match d.iaxs c with
      | none => d.iaxs
      | some p =>
        update d.iaxs c (if p.owner = none then none else some { p with alreadygone := true })) ∧
    (iax2Destroy d c now).users = match d.iaxs c with
      | none => d.users
      | some p => (releaseAuthreq d p).users := by
  have husers : ∀ p, (releaseAuthreq { d with lastused := update d.lastused c now } p).users =
      (releaseAuthreq d p).users := by
    intro p
    unfold releaseAuthreq
    split_ifs <;> rfl
  cases hp : d.iaxs c <;> by_cases hb : c &&& 0x4000 ≠ 0 <;>
    simp [iax2Destroy, hp, hb, husers, updateMaxTrunk]

theorem effect_destroy (hp : s.driver.iaxs c = some p) (now : ℤ) :
    Effect n s { s with driver := iax2Destroy s.driver c now } c
      (if p.maxauthreq && p.username = n then -1 else 0) false := by
  have hclosed : openCall n (if p.owner = none then none else some { p with alreadygone := true })
      (s.history c) = false := by
    split_ifs <;> simp [openCall]
  obtain ⟨hi, hu⟩ := iax2Destroy_eq s.driver c now
  rw [hp] at hi hu
  constructor
  · rw [← hclosed]
    exact outstanding_set hi
  · rw [hu]
    exact find?_releaseAuthreq s.driver p

theorem effect_verify :
    Effect n s ⟨authenticateVerify s.driver c p,
      update s.history c { s.history c with pending := false }⟩ c
      (if p.maxauthreq && p.username = n then -1 else 0) false := by
  constructor
  · have hclosed : openCall n (some { p with maxauthreq := false })
        { s.history c with pending := false } = false := by simp [openCall]
    have hi : (authenticateVerify s.driver c p).iaxs =
        update s.driver.iaxs c (some { p with maxauthreq := false }) := rfl
    rw [outstanding_update hi, hclosed]
  · exact find?_releaseAuthreq s.driver p

variable {d : Driver} {now δ : ℤ}

def belowLimit (users : List Iax2User) (n : String) : Bool :=
  (users.find? (·.name = n)).any fun u => u.curauthreq ≠ u.maxauthreq

/-- The steps that keep the counter of a user right. A call asked for a password below the limit is
a new one; otherwise it has been asked before or has ended. The calls released are those that are
outstanding, and an outstanding call keeps its user. -/
def Balanced (n : String) (s : Session) : Op → Prop
  | .access c a => ∀ p, s.driver.iaxs c = some p → (s.history c).pending = true →
      p.alreadygone = false → ((checkAccess s.driver.users a p).username = n ↔ p.username = n)
  | .request c => ∀ p, s.driver.iaxs c = some p → p.username = n →
      if p.maxauthreq && belowLimit s.driver.users n then
        outstanding s n c = false ∧ p.alreadygone = false
      else p.alreadygone = true ∨ outstanding s n c = true
  | .verify c => ∀ p, s.driver.iaxs c = some p → p.username = n → p.maxauthreq = outstanding s n c
  | .predestroy c => ∀ p, s.driver.iaxs c = some p → p.username = n → p.alreadygone = false →
      p.maxauthreq = outstanding s n c
  | .destroy c _ => ∀ p, s.driver.iaxs c = some p → p.username = n →
      p.maxauthreq = outstanding s n c
  | _ => True

theorem outstanding_eq (hp : s.driver.iaxs c = some p) :
    outstanding s n c = (decide (p.username = n) && !p.alreadygone && (s.history c).pending) := by
  rw [outstanding, hp]
  rfl

theorem release_iff (b : Bool) : ((if b then (-1 : ℤ) else 0) + (outstanding s n c).toNat =
    (false : Bool).toNat) ↔ b = outstanding s n c := by
  cases b <;> cases outstanding s n c <;> simp

theorem Effect.release_iff (he : Effect n s t c (if b then -1 else 0) false) (hT : Tables s)
    (h : Limit n s) (hp : s.driver.iaxs c = some p) : Limit n t ↔ b = outstanding s n c := by
  have hlt := (hT.placed c p hp).2.2
  have hle : (if b then (-1 : ℤ) else 0) ≤ 0 := by split_ifs <;> omega
  rw [he.limit_iff h (by omega) (.inl hle), Calls.release_iff]

theorem own_release_iff (hp : s.driver.iaxs c = some p) (b : Bool) :
    (b && decide (p.username = n)) = outstanding s n c ↔
      (p.username = n → b = outstanding s n c) := by
  rw [outstanding_eq hp]
  by_cases hn : p.username = n <;> simp [hn]

theorem outstanding_found {sin : SockaddrIn} {new : New}
    (hd : findCallno s.driver callno dcallno sin new now memory = (d, res)) :
    outstanding ⟨d, found s callno sin new res⟩ n = outstanding s n ∧ d.users = s.driver.users := by
  have hpending :
      ∀ h : History, (if new = .allow then { h with sought := (sin, callno) :: h.sought }
      else h).pending = h.pending := by
    intro h
    split_ifs <;> rfl
  rcases findCallno_cases s.driver callno dcallno sin new now memory with
    ⟨res', he, hres⟩ | he | ⟨x, hx, _, hfree, he⟩
  · obtain ⟨rfl, rfl⟩ := Prod.mk.inj (he.symm.trans hd)
    refine ⟨funext fun y => ?_, rfl⟩
    by_cases hne : res' = 0
    · rw [outstanding, found, if_pos hne]
      rfl
    · obtain ⟨p, hp, _⟩ := hres hne
      have hlive : s.driver.iaxs res' ≠ none := by rw [hp]; exact some_ne_none p
      simp only [outstanding, openCall, found]
      rw [if_neg hne, if_neg hlive]
      by_cases hy : y = res'
      · subst hy
        rw [update_self, hpending]
      · rw [update_of_ne hy]
  · obtain ⟨rfl, rfl⟩ := Prod.mk.inj (he.symm.trans hd)
    exact ⟨rfl, rfl⟩
  · obtain ⟨rfl, rfl⟩ := Prod.mk.inj (he.symm.trans hd)
    refine ⟨funext fun y => ?_, rfl⟩
    have hx0 : x ≠ 0 := by omega
    simp only [outstanding, openCall, found, updateMaxNontrunk]
    rw [if_neg hx0, if_pos hfree]
    by_cases hy : y = x
    · subst hy
      rw [update_self, update_self, hpending, hfree]
      simp [History.new]
    · rw [update_of_ne hy, update_of_ne hy]

theorem countOutstanding_makeTrunk (hT : Tables s)
    (hd : makeTrunk s.driver c now = some (d, some x)) :
    countOutstanding ⟨d, update (update s.history x (s.history c)) c .new⟩ n =
      countOutstanding s n ∧ d.users = s.driver.users := by
  rcases makeTrunk_cases hd with ⟨_, hnone⟩ | ⟨p, y, hp, hle, hlt, hfree, hy, rfl⟩
  · cases hnone
  · obtain rfl := some.inj hy
    refine ⟨?_, rfl⟩
    have hne : c ≠ x := fun he => by rw [he, hfree] at hp; cases hp
    have hc := (hT.placed c p hp).2.2
    have hx0 : outstanding s n x = false := by rw [outstanding, hfree]; rfl
    rw [countOutstanding, countOutstanding,
      ← countP_range_move (f := outstanding s n) (by omega) (by omega) hne hx0]
    congr 1
    funext y
    simp only [outstanding, openCall, updateMaxNontrunk, updateMaxTrunk]
    by_cases hyc : y = c
    · subst hyc
      rw [update_self, update_self, update_self]
      rfl
    · rw [update_of_ne hyc, update_of_ne hyc, update_of_ne hyc]
      by_cases hyx : y = x
      · subst hyx
        rw [update_self, update_self, update_self, hp]
        rfl
      · rw [update_of_ne hyx, update_of_ne hyx, update_of_ne hyx]
        rfl

theorem effect_request {users : List Iax2User} (hp : s.driver.iaxs c = some p)
    (hu : users.find? (·.name = n) = (s.driver.users.find? (·.name = n)).map (Iax2User.shift δ)) :
    Effect n s ⟨{ s.driver with users := users },
      update s.history c { s.history c with pending := true }⟩ c δ
      (decide (p.username = n) && !p.alreadygone) := by
  have hopen : openCall n (some p) { s.history c with pending := true } =
      (decide (p.username = n) && !p.alreadygone) := by simp [openCall]
  constructor
  · rw [← hopen]
    exact outstanding_update (by rw [← hp, update_eq_self]) _
  · exact hu

theorem limit_request (hT : Tables s) (h : Limit n s) (hp : s.driver.iaxs c = some p) :
    Limit n ⟨(authenticateRequest s.driver p).1, if (authenticateRequest s.driver p).2 then
      update s.history c { s.history c with pending := true } else s.history⟩ ↔
    (p.username = n → if p.maxauthreq && belowLimit s.driver.users n then
        outstanding s n c = false ∧ p.alreadygone = false
      else p.alreadygone = true ∨ outstanding s n c = true) := by
  obtain ⟨hown, _, hlt⟩ := hT.placed c p hp
  obtain ⟨u, hu, hcur, hmax⟩ := id h
  rcases authenticateRequest_cases s.driver p with
    ⟨u', hflag, hu', hfull, he⟩ | ⟨u', hflag, hu', hbelow, he⟩ | ⟨hnone, he⟩
  · rw [he, hown]
    simp only [Bool.false_eq_true, if_false]
    rw [(effect_predestroy hp).release_iff hT h hp, outstanding_eq hp]
    by_cases hn : p.username = n
    · have hb : belowLimit s.driver.users n = false := by
        rw [belowLimit, ← hn, hu']
        simp [hfull]
      cases p.alreadygone <;> cases (s.history c).pending <;> simp [hn, hflag, hb]
    · simp [hn]
  · rw [he]
    simp only [if_true]
    have heffect : Effect n s ⟨{ s.driver with
        users :=
          forUser p.username (fun u => { u with curauthreq := u.curauthreq + 1 }) s.driver.users },
        update s.history c { s.history c with pending := true }⟩ c
        (if p.username = n then 1 else 0) (decide (p.username = n) && !p.alreadygone) :=
      effect_request hp (find?_forUser 1 p.username s.driver.users)
    by_cases hn : p.username = n
    · have hb : belowLimit s.driver.users n = true := by
        rw [belowLimit, ← hn, hu']
        simp [hbelow]
      rw [if_pos hn] at heffect
      rw [heffect.limit_iff h (by omega) (.inr ⟨rfl, fun v hv => ?_⟩), outstanding_eq hp]
      · cases p.alreadygone <;> cases (s.history c).pending <;> simp [hn, hflag, hb]
      · rw [← hn, hu'] at hv
        obtain rfl := some.inj hv
        exact hbelow
    · rw [if_neg hn] at heffect
      rw [heffect.limit_iff h (by omega) (.inl le_rfl), outstanding_eq hp]
      simp [hn]
  · rw [he]
    simp only [if_true]
    have heffect : Effect n s ⟨s.driver, update s.history c { s.history c with pending := true }⟩ c
        0 (decide (p.username = n) && !p.alreadygone) := effect_request hp (map_shift_zero _).symm
    rw [heffect.limit_iff h (by omega) (.inl le_rfl), outstanding_eq hp]
    by_cases hn : p.username = n
    · have hflag : p.maxauthreq = false := by
        by_contra hne
        rw [hn, hu] at hnone
        exact absurd (hnone (by simpa using hne)) (some_ne_none u)
      cases p.alreadygone <;> cases (s.history c).pending <;> simp [hn, hflag]
    · simp [hn]

section Steps

variable (hT : Tables s) (h : Limit n s)

include hT h

theorem limit_set (hp : s.driver.iaxs c = some p) (q : ChanIax2Pvt) :
    Limit n ⟨{ s.driver with iaxs := update s.driver.iaxs c (some q) }, s.history⟩ ↔
      outstanding s n c = openCall n (some q) (s.history c) := by
  have hlt := (hT.placed c p hp).2.2
  rw [(Effect.set (some q)).limit_iff h (by omega) (.inl le_rfl)]
  cases outstanding s n c <;> cases openCall n (some q) (s.history c) <;> simp

theorem limit_makeTrunk (ht : step s (.makeTrunk c now) = some t) : Limit n t := by
  simp only [step, bind_eq_bind, bind_eq_some_iff] at ht
  obtain ⟨⟨d, res⟩, hd, ht⟩ := ht
  cases res with
  | none =>
    cases ht
    rcases makeTrunk_cases hd with ⟨rfl, _⟩ | ⟨p, x, _, _, _, _, hx, _⟩
    · exact h
    · cases hx
  | some x =>
    cases ht
    obtain ⟨hcount, hu⟩ := countOutstanding_makeTrunk (n := n) hT hd
    rw [Limit, hcount, hu]
    exact h

theorem limit_access (a : Access) (hp : s.driver.iaxs c = some p) :
    Limit n
      ⟨{ s.driver with iaxs := update s.driver.iaxs c (some (checkAccess s.driver.users a p)) },
      s.history⟩ ↔ Balanced n s (.access c a) := by
  rw [limit_set hT h hp, outstanding_eq hp]
  simp only [openCall, any_some, (checkAccess_kept _ _ _).2, Balanced, hp, some.injEq, forall_eq']
  cases p.alreadygone <;> cases (s.history c).pending <;>
    by_cases h₁ : p.username = n <;> by_cases h₂ : (checkAccess s.driver.users a p).username = n <;>
      simp [h₁, h₂]

theorem limit_predestroy :
    Limit n { s with driver := iax2Predestroy s.driver c } ↔ Balanced n s (.predestroy c) := by
  cases hp : s.driver.iaxs c with
  | none =>
    rw [iax2Predestroy, hp]
    simpa only [Balanced, hp, reduceCtorEq, false_implies, implies_true, iff_true] using h
  | some p =>
    rw [(effect_predestroy hp).release_iff hT h hp, outstanding_eq hp]
    simp only [Balanced, hp, some.injEq, forall_eq', outstanding_eq hp]
    cases p.alreadygone <;> by_cases hn : p.username = n <;> simp [hn]

theorem limit_destroy (now : ℤ) :
    Limit n { s with driver := iax2Destroy s.driver c now } ↔ Balanced n s (.destroy c now) := by
  cases hp : s.driver.iaxs c with
  | none =>
    obtain ⟨hi, hu⟩ := iax2Destroy_eq s.driver c now
    rw [hp] at hi hu
    rw [limit_congr (funext fun x => by rw [outstanding, hi, outstanding]) hu]
    simpa only [Balanced, hp, reduceCtorEq, false_implies, implies_true, iff_true] using h
  | some p =>
    rw [(effect_destroy hp now).release_iff hT h hp, own_release_iff hp]
    simp only [Balanced, hp, some.injEq, forall_eq']

theorem limit_step {op : Op} (ht : step s op = some t) : Limit n t ↔ Balanced n s op := by
  cases op with
  | find callno dcallno sin new now memory =>
    cases ht
    obtain ⟨hout, hu⟩ := outstanding_found (n := n) (s := s) rfl
    exact iff_of_true ((limit_congr hout hu).mpr h) trivial
  | makeTrunk c now => exact iff_of_true (limit_makeTrunk hT h ht) trivial
  | access c a =>
    obtain ⟨p, hp, ht⟩ := bind_eq_some_iff.mp ht
    cases ht
    exact limit_access hT h a hp
  | request c =>
    obtain ⟨p, hp, ht⟩ := bind_eq_some_iff.mp ht
    cases ht
    simp only [Balanced, hp, some.injEq, forall_eq']
    exact limit_request hT h hp
  | verify c =>
    obtain ⟨p, hp, ht⟩ := bind_eq_some_iff.mp ht
    cases ht
    rw [effect_verify.release_iff hT h hp, own_release_iff hp]
    simp only [Balanced, hp, some.injEq, forall_eq']
  | predestroy c =>
    cases ht
    exact limit_predestroy hT h
  | destroy c now =>
    cases ht
    exact limit_destroy hT h now
  | proceed c oseqno owner =>
    obtain ⟨p, hp, ht⟩ := bind_eq_some_iff.mp ht
    cases ht
    rw [limit_set hT h hp, outstanding_eq hp]
    simp [openCall, Balanced]

end Steps

/-- A user's counter is right and within its limit after every step of a run if and only if every
step is balanced. -/
theorem auth_limit_iff {users : List Iax2User} {n : String} {u : Iax2User}
    (hu : users.find? (·.name = n) = some u) (hcur : u.curauthreq = 0) (hmax : 0 < u.maxauthreq)
    {ops : List Op} {t : Session} (h : Runs step anyStep (.start users) ops t) :
    Runs step (fun _ _ t => Limit n t) (.start users) ops t ↔
      Runs step (fun s op _ => Balanced n s op) (.start users) ops t := by
  have hstart : Limit n (.start users) := by
    have hcount : countOutstanding (.start users) n = 0 := by
      rw [countOutstanding, countP_eq_zero]
      intro c _
      simp [outstanding, openCall, Session.start]
    exact ⟨u, hu, by rw [hcur, hcount]; rfl, by omega⟩
  exact h.always_iff (fun s op t hs hlim hstep _ => ⟨hs.next hstep, limit_step hs hlim hstep⟩)
    (.initial users) hstart

def limitedUser : Iax2User := ⟨"user", "secret", "", false, 1, 0⟩

def newCalls (callno c : ℕ) : List Op :=
  [.find callno 0 ⟨1, 4569⟩ .allow 100 true, .access c ⟨some "user", 2, fun _ => true, none⟩]

theorem auth_limit_iff_verified : ∃ t,
    Runs step anyStep (.start [limitedUser]) (newCalls 7 1 ++ [.request 1, .verify 1]) t ∧
      (Runs step (fun _ _ t => Limit "user" t) (.start [limitedUser])
        (newCalls 7 1 ++ [.request 1, .verify 1]) t ↔
        Runs step (fun s op _ => Balanced "user" s op) (.start [limitedUser])
          (newCalls 7 1 ++ [.request 1, .verify 1]) t) :=
  exists_run_of_exec rfl (auth_limit_iff (u := limitedUser) rfl rfl (by decide))

/-- The second call is rejected at the limit, which releases the first one's place to a third. -/
theorem limit_exceeded : ∃ t,
    Runs step anyStep (.start [limitedUser])
      (newCalls 7 1 ++ [.request 1] ++ newCalls 8 2 ++ [.request 2] ++
      newCalls 9 3 ++ [.request 3]) t ∧
    outstanding t "user" 1 = true ∧ outstanding t "user" 3 = true ∧
    t.driver.users = [{ limitedUser with curauthreq := 1 }] :=
  exists_runs_of_exec (by decide +kernel)

end CallWeaver.Iax.Calls
