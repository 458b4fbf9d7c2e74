import CallWeaver.Jitter.FixedLinks

/-! # Adding a frame to the fixed jitter buffer

A frame takes its place in the list, or the buffer is resynchronised with it: an empty buffer is
initialized again, and in another one all timestamps are shifted, once at most. This holds for every
linked and sorted list, whatever its timestamps are.
-/

namespace CallWeaver.Jitter

open List Option

variable {α : Type} {jb jb₁ jb₂ : ScxJb α} {c : PutCall α} {out out' : PutOutcome α} {o d ts : ℤ}
  {l l₁ A B l' A' B' : List (ℕ × ScxJbFrame α)} {fuel fuel' : ℕ} {h h' : Cells (ScxJbFrame α)}
  {p : Option ℕ}

theorem findPlace_mono : Within (findPlace d fuel h p) (findPlace d (fuel + 1) h p) := by
  induction fuel generalizing p with
  | zero =>
    cases p with
    | none => exact .refl
    | some a => exact .none
  | succ fuel ih =>
    cases p with
    | none => exact .refl
    | some a => exact .bind .refl fun cell => .ite ih .refl

theorem shiftTs_mono : Within (shiftTs o fuel h p) (shiftTs o (fuel + 1) h p) := by
  induction fuel generalizing h p with
  | zero =>
    cases p with
    | none => exact .refl
    | some a => exact .none
  | succ fuel ih =>
    cases p with
    | none => exact .refl
    | some a => exact .bind .refl fun cell => .bind .refl fun h => ih

theorem resynchJb_mono {put put' putFirst putFirst' : ScxJb α → Option (PutOutcome α)}
    (hput : ∀ jb, Within (put jb) (put' jb)) (hfirst : ∀ jb, Within (putFirst jb) (putFirst' jb)) :
    Within (resynchJb fuel put putFirst jb ts) (resynchJb (fuel + 1) put' putFirst' jb ts) := by
  unfold resynchJb
  split
  · exact .ite (hfirst jb) .refl
  · refine .bind .refl fun tail => .bind .refl fun last => .ite .refl ?_
    exact .bind shiftTs_mono fun heap => .bind (hput _) fun out => .refl

theorem scxJbPut_mono : Within (scxJbPut c fuel jb) (scxJbPut c (fuel + 1) jb) := by
  induction fuel generalizing jb with
  | zero => exact .none
  | succ fuel ih =>
    have hresynch :
        Within
        (resynchJb fuel (scxJbPut c fuel) (fun jb => scxJbPut c fuel (initFirst jb c)) jb c.ts) _ :=
      resynchJb_mono (fun _ => ih) fun _ => ih
    refine .ite .refl (.ite hresynch (.ite hresynch ?_))
    exact .bind findPlace_mono fun frame => .bind .refl fun b => .ite hresynch .refl

theorem scxJbPut_unique (hp : scxJbPut c fuel jb = some out)
    (hp' : scxJbPut c fuel' jb = some out') : out = out' :=
  Within.unique (f := (scxJbPut c · jb)) (fun _ => scxJbPut_mono) hp hp'

/-- The frames are linked from `frames` to `tail` and back, and strictly sorted by delivery. -/
structure Linked (jb : ScxJb α) (l : List (ℕ × ScxJbFrame α)) : Prop where
  list : DList jb.heap jb.frames jb.tail l
  sorted : l.Pairwise fun c d => c.2.delivery < d.2.delivery
  delay : 0 < jb.delay
  threshold : 0 < jb.conf.resyncThreshold

def PutCall.frame (c : PutCall α) (jb : ScxJb α) : ScxJbFrame α :=
  ⟨c.data, c.ts, c.ms, jb.rxcore + jb.delay + c.ts⟩

def ScxJb.shift (o : ℤ) (jb : ScxJb α) (h : Cells (ScxJbFrame α)) : ScxJb α :=
  { jb with forceResynch := false, rxcore := jb.rxcore - o, heap := h }

def InReach (jb : ScxJb α) (c : PutCall α) : Prop :=
  jb.nextDelivery ≤ (c.frame jb).delivery ∧
    (c.frame jb).delivery ≤ jb.nextDelivery + jb.delay + jb.conf.resyncThreshold

def SplitsAt (d : ℤ) (A B : List (ℕ × ScxJbFrame α)) : Prop :=
  (∀ e ∈ A.getLast?, e.2.delivery ≤ d) ∧ ∀ e ∈ B, d < e.2.delivery

def Blocked (jb : ScxJb α) (l : List (ℕ × ScxJbFrame α)) (c : PutCall α) : Prop :=
  ¬ InReach jb c ∨ ∃ A B, l = A ++ B ∧ SplitsAt (c.frame jb).delivery A B ∧
    Covers (c.frame jb).delivery c.ms A B

def Jumps (jb : ScxJb α) (l : List (ℕ × ScxJbFrame α)) (c : PutCall α) : Prop :=
  ∃ t ∈ l.getLast?, jb.forceResynch = true ∨ jb.conf.resyncThreshold ≤ c.ts - t.2.ts - t.2.ms ∨
    c.ts - t.2.ts - t.2.ms ≤ -jb.conf.resyncThreshold

/-- When a frame for a buffer with the frames `l` is due: by its own timestamp, or, after a shift,
at the end of the last frame by the timestamp of that one. -/
def IsDue (jb : ScxJb α) (l : List (ℕ × ScxJbFrame α)) (c : PutCall α) (d : ℤ) : Prop :=
  (¬ (Blocked jb l c ∧ Jumps jb l c) ∧ d = jb.rxcore + jb.delay + c.ts) ∨
    ((Blocked jb l c ∧ Jumps jb l c) ∧ ∃ t ∈ l.getLast?, d = jb.rxcore + jb.delay + t.2.ts + t.2.ms)

inductive Adjusts (jb : ScxJb α) (l : List (ℕ × ScxJbFrame α)) (c : PutCall α) :
    ScxJb α → List (ℕ × ScxJbFrame α) → Prop where
  | keep : Adjusts jb l c jb l
  | first : l = [] → Adjusts jb l c (initFirst jb c) l
  | shift {o : ℤ} {h : Cells (ScxJbFrame α)} :
      DList h jb.frames jb.tail (l.map fun e => (e.1, e.2.shift o)) →
      Adjusts jb l c (jb.shift o h) (l.map fun e => (e.1, e.2.shift o))

/-- A frame is inserted between `A` and `B`, and compared with those behind it only if some are
before it. -/
structure Inserts (jb : ScxJb α) (c : PutCall α) (A B : List (ℕ × ScxJbFrame α)) (jb' : ScxJb α) :
    Prop where
  fields : ∃ h fr tl, jb' = { jb with forceResynch := false, heap := h, frames := fr, tail := tl }
  list : DList jb'.heap jb'.frames jb'.tail (A ++ (c.addr, c.frame jb) :: B)
  before : ∀ e ∈ A.getLast?, e.2.delivery < (c.frame jb).delivery ∧
    e.2.delivery + e.2.ms ≤ (c.frame jb).delivery
  after : ∀ e ∈ B, (c.frame jb).delivery < e.2.delivery
  room : A ≠ [] → ∀ e ∈ B.head?, (c.frame jb).delivery + c.ms ≤ e.2.delivery
  reach : InReach jb c

inductive Puts (jb : ScxJb α) (l : List (ℕ × ScxJbFrame α)) (c : PutCall α) :
    PutOutcome α → List (ℕ × ScxJbFrame α) → Prop where
  | dropped {jb₁ : ScxJb α} {l₁ : List (ℕ × ScxJbFrame α)} {offsets : List ℤ} :
      Adjusts jb l c jb₁ l₁ → Blocked jb₁ l₁ c → IsDue jb l c (c.frame jb₁).delivery →
      (∀ o ∈ offsets.tail, o = 0) → Puts jb l c ⟨jb₁, .drop, offsets⟩ l₁
  | inserted {jb₁ jb₂ : ScxJb α} {A B : List (ℕ × ScxJbFrame α)} {offsets : List ℤ} :
      Adjusts jb l c jb₁ (A ++ B) → Inserts jb₁ c A B jb₂ →
      (l ≠ [] → IsDue jb l c (c.frame jb₁).delivery) → (∀ o ∈ offsets.tail, o = 0) →
      Puts jb l c ⟨jb₂, .ok, offsets⟩ (A ++ (c.addr, c.frame jb₁) :: B)

theorem sorted_insert {x : ℕ × ScxJbFrame α}
    (hs : (A ++ B).Pairwise fun c d => c.2.delivery < d.2.delivery)
    (hA : ∀ c ∈ A.getLast?, c.2.delivery < x.2.delivery)
    (hB : ∀ c ∈ B, x.2.delivery < c.2.delivery) :
    (A ++ x :: B).Pairwise fun c d => c.2.delivery < d.2.delivery := by
  obtain ⟨hsA, hsB, hAB⟩ := pairwise_append.mp hs
  have hAx : ∀ c ∈ A, c.2.delivery < x.2.delivery := by
    rcases A.eq_nil_or_concat' with rfl | ⟨A, e, rfl⟩
    · simp
    · have he : e.2.delivery < x.2.delivery := hA e (by simp)
      intro c hc
      rcases mem_append.mp hc with hc | hc
      · exact ((pairwise_append.mp hsA).2.2 c hc e (by simp)).trans he
      · rwa [mem_singleton.mp hc]
  refine pairwise_append.mpr ⟨hsA, pairwise_cons.mpr ⟨hB, hsB⟩, ?_⟩
  intro c hc d hd
  rcases mem_cons.mp hd with rfl | hd
  · exact hAx c hc
  · exact hAB c hc d hd

theorem Adjusts.linked (ha : Adjusts jb l c jb₁ l₁) (hl : Linked jb l) : Linked jb₁ l₁ := by
  obtain ⟨hlist, hsorted, hdelay, hthreshold⟩ := hl
  cases ha with
  | keep | first hnil => exact ⟨hlist, hsorted, hdelay, hthreshold⟩
  | shift hlist' => exact ⟨hlist', pairwise_map.mpr hsorted, hdelay, hthreshold⟩

theorem Inserts.linked (hi : Inserts jb c A B jb₂) (hl : Linked jb (A ++ B)) :
    Linked jb₂ (A ++ (c.addr, c.frame jb) :: B) := by
  have hlist := hi.list
  have hsorted : (A ++ (c.addr, c.frame jb) :: B).Pairwise fun c d => c.2.delivery < d.2.delivery :=
    sorted_insert hl.sorted (fun e he => (hi.before e he).1) hi.after
  obtain ⟨h, fr, tl, rfl⟩ := hi.fields
  exact ⟨hlist, hsorted, hl.delay, hl.threshold⟩

theorem Puts.linked (hp : Puts jb l c out l') (hl : Linked jb l) : Linked out.jb l' := by
  cases hp with
  | dropped ha _ _ _ => exact ha.linked hl
  | inserted ha hi _ _ => exact hi.linked (ha.linked hl)

/-- The call that `scx_jb_put` makes for a frame that does not fit. -/
def resynch (c : PutCall α) (fuel : ℕ) (jb : ScxJb α) : Option (PutOutcome α) :=
  resynchJb fuel (scxJbPut c fuel) (fun jb => scxJbPut c fuel (initFirst jb c)) jb c.ts

theorem SplitsAt.unique (h : SplitsAt d A B) (h' : SplitsAt d A' B') (heq : A ++ B = A' ++ B') :
    A = A' ∧ B = B' := by
  have hnil : ∀ {A B A' B' x : List (ℕ × ScxJbFrame α)}, SplitsAt d A B → SplitsAt d A' B' →
      A' = A ++ x → B = x ++ B' → x = [] := by
    intro A B A' B' x h h' hA hB
    rcases x.eq_nil_or_concat' with hx | ⟨x, e, rfl⟩
    · exact hx
    · have hle : e.2.delivery ≤ d := h'.1 e (by simp [hA])
      have hlt : d < e.2.delivery := h.2 e (by simp [hB])
      omega
  rcases append_eq_append_iff.mp heq with ⟨x, hA, hB⟩ | ⟨x, hA, hB⟩
  · have hx := hnil h h' hA hB
    subst hx
    simp_all
  · have hx := hnil h' h hA hB
    subst hx
    simp_all

theorem scxJbPut_cases (hl : Linked jb l) (ha : c.Allowed jb) :
    ((∀ fuel, l.length < fuel → scxJbPut c (fuel + 1) jb = resynch c fuel jb) ∧ Blocked jb l c) ∨
      ∃ A B jb', l = A ++ B ∧ Inserts jb c A B jb' ∧ ¬ Blocked jb l c ∧
        ∀ fuel, l.length < fuel → scxJbPut c (fuel + 1) jb = some ⟨jb', .ok, []⟩ := by
  obtain ⟨hargs, haddr⟩ := ha
  by_cases hlate : jb.rxcore + jb.delay + c.ts < jb.nextDelivery
  · refine .inl ⟨fun fuel _ => ?_, .inl fun hin => absurd hin.1 (not_le.mpr hlate)⟩
    simp only [scxJbPut, if_neg (not_not.mpr hargs), if_pos hlate, resynch]
  by_cases hfuture :
    jb.rxcore + jb.delay + c.ts > jb.nextDelivery + jb.delay + jb.conf.resyncThreshold
  · refine .inl ⟨fun fuel _ => ?_, .inl fun hin => absurd hin.2 (not_le.mpr hfuture)⟩
    simp only [scxJbPut, if_neg (not_not.mpr hargs), if_neg hlate, if_pos hfuture, resynch]
  have hreach : InReach jb c := ⟨not_lt.mp hlate, not_lt.mp hfuture⟩
  have hput : ∀ fuel, scxJbPut c (fuel + 1) jb = (findPlace (c.frame jb).delivery fuel jb.heap
      jb.tail).bind fun frame => (covered jb.heap (c.frame jb).delivery c.ms frame).bind fun b =>
        if b then resynch c fuel jb
        else (insertFrame { jb with forceResynch := false } c.addr (c.frame jb) frame).bind
          fun jb => some ⟨jb, .ok, []⟩ := by
    intro fuel
    simp only [scxJbPut, if_neg (not_not.mpr hargs), if_neg hlate, if_neg hfuture, resynch]
    rfl
  obtain ⟨A, B, rfl, hA, hB, hfind⟩ :=
    findPlace_eq (d := (c.frame jb).delivery) (m := []) (by simpa using hl.list)
  have hsplit : SplitsAt (c.frame jb).delivery A B := ⟨hA, hB⟩
  obtain ⟨b, hcov, hcovers⟩ := covered_eq hl.list (c.frame jb).delivery c.ms
  rw [← hl.list.tail_eq] at hfind
  cases b with
  | true =>
    refine .inl ⟨fun fuel hfuel => ?_, .inr ⟨A, B, rfl, hsplit, hcovers.mp rfl⟩⟩
    rw [hput, hfind fuel hfuel, bind_some, hcov]
    rfl
  | false =>
    have hfree : ¬ Covers (c.frame jb).delivery c.ms A B :=
      fun h => Bool.false_ne_true (hcovers.mpr h)
    have hx : jb.heap.valOf c.addr = none := by simp [Cells.valOf, haddr]
    obtain ⟨h', fr', tl', hins, hd'⟩ :=
      insertFrame_eq { jb with forceResynch := false } (f := c.frame jb) hl.list hx
    refine .inr ⟨A, B, _, rfl,
      ⟨⟨h', fr', tl', rfl⟩, hd', fun e he => ?_, hB, fun hne e he => ?_, hreach⟩,
      ?_, fun fuel hfuel => ?_⟩
    · have hne : ¬ (e.2.delivery = (c.frame jb).delivery) := fun h => hfree ⟨e, he, .inl h⟩
      have hend : ¬ ((c.frame jb).delivery < e.2.delivery + e.2.ms) :=
        fun h => hfree ⟨e, he, .inr (.inl h)⟩
      exact ⟨lt_of_le_of_ne (hA e he) hne, not_lt.mp hend⟩
    · by_contra hroom
      exact hfree ⟨_, getLast?_eq_some_getLast hne, .inr (.inr ⟨e, he, not_le.mp hroom⟩)⟩
    · rintro (hout | ⟨A', B', heq, hsplit', hcovers'⟩)
      · exact hout hreach
      · obtain ⟨rfl, rfl⟩ := hsplit.unique hsplit' heq
        exact hfree hcovers'
    · rw [hput, hfind fuel hfuel, bind_some, hcov, bind_some,
        if_neg Bool.false_ne_true, hins, bind_some]

theorem resynch_empty (hl : Linked jb []) :
    resynch c fuel jb = scxJbPut c fuel (initFirst jb c) := by
  obtain ⟨hfr, htl⟩ := DList.nil_iff.mp hl.list
  simp only [resynch, resynchJb, hfr, htl, if_true]

variable {t : ℕ × ScxJbFrame α}

theorem resynch_cases (hl : Linked jb (l ++ [t])) (ho : o = c.ts - t.2.ts - t.2.ms) :
    ((∀ fuel, resynch c fuel jb = some ⟨jb, .drop, [o]⟩) ∧ ¬ Jumps jb (l ++ [t]) c) ∨
      (Jumps jb (l ++ [t]) c ∧ ∃ h', (∀ a, jb.heap a = none → h' a = none) ∧
        DList h' jb.frames jb.tail ((l ++ [t]).map fun e => (e.1, e.2.shift o)) ∧
        ∀ fuel, (l ++ [t]).length < fuel → resynch c fuel jb =
          (scxJbPut c fuel (jb.shift o h')).map fun out =>
          { out with offsets := o :: out.offsets }) := by
  obtain ⟨a, m, ham⟩ : ∃ a m, l ++ [t] = a :: m := exists_cons_of_ne_nil (by simp)
  have hfr : jb.frames = some a.1 := by rw [hl.list.head_eq, ham, headPtr_cons]
  have htl : jb.tail = some t.1 := by rw [hl.list.tail_eq, lastPtr_concat]
  have hcell : jb.heap t.1 = some ⟨t.2, none, lastPtr l⟩ := hl.list.cell
  have hjumps : Jumps jb (l ++ [t]) c ↔
      ¬ (jb.forceResynch = false ∧ o < jb.conf.resyncThreshold ∧ o > -jb.conf.resyncThreshold) := by
    simp only [Jumps, getLast?_concat, mem_some_iff, exists_eq_left', ← ho, not_and_or,
      Bool.not_eq_false, not_lt]
  by_cases hdrop : jb.forceResynch = false ∧ o < jb.conf.resyncThreshold ∧
    o > -jb.conf.resyncThreshold
  · refine .inl ⟨fun fuel => ?_, fun h => hjumps.mp h hdrop⟩
    rw [ho] at hdrop ⊢
    simp only [resynch, resynchJb, hfr, htl, bind_eq_bind, bind_some, hcell, if_pos hdrop]
  · right
    obtain ⟨h', hshift, hd', hfree⟩ := shiftTs_eq (A := []) (o := o) hl.list
    refine ⟨hjumps.mpr hdrop, h', hfree, hd', fun fuel hfuel => ?_⟩
    have hsh : shiftTs o fuel jb.heap (headPtr (l ++ [t])) = some h' := hshift fuel hfuel
    rw [← hl.list.head_eq, hfr] at hsh
    rw [ho] at hdrop hsh ⊢
    simp only [resynch, resynchJb, hfr, htl, bind_eq_bind, bind_some, hcell,
      if_neg hdrop, hsh, ScxJb.shift]
    cases scxJbPut c fuel _ <;> rfl

theorem resynch_shifted (hl : Linked (jb.shift o h') ((l ++ [t]).map fun e => (e.1, e.2.shift o)))
    (ho : o = c.ts - t.2.ts - t.2.ms) (fuel : ℕ) :
    resynch c fuel (jb.shift o h') = some ⟨jb.shift o h', .drop, [0]⟩ := by
  have hzero : (0 : ℤ) = c.ts - (t.2.shift o).ts - (t.2.shift o).ms := by
    simp only [ScxJbFrame.shift]
    omega
  have hthreshold := hl.threshold
  rw [map_append, map_singleton] at hl
  rcases resynch_cases (c := c) hl hzero with ⟨hdrop, -⟩ | ⟨⟨t', ht', hjump⟩, -⟩
  · exact hdrop fuel
  · rw [getLast?_concat, mem_some_iff] at ht'
    subst ht'
    rw [← hzero] at hjump
    rcases hjump with hforce | hjump
    · cases hforce
    · omega

/-- The resynchronisation of a buffer with frames: a second one on the way finds the offset zero and
drops the frame. -/
theorem resynch_spec (hl : Linked jb (l ++ [t])) (ha : c.Allowed jb)
    (hblocked : Blocked jb (l ++ [t]) c) :
    ∃ out l', Puts jb (l ++ [t]) c out l' ∧ ∀ fuel, (l ++ [t]).length + 2 ≤ fuel →
      resynch c fuel jb = some out := by
  generalize ho : c.ts - t.2.ts - t.2.ms = o
  rcases resynch_cases (c := c) hl ho.symm with ⟨hdrop, hno⟩ | ⟨hjumps, h', hfree, hd', hagain⟩
  · refine ⟨⟨jb, .drop, [o]⟩, _, .dropped .keep hblocked (.inl ⟨fun h => hno h.2, rfl⟩) (by simp),
      ?_⟩
    exact fun fuel _ => hdrop fuel
  have hadj : Adjusts jb (l ++ [t]) c (jb.shift o h') _ := .shift hd'
  have hl' := hadj.linked hl
  have hdue : IsDue jb (l ++ [t]) c (c.frame (jb.shift o h')).delivery := by
    refine .inr ⟨⟨hblocked, hjumps⟩, t, by simp, ?_⟩
    simp only [PutCall.frame, ScxJb.shift]
    omega
  rcases scxJbPut_cases hl' ⟨ha.1, hfree _ ha.2⟩ with ⟨hre, hblocked'⟩ |
    ⟨A, B, jb₂, hAB, hins, -, hput⟩
  · refine ⟨⟨jb.shift o h', .drop, [o, 0]⟩, _, .dropped hadj hblocked' hdue (by simp),
      fun fuel hfuel => ?_⟩
    obtain ⟨fuel, rfl⟩ := exists_round hfuel
    rw [hagain (fuel + 1) (by omega), hre fuel (by rw [length_map]; omega),
      resynch_shifted hl' ho.symm fuel, map_some]
  · rw [hAB] at hadj
    refine ⟨⟨jb₂, .ok, [o]⟩, _, .inserted hadj hins (fun _ => hdue) (by simp), fun fuel hfuel => ?_⟩
    obtain ⟨fuel, rfl⟩ := exists_round hfuel
    rw [hagain (fuel + 1) (by omega), hput fuel (by rw [length_map]; omega), map_some]

theorem scxJbPut_puts (hl : Linked jb l) (ha : c.Allowed jb) :
    ∃ out l', Puts jb l c out l' ∧ ∀ fuel, l.length + 3 ≤ fuel → scxJbPut c fuel jb = some out := by
  rcases scxJbPut_cases hl ha with ⟨hre, hblocked⟩ | ⟨A, B, jb₂, rfl, hins, hfree, hput⟩
  swap
  · refine ⟨⟨jb₂, .ok, []⟩, _,
      .inserted .keep hins (fun _ => .inl ⟨fun h => hfree h.1, rfl⟩) (by simp),
      fun fuel hfuel => ?_⟩
    obtain ⟨fuel, rfl⟩ := exists_round hfuel
    exact hput fuel (by omega)
  rcases l.eq_nil_or_concat' with rfl | ⟨l, t, rfl⟩
  · -- the empty buffer is initialized for the frame, which is then in reach
    have hadj : Adjusts jb [] c (initFirst jb c) [] := .first rfl
    have hin : InReach (initFirst jb c) c := by
      have hdelay := hl.delay
      have hthreshold := hl.threshold
      simp only [InReach, initFirst, PutCall.frame]
      constructor <;> omega
    rcases scxJbPut_cases (hadj.linked hl) ha with ⟨-, hblocked'⟩ | ⟨A, B, jb₂, hAB, hins, -, hput⟩
    · rcases hblocked' with hout | ⟨A, B, hAB, -, e, he, -⟩
      · exact absurd hin hout
      · rw [(append_eq_nil_iff.mp hAB.symm).1] at he
        cases he
    · obtain ⟨rfl, rfl⟩ := append_eq_nil_iff.mp hAB.symm
      refine ⟨⟨jb₂, .ok, []⟩, _, .inserted hadj hins (fun h => absurd rfl h) (by simp),
        fun fuel hfuel => ?_⟩
      obtain ⟨fuel, rfl⟩ : ∃ k, fuel = k + 2 := ⟨fuel - 2, by omega⟩
      rw [hre (fuel + 1) (by simp), resynch_empty hl]
      exact hput fuel (by simp at hfuel ⊢; omega)
  · obtain ⟨out, l', hputs, hresynch⟩ := resynch_spec hl ha hblocked
    refine ⟨out, l', hputs, fun fuel hfuel => ?_⟩
    obtain ⟨fuel, rfl⟩ := exists_round hfuel
    rw [hre fuel (by omega), hresynch fuel (by omega)]

end CallWeaver.Jitter
