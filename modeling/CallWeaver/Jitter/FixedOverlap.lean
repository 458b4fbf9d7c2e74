import CallWeaver.Jitter.FixedPlayout

/-! # Overlapping frames in the fixed jitter buffer

A frame placed behind another one ends before the next one begins. In front of the first one it is
not compared with anything, so this is where frames can come to overlap.
-/

namespace CallWeaver.Jitter

open List Option

variable {α : Type} {jb jb' jb₁ jb₂ : ScxJb α} {c : PutCall α} {out : PutOutcome α}
  {l l₁ l' A B m m' : List (ℕ × ScxJbFrame α)} {s t : Session α} {op : Op α} {fuel : ℕ}
  {e first f : ℕ × ScxJbFrame α}

/-- The first frame is over when the second one is due. -/
def Before (c d : ℕ × ScxJbFrame α) : Prop := c.2.delivery + c.2.ms ≤ d.2.delivery

/-- No frame of the buffer overlaps with its successor. -/
def NoOverlap (jb : ScxJb α) : Prop :=
  ∀ l, DList jb.heap jb.frames jb.tail l → l.IsChain Before

theorem noOverlap_iff (hd : DList jb.heap jb.frames jb.tail l) :
    NoOverlap jb ↔ l.IsChain Before := by
  constructor
  · exact fun h => h l hd
  · intro h l' hd'
    rwa [DList.unique (A := []) hd' hd]

/-- If the new frame is due before all others, it is over when the first of them is due. -/
def PutCall.FirstFits (c : PutCall α) (jb : ScxJb α) : Prop :=
  ∀ l, DList jb.heap jb.frames jb.tail l → ∀ first ∈ l.head?, ∀ d, IsDue jb l c d →
    jb.nextDelivery ≤ d → d ≤ jb.nextDelivery + jb.delay + jb.conf.resyncThreshold →
    d < first.2.delivery → d + c.ms ≤ first.2.delivery

theorem IsDue.unique {d d' : ℤ} (h : IsDue jb l c d) (h' : IsDue jb l c d') : d = d' := by
  rcases h with ⟨hno, rfl⟩ | ⟨hyes, t, ht, rfl⟩ <;> rcases h' with ⟨hno', rfl⟩ |
    ⟨hyes', t', ht', rfl⟩
  · rfl
  · exact absurd hyes' hno
  · exact absurd hyes hno'
  · rw [mem_unique ht ht']

section

variable (ha : Adjusts jb l c jb₁ l₁)

include ha

theorem Adjusts.isChain : l₁.IsChain Before ↔ l.IsChain Before := by
  cases ha with
  | keep => exact Iff.rfl
  | first _ => exact Iff.rfl
  | shift _ => rw [isChain_map]; exact Iff.rfl

theorem Adjusts.head :
    l₁.head?.map (fun e => e.2.delivery) = l.head?.map fun e => e.2.delivery := by
  cases ha with
  | keep => rfl
  | first _ => rfl
  | shift _ =>
    rw [head?_map, Option.map_map]
    rfl

theorem Adjusts.reach (hne : l ≠ []) :
    jb₁.nextDelivery = jb.nextDelivery ∧ jb₁.delay = jb.delay ∧ jb₁.conf = jb.conf := by
  cases ha with
  | keep => exact ⟨rfl, rfl, rfl⟩
  | first hnil => exact absurd hnil hne
  | shift _ => exact ⟨rfl, rfl, rfl⟩

end

theorem exists_head (h : m'.head?.map (fun e => e.2.delivery) = m.head?.map fun e => e.2.delivery)
    (he : e ∈ m.head?) : ∃ e' ∈ m'.head?, e'.2.delivery = e.2.delivery := by
  rw [mem_def.mp he, map_some, map_eq_some_iff] at h
  exact h

theorem Linked.head_le (hl : Linked jb l) (hfirst : first ∈ l.head?) (he : e ∈ l) :
    first.2.delivery ≤ e.2.delivery := by
  obtain ⟨m, rfl⟩ := head?_eq_some_iff.mp hfirst
  rcases mem_cons.mp he with rfl | he
  · exact le_rfl
  · exact ((pairwise_cons.mp hl.sorted).1 e he).le

/-- A frame put behind others fits, and in front of them if it does not overlap with the first. -/
theorem Inserts.isChain_iff (hi : Inserts jb c A B jb₂) (hchain : (A ++ B).IsChain Before) :
    (A ++ (c.addr, c.frame jb) :: B).IsChain Before ↔
      (A = [] → ∀ e ∈ B.head?, Before (c.addr, c.frame jb) e) := by
  obtain ⟨hA, hB, -⟩ := isChain_append.mp hchain
  have hlast : ∀ e ∈ A.getLast?, Before e (c.addr, c.frame jb) := fun e he => (hi.before e he).2
  rw [isChain_append, isChain_cons]
  constructor
  · exact fun h _ => h.2.1.1
  · intro h
    refine ⟨hA, ⟨fun e he => ?_, hB⟩, fun e he d hd => ?_⟩
    · by_cases hnil : A = []
      · exact h hnil e he
      · exact hi.room hnil e he
    · rw [head?_cons, mem_some_iff] at hd
      exact hd ▸ hlast e he

theorem Puts.noOverlap_iff (hp : Puts jb l c out l') (hl : Linked jb l) (hno : NoOverlap jb) :
    NoOverlap out.jb ↔ c.FirstFits jb := by
  have hchain := hno l hl.list
  have hne : ∀ first ∈ l.head?, l ≠ [] := fun first hfirst hnil => by
    rw [hnil] at hfirst
    cases hfirst
  cases hp with
  | @dropped jb₁ l₁ offsets ha hblocked hdue _ =>
    have hl₁ := ha.linked hl
    refine iff_of_true ((Jitter.noOverlap_iff hl₁.list).mpr (ha.isChain.mpr hchain)) ?_
    intro m hm first hfirst d hd hlow hhigh hlt
    rw [DList.unique (A := []) hm hl.list] at hfirst hd
    rw [hd.unique hdue] at hlow hhigh hlt
    rcases hblocked with hout | ⟨A, B, rfl, hsplit, e, he, -⟩
    · obtain ⟨hnext, hdelay, hconf⟩ := ha.reach (hne first hfirst)
      rw [InReach, hnext, hdelay, hconf] at hout
      exact absurd ⟨hlow, hhigh⟩ hout
    · obtain ⟨first₁, hfirst₁, heq⟩ := exists_head ha.head hfirst
      have hle := hl₁.head_le hfirst₁ (mem_append_left B (mem_of_mem_getLast? he))
      have hle' := hsplit.1 e he
      omega
  | @inserted jb₁ jb₂ A B offsets ha hi hdue _ =>
    have hl₁ := ha.linked hl
    rw [Jitter.noOverlap_iff hi.list, hi.isChain_iff (ha.isChain.mpr hchain)]
    constructor
    · intro hbefore m hm first hfirst d hd hlow hhigh hlt
      rw [DList.unique (A := []) hm hl.list] at hfirst hd
      rw [hd.unique (hdue (hne first hfirst))] at hlow hhigh hlt ⊢
      obtain ⟨first₁, hfirst₁, heq⟩ := exists_head ha.head hfirst
      rcases A.eq_nil_or_concat' with rfl | ⟨A, a, rfl⟩
      · exact heq ▸ hbefore rfl first₁ hfirst₁
      · have hle := hl₁.head_le hfirst₁ (e := a) (by simp)
        have hlt' := (hi.before a (by simp)).1
        omega
    · rintro hfits rfl e he
      obtain ⟨first, hfirst, heq⟩ := exists_head ha.head.symm he
      obtain ⟨hnext, hdelay, hconf⟩ := ha.reach (hne first hfirst)
      have hreach := hi.reach
      rw [InReach, hnext, hdelay, hconf] at hreach
      have hlt := hi.after e (mem_of_mem_head? he)
      have hle :=
        hfits l hl.list first hfirst _ (hdue (hne first hfirst)) hreach.1 hreach.2 (heq ▸ hlt)
      rwa [heq] at hle

theorem NoOverlap.pop (hno : NoOverlap jb) (hd : DList jb.heap jb.frames jb.tail (f :: l))
    (hd' : DList jb'.heap jb'.frames jb'.tail l) : NoOverlap jb' :=
  (noOverlap_iff hd').mpr (isChain_cons.mp (hno _ hd)).2

def Op.Callable (s : Session α) : Op α → Prop
  | .putFirst c => c.Allowed s.jb
  | .put c => c.Allowed s.jb
  | .get now interpl => 0 ≤ now ∧ 2 ≤ interpl
  | .remove => True
  | .setForceResynch => True

instance (s : Session α) : (op : Op α) → Decidable (op.Callable s)
  | .putFirst _ => inferInstanceAs (Decidable (PutCall.Allowed _ _))
  | .put _ => inferInstanceAs (Decidable (PutCall.Allowed _ _))
  | .get _ _ => inferInstanceAs (Decidable (_ ∧ _))
  | .remove => inferInstanceAs (Decidable True)
  | .setForceResynch => inferInstanceAs (Decidable True)

/-- A frame that a call puts before all others fits there. -/
def Op.FirstFits (s : Session α) : Op α → Prop
  | .putFirst c => c.FirstFits (initFirst s.jb c)
  | .put c => c.FirstFits s.jb
  | _ => True

/-- Every call returns, and keeps the frames apart if and only if a frame that it puts before all
others fits there. -/
theorem step_overlap (hl : Linked s.jb l) (ha : op.Callable s) :
    ∃ t l', Linked t.jb l' ∧ (NoOverlap s.jb → (NoOverlap t.jb ↔ op.FirstFits s)) ∧
      ∀ fuel, l.length + 3 ≤ fuel → step s (fuel, op) = some t := by
  obtain ⟨hlist, hsorted, hdelay, hthreshold⟩ := id hl
  cases op with
  | putFirst c =>
    have hl' : Linked (initFirst s.jb c) l := ⟨hlist, hsorted, hdelay, hthreshold⟩
    obtain ⟨out, l', hputs, hput⟩ := scxJbPut_puts hl' ha
    refine ⟨{ s with jb := out.jb, clock := c.now, offsets := out.offsets }, l', hputs.linked hl',
      fun hno => hputs.noOverlap_iff hl' hno, fun fuel hfuel => ?_⟩
    simp only [step, scxJbPutFirst, hput fuel hfuel, bind_eq_bind, bind_some]
  | put c =>
    obtain ⟨out, l', hputs, hput⟩ := scxJbPut_puts hl ha
    refine ⟨{ s with jb := out.jb, clock := c.now, offsets := out.offsets }, l', hputs.linked hl,
      fun hno => hputs.noOverlap_iff hl hno, fun fuel hfuel => ?_⟩
    simp only [step, hput fuel hfuel, bind_eq_bind, bind_some]
  | get now interpl =>
    rcases scxJbGet_cases hlist ha with
      ⟨n, ret, hget, -⟩ | ⟨f, l', h, fr, tl, ret, rfl, hget, hd, -⟩
    · refine ⟨_, l, ?_, ?_, fun fuel _ => by simp [step, hget]; rfl⟩
      · exact ⟨hlist, hsorted, hdelay, hthreshold⟩
      · exact fun hno => iff_of_true hno trivial
    · refine ⟨_, l', ?_, ?_, fun fuel _ => by simp [step, hget]; rfl⟩
      · exact ⟨hd, (pairwise_cons.mp hsorted).2, hdelay, hthreshold⟩
      · exact fun hno => iff_of_true (hno.pop hlist hd) trivial
  | remove =>
    rcases scxJbRemove_cases hlist with ⟨rfl, hrem⟩ | ⟨f, l', h, fr, tl, rfl, hrem, hd⟩
    · exact ⟨s, [], hl, fun hno => iff_of_true hno trivial, fun fuel _ => by simp [step, hrem]⟩
    · refine ⟨_, l', ?_, ?_, fun fuel _ => by simp [step, hrem]; rfl⟩
      · exact ⟨hd, (pairwise_cons.mp hsorted).2, hdelay, hthreshold⟩
      · exact fun hno => iff_of_true (hno.pop hlist hd) trivial
  | setForceResynch =>
    refine ⟨{ s with jb := scxJbSetForceResynch s.jb }, l, ?_, ?_, fun _ _ => rfl⟩
    · exact ⟨hlist, hsorted, hdelay, hthreshold⟩
    · exact fun hno => iff_of_true hno trivial

/-- In every run, no two consecutive frames ever overlap if and only if every frame put before all
others fits there. Every further call returns. -/
theorem scx_no_overlap_iff (conf : ScxJbConf) {ops : List (ℕ × Op α)}
    (hr : Runs step (fun s a _ => a.2.Callable s) (Session.new conf) ops s) :
    (Runs step (fun _ _ t => NoOverlap t.jb) (Session.new conf) ops s ↔
        Runs step (fun s a _ => a.2.FirstFits s) (Session.new conf) ops s) ∧
      ∀ op, op.Callable s → ∃ n t, ∀ fuel, n ≤ fuel → step s (fuel, op) = some t := by
  have hnew : Linked (Session.new conf : Session α).jb [] := (frames_new conf).linked
  have hstep : ∀ (s : Session α) (a : ℕ × Op α) t, (∃ l, Linked s.jb l) → step s a = some t →
    a.2.Callable s →
      (∃ l, Linked t.jb l) ∧ (NoOverlap s.jb → (NoOverlap t.jb ↔ a.2.FirstFits s)) := by
    rintro s ⟨fuel, op⟩ t ⟨l, hl⟩ h ha
    obtain ⟨t', l', hl', hiff, hstep⟩ := step_overlap hl ha
    rw [step_unique h (hstep _ le_rfl)]
    exact ⟨⟨l', hl'⟩, hiff⟩
  refine ⟨hr.always_iff (I := fun s => ∃ l, Linked s.jb l) (fun s a t hi hp h ha => ?_) ⟨[],
    hnew⟩ ?_, fun op ha => ?_⟩
  · obtain ⟨hi', hiff⟩ := hstep s a t hi h ha
    exact ⟨hi', hiff hp⟩
  · exact (noOverlap_iff hnew.list).mpr .nil
  · obtain ⟨l, hl⟩ := hr.invariant (I := fun s => ∃ l, Linked s.jb l)
      (fun s a t hi h ha => (hstep s a t hi h ha).1) ⟨[], hnew⟩
    obtain ⟨t, l', -, -, hstep⟩ := step_overlap hl ha
    exact ⟨l.length + 3, t, hstep⟩

/-- The first frame is played. The third one is put before the second one, and fits there. -/
theorem scx_no_overlap_iff_three :
    ∃ s : Session ℕ, Runs step (fun s a _ => a.2.Callable s) (Session.new ⟨200, 1000⟩)
        [(3, .putFirst ⟨0, 20, 100, 0, 0⟩), (0, .get 200 20), (3, .put ⟨1, 20, 160, 210, 1⟩),
          (4, .put ⟨2, 20, 130, 211, 2⟩)] s ∧
      (Runs step (fun _ _ t => NoOverlap t.jb) (Session.new ⟨200, 1000⟩)
          [(3, .putFirst ⟨0, 20, 100, 0, 0⟩), (0, .get 200 20), (3, .put ⟨1, 20, 160, 210, 1⟩),
            (4, .put ⟨2, 20, 130, 211, 2⟩)] s ↔
        Runs step (fun s a _ => a.2.FirstFits s) (Session.new ⟨200, 1000⟩)
          [(3, .putFirst ⟨0, 20, 100, 0, 0⟩), (0, .get 200 20), (3, .put ⟨1, 20, 160, 210, 1⟩),
            (4, .put ⟨2, 20, 130, 211, 2⟩)] s) :=
  exists_run_of_exec rfl fun hr => (scx_no_overlap_iff _ hr).1

/-- The first frame is played. A frame for the time from 260 on waits when one for the 20 ms from
250 on is put before it. -/
theorem first_frame_overlaps :
    ∃ s : Session ℕ, Runs step (fun s a _ => a.2.Callable s) (Session.new ⟨200, 1000⟩)
        [(3, .putFirst ⟨0, 20, 0, 0, 0⟩), (0, .get 200 20), (3, .put ⟨1, 20, 60, 210, 1⟩),
          (4, .put ⟨2, 20, 50, 211, 2⟩)] s ∧
      s.jb.frames = some 2 ∧ s.jb.heap 2 = some ⟨⟨2, 50, 20, 250⟩, some 1, none⟩ ∧
      s.jb.heap 1 = some ⟨⟨1, 60, 20, 260⟩, none, some 2⟩ ∧ ¬ NoOverlap s.jb := by
  refine ⟨_, exec_eq_some_iff.mp rfl, rfl, rfl, rfl, fun hno => ?_⟩
  have hd := hno [(2, ⟨2, 50, 20, 250⟩), (1, ⟨1, 60, 20, 260⟩)] ⟨?_, ?_, by decide⟩
  · have hbefore : (250 : ℤ) + 20 ≤ 260 := (isChain_cons_cons.mp hd).1
    omega
  · exact Path.cons_cons.mpr ⟨⟨rfl, rfl⟩, Path.cons_cons.mpr ⟨⟨rfl, rfl⟩,
      Path.cons_cons.mpr ⟨⟨rfl, rfl⟩, .singleton _⟩⟩⟩
  · simp only [forall_mem_cons, not_mem_nil, false_implies, implies_true, and_true]
    exact ⟨rfl, rfl⟩

end CallWeaver.Jitter
