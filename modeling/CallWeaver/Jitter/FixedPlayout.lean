import CallWeaver.Jitter.FixedPutting

/-! # Runs of the fixed jitter buffer

The list of frames stays linked and strictly sorted by delivery, and a nested resynchronisation
finds nothing to correct. So every call returns, and frames are played in the order of their
delivery.
-/

namespace CallWeaver.Jitter

open List Option

variable {α : Type} {jb jb' : ScxJb α} {c : PutCall α} {out : PutOutcome α} {now interpl o n : ℤ}
  {l l' : List (ℕ × ScxJbFrame α)} {fuel fuel' : ℕ}

/-- The frames are linked from `frames` to `tail` and back, strictly sorted by delivery, each with
the delivery that its timestamp has now. -/
structure Frames (jb : ScxJb α) (l : List (ℕ × ScxJbFrame α)) : Prop where
  list : DList jb.heap jb.frames jb.tail l
  sorted : l.Pairwise fun c d => c.2.delivery < d.2.delivery
  delivery : ∀ c ∈ l, c.2.delivery = jb.rxcore + jb.delay + c.2.ts
  ms : ∀ c ∈ l, 2 ≤ c.2.ms
  delay : 0 < jb.delay
  threshold : 0 < jb.conf.resyncThreshold

theorem frames_new (conf : ScxJbConf) : Frames (scxJbNew conf : ScxJb α) [] := by
  refine ⟨DList.nil_iff.mpr ⟨rfl, rfl⟩, .nil, by simp, by simp, ?_, ?_⟩
  · simp only [scxJbNew]
    split <;> omega
  · simp only [scxJbNew]
    split <;> omega

structure Adds (jb : ScxJb α) (l : List (ℕ × ScxJbFrame α)) (c : PutCall α) (out : PutOutcome α)
    (l' : List (ℕ × ScxJbFrame α)) : Prop where
  frames : Frames out.jb l'
  next : out.jb.nextDelivery = jb.nextDelivery ∨ out.jb.nextDelivery = c.now + jb.delay
  old_or_due : ∀ d ∈ l', (∃ e ∈ l, e.2.delivery = d.2.delivery) ∨ out.jb.nextDelivery ≤ d.2.delivery
  offsets : ∀ o ∈ out.offsets.tail, o = 0

section Put

variable {jb₁ jb₂ : ScxJb α} {l₁ A B : List (ℕ × ScxJbFrame α)}

theorem Frames.linked (hf : Frames jb l) : Linked jb l :=
  ⟨hf.list, hf.sorted, hf.delay, hf.threshold⟩

section

variable (ha : Adjusts jb l c jb₁ l₁)

include ha

theorem Adjusts.frames (hf : Frames jb l) : Frames jb₁ l₁ := by
  obtain ⟨hlist, hsorted, hdelay, hthreshold⟩ := ha.linked hf.linked
  refine ⟨hlist, hsorted, ?_, ?_, hdelay, hthreshold⟩
  · cases ha with
    | keep => exact hf.delivery
    | first hnil => simp [hnil]
    | shift _ =>
      intro d hd
      obtain ⟨e, he, rfl⟩ := mem_map.mp hd
      have := hf.delivery e he
      simp only [ScxJbFrame.shift, ScxJb.shift]
      omega
  · cases ha with
    | keep => exact hf.ms
    | first hnil => exact hf.ms
    | shift _ =>
      intro d hd
      obtain ⟨e, he, rfl⟩ := mem_map.mp hd
      exact hf.ms e he

theorem Adjusts.next :
    jb₁.nextDelivery = jb.nextDelivery ∨ jb₁.nextDelivery = c.now + jb.delay := by
  cases ha with
  | keep => exact .inl rfl
  | first _ => exact .inr rfl
  | shift _ => exact .inl rfl

theorem Adjusts.old : ∀ d ∈ l₁, ∃ e ∈ l, e.2.delivery = d.2.delivery := by
  intro d hd
  cases ha with
  | keep => exact ⟨d, hd, rfl⟩
  | first _ => exact ⟨d, hd, rfl⟩
  | shift _ =>
    obtain ⟨e, he, rfl⟩ := mem_map.mp hd
    exact ⟨e, he, rfl⟩

end

theorem Inserts.frames (hi : Inserts jb c A B jb₂) (hf : Frames jb (A ++ B)) (hms : 2 ≤ c.ms) :
    Frames jb₂ (A ++ (c.addr, c.frame jb) :: B) := by
  obtain ⟨hlist, hsorted, hdelay, hthreshold⟩ := hi.linked hf.linked
  have hmem : ∀ d ∈ A ++ (c.addr, c.frame jb) :: B, d ∈ A ++ B ∨ d = (c.addr, c.frame jb) := by
    intro d hd
    rw [mem_append, mem_cons] at hd
    rw [mem_append]
    tauto
  refine ⟨hlist, hsorted, fun d hd => ?_, fun d hd => ?_, hdelay, hthreshold⟩
  · obtain ⟨h, fr, tl, rfl⟩ := hi.fields
    rcases hmem d hd with hd | rfl
    · exact hf.delivery d hd
    · rfl
  · rcases hmem d hd with hd | rfl
    · exact hf.ms d hd
    · exact hms

theorem Puts.adds (hp : Puts jb l c out l') (hf : Frames jb l) (hms : 2 ≤ c.ms) :
    Adds jb l c out l' := by
  cases hp with
  | dropped ha _ _ hoffsets =>
    exact ⟨ha.frames hf, ha.next, fun d hd => .inl (ha.old d hd), hoffsets⟩
  | @inserted jb₁ jb₂ A B offsets ha hi _ hoffsets =>
    have hnext : jb₂.nextDelivery = jb₁.nextDelivery := by
      obtain ⟨h, fr, tl, rfl⟩ := hi.fields
      rfl
    refine ⟨hi.frames (ha.frames hf) hms, by simpa only [hnext] using ha.next,
      fun d hd => ?_, hoffsets⟩
    rw [mem_append, mem_cons, or_left_comm, ← mem_append] at hd
    rcases hd with rfl | hd
    · right
      simpa only [hnext] using hi.reach.1
    · exact .inl (ha.old d hd)

theorem scxJbPut_spec (hf : Frames jb l) (ha : c.Allowed jb) :
    ∃ out l', Adds jb l c out l' ∧ ∀ fuel, l.length + 3 ≤ fuel → scxJbPut c fuel jb = some out := by
  obtain ⟨out, l', hputs, hput⟩ := scxJbPut_puts hf.linked ha
  exact ⟨out, l', hputs.adds hf ha.1.1, hput⟩

theorem scxJbPutFirst_spec (hf : Frames jb []) (ha : c.Allowed jb) :
    ∃ out l', Adds jb [] c out l' ∧ ∀ fuel, 3 ≤ fuel → scxJbPutFirst c fuel jb = some out := by
  have hf' : Frames (initFirst jb c) [] := Adjusts.frames (.first rfl) hf
  obtain ⟨out, l', hadds, hput⟩ := scxJbPut_spec hf' ha
  refine ⟨out, l', ⟨hadds.frames, .inr ?_, hadds.old_or_due, hadds.offsets⟩, hput⟩
  rcases hadds.next with hn | hn <;> exact hn

end Put

theorem Frames.pop {f : ℕ × ScxJbFrame α} {h : Cells (ScxJbFrame α)} {fr tl : Option ℕ}
    (hf : Frames jb (f :: l)) (hd : DList h fr tl l) :
    Frames { jb with heap := h, frames := fr, tail := tl, nextDelivery := n } l := by
  refine ⟨hd, (pairwise_cons.mp hf.sorted).2, ?_, ?_, hf.delay, hf.threshold⟩
  · exact fun d hd => hf.delivery d (mem_cons_of_mem _ hd)
  · exact fun d hd => hf.ms d (mem_cons_of_mem _ hd)

theorem scxJbGet_spec (hf : Frames jb l) (ha : 0 ≤ now ∧ 2 ≤ interpl) :
    (∃ jb' ret, scxJbGet jb now interpl = some (jb', ret, none) ∧ Frames jb' l ∧
      jb.nextDelivery ≤ jb'.nextDelivery) ∨
      ∃ f l' jb' ret, l = f :: l' ∧ scxJbGet jb now interpl = some (jb', ret, some f.2) ∧
        Frames jb' l' ∧ jb'.nextDelivery = f.2.delivery + f.2.ms ∧ f.2.delivery ≤ now := by
  rcases scxJbGet_cases hf.list ha with ⟨n, ret, hget, hle⟩ |
    ⟨f, l', h, fr, tl, ret, rfl, hget, hd, hdue⟩
  · left
    exact ⟨_, ret, hget, { hf with }, hle⟩
  · have hms := hf.ms f (by simp)
    exact .inr ⟨f, l', _, ret, rfl, hget, hf.pop hd, rfl, by omega⟩

theorem scxJbRemove_spec (hf : Frames jb l) :
    ∃ jb' ret frame l', scxJbRemove jb = some (jb', ret, frame) ∧ Frames jb' l' := by
  rcases scxJbRemove_cases hf.list with ⟨rfl, hrem⟩ | ⟨f, l', h, fr, tl, rfl, hrem, hd⟩
  · exact ⟨jb, .noframe, none, [], hrem, hf⟩
  · exact ⟨_, .ok, some f.2, l', hrem, hf.pop hd⟩

section Runs

variable {s t t' : Session α} {op : Op α}

structure Good (s : Session α) (l : List (ℕ × ScxJbFrame α)) : Prop where
  frames : Frames s.jb l
  offsets : ∀ o ∈ s.offsets.tail, o = 0

inductive Effect (s : Session α) (l : List (ℕ × ScxJbFrame α)) :
    Op α → Session α → List (ℕ × ScxJbFrame α) → Prop where
  | putFirst {c : PutCall α} {out : PutOutcome α} {l' : List (ℕ × ScxJbFrame α)} :
      Adds s.jb l c out l' →
      Effect s l (.putFirst c) { s with jb := out.jb, clock := c.now, offsets := out.offsets } l'
  | put {c : PutCall α} {out : PutOutcome α} {l' : List (ℕ × ScxJbFrame α)} :
      Adds s.jb l c out l' →
      Effect s l (.put c) { s with jb := out.jb, clock := c.now, offsets := out.offsets } l'
  | wait {now interpl : ℤ} {jb' : ScxJb α} :
      Frames jb' l → s.jb.nextDelivery ≤ jb'.nextDelivery →
      Effect s l (.get now interpl) { s with jb := jb', clock := now } l
  | play {now interpl : ℤ} {jb' : ScxJb α} {f : ℕ × ScxJbFrame α} {l' : List (ℕ × ScxJbFrame α)} :
      l = f :: l' → Frames jb' l' → jb'.nextDelivery = f.2.delivery + f.2.ms → f.2.delivery ≤ now →
      Effect s l (.get now interpl) { s with jb := jb', clock := now, played := s.played ++ [f.2] }
      l'
  | remove {jb' : ScxJb α} {l' : List (ℕ × ScxJbFrame α)} :
      Frames jb' l' → Effect s l .remove { s with jb := jb' } l'
  | setForceResynch : Effect s l .setForceResynch { s with jb := scxJbSetForceResynch s.jb } l

theorem step_total (hf : Frames s.jb l) (ha : op.Allowed s) :
    ∃ t l', Effect s l op t l' ∧ ∀ fuel, l.length + 3 ≤ fuel → step s (fuel, op) = some t := by
  cases op with
  | putFirst c =>
    obtain rfl : l = [] := by
      cases l with
      | nil => rfl
      | cons f l =>
        have hfr : s.jb.frames = some f.1 := hf.list.head_eq
        rw [ha.1] at hfr
        cases hfr
    obtain ⟨out, l', hadds, hput⟩ := scxJbPutFirst_spec hf ha.2
    refine ⟨_, l', .putFirst hadds, fun fuel hfuel => ?_⟩
    simp only [step, hput fuel hfuel, bind_eq_bind, bind_some]
  | put c =>
    obtain ⟨out, l', hadds, hput⟩ := scxJbPut_spec hf ha
    refine ⟨_, l', .put hadds, fun fuel hfuel => ?_⟩
    simp only [step, hput fuel hfuel, bind_eq_bind, bind_some]
  | get now interpl =>
    rcases scxJbGet_spec hf ha with ⟨jb', ret, hget, hf', hle⟩ |
      ⟨f, l', jb', ret, hl, hget, hf', hn, hdue⟩
    · refine ⟨_, l, .wait hf' hle, fun fuel _ => ?_⟩
      simp [step, hget]
    · refine ⟨_, l', .play hl hf' hn hdue, fun fuel _ => ?_⟩
      simp [step, hget]
  | remove =>
    obtain ⟨jb', ret, frame, l', hrem, hf'⟩ := scxJbRemove_spec hf
    refine ⟨_, l', .remove hf', fun fuel _ => ?_⟩
    simp [step, hrem]
  | setForceResynch => exact ⟨_, l, .setForceResynch, fun _ _ => rfl⟩

theorem step_unique (h : step s (fuel, op) = some t) (h' : step s (fuel', op) = some t') :
    t = t' := by
  cases op with
  | putFirst c | put c =>
    obtain ⟨out, hp, h⟩ := bind_eq_some_iff.mp h
    obtain ⟨out', hp', h'⟩ := bind_eq_some_iff.mp h'
    obtain rfl : out = out' := scxJbPut_unique hp hp'
    exact some.inj (h.symm.trans h')
  | get now interpl | remove | setForceResynch => exact some.inj (h.symm.trans h')

theorem step_effect (hf : Frames s.jb l) (ha : op.Allowed s) (h : step s (fuel, op) = some t) :
    ∃ l', Effect s l op t l' := by
  obtain ⟨t', l', he, hstep⟩ := step_total hf ha
  rw [step_unique h (hstep _ le_rfl)]
  exact ⟨l', he⟩

theorem Effect.good (he : Effect s l op t l') (hs : Good s l) : Good t l' := by
  cases he with
  | putFirst hadds | put hadds => exact ⟨hadds.frames, hadds.offsets⟩
  | wait hf _ | play _ hf _ _ | remove hf => exact ⟨hf, hs.offsets⟩
  | setForceResynch =>
    obtain ⟨hlist, hsorted, hdelivery, hms, hdelay, hthreshold⟩ := hs.frames
    exact ⟨⟨hlist, hsorted, hdelivery, hms, hdelay, hthreshold⟩, hs.offsets⟩

theorem good_of_runs (conf : ScxJbConf) {ops : List (ℕ × Op α)}
    (hr : Runs step (fun s a _ => a.2.Allowed s) (Session.new conf) ops s) : ∃ l, Good s l := by
  refine hr.invariant (I := fun s => ∃ l, Good s l) ?_ ⟨[], frames_new conf, by simp [Session.new]⟩
  rintro s ⟨fuel, op⟩ t ⟨l, hs⟩ hstep ha
  obtain ⟨l', he⟩ := step_effect hs.frames ha hstep
  exact ⟨l', he.good hs⟩

/-- Every run keeps the frames linked, sorted and at their deliveries. Every further call returns,
and no resynchronisation that it nests in another one has an offset other than zero. -/
theorem scx_run_consistent (conf : ScxJbConf) {ops : List (ℕ × Op α)}
    (hr : Runs step (fun s a _ => a.2.Allowed s) (Session.new conf) ops s) :
    (∃ l, Frames s.jb l) ∧
      ∀ op, op.Allowed s → ∃ n t, (∀ fuel, n ≤ fuel → step s (fuel, op) = some t) ∧
        ∀ o ∈ t.offsets.tail, o = 0 := by
  obtain ⟨l, hs⟩ := good_of_runs conf hr
  refine ⟨⟨l, hs.frames⟩, fun op ha => ?_⟩
  obtain ⟨t, l', he, hstep⟩ := step_total hs.frames ha
  exact ⟨l.length + 3, t, hstep, (he.good hs).offsets⟩

/-- A third frame whose timestamp jumps shifts the two frames before it. -/
theorem scx_run_consistent_jump :
    ∃ s : Session ℕ, Runs step (fun s a _ => a.2.Allowed s) (Session.new ⟨200, 1000⟩)
        [(3, .putFirst ⟨0, 20, 0, 0, 0⟩), (4, .put ⟨1, 20, 20, 20, 1⟩),
          (5, .put ⟨2, 20, 9040, 40, 2⟩)] s ∧
      s.jb.rxcore = -9000 ∧ (∃ l, Frames s.jb l) ∧
      ∀ op, op.Allowed s → ∃ n t, (∀ fuel, n ≤ fuel → step s (fuel, op) = some t) ∧
      ∀ o ∈ t.offsets.tail, o = 0 :=
  exists_run_of_exec rfl fun hr => ⟨rfl, scx_run_consistent _ hr⟩

/-- The calls in a run in which time does not go back and no frame is removed unplayed. -/
def Op.Timely (s : Session α) : Op α → Prop
  | .putFirst c => s.clock ≤ c.now
  | .put c => s.clock ≤ c.now
  | .get now _ => s.clock ≤ now
  | .remove => False
  | .setForceResynch => True

instance (s : Session α) : (op : Op α) → Decidable (op.Timely s)
  | .putFirst _ => inferInstanceAs (Decidable (_ ≤ _))
  | .put _ => inferInstanceAs (Decidable (_ ≤ _))
  | .get _ _ => inferInstanceAs (Decidable (_ ≤ _))
  | .remove => inferInstanceAs (Decidable False)
  | .setForceResynch => inferInstanceAs (Decidable True)

structure Played (s : Session α) (l : List (ℕ × ScxJbFrame α)) : Prop where
  sorted : (s.played.map ScxJbFrame.delivery).Pairwise (· < ·)
  next : ∀ f ∈ s.played, f.delivery < s.jb.nextDelivery
  clock : ∀ f ∈ s.played, f.delivery ≤ s.clock
  before : ∀ f ∈ s.played, ∀ c ∈ l, f.delivery < c.2.delivery

theorem Played.adds (hp : Played s l) (hdelay : 0 < s.jb.delay) (hadds : Adds s.jb l c out l')
    (hnow : s.clock ≤ c.now) :
    Played { s with jb := out.jb, clock := c.now, offsets := out.offsets } l' := by
  have hnext : ∀ f ∈ s.played, f.delivery < out.jb.nextDelivery := by
    intro f hf
    have hlt := hp.next f hf
    have hle := hp.clock f hf
    rcases hadds.next with hn | hn <;> omega
  refine ⟨hp.sorted, hnext, fun f hf => (hp.clock f hf).trans hnow, fun f hf d hd => ?_⟩
  rcases hadds.old_or_due d hd with ⟨e, he, hed⟩ | hdue
  · exact hed ▸ hp.before f hf e he
  · exact (hnext f hf).trans_le hdue

theorem Effect.played (he : Effect s l op t l') (hf : Frames s.jb l) (hp : Played s l)
    (ht : op.Timely s) : Played t l' := by
  cases he with
  | putFirst hadds | put hadds => exact hp.adds hf.delay hadds ht
  | wait _ hle =>
    refine ⟨hp.sorted, fun f hf => ?_, fun f hf => (hp.clock f hf).trans ht, hp.before⟩
    exact (hp.next f hf).trans_le hle
  | @play now interpl jb' f l' hl hf' hn hdue =>
    subst hl
    have hms := hf.ms f (by simp)
    have hafter : ∀ e ∈ s.played, e.delivery < f.2.delivery :=
      fun e he => hp.before e he f (by simp)
    refine ⟨?_, fun e he => ?_, fun e he => ?_, fun e he d hd => ?_⟩
    · rw [map_append, pairwise_append]
      refine ⟨hp.sorted, by simp, ?_⟩
      intro x hx y hy
      obtain ⟨e, he, rfl⟩ := mem_map.mp hx
      obtain rfl : y = f.2.delivery := by simpa using hy
      exact hafter e he
    all_goals
      rcases mem_append.mp he with he | he
    · have := hafter e he
      simp only [hn]
      omega
    · rw [mem_singleton.mp he]
      simp only [hn]
      omega
    · exact ((hafter e he).le).trans hdue
    · rw [mem_singleton.mp he]
      exact hdue
    · exact hp.before e he d (mem_cons_of_mem _ hd)
    · rw [mem_singleton.mp he]
      exact (pairwise_cons.mp hf.sorted).1 d hd
  | remove _ => exact ht.elim
  | setForceResynch => exact { hp with }

/-- The frames that a run hands out have strictly increasing deliveries. -/
theorem scx_played_sorted (conf : ScxJbConf) {ops : List (ℕ × Op α)}
    (hr : Runs step (fun s a _ => a.2.Allowed s ∧ a.2.Timely s) (Session.new conf) ops s) :
    (s.played.map ScxJbFrame.delivery).Pairwise (· < ·) := by
  have hinv : ∃ l, Good s l ∧ Played s l := by
    refine hr.invariant (I := fun s => ∃ l, Good s l ∧ Played s l) ?_
      ⟨[], ⟨frames_new conf, by simp [Session.new]⟩, ⟨.nil, ?_, ?_, ?_⟩⟩
    · rintro s ⟨fuel, op⟩ t ⟨l, hs, hp⟩ hstep ⟨ha, ht⟩
      obtain ⟨l', he⟩ := step_effect hs.frames ha hstep
      exact ⟨l', he.good hs, he.played hs.frames hp ht⟩
    all_goals simp [Session.new]
  obtain ⟨l, -, hp⟩ := hinv
  exact hp.sorted

/-- One frame is played in time and one is dropped late; between them the buffer runs empty,
interpolates a frame and is initialized again. -/
theorem scx_played_sorted_two :
    ∃ s : Session ℕ, Runs step (fun s a _ => a.2.Allowed s ∧ a.2.Timely s) (Session.new ⟨200, 1000⟩)
        [(3, .putFirst ⟨0, 20, 0, 0, 0⟩), (0, .get 200 20), (0, .get 220 20),
          (4, .put ⟨1, 20, 20, 300, 1⟩), (0, .get 600 20)] s ∧
      s.played.map ScxJbFrame.delivery = [200, 500] ∧
      (s.played.map ScxJbFrame.delivery).Pairwise (· < ·) :=
  exists_run_of_exec rfl fun hr => ⟨rfl, scx_played_sorted _ hr⟩

end Runs

end CallWeaver.Jitter
