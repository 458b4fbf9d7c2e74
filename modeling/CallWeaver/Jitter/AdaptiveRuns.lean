import CallWeaver.Jitter.AdaptiveQueue

/-! # Runs of the adaptive jitter buffer

The queue stays sorted by timestamp and, among equal timestamps, by arrival. Every queued frame is
handed back once or still in the queue, unless it was there when the configuration was changed.
-/

namespace CallWeaver.Jitter.Adaptive

open List Option Prod

variable {α : Type} {jb jb' jb'' : Jitterbuf α} {l A B : List (ℕ × JbFrame α)} {fl : List ℕ}
  {fuel first x : ℕ}

structure SameQueue (jb jb' : Jitterbuf α) : Prop where
  heap : jb'.heap = jb.heap
  frames : jb'.frames = jb.frames
  free : jb'.free = jb.free
  cur : jb'.info.framesCur = jb.info.framesCur

namespace SameQueue

theorem refl (jb : Jitterbuf α) : SameQueue jb jb := ⟨rfl, rfl, rfl, rfl⟩

theorem trans (h : SameQueue jb jb') (h' : SameQueue jb' jb'') : SameQueue jb jb'' :=
  ⟨h'.heap.trans h.heap, h'.frames.trans h.frames, h'.free.trans h.free, h'.cur.trans h.cur⟩

theorem queue (h : SameQueue jb jb') (hq : Queue jb l fl) : Queue jb' l fl := by
  constructor
  · rw [h.heap]
    exact hq.ring
  · rw [h.frames, hq.head]
  · rw [h.heap, h.free]
    exact hq.free
  · rw [h.heap]
    exact hq.allocated
  · exact hq.nodup
  · exact hq.apart
  · rw [h.cur, hq.cur]

theorem historyPut (jb : Jitterbuf α) (ts now : ℤ) : SameQueue jb (historyPut jb ts now).1 := by
  obtain ⟨_, _, _, _, _, _, _, he⟩ := historyPut_frame jb ts now
  rw [he]
  exact ⟨rfl, rfl, rfl, rfl⟩

theorem historyGet (jb : Jitterbuf α) : SameQueue jb (historyGet jb) := by
  obtain ⟨_, _, _, _, _, he⟩ := historyGet_frame jb
  rw [he]
  exact ⟨rfl, rfl, rfl, rfl⟩

theorem setTarget (jb : Jitterbuf α) : SameQueue jb (setTarget jb) := ⟨rfl, rfl, rfl, rfl⟩

theorem of_measured {frame : Option (JbFrame α)} {g : GetOutcome α} (h : Measured jb frame g) :
    SameQueue jb g.jb := by
  obtain ⟨he, hcur, -, -, -⟩ := h
  rw [he]
  exact ⟨rfl, rfl, rfl, hcur⟩

end SameQueue

def Taken (l : List (ℕ × JbFrame α)) (fl : List ℕ) (g : GetOutcome α) : Prop :=
  (g.handed = [] ∧ Queue g.jb l fl) ∨ ∃ c l', l = c :: l' ∧ g.handed = [c.2] ∧
    Queue g.jb l' (c.1 :: fl)

section

variable (hq : Queue jb l fl)

include hq

theorem taken_of_queueGetFirst (ts : ℤ) (all : Bool) :
    ∃ jb' frame, queueGetFirst jb ts all = some (jb', frame) ∧
      ∀ g : GetOutcome α, Measured jb' frame g → Taken l fl g := by
  rcases queueGetFirst_eq hq ts all with hget | ⟨c, l', h', fr', hl, -, hget, hq'⟩
  · exact ⟨jb, none, hget, fun g hm => .inl ⟨hm.handed, (SameQueue.of_measured hm).queue hq⟩⟩
  · exact ⟨_, some c.2, hget,
      fun g hm => .inr ⟨c, l', hl, hm.handed, (SameQueue.of_measured hm).queue hq'⟩⟩

theorem queueNext_eq : ∃ ts, queueNext jb = some ts := by
  cases l with
  | nil =>
    have hfr : jb.frames = none := hq.head
    exact ⟨-1, by rw [queueNext, hfr]⟩
  | cons c l =>
    have hfr : jb.frames = some c.1 := hq.head
    exact ⟨c.2.ts, by simp [queueNext, hfr, hq.ring.cell]⟩

theorem queueLast_eq : ∃ ts, queueLast jb = some ts := by
  cases l with
  | nil =>
    have hfr : jb.frames = none := hq.head
    exact ⟨-1, by rw [queueLast, hfr]⟩
  | cons c l =>
    have hfr : jb.frames = some c.1 := hq.head
    obtain ⟨z, hzm, hlast⟩ := exists_lastPtr c l
    have hzv := Cells.cell_of_valOf (hq.ring.val z hzm)
    exact ⟨z.2.ts, by simp [queueLast, hfr, hq.ring.cell, hlast, hzv]⟩

theorem jbGetRaw_eq (now interpl : ℤ) : ∃ g, jbGetRaw jb now interpl = some g ∧ Taken l fl g := by
  have hsame := (SameQueue.historyGet jb).trans (.setTarget _)
  have hq' := hsame.queue hq
  simp only [jbGetRaw]
  generalize setTarget (historyGet jb) = jb₁ at hq' ⊢
  obtain ⟨first, hfirst⟩ := queueNext_eq hq'
  obtain ⟨last, hlast⟩ := queueLast_eq hq'
  split
  · simp only [hfirst, hlast, bind_eq_bind, bind_some]
    split
    · have hm : Measured jb₁ _ _ := measured_interpolated interpl jb₁.conf
        { jb₁.info with current := jb₁.info.current + interpl, lastAdjustment := now } rfl rfl rfl
      exact ⟨_, rfl, .inl ⟨hm.handed, (SameQueue.of_measured hm).queue hq'⟩⟩
    · obtain ⟨jb', frame, hget, htaken⟩ := taken_of_queueGetFirst hq'
        (jb₁.info.nextVoiceTs - jb₁.info.current) false
      rw [queueGet, hget]
      exact ⟨_, rfl, htaken _ (measured_getVoice ..)⟩
  · generalize hj : (if jb₁.info.target - jb₁.info.current < -targetExtra ∧
      jb₁.info.lastAdjustment + 10 ≤ now then
      { jb₁ with
        info := { jb₁.info with current := jb₁.info.current - interpl, lastAdjustment := now } }
      else jb₁) = jb₂
    have hq₂ : Queue jb₂ l fl := by
      refine SameQueue.queue ?_ hq'
      rw [← hj]
      split <;> exact ⟨rfl, rfl, rfl, rfl⟩
    obtain ⟨jb', frame, hget, htaken⟩ := taken_of_queueGetFirst hq₂ (now - jb₂.info.current) false
    simp only [queueGet, hget, bind_eq_bind, bind_some]
    exact ⟨_, rfl, htaken _ (measured_getSilent ..)⟩

theorem jbGet_eq (now interpl : ℤ) : ∃ g, jbGet jb now interpl = some g ∧ Taken l fl g := by
  obtain ⟨g, hraw, htaken⟩ := jbGetRaw_eq hq now interpl
  simp only [jbGet, hraw, bind_eq_bind, bind_some]
  refine ⟨_, rfl, ?_⟩
  split
  · rename_i hret
    have hnone : g.handed = [] := by rw [GetOutcome.handed, hret]
    rcases htaken with ⟨-, hq'⟩ | ⟨c, l', -, hh, -⟩
    · refine .inl ⟨?_, hq'⟩
      rw [GetOutcome.handed, hret]
    · rw [hnone] at hh
      cases hh
  · exact htaken

theorem jbGetall_eq : ∃ g, jbGetall jb = some g ∧ Taken l fl g := by
  obtain ⟨jb', frame, hget, htaken⟩ := taken_of_queueGetFirst hq 0 true
  simp only [jbGetall, queueGetall, hget, bind_eq_bind, bind_some]
  cases frame with
  | none | some f => exact ⟨_, rfl, htaken _ ⟨rfl, rfl, rfl, rfl, rfl⟩⟩

theorem jbNext_eq : ∃ jb' ts, jbNext jb = some (jb', ts) ∧ SameQueue jb jb' := by
  obtain ⟨first, hfirst⟩ := queueNext_eq hq
  simp only [jbNext, hfirst, bind_eq_bind, bind_some]
  split
  · split
    · split <;> exact ⟨_, _, rfl, .historyGet jb⟩
    · exact ⟨_, _, rfl, .refl jb⟩
  · exact ⟨_, _, rfl, .refl jb⟩

theorem jbPut_eq {c : PutCall α} (hs : l.Pairwise fun c d => c.2.ts ≤ d.2.ts)
    (hmem : ∀ a ∈ c.mem, jb.heap a = none) :
    ∃ n jb' ret queued,
      (∀ fuel, jbPut jb c fuel = if n ≤ fuel then some (jb', ret, queued) else none) ∧
      ((queued = none ∧ Queue jb' l fl) ∨
        ∃ f A B x fl', queued = some f ∧ f.data = c.data ∧ l = A ++ B ∧ (∀ c ∈ A, c.2.ts ≤ f.ts) ∧
          (∀ c ∈ B, f.ts < c.2.ts) ∧ Queue jb' (A ++ (x, f) :: B) fl') := by
  have hin : SameQueue jb { jb with info := { jb.info with framesIn := jb.info.framesIn + 1 } } :=
    ⟨rfl, rfl, rfl, rfl⟩
  simp only [jbPut]
  generalize { jb with info := { jb.info with framesIn := jb.info.framesIn + 1 } } = jb₁ at hin ⊢
  have hhist :
      SameQueue jb₁ (if c.type = .voice then historyPut jb₁ c.ts c.now else (jb₁, true)).1 := by
    split
    · exact .historyPut jb₁ c.ts c.now
    · exact .refl jb₁
  generalize (if c.type = .voice then historyPut jb₁ c.ts c.now else (jb₁, true)) = p at hhist ⊢
  have hq' := (hin.trans hhist).queue hq
  cases p.2 with
  | false => exact ⟨0, p.1, .drop, none, fun fuel => rfl, .inl ⟨rfl, hq'⟩⟩
  | true =>
    have hmem' : ∀ a ∈ c.mem, p.1.heap a = none := by
      rw [(hin.trans hhist).heap]
      exact hmem
    obtain ⟨n, out, hput, hout⟩ := queuePut_eq hq' hs hmem'
      (Eq.refl (⟨c.data, c.ts - p.1.info.resyncOffset, c.ms, c.type⟩ : JbFrame α))
    refine ⟨n, out.jb, if out.head then .sched else .ok, out.queued, fun fuel => ?_, ?_⟩
    · simp only [hput fuel, if_true, bind_eq_bind]
      split <;> rfl
    · rcases hout with hout | ⟨hqd, A, B, x, fl', hl, hA, hB, hq''⟩
      · exact .inl hout
      · exact .inr ⟨_, A, B, x, fl', hqd, rfl, hl, hA, hB, hq''⟩

end

theorem collect_eq {h : Cells (JbFrame α)} {e : ℕ × JbFrame α} (hr : Ring h (A ++ e :: B))
    (hfirst : headPtr (A ++ e :: B) = some first) :
    collect h first fuel e.1 = if B.length < fuel then some ((e :: B).map snd) else none := by
  induction B generalizing A e fuel with
  | nil =>
    have hcell := (Ring.rotate hr).cell
    cases fuel with
    | zero => rfl
    | succ fuel => simp [collect, hcell, hfirst]
  | cons b B ih =>
    have hcell : h e.1 = some ⟨e.2, some b.1, _⟩ := (Ring.rotate hr).cell
    have hb : b.1 ≠ first := by
      obtain ⟨a, M, haM⟩ : ∃ a M, A ++ [e] = a :: M := exists_cons_of_ne_nil (by simp)
      have hnd := hr.nodup
      rw [append_cons, haM] at hfirst hnd
      obtain rfl : a.1 = first := by simpa using hfirst
      simp only [cons_append, map_cons, nodup_cons, map_append, mem_append,
        mem_cons, not_or] at hnd
      exact fun he => hnd.1.2.1 he.symm
    rw [append_cons] at hr hfirst
    cases fuel with
    | zero => rfl
    | succ fuel =>
      simp only [collect, hcell, bind_eq_bind, bind_some, if_neg hb, ih hr hfirst,
        length_cons, Nat.add_lt_add_iff_right]
      split <;> rfl

theorem contents_eq (hq : Queue jb l fl) :
    jb.contents fuel = if l.length ≤ fuel then some (l.map snd) else none := by
  cases l with
  | nil =>
    have hfr : jb.frames = none := hq.head
    simp [Jitterbuf.contents, hfr]
  | cons c l =>
    have hfr : jb.frames = some c.1 := hq.head
    simp only [Jitterbuf.contents, hfr]
    rw [collect_eq (A := []) hq.ring rfl]
    rfl

section Runs

variable {s t : Session α} {op : Op α} {q q' : List (ℕ × JbFrame (ℕ × α))} {fs fs' : List ℕ}

def Before (c d : ℕ × JbFrame (ℕ × α)) : Prop :=
  c.2.ts < d.2.ts ∨ c.2.ts = d.2.ts ∧ c.2.data.1 < d.2.data.1

structure Conserved (s : Session α) (q : List (ℕ × JbFrame (ℕ × α))) (fs : List ℕ) : Prop where
  queue : Queue s.jb q fs
  sorted : q.Pairwise Before
  calls : ∀ f ∈ s.queued, f.data.1 < s.calls
  arrivals : (s.queued.map fun f => f.data.1).Pairwise (· < ·)
  all : (s.back ++ s.reset ++ q.map snd).Perm s.queued

theorem conserved_new (conf : JbConf) : Conserved (Session.new conf : Session α) [] [] :=
  ⟨⟨.nil, rfl, rfl, by simp, .nil, by simp, rfl⟩, .nil, by simp [Session.new], .nil, .refl _⟩

theorem Conserved.sorted_ts (hs : Conserved s q fs) : q.Pairwise fun c d => c.2.ts ≤ d.2.ts :=
  hs.sorted.imp fun h => h.elim le_of_lt fun h => h.1.le

theorem Conserved.insert {A B : List (ℕ × JbFrame (ℕ × α))} {f : JbFrame (ℕ × α)}
    {jb : Jitterbuf (ℕ × α)} (hs : Conserved s (A ++ B) fs) (hf : f.data.1 = s.calls)
    (hA : ∀ c ∈ A, c.2.ts ≤ f.ts) (hB : ∀ c ∈ B, f.ts < c.2.ts)
    (hq : Queue jb (A ++ (x, f) :: B) fs') :
    Conserved { s with jb := jb, calls := s.calls + 1, queued := s.queued ++ [f] }
      (A ++ (x, f) :: B) fs' := by
  obtain ⟨hsA, hsB, hAB⟩ := pairwise_append.mp hs.sorted
  refine ⟨hq, ?_, fun g hg => ?_, ?_, ?_⟩
  · refine pairwise_append.mpr ⟨hsA, pairwise_cons.mpr ⟨fun c hc => .inl (hB c hc), hsB⟩, ?_⟩
    intro c hc d hd
    rcases mem_cons.mp hd with rfl | hd
    · have hcq : c.2 ∈ s.queued := by
        refine hs.all.mem_iff.mp (mem_append_right _ (mem_map_of_mem ?_))
        exact mem_append_left _ hc
      have hlt := hs.calls _ hcq
      rcases lt_or_eq_of_le (hA c hc) with h | h
      · exact .inl h
      · exact .inr ⟨h, by simpa only [hf] using hlt⟩
    · exact hAB c hc d hd
  · rcases mem_append.mp hg with hg | hg
    · exact (hs.calls g hg).trans (Nat.lt_succ_self _)
    · rw [mem_singleton.mp hg, hf]
      exact Nat.lt_succ_self _
  · rw [map_append, pairwise_append]
    refine ⟨hs.arrivals, by simp, fun a ha b hb => ?_⟩
    obtain ⟨g, hg, rfl⟩ := mem_map.mp ha
    obtain rfl : b = s.calls := by simpa [hf] using hb
    exact hs.calls g hg
  · have hperm : (s.back ++ s.reset ++ (A ++ (x, f) :: B).map snd).Perm
        (f :: (s.back ++ s.reset ++ (A ++ B).map snd)) := by
      rw [map_append, map_cons, ← append_assoc, map_append, ← append_assoc]
      exact perm_middle
    exact hperm.trans ((hs.all.cons f).trans (perm_append_singleton f _).symm)

theorem Conserved.taken {g : GetOutcome (ℕ × α)} (hs : Conserved s q fs) (ht : Taken q fs g) :
    ∃ q' fs', Conserved { s with jb := g.jb, back := s.back ++ g.handed } q' fs' := by
  rcases ht with ⟨hh, hq⟩ | ⟨c, q', rfl, hh, hq⟩
  · refine ⟨q, fs, hq, hs.sorted, hs.calls, hs.arrivals, ?_⟩
    rw [hh, append_nil]
    exact hs.all
  · refine ⟨q', c.1 :: fs, hq, (pairwise_cons.mp hs.sorted).2, hs.calls, hs.arrivals, ?_⟩
    refine .trans ?_ hs.all
    simp only [hh, append_assoc, map_cons, singleton_append]
    exact perm_middle.symm.append_left _

theorem step_total (hs : Conserved s q fs) (ha : op.Allowed s) :
    ∃ n t, (∀ fuel, step s (fuel, op) = if n ≤ fuel then some t else none) ∧
      ∃ q' fs', Conserved t q' fs' := by
  cases op with
  | put c =>
    obtain ⟨n, jb', ret, queued, hput, hout⟩ := jbPut_eq
      (c := ⟨(s.calls, c.data), c.type, c.ms, c.ts, c.now, c.mem⟩) hs.queue hs.sorted_ts ha
    refine ⟨n, { s with jb := jb', calls := s.calls + 1, queued := s.queued ++ queued.toList },
      fun fuel => ?_, ?_⟩
    · simp only [step, hput fuel, bind_eq_bind]
      split <;> rfl
    · rcases hout with ⟨rfl, hq⟩ | ⟨f, A, B, x, fs', rfl, hf, rfl, hA, hB, hq⟩
      · refine ⟨q, fs, hq, hs.sorted, fun f hf => ?_, ?_, ?_⟩
        · simp only [toList_none, append_nil] at hf
          exact (hs.calls f hf).trans (Nat.lt_succ_self _)
        · simpa using hs.arrivals
        · simpa using hs.all
      · exact ⟨_, _, hs.insert (by rw [hf]) hA hB hq⟩
  | get now interpl =>
    obtain ⟨g, hget, ht⟩ := jbGet_eq hs.queue now interpl
    refine ⟨0, _, fun fuel => ?_, hs.taken ht⟩
    simp [step, hget]
  | getall =>
    obtain ⟨g, hget, ht⟩ := jbGetall_eq hs.queue
    refine ⟨0, _, fun fuel => ?_, hs.taken ht⟩
    simp [step, hget]
  | next =>
    obtain ⟨jb', ts, hnext, hsame⟩ := jbNext_eq hs.queue
    refine ⟨0, { s with jb := jb' }, fun fuel => by simp [step, hnext], q, fs, hsame.queue hs.queue,
      hs.sorted, hs.calls, hs.arrivals, hs.all⟩
  | setconf conf =>
    refine ⟨q.length, { s with jb := jbSetconf s.jb conf, reset := s.reset ++ q.map snd },
      fun fuel => ?_, [], [], ⟨.nil, rfl, rfl, by simp, .nil, by simp, rfl⟩, .nil, hs.calls,
      hs.arrivals, ?_⟩
    · simp only [step, contents_eq hs.queue, bind_eq_bind]
      split <;> rfl
    · simpa using hs.all

/-- In every run the queue is sorted by timestamp and arrival, `frames_cur` is its length, and the
frames that were queued are those handed back, those in the queue at a change of the configuration,
and those still in the queue, each exactly once. Every further call returns. -/
theorem adaptive_run_conserved (conf : JbConf) {ops : List (ℕ × Op α)}
    (hr : Runs step (fun s a _ => a.2.Allowed s) (Session.new conf) ops s) :
    (∃ q : List (ℕ × JbFrame (ℕ × α)), Ring s.jb.heap q ∧ s.jb.frames = headPtr q ∧
      q.Pairwise Before ∧ s.jb.info.framesCur = q.length ∧
      (s.queued.map fun f => f.data.1).Pairwise (· < ·) ∧
      (s.back ++ s.reset ++ q.map snd).Perm s.queued) ∧
    ∀ op, op.Allowed s → ∃ n t, ∀ fuel, n ≤ fuel → step s (fuel, op) = some t := by
  have hinv : ∃ q fs, Conserved s q fs := by
    refine hr.invariant (I := fun s => ∃ q fs, Conserved s q fs) ?_ ⟨[], [], conserved_new conf⟩
    rintro s ⟨fuel, op⟩ t ⟨q, fs, hs⟩ hstep ha
    obtain ⟨n, t', htotal, hs'⟩ := step_total hs ha
    rw [htotal fuel] at hstep
    split at hstep
    · rwa [← some.inj hstep]
    · cases hstep
  obtain ⟨q, fs, hs⟩ := hinv
  refine ⟨⟨q, hs.queue.ring, hs.queue.head, hs.sorted, hs.queue.cur, hs.arrivals, hs.all⟩,
    fun op ha => ?_⟩
  obtain ⟨n, t, htotal, -⟩ := step_total hs ha
  exact ⟨n, t, fun fuel hn => by rw [htotal fuel, if_pos hn]⟩

/-- Three voice frames arrive out of order and one is handed back, before the configuration changes.
-/
theorem adaptive_run_conserved_three :
    ∃ s : Session ℕ, Runs step (fun s a _ => a.2.Allowed s) (Session.new ⟨0, 0, 1000, 0⟩)
        [(9, .put ⟨7, .voice, 20, 20, 0, some 0⟩), (9, .put ⟨8, .voice, 20, 60, 40, some 1⟩),
          (9, .put ⟨9, .voice, 20, 40, 45, some 2⟩), (9, .get 100 20),
          (9, .setconf ⟨0, 0, 1000, 0⟩)] s ∧
      (s.queued.map (·.data.2), s.back.map (·.data.2), s.reset.map (·.data.2)) =
      ([7, 8, 9], [7], [9, 8]) ∧
      (∃ q : List (ℕ × JbFrame (ℕ × ℕ)), Ring s.jb.heap q ∧ s.jb.frames = headPtr q ∧
        q.Pairwise Before ∧ s.jb.info.framesCur = q.length ∧
        (s.queued.map fun f => f.data.1).Pairwise (· < ·) ∧
        (s.back ++ s.reset ++ q.map snd).Perm s.queued) ∧
      ∀ op, op.Allowed s → ∃ n t, ∀ fuel, n ≤ fuel → step s (fuel, op) = some t :=
  exists_run_of_exec rfl fun hr => ⟨rfl, adaptive_run_conserved _ hr⟩

/-- A frame in the queue when the configuration is changed is neither handed back nor in the queue
any more. -/
theorem setconf_loses_frame :
    ∃ s : Session ℕ, Runs step (fun s a _ => a.2.Allowed s) (Session.new ⟨0, 0, 1000, 0⟩)
        [(1, .put ⟨7, .voice, 20, 20, 0, some 0⟩), (1, .setconf ⟨0, 0, 1000, 0⟩)] s ∧
      s.queued.length = 1 ∧ s.back = [] ∧ s.jb.frames = none :=
  ⟨_, exec_eq_some_iff.mp rfl, rfl, rfl, rfl⟩

end Runs

end CallWeaver.Jitter.Adaptive
