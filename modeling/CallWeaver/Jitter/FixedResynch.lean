import CallWeaver.Jitter.FixedPlayout

/-! # Where a resynchronisation places its frame

After a shift of all timestamps the new frame is due at the end of the last one. Yet it goes
through the checks for late and early frames once more, and the next delivery has been moved by
frames that were played and interpolated, not by those that wait. A frame blocked there is dropped
after all.
-/

namespace CallWeaver.Jitter

open List Option

variable {α : Type} {jb : ScxJb α} {c : PutCall α} {o : ℤ} {t : ℕ × ScxJbFrame α}
  {l : List (ℕ × ScxJbFrame α)} {h : Cells (ScxJbFrame α)} {s : Session α}

/-- `resynch_jb` applies an offset: it was forced to, or the timestamp has jumped. -/
def AppliesOffset (jb : ScxJb α) (last : ScxJbFrame α) (c : PutCall α) : Prop :=
  jb.forceResynch = true ∨ ¬ (c.ts - last.ts - last.ms < jb.conf.resyncThreshold ∧
    c.ts - last.ts - last.ms > -jb.conf.resyncThreshold)

def Reaches (jb : ScxJb α) (d : ℤ) : Prop :=
  jb.nextDelivery ≤ d ∧ d ≤ jb.nextDelivery + jb.delay + jb.conf.resyncThreshold

/-- The frame of a call is the new tail, linked behind the old one and delivered at `d`. -/
def Appended (jb : ScxJb α) (c : PutCall α) (d : ℤ) (jb' : ScxJb α) : Prop :=
  jb'.tail = some c.addr ∧ jb'.heap c.addr = some ⟨⟨c.data, c.ts, c.ms, d⟩, none, jb.tail⟩

section Shifted

variable (hf : Frames jb (l ++ [t])) (ho : o = c.ts - t.2.ts - t.2.ms)

include hf ho

theorem delivery_shifted : (c.frame (jb.shift o h)).delivery = t.2.delivery + t.2.ms := by
  have hd := hf.delivery t (by simp)
  simp only [PutCall.frame, ScxJb.shift]
  omega

theorem lt_delivery_shifted : ∀ e ∈ (l ++ [t]).map fun e => (e.1, e.2.shift o),
    e.2.delivery < (c.frame (jb.shift o h)).delivery := by
  have hms := hf.ms t (by simp)
  intro e he
  obtain ⟨e, hmem, rfl⟩ := mem_map.mp he
  rw [delivery_shifted hf ho]
  change e.2.delivery < _
  rcases mem_append.mp hmem with hmem | hmem
  · have hlt := (pairwise_append.mp hf.sorted).2.2 e hmem t (by simp)
    omega
  · rw [mem_singleton.mp hmem]
    omega

theorem blocked_shifted_iff :
    Blocked (jb.shift o h) ((l ++ [t]).map fun e => (e.1, e.2.shift o)) c ↔
    ¬ Reaches jb (t.2.delivery + t.2.ms) := by
  have hreach : InReach (jb.shift o h) c ↔ Reaches jb (t.2.delivery + t.2.ms) := by
    rw [InReach, delivery_shifted hf ho]
    rfl
  rw [Blocked, hreach, or_iff_left]
  rintro ⟨A, B, hAB, ⟨-, hB⟩, e, he, hcovers⟩
  -- no frame is left behind the place, so the last one would have to cover it
  have hnil : B = [] := by
    rw [eq_nil_iff_forall_not_mem]
    intro e he
    have hlt := lt_delivery_shifted (h := h) hf ho e (by simp [hAB, he])
    exact absurd (hB e he) (not_lt.mpr hlt.le)
  subst hnil
  rw [append_nil] at hAB
  rw [← hAB, map_append, map_singleton, getLast?_concat, mem_some_iff] at he
  subst he
  have hms := hf.ms t (by simp)
  rw [delivery_shifted hf ho] at hcovers
  simp only [ScxJbFrame.shift, head?_nil, mem_def, reduceCtorEq, false_and, exists_false,
    or_false] at hcovers
  omega

end Shifted

theorem resynch_appends_iff (hf : Frames jb (l ++ [t])) (ha : c.Allowed jb)
    (happlies : AppliesOffset jb t.2 c) :
    ∃ out, (∀ fuel, (l ++ [t]).length + 2 ≤ fuel → resynch c fuel jb = some out) ∧
      (out.ret = .ok ∧ Appended jb c (t.2.delivery + t.2.ms) out.jb ↔
        Reaches jb (t.2.delivery + t.2.ms)) := by
  generalize ho : c.ts - t.2.ts - t.2.ms = o
  have hjumps : Jumps jb (l ++ [t]) c := by
    refine ⟨t, by simp, happlies.imp_right fun hno => ?_⟩
    omega
  rcases resynch_cases (c := c) hf.linked ho.symm with ⟨-, hno⟩ | ⟨-, h, hfree, hd, hagain⟩
  · exact absurd hjumps hno
  have hadj : Adjusts jb (l ++ [t]) c (jb.shift o h) _ := .shift hd
  have hf' := hadj.frames hf
  rcases scxJbPut_cases hf'.linked ⟨ha.1, hfree _ ha.2⟩ with ⟨hre, hblocked⟩ |
    ⟨A, B, jb', hAB, hins, hnb, hput⟩
  · refine ⟨⟨jb.shift o h, .drop, [o, 0]⟩, fun fuel hfuel => ?_, ?_⟩
    · obtain ⟨fuel, rfl⟩ := exists_round hfuel
      rw [hagain (fuel + 1) (by omega), hre fuel (by rw [length_map]; omega),
        resynch_shifted hf'.linked ho.symm fuel, map_some]
    · refine iff_of_false (fun hout => ?_) ((blocked_shifted_iff hf ho.symm).mp hblocked)
      cases hout.1
  · refine ⟨⟨jb', .ok, [o]⟩, fun fuel hfuel => ?_, ?_⟩
    · obtain ⟨fuel, rfl⟩ := exists_round hfuel
      rw [hagain (fuel + 1) (by omega), hput fuel (by rw [length_map]; omega), map_some]
    · have hreaches : Reaches jb (t.2.delivery + t.2.ms) := by
        by_contra hno
        exact hnb ((blocked_shifted_iff hf ho.symm).mpr hno)
      refine iff_of_true ⟨rfl, ?_⟩ hreaches
      have hnil : B = [] := by
        rw [eq_nil_iff_forall_not_mem]
        intro e he
        have hlt := lt_delivery_shifted (h := h) hf ho.symm e (by simp [hAB, he])
        exact absurd (hins.after e he) (not_lt.mpr hlt.le)
      subst hnil
      rw [append_nil] at hAB
      have hlast : lastPtr A = jb.tail := by
        rw [← hAB, map_append, map_singleton, lastPtr_concat, hf.list.tail_eq, lastPtr_concat]
      have hframe : c.frame (jb.shift o h) = ⟨c.data, c.ts, c.ms, t.2.delivery + t.2.ms⟩ := by
        rw [← delivery_shifted (h := h) hf ho.symm]
        rfl
      refine ⟨?_, ?_⟩
      · rw [hins.list.tail_eq, lastPtr_concat]
      · rw [hins.list.cell, headPtr_nil, hlast, hframe]

/-- In every run, a resynchronisation of a buffer with frames that applies an offset returns. It
accepts its frame and appends it at the end of the last one if and only if this end is a time for
it. -/
theorem resynch_places_iff (conf : ScxJbConf) {ops : List (ℕ × Op α)}
    (hr : Runs step (fun s a _ => a.2.Allowed s) (Session.new conf) ops s) (c : PutCall α)
    (ha : c.Allowed s.jb) (tail : ℕ) (last : Cell (ScxJbFrame α)) (htail : s.jb.tail = some tail)
    (hlast : s.jb.heap tail = some last) (happlies : AppliesOffset s.jb last.val c) :
    ∃ n out, (∀ fuel, n ≤ fuel → resynch c fuel s.jb = some out) ∧
      (out.ret = .ok ∧ Appended s.jb c (last.val.delivery + last.val.ms) out.jb ↔
        s.jb.nextDelivery ≤ last.val.delivery + last.val.ms ∧ last.val.delivery + last.val.ms ≤
          s.jb.nextDelivery + s.jb.delay + s.jb.conf.resyncThreshold) := by
  obtain ⟨l, hgood⟩ := good_of_runs conf hr
  have hf := hgood.frames
  rcases l.eq_nil_or_concat' with rfl | ⟨l, t, rfl⟩
  · rw [(DList.nil_iff.mp hf.list).2] at htail
    cases htail
  · obtain rfl : t.1 = tail := by
      rw [hf.list.tail_eq, lastPtr_concat] at htail
      exact some.inj htail
    obtain rfl : last = ⟨t.2, none, lastPtr l⟩ := by
      rw [hf.list.cell] at hlast
      exact (some.inj hlast).symm
    obtain ⟨out, hout, hiff⟩ := resynch_appends_iff hf ha happlies
    exact ⟨_, out, hout, hiff⟩

/-- A frame waits for the time from 200 on, and the timestamp of the next one jumps. -/
theorem resynch_places_iff_jump : ∃ s : Session ℕ,
    Runs step (fun s a _ => a.2.Allowed s) (Session.new ⟨200, 1000⟩)
      [(3, .putFirst ⟨0, 20, 0, 0, 0⟩)] s ∧
      ∃ n out, (∀ fuel, n ≤ fuel → resynch ⟨1, 20, 9000, 20, 1⟩ fuel s.jb = some out) ∧
        (out.ret = .ok ∧ Appended s.jb ⟨1, 20, 9000, 20, 1⟩ (200 + 20) out.jb ↔
          s.jb.nextDelivery ≤ 200 + 20 ∧
            200 + 20 ≤ s.jb.nextDelivery + s.jb.delay + s.jb.conf.resyncThreshold) :=
  exists_run_of_exec rfl fun hr => resynch_places_iff _ hr ⟨1, 20, 9000, 20, 1⟩ ⟨by decide, rfl⟩ 0
    ⟨⟨0, 0, 20, 200⟩, none, none⟩ rfl rfl (.inr (by decide))

/-- The last frame that waits is as early as a frame may be, and the next one would be earlier. In
the other run, the next delivery is beyond the only frame that waits. In both, the frame whose
timestamp jumps is dropped after the shift. -/
theorem resynchronised_frame_dropped : ∃ s s' : Session ℕ,
    Runs step (fun s a _ => a.2.Allowed s) (Session.new ⟨200, 1000⟩)
      [(3, .putFirst ⟨0, 20, 0, 0, 0⟩), (4, .put ⟨1, 20, 1200, 0, 1⟩)] s ∧
    s.jb.heap 1 = some ⟨⟨1, 1200, 20, 1400⟩, none, some 0⟩ ∧
    AppliesOffset s.jb ⟨1, 1200, 20, 1400⟩ ⟨2, 20, 9000, 20, 2⟩ ∧
    (scxJbPut ⟨2, 20, 9000, 20, 2⟩ 5 s.jb).map (fun out => (out.ret, out.offsets, out.jb.tail)) =
      some (.drop, [7780, 0], some 1) ∧
    Runs step (fun s a _ => a.2.Allowed s) (Session.new ⟨200, 1000⟩)
      [(3, .putFirst ⟨0, 10, 0, 0, 0⟩), (0, .get 200 20), (3, .put ⟨1, 10, 32, 205, 1⟩),
        (0, .get 215 20), (0, .get 231 20)] s' ∧
    s'.jb.heap 1 = some ⟨⟨1, 32, 10, 232⟩, none, none⟩ ∧
    AppliesOffset s'.jb ⟨1, 32, 10, 232⟩ ⟨2, 10, 9000, 235, 2⟩ ∧
    (scxJbPut ⟨2, 10, 9000, 235, 2⟩ 5 s'.jb).map (fun out => (out.ret, out.offsets, out.jb.tail)) =
      some (.drop, [8958, 0], some 1) :=
  ⟨_, _, exec_eq_some_iff.mp rfl, rfl, .inr (by decide), rfl, exec_eq_some_iff.mp rfl, rfl,
    .inr (by decide), rfl⟩

end CallWeaver.Jitter
