import CallWeaver.Base.Links
import CallWeaver.Jitter.Adaptive

/-! # The queue of the adaptive jitter buffer

What inserting and taking a frame do to the ring of the queued frames and to the list of the free
nodes.
-/

namespace CallWeaver.Jitter.Adaptive

open Function List Option Prod

variable {α : Type} {h : Cells (JbFrame α)} {jb jb' : Jitterbuf α} {f : JbFrame α} {x fuel : ℕ}
  {ts ms : ℤ} {c : ℕ × JbFrame α} {l A B l' : List (ℕ × JbFrame α)} {fl : List ℕ}

/-- The queued frames form a ring from `frames` on, the free nodes are linked from `free` on, and no
node is in both. -/
structure Queue (jb : Jitterbuf α) (l : List (ℕ × JbFrame α)) (fl : List ℕ) : Prop where
  ring : Ring jb.heap l
  head : jb.frames = headPtr l
  free : Seg jb.heap.nextOf jb.free fl none
  allocated : ∀ a ∈ fl, jb.heap a ≠ none
  nodup : fl.Nodup
  apart : ∀ a ∈ fl, a ∉ l.map fst
  cur : jb.info.framesCur = l.length

variable {mem frame : Option ℕ} {type : FrameType} {data : α}

theorem findPlace_eq (ts : ℤ) (hr : Ring h (c :: (A ++ B))) (hB : ∀ d ∈ B, ts < d.2.ts) :
    ∃ A' B' p R n, A ++ B = A' ++ B' ∧ (∀ d ∈ A'.getLast?, d.2.ts ≤ ts) ∧ (∀ d ∈ B', ts < d.2.ts) ∧
      B' ++ c :: A' = p :: R ∧
      ∀ fuel, ∀ q ∈ headPtr (B ++ c :: A),
      findPlace ts h c.1 fuel q = if n ≤ fuel then some p.1 else none := by
  induction A using reverseRecOn generalizing B with
  | nil =>
    obtain ⟨q, S, hqS, hcell⟩ := Ring.start (Ring.rotate (A := [c]) hr)
    have hcv := Cells.cell_of_valOf (hr.val c (by simp))
    refine ⟨[], B, q, S, 1, rfl, by simp, hB, hqS, fun fuel q' hq' => ?_⟩
    obtain rfl : q.1 = q' := by simpa [hqS] using hq'
    cases fuel with
    | zero => rfl
    | succ fuel => simp [findPlace, hcell, hcv, lastPtr]
  | append_singleton A z ih =>
    obtain ⟨q, S, hqS, hcell⟩ := Ring.start (Ring.rotate (A := c :: (A ++ [z])) hr)
    have hzv := Cells.cell_of_valOf (hr.val z (by simp))
    have hzc : z.1 ≠ c.1 := by
      have hnd := hr.nodup
      simp only [map_cons, nodup_cons, map_append, mem_append, not_or] at hnd
      exact fun he => hnd.1.1.2 (by simp [he])
    rw [← cons_append, lastPtr_concat] at hcell
    by_cases hlt : ts < z.2.ts
    · have hr' : Ring h (c :: (A ++ z :: B)) := by simpa using hr
      obtain ⟨A', B', p, R, n, hl, hA', hB', hp, hfind⟩ := ih hr' (forall_mem_cons.mpr ⟨hlt, hB⟩)
      refine ⟨A', B', p, R, n + 1, by simpa using hl, hA', hB', hp, fun fuel q' hq' => ?_⟩
      obtain rfl : q.1 = q' := by simpa [hqS] using hq'
      cases fuel with
      | zero => rfl
      | succ fuel =>
        simp only [findPlace, hcell, hzv, bind_eq_bind, bind_some, if_pos (And.intro hlt hzc)]
        rw [hfind fuel z.1 (by simp)]
        simp
    · refine ⟨A ++ [z], B, q, S, 1, rfl, by simpa using hlt, hB, hqS, fun fuel q' hq' => ?_⟩
      obtain rfl : q.1 = q' := by simpa [hqS] using hq'
      cases fuel with
      | zero => rfl
      | succ fuel => simp [findPlace, hcell, hzv, hlt]

theorem linkBefore_eq (hr : Ring h (c :: l)) (hx : x ∉ (c :: l).map fst)
    (hxv : h.valOf x = some f) : ∃ h', linkBefore h x c.1 = some h' ∧ Ring h' (c :: l ++ [(x, f)]) ∧
      ∀ a, a ∉ (c :: l).map fst → a ≠ x → h' a = h a := by
  obtain ⟨z, hzm, hlast⟩ := exists_lastPtr c l
  have hcx : c.1 ≠ x := fun he => hx (by simp [he])
  have hcell := hr.cell
  rw [hlast] at hcell
  obtain ⟨h₁, e₁, s₁⟩ := h.shows_self.update_next hxv (some c.1)
  obtain ⟨h₂, e₂, s₂⟩ := s₁.update_prev hxv (some z.1)
  obtain ⟨h₃, e₃, s₃⟩ := s₂.update_prev (hr.val c (by simp)) (some x)
  obtain ⟨h₄, e₄, s₄⟩ := s₃.update_next (hr.val z hzm) (some x)
  refine ⟨h₄, by simp [linkBefore, hcell, e₁, e₂, e₃, e₄],
    hr.push (by simp) hx hxv ?_ ?_ s₄.val, ?_⟩
  · rw [s₄.next, hlast]
    simp
  · rw [s₄.prev, hlast]
    simp only [headPtr_cons, update_ptr_some]
    rw [Function.update_comm hcx.symm]
  · intro a ha hax
    have hac : a ≠ c.1 := fun he => ha (by simp [he])
    have haz : a ≠ z.1 := fun he => ha (he ▸ mem_map_of_mem hzm)
    apply s₄.cell_congr h.shows_self
    · simp [hax, haz]
    · simp [hax, hac]
    · rfl

theorem takeNode_eq (hq : Queue jb l fl) (hmem : ∀ a ∈ mem, jb.heap a = none) (f : JbFrame α) :
    takeNode jb f mem = some (jb, none) ∨
      ∃ x h' fr' fl', takeNode jb f mem = some ({ jb with heap := h', free := fr' }, some x) ∧
        Queue { jb with heap := h', free := fr' } l fl' ∧ x ∉ l.map fst ∧ x ∉ fl' ∧
        h'.valOf x = some f := by
  cases fl with
  | nil =>
    have hfr : jb.free = none := hq.free
    cases mem with
    | none => exact .inl (by simp [takeNode, hfr])
    | some x =>
      right
      have hx := hmem x rfl
      have hxl : x ∉ l.map fst := fun hm => by
        obtain ⟨c, hc, rfl⟩ := mem_map.mp hm
        have hv := hq.ring.val c hc
        rw [Cells.valOf, hx] at hv
        cases hv
      refine ⟨x, jb.heap.alloc x f, none, [], by simp [takeNode, hfr], ⟨?_, hq.head, rfl, by simp,
        .nil, by simp, hq.cur⟩, hxl, by simp, by simp [Cells.valOf, Cells.alloc]⟩
      refine hq.ring.congr fun c hc => update_of_ne ?_ _ _
      exact ne_of_mem_of_not_mem (mem_map_of_mem hc) hxl
  | cons x fl =>
    right
    obtain ⟨hfr, hseg⟩ := hq.free
    obtain ⟨hxfl, hnd⟩ := nodup_cons.mp hq.nodup
    have hxl := hq.apart x (by simp)
    obtain ⟨cell, hcell⟩ := ne_none_iff_exists'.mp (hq.allocated x (by simp))
    obtain ⟨h', hset, hout, hval⟩ : ∃ h', jb.heap.setVal x f = some h' ∧
        (∀ a, a ≠ x → h' a = jb.heap a) ∧ h'.valOf x = some f :=
      ⟨update jb.heap x (some { cell with val := f }), by simp [Cells.setVal, hcell],
        fun a ha => update_of_ne ha _ _, by simp [Cells.valOf]⟩
    have hnext : cell.next = jb.heap.nextOf x := by simp [Cells.nextOf, hcell]
    refine ⟨x, h', cell.next, fl, ?_, ⟨?_, hq.head, ?_, fun a ha => ?_,
      hnd, fun a ha => hq.apart a (by simp [ha]), hq.cur⟩, hxl, hxfl, hval⟩
    · simp [takeNode, hfr, hcell, hset]
    · refine hq.ring.congr fun c hc => hout _ ?_
      exact ne_of_mem_of_not_mem (mem_map_of_mem hc) hxl
    · rw [hnext]
      refine hseg.congr fun a ha => ?_
      simp only [Cells.nextOf, hout a (ne_of_mem_of_not_mem ha hxfl)]
    · simp only [hout a (ne_of_mem_of_not_mem ha hxfl)]
      exact hq.allocated a (by simp [ha])

theorem Queue.grow (hq : Queue jb l fl) (hx : x ∉ fl) (hr : Ring jb'.heap l')
    (hperm : l'.Perm ((x, f) :: l)) (hframe : ∀ a, a ∉ l.map fst → a ≠ x → jb'.heap a = jb.heap a)
    (hhead : jb'.frames = headPtr l') (hfree : jb'.free = jb.free)
    (hcur : jb'.info.framesCur = jb.info.framesCur + 1) : Queue jb' l' fl := by
  have hfl : ∀ a ∈ fl, jb'.heap a = jb.heap a := fun a ha =>
    hframe a (hq.apart a ha) (ne_of_mem_of_not_mem ha hx)
  refine ⟨hr, hhead, ?_, fun a ha => ?_, hq.nodup, fun a ha hm => ?_, ?_⟩
  · rw [hfree]
    refine hq.free.congr fun a ha => ?_
    simp only [Cells.nextOf, hfl a ha]
  · rw [hfl a ha]
    exact hq.allocated a ha
  · rcases mem_cons.mp ((hperm.map fst).mem_iff.mp hm) with rfl | hm
    · exact hx ha
    · exact hq.apart a ha hm
  · rw [hcur, hq.cur, hperm.length_eq]
    simp

theorem linkAlone_eq (hxv : h.valOf x = some f) :
    ∃ h₁ h₂, h.setNext x (some x) = some h₁ ∧ h₁.setPrev x (some x) = some h₂ ∧
      Ring h₂ [(x, f)] ∧ ∀ a, a ≠ x → h₂ a = h a := by
  obtain ⟨h₁, e₁, s₁⟩ := h.shows_self.update_next hxv (some x)
  obtain ⟨h₂, e₂, s₂⟩ := s₁.update_prev hxv (some x)
  refine ⟨h₁, h₂, e₁, e₂, ?_, fun a hax => ?_⟩
  · apply Ring.singleton
    · simp [s₂.next]
    · simp [s₂.prev]
    · rw [s₂.val, hxv]
  · apply s₂.cell_congr h.shows_self
    · simp [hax]
    · simp [hax]
    · rfl

theorem insertBefore_eq (hr : Ring h (A ++ B)) (hc : B ++ A = c :: l) (hx : x ∉ (A ++ B).map fst)
    (hxv : h.valOf x = some f) :
    ∃ h', linkBefore h x c.1 = some h' ∧ Ring h' (A ++ (x, f) :: B) ∧
      ∀ a, a ∉ (A ++ B).map fst → a ≠ x → h' a = h a := by
  have hmem : ∀ a, a ∈ (c :: l).map fst ↔ a ∈ (A ++ B).map fst := by
    intro a
    rw [← hc]
    exact (perm_append_comm.map fst).mem_iff
  obtain ⟨h', hlink, hring, hframe⟩ :=
    linkBefore_eq (hc ▸ hr.rotate) (fun hm => hx ((hmem x).mp hm)) hxv
  refine ⟨h', hlink, ?_, fun a ha => hframe a (fun hm => ha ((hmem a).mp hm))⟩
  rw [← hc, append_assoc] at hring
  simpa using hring.rotate

theorem findPlace_sorted (hr : Ring h (c :: l)) (hs : l.Pairwise fun c d => c.2.ts ≤ d.2.ts)
    (hc : c.2.ts ≤ ts) :
    ∃ A B p R n, c :: l = A ++ B ∧ (∀ d ∈ A, d.2.ts ≤ ts) ∧ (∀ d ∈ B, ts < d.2.ts) ∧
      B ++ A = p :: R ∧ (∃ A', A = c :: A') ∧
      ∀ fuel, findPlace ts h c.1 fuel c.1 = if n ≤ fuel then some p.1 else none := by
  obtain ⟨A, B, p, R, n, hAB, hA, hB, hp, hfind⟩ := findPlace_eq (A := l) (B := []) ts
    (by simpa using hr) (by simp)
  rw [append_nil] at hAB
  refine ⟨c :: A, B, p, R, n, by rw [hAB, cons_append], ?_, hB, hp, ⟨A, rfl⟩,
    fun fuel => hfind fuel c.1 (by simp)⟩
  refine forall_mem_cons.mpr ⟨hc, fun d hd => ?_⟩
  -- the last frame before the place is not later, nor are those before it
  rcases A.eq_nil_or_concat' with rfl | ⟨A, e, rfl⟩
  · simp at hd
  · have he : e.2.ts ≤ ts := hA e (by simp)
    rw [hAB, append_assoc] at hs
    rcases mem_append.mp hd with hd | hd
    · exact ((pairwise_append.mp hs).2.2 d hd e (by simp)).trans he
    · rwa [mem_singleton.mp hd]

theorem queuePut_eq (hq : Queue jb l fl) (hs : l.Pairwise fun c d => c.2.ts ≤ d.2.ts)
    (hmem : ∀ a ∈ mem, jb.heap a = none) (hf : f = ⟨data, ts - jb.info.resyncOffset, ms, type⟩) :
    ∃ n out, (∀ fuel, queuePut jb data type ms ts mem fuel = if n ≤ fuel then some out else none) ∧
      ((out.queued = none ∧ Queue out.jb l fl) ∨
        (out.queued = some f ∧ ∃ A B x fl', l = A ++ B ∧ (∀ c ∈ A, c.2.ts ≤ f.ts) ∧
          (∀ c ∈ B, f.ts < c.2.ts) ∧ Queue out.jb (A ++ (x, f) :: B) fl')) := by
  have hts : f.ts = ts - jb.info.resyncOffset := by rw [hf]
  rcases takeNode_eq hq hmem f with htake | ⟨x, h', fr', fl', htake, hq', hxl, hxfl, hxv⟩
  · refine ⟨0, ⟨jb, false, none⟩, fun fuel => ?_, .inl ⟨rfl, hq⟩⟩
    simp [queuePut, ← hf, htake]
  cases l with
  | nil =>
    have hfr : jb.frames = none := hq.head
    obtain ⟨h₁, h₂, e₁, e₂, hr, hframe⟩ := linkAlone_eq hxv
    refine ⟨0, ⟨{ jb with
        heap := h₂, free := fr', frames := some x,
        info := { jb.info with framesCur := jb.info.framesCur + 1 } }, true, some f⟩,
          fun fuel => ?_,
      .inr ⟨rfl, [], [], x, fl', rfl, by simp, by simp, ?_⟩⟩
    · simp [queuePut, ← hf, htake, hfr, e₁, e₂]
    · exact hq'.grow hxfl hr (.refl _) (fun a _ => hframe a) rfl rfl rfl
  | cons c m =>
    have hfr : jb.frames = some c.1 := hq.head
    have hcell := hq'.ring.cell
    obtain ⟨z, hzm, hlast⟩ := exists_lastPtr c m
    have hzv := Cells.cell_of_valOf (hq'.ring.val z hzm)
    rw [hlast] at hcell
    simp only at hcell hzv
    obtain ⟨hcm, hsm⟩ := pairwise_cons.mp hs
    by_cases hlt : f.ts < c.2.ts
    · obtain ⟨h'', hlink, hr, hframe⟩ :=
        insertBefore_eq (A := []) (c := c) (l := m) hq'.ring (by simp) hxl hxv
      refine ⟨0, ⟨{ jb with
          heap := h'', free := fr', frames := some x
          info := { jb.info with
            framesCur := jb.info.framesCur + 1, framesOoo := jb.info.framesOoo + 1 } },
              true, some f⟩,
        fun fuel => ?_, .inr ⟨rfl, [], c :: m, x, fl', rfl, by simp, ?_, ?_⟩⟩
      · rw [hts] at hlt
        simp [queuePut, ← hf, htake, hfr, hcell, hlt, hlink]
      · exact forall_mem_cons.mpr ⟨hlt, fun d hd => hlt.trans_le (hcm d hd)⟩
      · exact hq'.grow hxfl hr (.refl _) hframe rfl rfl rfl
    · obtain ⟨A, B, p, R, n, hAB, hA, hB, hp, ⟨A', rfl⟩, hfind⟩ :=
        findPlace_sorted hq'.ring hsm (not_lt.mp hlt)
      obtain ⟨h'', hlink, hr, hframe⟩ := insertBefore_eq (hAB ▸ hq'.ring) hp (hAB ▸ hxl) hxv
      refine ⟨n, ⟨{ jb with
          heap := h'', free := fr'
          info := { jb.info with
            framesCur := jb.info.framesCur + 1
            framesOoo := if ts - jb.info.resyncOffset < z.2.ts then jb.info.framesOoo + 1
              else jb.info.framesOoo } }, false, some f⟩,
        fun fuel => ?_, .inr ⟨rfl, c :: A', B, x, fl', hAB, hA, hB, ?_⟩⟩
      · have hfind' := hfind fuel
        rw [hts] at hlt hfind'
        simp only [queuePut, ← hf, htake, hfr, hcell, hlt, hzv, bind_eq_bind, bind_some,
          if_false, hfind']
        by_cases hn : n ≤ fuel
        · simp [hn, hlink]
        · simp [hn]
      · rw [← hAB] at hframe
        refine hq'.grow (f := f) hxfl hr ?_ hframe hfr rfl rfl
        rw [hAB]
        exact perm_middle

theorem unlinkFirst_eq (hr : Ring h (c :: l)) (q : Option ℕ) :
    ∃ d z h₁ cell h₂ h₃, h c.1 = some ⟨c.2, some d, some z⟩ ∧ h.setNext z (some d) = some h₁ ∧
      h₁ c.1 = some cell ∧ cell.next = some d ∧ h₁.setPrev d (some z) = some h₂ ∧
      h₂.setNext c.1 q = some h₃ ∧ (if d = c.1 then none else some d) = headPtr l ∧ Ring h₃ l ∧
      h₃.nextOf c.1 = q ∧ h₃.valOf c.1 = some c.2 ∧ ∀ a, a ∉ (c :: l).map fst → h₃ a = h a := by
  obtain ⟨z, hzm, hlast⟩ := exists_lastPtr c l
  obtain ⟨d, m, hd⟩ : ∃ d m, l ++ [c] = d :: m := exists_cons_of_ne_nil (by simp)
  have hnext : headPtr (l ++ [c]) = some d.1 := by rw [hd, headPtr_cons]
  have hdm : d ∈ c :: l := by
    have : d ∈ l ++ [c] := by simp [hd]
    simpa [or_comm] using this
  have hcv := hr.val c (by simp)
  have hcell := hr.cell
  rw [hlast, hnext] at hcell
  obtain ⟨h₁, e₁, s₁⟩ := h.shows_self.update_next (hr.val z hzm) (some d.1)
  obtain ⟨h₂, e₂, s₂⟩ := s₁.update_prev (hr.val d hdm) (some z.1)
  obtain ⟨h₃, e₃, s₃⟩ := s₂.update_next hcv q
  obtain ⟨cell₁, hc₁, hn₁⟩ : ∃ cell, h₁ c.1 = some cell ∧ cell.next = some d.1 := by
    have hv₁ : h₁.valOf c.1 = some c.2 := by rw [s₁.val, hcv]
    refine ⟨_, Cells.cell_of_valOf hv₁, ?_⟩
    rw [s₁.next]
    by_cases hcz : c.1 = z.1
    · simp [hcz]
    · simp [hcz, Cells.nextOf, hcell]
  refine ⟨d.1, z.1, h₁, cell₁, h₂, h₃, hcell, e₁, hc₁, hn₁, e₂, e₃, ?_,
    hr.pop (q := q) ?_ ?_ s₃.val, ?_, ?_, ?_⟩
  · cases l with
    | nil =>
      obtain rfl : c = d := (cons.inj hd).1
      simp
    | cons b l =>
      obtain rfl : b = d := (cons.inj hd).1
      have hnd := hr.nodup
      simp only [map_cons, nodup_cons, mem_cons, not_or] at hnd
      rw [if_neg (fun he => hnd.1.1 he.symm), headPtr_cons]
  · rw [s₃.next, hlast, hnext]
    simp
  · rw [s₃.prev, hlast, hnext]
    simp
  · rw [s₃.next, update_self]
  · rw [s₃.val, hcv]
  · intro a ha
    have haz : a ≠ z.1 := fun he => ha (he ▸ mem_map_of_mem hzm)
    have had : a ≠ d.1 := fun he => ha (he ▸ mem_map_of_mem hdm)
    have hac : a ≠ c.1 := fun he => ha (by simp [he])
    apply s₃.cell_congr h.shows_self
    · simp [hac, haz]
    · simp [had]
    · rfl

theorem Queue.shrink (hq : Queue jb (c :: l) fl) (hr : Ring jb'.heap l)
    (hhead : jb'.frames = headPtr l) (hfree : jb'.free = some c.1)
    (hnext : jb'.heap.nextOf c.1 = jb.free) (hval : jb'.heap.valOf c.1 = some c.2)
    (hframe : ∀ a, a ∉ (c :: l).map fst → jb'.heap a = jb.heap a)
    (hcur : jb'.info.framesCur = jb.info.framesCur - 1) : Queue jb' l (c.1 :: fl) := by
  have hfl : ∀ a ∈ fl, jb'.heap a = jb.heap a := fun a ha => hframe a (hq.apart a ha)
  refine ⟨hr, hhead, ⟨hfree, ?_⟩, ?_, ?_, ?_, ?_⟩
  · rw [hnext]
    refine hq.free.congr fun a ha => ?_
    simp only [Cells.nextOf, hfl a ha]
  · intro a ha
    rcases mem_cons.mp ha with rfl | ha
    · simp [Cells.cell_of_valOf hval]
    · rw [hfl a ha]
      exact hq.allocated a ha
  · exact nodup_cons.mpr ⟨fun hm => hq.apart c.1 hm (by simp), hq.nodup⟩
  · intro a ha hm
    rcases mem_cons.mp ha with rfl | ha
    · exact (nodup_cons.mp hq.ring.nodup).1 hm
    · exact hq.apart a ha (mem_cons_of_mem _ hm)
  · rw [hcur, hq.cur, length_cons]
    omega

theorem queueGetFirst_eq (hq : Queue jb l fl) (ts : ℤ) (all : Bool) :
    queueGetFirst jb ts all = some (jb, none) ∨
      ∃ c l' h' fr', l = c :: l' ∧ (all = true ∨ ts ≥ c.2.ts) ∧
        queueGetFirst jb ts all = some ({ jb with
          heap := h', frames := fr', free := some c.1
          info := { jb.info with framesCur := jb.info.framesCur - 1 } }, some c.2) ∧
        Queue { jb with
          heap := h', frames := fr', free := some c.1
          info := { jb.info with framesCur := jb.info.framesCur - 1 } } l' (c.1 :: fl) := by
  cases l with
  | nil =>
    have hfr : jb.frames = none := hq.head
    exact .inl (by simp [queueGetFirst, hfr])
  | cons c l =>
    have hfr : jb.frames = some c.1 := hq.head
    obtain ⟨d, z, h₁, cell, h₂, h₃, hcell, e₁, hc₁, hn₁, e₂, e₃, hhead, hring, hnext,
        hval, hframe⟩ :=
      unlinkFirst_eq hq.ring jb.free
    by_cases hget : all = true ∨ ts ≥ c.2.ts
    · refine .inr ⟨c, l, h₃, headPtr l, rfl, hget, ?_,
        hq.shrink hring rfl rfl hnext hval hframe rfl⟩
      simp only [queueGetFirst, hfr, hcell, bind_eq_bind, bind_some, if_pos hget, e₁, hc₁,
        hn₁, e₂, e₃, hhead]
    · exact .inl (by simp only [queueGetFirst, hfr, hcell, bind_eq_bind, bind_some, if_neg hget])

theorem takeNode_frame (ht : takeNode jb f mem = some (jb', frame)) :
    ∃ h' fr', jb' = { jb with heap := h', free := fr' } := by
  unfold takeNode at ht
  split at ht
  · simp only [bind_eq_bind, bind_eq_some_iff, some.injEq, Prod.mk.injEq] at ht
    obtain ⟨_, _, h', _, rfl, -⟩ := ht
    exact ⟨h', _, rfl⟩
  · split at ht <;> cases ht
    · exact ⟨_, jb.free, rfl⟩
    · exact ⟨_, jb.free, rfl⟩

theorem queuePut_frame {out : PutOutcome α}
    (hput : queuePut jb data type ms ts mem fuel = some out) :
    (∃ h' frames free cur ooo, out.jb = { jb with
      heap := h', frames := frames, free := free
      info := { jb.info with framesCur := cur, framesOoo := ooo } }) ∧
      ∀ f ∈ out.queued, f.type = type ∧ f.ms = ms := by
  simp only [queuePut, bind_eq_bind, bind_eq_some_iff] at hput
  obtain ⟨⟨jb₁, frame⟩, ht, hput⟩ := hput
  obtain ⟨h₁, fr₁, rfl⟩ := takeNode_frame ht
  cases frame with
  | none =>
    cases hput
    exact ⟨⟨_, _, _, _, _, rfl⟩, by simp⟩
  | some x =>
    simp only at hput
    split at hput
    · simp only [bind_eq_some_iff, some.injEq] at hput
      obtain ⟨_, _, _, _, rfl⟩ := hput
      exact ⟨⟨_, _, _, _, _, rfl⟩, by simp⟩
    · simp only [bind_eq_some_iff] at hput
      obtain ⟨cell, -, hput⟩ := hput
      split at hput
      · simp only [bind_eq_some_iff, some.injEq] at hput
        obtain ⟨_, _, rfl⟩ := hput
        exact ⟨⟨_, _, _, _, _, rfl⟩, by simp⟩
      · simp only [bind_eq_some_iff, some.injEq] at hput
        obtain ⟨_, _, _, _, _, _, _, _, rfl⟩ := hput
        exact ⟨⟨_, _, _, _, _, rfl⟩, by simp⟩

theorem queueGetFirst_frame {all : Bool} {frame : Option (JbFrame α)}
    (hget : queueGetFirst jb ts all = some (jb', frame)) :
    ∃ h' frames free cur, jb' = { jb with
      heap := h', frames := frames, free := free, info := { jb.info with framesCur := cur } } := by
  unfold queueGetFirst at hget
  split at hget
  · cases hget
    exact ⟨_, _, _, _, rfl⟩
  · simp only [bind_eq_bind, bind_eq_some_iff] at hget
    obtain ⟨cell, -, hget⟩ := hget
    split at hget
    · simp only [bind_eq_some_iff, some.injEq, Prod.mk.injEq] at hget
      obtain ⟨_, _, _, _, _, _, _, _, _, _, _, _, rfl, -⟩ := hget
      exact ⟨_, _, _, _, rfl⟩
    · cases hget
      exact ⟨_, _, _, _, rfl⟩

theorem historyPut_frame (jb : Jitterbuf α) (ts now : ℤ) :
    ∃ discont offset last history ptr valid force, (historyPut jb ts now).1 = { jb with
      info := { jb.info with cntDelayDiscont := discont, resyncOffset := offset, lastDelay := last }
      history := history, histPtr := ptr, histMaxbufValid := valid, forceResync := force } := by
  cases hf : jb.forceResync <;>
    simp only [historyPut, historyStore, resync, hf, Bool.false_eq_true, if_true, if_false] <;>
    split_ifs <;> exact ⟨_, _, _, _, _, _, _, rfl⟩

theorem historyGet_frame (jb : Jitterbuf α) :
    ∃ min jitter maxbuf minbuf valid, historyGet jb = { jb with
    info := { jb.info with min := min, jitter := jitter }
    histMaxbuf := maxbuf, histMinbuf := minbuf, histMaxbufValid := valid } := by
  simp only [historyGet, historyCalcMaxbuf]
  split_ifs <;> exact ⟨_, _, _, _, _, rfl⟩

section Get

variable (frame : Option (JbFrame α)) (diff now interpl : ℤ)

/-- A get writes only measures of the buffer, not those of the queue and of the target. -/
structure Measured (jb : Jitterbuf α) (frame : Option (JbFrame α)) (g : GetOutcome α) : Prop where
  jb_eq : g.jb = { jb with info := g.jb.info }
  cur : g.jb.info.framesCur = jb.info.framesCur
  target : g.jb.info.target = jb.info.target
  min : g.jb.info.min = jb.info.min
  handed : g.handed = frame.toList

theorem measured_interpolated (conf : JbConf) (info : JbInfo)
    (hcur : info.framesCur = jb.info.framesCur) (htarget : info.target = jb.info.target)
    (hmin : info.min = jb.info.min) :
    Measured jb none ⟨{ jb with info := interpolated conf info interpl }, .interp, .untouched⟩ := by
  simp only [interpolated]
  split <;> exact ⟨rfl, hcur, htarget, hmin, rfl⟩

theorem measured_getVoice (jb : Jitterbuf α) :
    Measured jb frame (getVoice jb frame diff now interpl) := by
  cases frame with
  | none =>
    simp only [getVoice]
    split
    · exact ⟨rfl, rfl, rfl, rfl, rfl⟩
    · exact measured_interpolated interpl _ _ rfl rfl rfl
  | some f =>
    simp only [getVoice]
    split_ifs <;> exact ⟨rfl, rfl, rfl, rfl, rfl⟩

theorem measured_getSilent (jb : Jitterbuf α) : Measured jb frame (getSilent jb frame) := by
  cases frame with
  | none => exact ⟨rfl, rfl, rfl, rfl, rfl⟩
  | some f =>
    simp only [getSilent]
    split_ifs <;> exact ⟨rfl, rfl, rfl, rfl, rfl⟩

end Get

end CallWeaver.Jitter.Adaptive
