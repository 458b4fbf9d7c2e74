import CallWeaver.Base.Links
import CallWeaver.Base.Ownership
import CallWeaver.Cdr.Batch

/-! # Who holds the records

Each cell of a batch belongs to the batch or to one thread. A history beside the run says which
records were linked, taken as a batch and posted; the invariant relates it to the cells, and every
step keeps it.
-/

namespace CallWeaver.Cdr

open Function List Option

variable {c : Config} {s : State} {t u : ℕ} {pc pc' : Pc} {own own' : Option ℕ → List ℕ}
  {l vals : List ℕ}

structure History where
  /-- the records in the order in which they were linked -/
  log : List ℕ
  /-- the records of each batch that was taken -/
  taken : List (List ℕ)
  /-- the number of the batch that a thread posts -/
  batchOf : ℕ → ℕ
  /-- the records of each batch that were posted -/
  posted : ℕ → List ℕ

namespace History

variable {h h' : History}

def record (h : History) : Act → History
  | .link _ cdr => { h with log := h.log ++ [cdr] }
  | .reset t => { h with
      taken := h.taken ++ [h.log.drop h.taken.flatten.length]
      batchOf := update h.batchOf t h.taken.length }
  | .thread t (some u) => { h with batchOf := update h.batchOf u (h.batchOf t) }
  | .post t cdr =>
    { h with posted := update h.posted (h.batchOf t) (h.posted (h.batchOf t) ++ [cdr]) }
  | _ => h

def empty : History := ⟨[], [], fun _ => 0, fun _ => []⟩

end History

variable {h h' : History}

def history (acts : List Act) : History := acts.foldl History.record .empty

def Pc.critical : Pc → Bool
  | .detachInit .. | .detachReset .. | .detachLink .. | .detachUnlock _ => true
  | .submitReset _ | .submitUnlock .. => true
  | _ => false

def Pc.taking : Pc → Bool
  | .submitUnlock .. | .submitThread .. | .posting _ => true
  | _ => false

def Pc.seen : Pc → Bool
  | .detachReset .. | .detachLink .. | .submitHead _ | .submitLock _ | .submitReset _ => true
  | _ => false

def Pc.resetting : Pc → Bool
  | .detachReset .. => true
  | _ => false

def State.next (s : State) (a : ℕ) : Option ℕ := (s.item a).next

def State.cdrs (s : State) (l : List ℕ) : List (Option ℕ) := l.map fun a => (s.item a).cdr

structure Filled (s : State) (b : Batch) (l : List ℕ) : Prop where
  list : Seg s.next b.head l none
  tail : b.tail = l.getLast?
  size : b.size = l.length

/-- The items of a thread: a new one that it has not linked yet, or the rest of a batch. -/
def Chain (s : State) (h : History) (t : ℕ) : Pc → List ℕ → Prop
  | .detachLock _ a, l | .detachInit _ a, l | .detachReset _ a, l | .detachLink _ a, l =>
    l = [a] ∧ (s.item a).next = none
  | .submitUnlock _ p, l | .submitThread _ p, l | .posting p, l =>
    Seg s.next p l none ∧ ∃ rest, s.cdrs l = rest.map some ∧
      h.taken[h.batchOf t]? = some (h.posted (h.batchOf t) ++ rest)
  | _, l => l = []

structure Inv (s : State) (h : History) (own : Option ℕ → List ℕ) (vals : List ℕ) : Prop where
  owned : Owned s.allocated own
  lock : ∀ t, s.lock = some t ↔ (s.pc t).critical = true
  seen : ∀ t, (s.pc t).seen = true → s.batch ≠ none
  filled : (∀ t, (s.pc t).resetting = false) → ∀ b, s.batch = some b → Filled s b (own none)
  resetting : ∀ t, (s.pc t).resetting = true → own none = []
  unallocated : s.batch = none → own none = []
  contents : s.cdrs (own none) = vals.map some
  log : h.log = h.taken.flatten ++ vals
  chain : ∀ t, Chain s h t (s.pc t) (own (some t))
  apart : ∀ t u, (s.pc t).taking = true → (s.pc u).taking = true → h.batchOf t = h.batchOf u → t = u
  posted : ∀ k b, h.taken[k]? = some b → (∃ t, (s.pc t).taking = true ∧ h.batchOf t = k) ∨
    h.posted k = b
  unposted : ∀ k, h.taken.length ≤ k → h.posted k = []

theorem inv_initial : Inv initial .empty (fun _ => []) [] where
  owned := ⟨by simp, by simp, by simp⟩
  lock t := by simp [initial, Pc.critical]
  seen t := by simp [initial, Pc.seen]
  filled _ b hb := by cases hb
  resetting t := by simp [initial, Pc.resetting]
  unallocated _ := rfl
  contents := rfl
  log := rfl
  chain _ := rfl
  apart t u := by simp [initial, Pc.taking]
  posted k b := by simp [History.empty]
  unposted _ _ := rfl

theorem Chain.congr (s' : State) (hc : Chain s h t pc l) (hi : ∀ a ∈ l, s'.item a = s.item a)
    (hh : pc.taking = true → h'.batchOf u = h.batchOf t ∧
      h'.posted (h.batchOf t) = h.posted (h.batchOf t) ∧ h.taken <+: h'.taken) :
    Chain s' h' u pc l := by
  have hnew : ∀ a, l = [a] ∧ (s.item a).next = none → l = [a] ∧ (s'.item a).next = none := by
    rintro a ⟨rfl, ha⟩
    exact ⟨rfl, by rw [hi a (by simp), ha]⟩
  have htaken : ∀ p, pc.taking = true →
      (Seg s.next p l none ∧ ∃ rest, s.cdrs l = rest.map some ∧
        h.taken[h.batchOf t]? = some (h.posted (h.batchOf t) ++ rest)) →
      (Seg s'.next p l none ∧ ∃ rest, s'.cdrs l = rest.map some ∧
        h'.taken[h'.batchOf u]? = some (h'.posted (h'.batchOf u) ++ rest)) := by
    rintro p hpc ⟨hseg, rest, hrest, hbatch⟩
    obtain ⟨hof, hposted, htaken⟩ := hh hpc
    refine ⟨hseg.congr fun a ha => congrArg BatchItem.next (hi a ha), rest, ?_, ?_⟩
    · rw [← hrest]
      exact map_congr_left fun a ha => congrArg BatchItem.cdr (hi a ha)
    · rw [hof, hposted]
      obtain ⟨more, hmore⟩ := htaken
      rw [← hmore, List.getElem?_append_left (List.getElem?_eq_some_iff.mp hbatch).1, hbatch]
  cases pc with
  | detachLock cdr a | detachInit cdr a | detachReset cdr a | detachLink cdr a => exact hnew a hc
  | submitUnlock sh p | submitThread sh p | posting p => exact htaken p rfl hc
  | idle | detachUnlock _ | detachCheck _ | submitBatch _ | submitHead _ | submitLock _
      | submitReset _ => exact hc

variable {b : Batch}

theorem Filled.congr (s' : State) (hf : Filled s b l) (hi : ∀ a ∈ l, s'.item a = s.item a) :
    Filled s' b l :=
  ⟨hf.list.congr fun a ha => congrArg BatchItem.next (hi a ha), hf.tail, hf.size⟩

variable {cdr a : ℕ}

/-- A test on which the old and the new place of a thread agree says the same of all threads. -/
theorem test_update (f : Pc → Bool) (hpc : s.pc t = pc) (hf : f pc' = f pc) (u : ℕ) :
    f (update s.pc t pc' u) = f (s.pc u) := by
  by_cases hu : u = t
  · rw [hu, update_self, hpc, hf]
  · rw [update_of_ne hu]

section Control

variable (hi : Inv s h own vals)

include hi

theorem Inv.lock_same (hpc : s.pc t = pc) (hc : pc'.critical = pc.critical) (u : ℕ) :
    s.lock = some u ↔ (update s.pc t pc' u).critical = true := by
  rw [hi.lock, test_update Pc.critical hpc hc]

theorem Inv.lock_acquire (hn : s.lock = none) (hc : pc'.critical = true) (u : ℕ) :
    some t = some u ↔ (update s.pc t pc' u).critical = true := by
  by_cases hu : u = t
  · subst hu
    simp [hc]
  · rw [update_of_ne hu, ← hi.lock, hn]
    simp [Ne.symm hu]

theorem Inv.lock_release (hpc : s.pc t = pc) (ht : pc.critical = true) (hc : pc'.critical = false)
    (u : ℕ) : none = some u ↔ (update s.pc t pc' u).critical = true := by
  by_cases hu : u = t
  · subst hu
    simp [hc]
  · rw [update_of_ne hu, ← hi.lock, (hi.lock t).mpr (hpc ▸ ht)]
    simp [Ne.symm hu]

theorem Inv.critical_unique (ht : (s.pc t).critical = true) (hu : (s.pc u).critical = true) :
    t = u :=
  some.inj (((hi.lock t).mpr ht).symm.trans ((hi.lock u).mpr hu))

theorem Inv.seen_update (hseen : pc'.seen = true → s.batch ≠ none) (u : ℕ)
    (hu : (update s.pc t pc' u).seen = true) : s.batch ≠ none := by
  by_cases hut : u = t
  · subst hut
    exact hseen (by simpa using hu)
  · exact hi.seen u (by rwa [update_of_ne hut] at hu)

variable (hpc : s.pc t = pc)

include hpc

theorem Inv.resetting_update (hr : pc'.resetting = pc.resetting) (u : ℕ)
    (hu : (update s.pc t pc' u).resetting = true) : own none = [] :=
  hi.resetting u ((test_update Pc.resetting hpc hr u).symm.trans hu)

theorem Inv.filled_update (hu : ∀ u, (update s.pc t pc' u).resetting = false)
    (hr : pc'.resetting = pc.resetting) (hb : s.batch = some b) : Filled s b (own none) :=
  hi.filled (fun u => (test_update Pc.resetting hpc hr u).symm.trans (hu u)) b hb

theorem Inv.apart_update (ht : pc'.taking = pc.taking) (u v : ℕ)
    (hu : (update s.pc t pc' u).taking = true) (hv : (update s.pc t pc' v).taking = true) :
    h.batchOf u = h.batchOf v → u = v :=
  hi.apart u v ((test_update Pc.taking hpc ht u).symm.trans hu)
    ((test_update Pc.taking hpc ht v).symm.trans hv)

theorem Inv.posted_update (ht : pc'.taking = pc.taking) (k : ℕ) (b : List ℕ)
    (hb : h.taken[k]? = some b) :
    (∃ u, (update s.pc t pc' u).taking = true ∧ h.batchOf u = k) ∨ h.posted k = b := by
  rcases hi.posted k b hb with ⟨u, hu, hk⟩ | hk
  · exact .inl ⟨u, (test_update Pc.taking hpc ht u).trans hu, hk⟩
  · exact .inr hk

end Control

theorem Pc.critical_of_resetting (h : pc.resetting = true) : pc.critical = true := by
  cases pc <;> simp_all [Pc.resetting, Pc.critical]

section

variable (hi : Inv s h own vals)

include hi

theorem Inv.not_resetting (hpc : s.pc t = pc) (ht : pc.critical = true) (hr : pc.resetting = false)
    (u : ℕ) : (s.pc u).resetting = false := by
  by_contra hu
  rw [Bool.not_eq_false] at hu
  obtain rfl := hi.critical_unique (hpc ▸ ht) (Pc.critical_of_resetting hu)
  simp [hpc, hr] at hu

theorem Inv.chain_update (s' : State) (hpc : s'.pc = update s.pc t pc')
    (hown : ∀ u, u ≠ t → own' (some u) = own (some u))
    (hitem : ∀ u, u ≠ t → ∀ a ∈ own (some u), s'.item a = s.item a)
    (hh : ∀ u, u ≠ t → (s.pc u).taking = true → h'.batchOf u = h.batchOf u ∧
      h'.posted (h.batchOf u) = h.posted (h.batchOf u) ∧ h.taken <+: h'.taken)
    (ht : Chain s' h' t pc' (own' (some t))) (u : ℕ) : Chain s' h' u (s'.pc u) (own' (some u)) := by
  rw [hpc]
  by_cases hu : u = t
  · subst hu
    rwa [update_self]
  · rw [update_of_ne hu, hown u hu]
    exact (hi.chain u).congr s' (hitem u hu) (hh u hu)

theorem Inv.goto (hpc : s.pc t = pc) (lock : Option ℕ) (scheduled : Bool)
    (hlock : ∀ u, lock = some u ↔ (update s.pc t pc' u).critical = true)
    (hseen : pc'.seen = true → s.batch ≠ none) (hreset : pc'.resetting = pc.resetting)
    (hchain : Chain s h t pc' (own (some t))) (htaking : pc'.taking = pc.taking) :
    Inv { s.goto t pc' with lock := lock, scheduled := scheduled } h own vals :=
  { hi with
    lock := hlock
    seen := hi.seen_update hseen
    filled := fun hr _ hb => (hi.filled_update hpc hr hreset hb).congr _ fun _ _ => rfl
    resetting := hi.resetting_update hpc hreset
    chain := hi.chain_update _ rfl (fun _ _ => rfl) (fun _ _ _ _ => rfl) (fun _ _ _ =>
      ⟨rfl, rfl, prefix_rfl⟩) (hchain.congr _ (fun _ _ => rfl) fun _ => ⟨rfl, rfl, prefix_rfl⟩)
    apart := hi.apart_update hpc htaking
    posted := hi.posted_update hpc htaking }

theorem Inv.detach (hpc : s.pc t = .idle) (ha : s.allocated a = false) :
    Inv { s.goto t (.detachLock cdr a) with
      item := update s.item a ⟨none, none⟩
      allocated := update s.allocated a true } h (update own (some t) [a]) vals := by
  have hown : own (some t) = [] := by
    have hchain := hi.chain t
    rwa [hpc] at hchain
  have hitem : ∀ o, ∀ b ∈ own o, update s.item a ⟨none, none⟩ b = s.item b := fun o b hb =>
    update_of_ne (ne_of_mem_of_not_mem hb (hi.owned.notMem ha o)) _ _
  exact { hi with
    owned := hi.owned.alloc ha (by rw [hown])
    lock := hi.lock_same hpc rfl
    seen := hi.seen_update (by simp [Pc.seen])
    filled := fun hr b hb => (hi.filled_update hpc hr rfl hb).congr _ (hitem none)
    resetting := hi.resetting_update hpc rfl
    contents := by
      rw [← hi.contents]
      exact map_congr_left fun b hb => congrArg BatchItem.cdr (hitem none b hb)
    chain := by
      refine hi.chain_update _ rfl (fun u hu => update_of_ne (by simpa using hu) _ _) (fun u _ =>
        hitem (some u)) (fun _ _ _ => ⟨rfl, rfl, prefix_rfl⟩) ?_
      simp [Chain]
    apart := hi.apart_update hpc rfl
    posted := hi.posted_update hpc rfl }

/-- An empty batch is replaced by one that is reset or is going to be. -/
theorem Inv.setBatch (hpc : s.pc t = pc) (pc' : Pc) (hc : pc'.critical = pc.critical)
    (ht : pc'.taking = pc.taking)
    (hchain : Chain s h t pc (own (some t)) → Chain s h t pc' (own (some t)))
    (hempty : own none = []) (hb : pc'.resetting = true ∨ b = resetBatch) :
    Inv { s.goto t pc' with batch := some b } h own vals := by
  exact { hi with
    lock := hi.lock_same hpc hc
    seen := by simp
    filled := by
      intro hr b' hb'
      obtain rfl := some.inj hb'
      rw [hempty]
      rcases hb with hb | rfl
      · have ht := hr t
        simp [State.goto, hb] at ht
      · exact ⟨rfl, rfl, rfl⟩
    resetting := fun _ _ => hempty
    unallocated := by simp
    chain := by
      refine hi.chain_update _ rfl (fun _ _ => rfl) (fun _ _ _ _ => rfl) (fun _ _ _ =>
        ⟨rfl, rfl, prefix_rfl⟩) ?_
      exact (hchain (hpc ▸ hi.chain t)).congr _ (fun _ _ => rfl) fun _ => ⟨rfl, rfl, prefix_rfl⟩
    apart := hi.apart_update hpc ht
    posted := hi.posted_update hpc ht }

end

theorem linkItem_eq (t cdr : ℕ) (hb : s.batch = some b) (hf : Filled s b l) (ha : a ∉ l) :
    ∃ item, linkItem s t cdr a = some { s.goto t (.detachUnlock b.size) with
        item := item, batch := some ⟨b.size + 1, (l ++ [a]).head?, some a⟩ } ∧
      ∀ x, item x = if x = a then { s.item a with cdr := some cdr }
        else if l.getLast? = some x then { s.item x with next := some a } else s.item x := by
  rcases eq_nil_or_concat l with rfl | ⟨m, z, rfl⟩
  · have hhead : b.head = none := hf.list
    refine ⟨update s.item a { s.item a with cdr := some cdr }, ?_, fun x => ?_⟩
    · simp [linkItem, fillItem, hb, hhead]
    · by_cases hx : x = a
      · simp [hx]
      · simp [hx]
  · rw [concat_eq_append] at hf ha ⊢
    have hza : a ≠ z := fun he => ha (by simp [he])
    have hhead : b.head = (m ++ [z]).head? := by simpa using hf.list.start_eq
    have htail : b.tail = some z := by simpa using hf.tail
    refine ⟨update (update s.item z { s.item z with next := some a }) a
      { s.item a with cdr := some cdr }, ?_, fun x => ?_⟩
    · cases m with
      | nil | cons y m => simp [linkItem, fillItem, hb, hhead, htail, update_of_ne hza]
    · by_cases hx : x = a
      · simp [hx]
      · by_cases hxz : x = z
        · simp [hxz, Ne.symm hza]
        · simp [hx, hxz, Ne.symm hxz]

section

variable (hi : Inv s h own vals) {sh : Bool}

include hi

theorem Inv.link (hpc : s.pc t = .detachLink cdr a) : ∃ s', linkItem s t cdr a = some s' ∧
      Inv s' (h.record (.link t cdr)) (update (update own none (own none ++ [a])) (some t) [])
      (vals ++ [cdr]) := by
  have hres := hi.not_resetting hpc rfl rfl
  obtain ⟨b, hb⟩ := ne_none_iff_exists'.mp (hi.seen t (hpc ▸ rfl))
  have hf := hi.filled hres b hb
  obtain ⟨hown, hnext⟩ : own (some t) = [a] ∧ (s.item a).next = none := by
    have hchain := hi.chain t
    rwa [hpc] at hchain
  have ha : a ∉ own none :=
    fun hm => by simpa using hi.owned.unique none (some t) a hm (by simp [hown])
  obtain ⟨item, hs', hitem⟩ := linkItem_eq t cdr hb hf ha
  refine ⟨_, hs', ?_⟩
  have hnone : update (update own none (own none ++ [a])) (some t) [] none = own none ++ [a] := by
    rw [update_of_ne (by simp), update_self]
  have hself : item a = { s.item a with cdr := some cdr } := by rw [hitem, if_pos rfl]
  have hcdr : ∀ x ∈ own none, (item x).cdr = (s.item x).cdr := by
    intro x hx
    rw [hitem, if_neg (ne_of_mem_of_not_mem hx ha)]
    split <;> rfl
  constructor
  · refine hi.owned.move (by simp) ?_
    rw [hown, append_nil]
  · exact hi.lock_same hpc rfl
  · simp
  · rintro - b' hb'
    obtain rfl := some.inj hb'
    rw [hnone]
    refine ⟨?_, by simp, by simp [hf.size]⟩
    -- the last of the old items, or the head, now leads to the new one
    have hlink : ∀ x ∈ own none,
        (item x).next = if (own none).getLast? = some x then some a else s.next x := by
      intro x hx
      rw [hitem, if_neg (ne_of_mem_of_not_mem hx ha)]
      split <;> rfl
    have hhead : (own none ++ [a]).head? = if own none = [] then some a else b.head := by
      have hstart := hf.list.start_eq
      cases ho : own none with
      | nil => simp
      | cons x l => simpa [ho] using hstart.symm
    refine Seg.append_iff.mpr ⟨some a, hf.list.relink (hi.owned.nodup none) hhead hlink, rfl, ?_⟩
    show (item a).next = none
    rw [hself]
    exact hnext
  · intro u hu
    have hut : (s.pc u).resetting = true := (test_update Pc.resetting hpc (by rfl) u).symm.trans hu
    simp [hres u] at hut
  · simp
  · rw [hnone, State.cdrs, map_append, map_append, ← hi.contents]
    congr 1
    · exact map_congr_left hcdr
    · simp [hself]
  · rw [History.record, hi.log, append_assoc]
  · refine hi.chain_update _ rfl (fun u hu => ?_) (fun u hu x hx => ?_) (fun _ _ _ =>
      ⟨rfl, rfl, prefix_rfl⟩) ?_
    · rw [update_of_ne (by simpa using hu), update_of_ne (by simp)]
    · have hxa : x ≠ a := by
        rintro rfl
        exact hu (by simpa using hi.owned.unique (some u) (some t) x hx (by simp [hown]))
      have hxl : (own none).getLast? ≠ some x := fun he => by
        simpa using hi.owned.unique none (some u) x (mem_of_getLast? he) hx
      show item x = s.item x
      rw [hitem, if_neg hxa, if_neg hxl]
    · rw [update_self]
      rfl
  · exact hi.apart_update hpc rfl
  · exact hi.posted_update hpc rfl
  · exact hi.unposted

theorem Inv.batchOf_lt (hu : (s.pc u).taking = true) : h.batchOf u < h.taken.length := by
  have hchain := hi.chain u
  cases hp : s.pc u <;> simp only [hp, Pc.taking, Bool.false_eq_true] at hu <;>
    · rw [hp] at hchain
      obtain ⟨-, rest, -, hbatch⟩ := hchain
      exact (List.getElem?_eq_some_iff.mp hbatch).1

theorem Inv.taken_reset : (h.record (.reset t)).taken = h.taken ++ [vals] := by
  simp [History.record, hi.log]

theorem Inv.chain_reset (hf : Filled s b (own none)) (u : ℕ) :
    let s' := { s.goto t (.submitUnlock sh b.head) with batch := some resetBatch }
    Chain s' (h.record (.reset t)) u (s'.pc u)
        (update (update own none []) (some t) (own none) (some u)) := by
  intro s'
  refine hi.chain_update s' rfl (fun u hu => ?_) (fun _ _ _ _ => rfl) (fun u hu hpu => ?_) ?_ u
  · rw [update_of_ne (by simpa using hu), update_of_ne (by simp)]
  · exact ⟨update_of_ne hu _ _, rfl, by rw [hi.taken_reset]; exact prefix_append _ _⟩
  · rw [update_self]
    refine ⟨hf.list, vals, hi.contents, ?_⟩
    have hself : (h.record (.reset t)).batchOf t = h.taken.length := update_self ..
    rw [hself, hi.taken_reset, show (h.record (.reset t)).posted = h.posted from rfl,
      hi.unposted _ le_rfl]
    simp

theorem Inv.apart_reset (u v : ℕ) (hu : (update s.pc t pc' u).taking = true)
    (hv : (update s.pc t pc' v).taking = true) :
    (h.record (.reset t)).batchOf u = (h.record (.reset t)).batchOf v → u = v := by
  -- the batches of the other threads have lower numbers
  have hself : (h.record (.reset t)).batchOf t = h.taken.length := update_self ..
  have hnumber : ∀ w, (update s.pc t pc' w).taking = true → w = t ∨
      (s.pc w).taking = true ∧ (h.record (.reset t)).batchOf w = h.batchOf w ∧
        h.batchOf w < h.taken.length := by
    intro w hw
    by_cases hwt : w = t
    · exact .inl hwt
    · rw [update_of_ne hwt] at hw
      exact .inr ⟨hw, update_of_ne hwt _ _, hi.batchOf_lt hw⟩
  intro huv
  rcases hnumber u hu with rfl | ⟨hu, hbu, hlu⟩ <;> rcases hnumber v hv with rfl | ⟨hv, hbv, hlv⟩
  · rfl
  · omega
  · omega
  · exact hi.apart u v hu hv (by omega)

theorem Inv.posted_reset (hpc : s.pc t = pc) (ht : pc.taking = false) (ht' : pc'.taking = true)
    (k : ℕ) (b : List ℕ) (hb : (h.record (.reset t)).taken[k]? = some b) :
    (∃ u, (update s.pc t pc' u).taking = true ∧ (h.record (.reset t)).batchOf u = k) ∨
      (h.record (.reset t)).posted k = b := by
  rw [hi.taken_reset, getElem?_append] at hb
  split at hb
  · rcases hi.posted k b hb with ⟨u, hu, hk⟩ | hk
    · have hut : u ≠ t := by
        rintro rfl
        simp [hpc, ht] at hu
      exact .inl ⟨u, by rwa [update_of_ne hut], (update_of_ne hut _ _).trans hk⟩
    · exact .inr hk
  · refine .inl ⟨t, by rwa [update_self], (update_self ..).trans ?_⟩
    have hk := (List.getElem?_eq_some_iff.mp hb).1
    simp at hk
    omega

theorem Inv.reset (hpc : s.pc t = .submitReset sh) :
    ∃ b, s.batch = some b ∧
      Inv { s.goto t (.submitUnlock sh b.head) with batch := some resetBatch } (h.record (.reset t))
        (update (update own none []) (some t) (own none)) [] ∧
      (h.record (.reset t)).taken = h.taken ++ [vals] := by
  obtain ⟨b, hb⟩ := ne_none_iff_exists'.mp (hi.seen t (hpc ▸ rfl))
  have hf := hi.filled (hi.not_resetting hpc rfl rfl) b hb
  have hown : own (some t) = [] := by
    have hchain := hi.chain t
    rwa [hpc] at hchain
  have hnone : update (update own none []) (some t) (own none) none = [] := by
    rw [update_of_ne (by simp), update_self]
  refine ⟨b, hb, ?_, hi.taken_reset⟩
  constructor
  · refine hi.owned.move (by simp) ?_
    rw [hown, nil_append, append_nil]
  · exact hi.lock_same hpc rfl
  · simp
  · rintro - b' hb'
    obtain rfl := some.inj hb'
    rw [hnone]
    exact ⟨rfl, rfl, rfl⟩
  · exact fun _ _ => hnone
  · simp
  · rw [hnone]
    rfl
  · rw [hi.taken_reset, flatten_append]
    simpa [History.record] using hi.log
  · exact hi.chain_reset hf
  · exact hi.apart_reset
  · exact hi.posted_reset hpc rfl rfl
  · intro k hk
    rw [hi.taken_reset] at hk
    exact hi.unposted k (by simp at hk; omega)

/-- Threads exchange their places, and with them what they hold. -/
theorem Inv.rename {pcs : ℕ → Pc} {batchOf : ℕ → ℕ} (σ : Equiv.Perm ℕ)
    (hpcs : ∀ w, pcs w = s.pc (σ w)) (hlock : ∀ w, (s.pc (σ w)).critical = (s.pc w).critical)
    (hof : ∀ w, (s.pc (σ w)).taking = true → batchOf w = h.batchOf (σ w)) :
    Inv { s with pc := pcs } { h with batchOf := batchOf } (fun o => own (o.map σ)) vals := by
  obtain rfl : pcs = fun w => s.pc (σ w) := funext hpcs
  exact { hi with
    owned :=
      ⟨fun _ => hi.owned.nodup _, fun _ _ a hv hw =>
        map_injective σ.injective (hi.owned.unique _ _ a hv hw), fun _ => hi.owned.allocated _⟩
    lock := fun w => by rw [hi.lock, hlock]
    seen := fun w => hi.seen (σ w)
    filled :=
      fun hr b hb => (hi.filled (fun w => by simpa using hr (σ.symm w)) b hb).congr _ fun _ _ => rfl
    resetting := fun w => hi.resetting (σ w)
    chain :=
      fun w => (hi.chain (σ w)).congr _ (fun _ _ => rfl) fun hw => ⟨hof w hw, rfl, prefix_rfl⟩
    apart := fun v w hv hw he =>
      σ.injective (hi.apart _ _ hv hw ((hof v hv).symm.trans (he.trans (hof w hw))))
    posted := by
      intro k b hb
      rcases hi.posted k b hb with ⟨w, hw, hk⟩ | hk
      · have hw' : (s.pc (σ (σ.symm w))).taking = true := by rwa [σ.apply_symm_apply]
        exact .inl ⟨σ.symm w, hw', (hof _ hw').trans (by rw [σ.apply_symm_apply, hk])⟩
      · exact .inr hk }

theorem Inv.thread {old : Option ℕ} (hpc : s.pc t = .submitThread sh old) (hu : s.pc u = .idle) :
    Inv ((s.goto u (.posting old)).goto t .idle) (h.record (.thread t (some u)))
      (fun o => own (o.map (Equiv.swap t u))) vals := by
  have hut : u ≠ t := by
    rintro rfl
    simp [hpc] at hu
  have hchain : Chain s h t (.submitThread sh old) (own (some t)) := hpc ▸ hi.chain t
  -- the thread posts the items itself, and then exchanges its place with the other one
  have hself : Inv (s.goto t (.posting old)) h own vals :=
    hi.goto hpc s.lock s.scheduled (hi.lock_same hpc rfl) (by simp [Pc.seen]) rfl hchain rfl
  refine hself.rename (Equiv.swap t u) (fun w => ?_) (fun w => ?_) fun w hw => ?_
  all_goals
    by_cases hwt : w = t
    · subst hwt
      simp_all [State.goto, Pc.critical, Pc.taking]
    by_cases hwu : w = u
    · subst hwu
      simp_all [State.goto, Pc.critical, Pc.taking]
    simp [State.goto, Equiv.swap_apply_of_ne_of_ne hwt hwu, hwt, hwu]

theorem Inv.post (hpc : s.pc t = .posting (some a)) :
    ∃ cdr l, (s.item a).cdr = some cdr ∧ own (some t) = a :: l ∧
      Inv { s.goto t (.posting (s.item a).next) with allocated := update s.allocated a false }
        (h.record (.post t cdr)) (update own (some t) l) vals := by
  obtain ⟨hseg, rest, hrest, hbatch⟩ : Chain s h t (.posting (some a)) (own (some t)) :=
    hpc ▸ hi.chain t
  obtain ⟨l, hown⟩ : ∃ l, own (some t) = a :: l := by
    cases ho : own (some t) with
    | nil =>
      rw [ho] at hseg
      cases hseg
    | cons x l =>
      rw [ho] at hseg
      obtain ⟨hx, -⟩ := hseg
      exact ⟨l, by rw [some.inj hx]⟩
  rw [hown] at hseg hrest
  obtain ⟨cdr, rest, rfl, hcdr, hrest⟩ :
      ∃ cdr rest', rest = cdr :: rest' ∧ (s.item a).cdr = some cdr ∧ s.cdrs l = rest'.map some := by
    cases rest with
    | nil => cases hrest
    | cons cdr rest => exact ⟨cdr, rest, rfl, List.cons.inj hrest⟩
  refine ⟨cdr, l, hcdr, hown, ?_⟩
  have htk : (s.pc t).taking = true := hpc ▸ rfl
  have htaken : h.batchOf t < h.taken.length := hi.batchOf_lt htk
  have hself : (h.record (.post t cdr)).posted (h.batchOf t) = h.posted (h.batchOf t) ++ [cdr] :=
    update_self ..
  have hother : ∀ k, k ≠ h.batchOf t → (h.record (.post t cdr)).posted k = h.posted k :=
    fun k hk => update_of_ne hk _ _
  exact { hi with
    owned := by
      have hnd := hi.owned.nodup (some t)
      rw [hown] at hnd
      exact hi.owned.free (hown ▸ sublist_cons_self a l) (by simp [hown]) (nodup_cons.mp hnd).1
    lock := hi.lock_same hpc rfl
    seen := hi.seen_update (by simp [Pc.seen])
    filled := fun hr b hb => (hi.filled_update hpc hr rfl hb).congr _ fun _ _ => rfl
    resetting := hi.resetting_update hpc rfl
    chain := by
      refine hi.chain_update _ rfl (fun u hu => update_of_ne (by simpa using hu) _ _)
        (fun _ _ _ _ => rfl)
        (fun u hu hpu => ⟨rfl, hother _ fun he => hu (hi.apart u t hpu htk he), prefix_rfl⟩) ?_
      rw [update_self]
      refine ⟨hseg.2, rest, hrest, ?_⟩
      show h.taken[h.batchOf t]? = _
      rw [show (h.record (.post t cdr)).batchOf t = h.batchOf t from rfl, hself, hbatch]
      simp
    apart := hi.apart_update hpc rfl
    posted := by
      intro k b hb
      by_cases hk : k = h.batchOf t
      · exact .inl ⟨t, by simp [State.goto, Pc.taking], hk.symm⟩
      · have hsame : (Pc.posting (s.item a).next).taking = (Pc.posting (some a)).taking := rfl
        exact (hi.posted_update hpc hsame k b hb).imp_right (hother k hk).trans
    unposted := by
      intro k hk
      have hk' : h.taken.length ≤ k := hk
      rw [hother k (by omega)]
      exact hi.unposted k hk' }

theorem Inv.finish (hpc : s.pc t = .posting none) : Inv (s.goto t .idle) h own vals := by
  obtain ⟨hseg, rest, hrest, hbatch⟩ : Chain s h t (.posting none) (own (some t)) :=
    hpc ▸ hi.chain t
  have hown : own (some t) = [] := by
    cases ho : own (some t) with
    | nil => rfl
    | cons x l =>
      rw [ho] at hseg
      cases hseg.1
  obtain rfl : rest = [] := by
    rw [hown] at hrest
    simpa [State.cdrs] using hrest
  have htaking : ∀ w, (update s.pc t .idle w).taking = true → w ≠ t ∧ (s.pc w).taking = true := by
    intro w hw
    by_cases hwt : w = t
    · rw [hwt, update_self] at hw
      cases hw
    · rw [update_of_ne hwt] at hw
      exact ⟨hwt, hw⟩
  exact { hi with
    lock := hi.lock_same hpc rfl
    seen := hi.seen_update (by simp [Pc.seen])
    filled := fun hr b hb => (hi.filled_update hpc hr rfl hb).congr _ fun _ _ => rfl
    resetting := hi.resetting_update hpc rfl
    chain := hi.chain_update _ rfl (fun _ _ => rfl) (fun _ _ _ _ => rfl) (fun _ _ _ =>
      ⟨rfl, rfl, prefix_rfl⟩) hown
    apart := fun u v hu hv => hi.apart u v (htaking u hu).2 (htaking v hv).2
    posted := by
      intro k b hb
      rcases hi.posted k b hb with ⟨u, hu, hk⟩ | hk
      · by_cases hut : u = t
        · right
          rw [hut] at hk
          rw [hk, hb, append_nil] at hbatch
          exact (some.inj hbatch).symm
        · exact .inl ⟨u, by simpa [State.goto, update_of_ne hut] using hu, hk⟩
      · exact .inr hk }

end

end CallWeaver.Cdr
