import NetworkEncryptor.Conservation
import NetworkEncryptor.Lib.Run
import Mathlib.Algebra.Order.BigOperators.Group.List

/-!
# NetworkEncryptor.FillBudget

How many frames the fill rings hold together.

`ne_pair_open` gives each queue its share of three quarters of the UMEM, but the
RX threads then top every ring up to its size, whatever the number of queues.
So the quarter that is meant to stay outside the fill rings is there exactly
when the rings of all queues are too small to hold more: with up to 24 queues
(`fillRings_bounded_iff`).
-/

namespace NetworkEncryptor

/-! ## opening the pair -/

/-- `prefill_per_queue`. -/
def prefillPerQueue (nFrames queueTotal : Nat) : Nat :=
  if queueTotal = 0 then neBatchSize
  else
    let budget := nFrames * 3 / 4
    let perQueue := budget / queueTotal
    let perQueue := if perQueue > neFqPrefill then neFqPrefill else perQueue
    if perQueue < neBatchSize then neBatchSize else perQueue

/-- `prefill_iface` over the queues of all interfaces. -/
def prefillQueues (want : Nat) : List NeXskQueue → NePool → List NeXskQueue × NePool
  | [], pool => ([], pool)
  | q :: qs, pool =>
      let r := prefillQueue want want q pool
      let rest := prefillQueues want qs r.2
      (r.1 :: rest.1, rest.2)

/-- The pool and the queues, LAN queues first. -/
structure FillState where
  pool : NePool
  queues : List NeXskQueue

/-- What `ne_pair_open` leaves for `lan` LAN queues and `wan` WAN queues. -/
def FillState.open (lan wan : Nat) : FillState :=
  let r := prefillQueues (prefillPerQueue neNFrames (lan + wan))
    (List.replicate (lan + wan) NeXskQueue.init) (poolOpen neNFrames)
  ⟨r.2, r.1⟩

inductive FillEvent where
  /-- an RX thread tops up a fill ring -/
  | refill (q : Nat)
  /-- the kernel takes frames from a fill ring -/
  | consume (q n : Nat)
  /-- frames come back to the pool -/
  | free (addrs : List Nat)
  /-- frames are taken for packets -/
  | alloc (n : Nat)

def FillState.step (s : FillState) : FillEvent → FillState
  | .refill i =>
      match s.queues[i]? with
      | none => s
      | some q =>
          let r := refillFqQueue q s.pool
          ⟨r.2, s.queues.set i r.1⟩
  | .consume i n =>
      match s.queues[i]? with
      | none => s
      | some q => { s with queues := s.queues.set i { q with fq := ⟨q.fq.entries.drop n, q.fq.size⟩ } }
  | .free addrs => { s with pool := poolPush s.pool addrs }
  | .alloc n => { s with pool := (poolPop s.pool n).2 }

/-- The number of frames in all fill rings. -/
def FillState.total (s : FillState) : Nat := (s.queues.map fun q => q.fq.entries.length).sum

/-! ## a fill ring holds no more than its size -/

/-- The fill ring has the size it was created with, and holds no more. -/
def FqFits (q : NeXskQueue) : Prop := q.fq.size = neRingSize ∧ q.fq.entries.length ≤ neRingSize

theorem FqFits.submit {q : NeXskQueue} (h : FqFits q) {es : List Nat}
    (hres : xskRingProdReserve q.fq es.length = es.length) :
    FqFits { q with fq := xskRingProdSubmit q.fq es } := by
  have hsize := h.1
  have hlen := h.2
  refine ⟨h.1, ?_⟩
  rw [xskRingProdReserve, xskProdNbFree] at hres
  change (q.fq.entries ++ es).length ≤ neRingSize
  rw [List.length_append]
  split_ifs at hres with hfree
  · omega
  · omega

theorem FqFits.refill {q : NeXskQueue} (h : FqFits q) (pool : NePool) :
    FqFits (refillFqQueue q pool).1 := by
  unfold refillFqQueue
  dsimp only
  generalize (if xskProdNbFree q.fq > neBatchSize then neBatchSize else xskProdNbFree q.fq) = want
  split_ifs with _ _ hres
  · exact h
  · exact h
  · exact h
  · exact h.submit (not_not.mp hres)

theorem FqFits.prefill (fuel : Nat) : ∀ {want : Nat} {q : NeXskQueue} {pool : NePool}, FqFits q →
    FqFits (prefillQueue fuel want q pool).1 := by
  induction fuel with
  | zero => intro want q pool h; exact h
  | succ fuel ih =>
      intro want q pool h
      rw [prefillQueue]
      dsimp only
      split_ifs with _ _ hres
      · exact h
      · exact h
      · exact h
      · exact ih (h.submit (not_not.mp hres))

theorem prefillQueues_fits {want : Nat} {qs : List NeXskQueue} (h : ∀ q ∈ qs, FqFits q)
    (pool : NePool) :
    (prefillQueues want qs pool).1.length = qs.length ∧
      ∀ q ∈ (prefillQueues want qs pool).1, FqFits q := by
  induction qs generalizing pool with
  | nil => exact ⟨rfl, h⟩
  | cons q qs ih =>
      obtain ⟨hlen, hall⟩ := ih (fun q' hq' => h q' (by simp [hq'])) (prefillQueue want want q pool).2
      refine ⟨by simp [prefillQueues, hlen], fun q' hq' => ?_⟩
      rcases List.mem_cons.mp hq' with rfl | hq'
      · exact FqFits.prefill want (h q (by simp))
      · exact hall q' hq'

/-- All fill rings fit their size. -/
def FillState.Fits (s : FillState) (n : Nat) : Prop := s.queues.length = n ∧ ∀ q ∈ s.queues, FqFits q

theorem FillState.Fits.set {s : FillState} {n i : Nat} (h : s.Fits n) {q : NeXskQueue}
    (hq : FqFits q) (pool : NePool) : FillState.Fits ⟨pool, s.queues.set i q⟩ n := by
  refine ⟨by rw [List.length_set]; exact h.1, fun q' hq' => ?_⟩
  rcases List.mem_or_eq_of_mem_set hq' with hmem | rfl
  · exact h.2 q' hmem
  · exact hq

theorem FillState.Fits.step {s : FillState} {n : Nat} (h : s.Fits n) (e : FillEvent) :
    (s.step e).Fits n := by
  cases e with
  | refill i =>
      rw [FillState.step]
      cases hq : s.queues[i]? with
      | none => exact h
      | some q => exact h.set ((h.2 q (List.mem_of_getElem? hq)).refill s.pool) _
  | consume i k =>
      rw [FillState.step]
      cases hq : s.queues[i]? with
      | none => exact h
      | some q =>
          have hfits := h.2 q (List.mem_of_getElem? hq)
          have hdrop : FqFits { q with fq := ⟨q.fq.entries.drop k, q.fq.size⟩ } := by
            refine ⟨hfits.1, ?_⟩
            simp only [List.length_drop]
            exact Nat.le_trans (Nat.sub_le _ _) hfits.2
          exact h.set hdrop s.pool
  | free addrs => exact h
  | alloc k => exact h

theorem fits_open (lan wan : Nat) : (FillState.open lan wan).Fits (lan + wan) := by
  have hinit : ∀ q ∈ List.replicate (lan + wan) NeXskQueue.init, FqFits q := by
    intro q hq
    rw [List.eq_of_mem_replicate hq]
    exact ⟨rfl, Nat.zero_le _⟩
  obtain ⟨hlen, hall⟩ := @prefillQueues_fits (prefillPerQueue neNFrames (lan + wan)) _ hinit
    (poolOpen neNFrames)
  exact ⟨by rw [FillState.open]; simpa using hlen, hall⟩

theorem fits_run (lan wan : Nat) (es : List FillEvent) :
    (run FillState.step (FillState.open lan wan) es).Fits (lan + wan) := by
  have h := fits_open lan wan
  generalize FillState.open lan wan = s at h
  induction es generalizing s with
  | nil => exact h
  | cons e es ih => exact ih _ (h.step e)

theorem FillState.Fits.total_le {s : FillState} {n : Nat} (h : s.Fits n) :
    s.total ≤ n * neRingSize := by
  have hle := List.sum_le_card_nsmul (s.queues.map fun q => q.fq.entries.length) neRingSize (by
    intro x hx
    obtain ⟨q, hq, rfl⟩ := List.mem_map.mp hx
    exact (h.2 q hq).2)
  rw [List.length_map, h.1] at hle
  exact hle

/-! ## how full they get -/

theorem length_poolPop {pool : NePool} {n : Nat} (h : n ≤ pool.frames.length) :
    (poolPop pool n).1.length = n ∧ (poolPop pool n).2.frames.length = pool.frames.length - n := by
  rw [poolPop, Nat.min_eq_left h]
  exact ⟨List.length_take_of_le h, List.length_drop⟩

/-- `q'` is `q` with `n` more frames in its fill ring, taken from the pool. -/
structure Topped (n : Nat) (q : NeXskQueue) (pool : NePool) (r : NeXskQueue × NePool) : Prop where
  size : r.1.fq.size = q.fq.size
  entries : r.1.fq.entries.length = q.fq.entries.length + n
  pool : r.2.frames.length = pool.frames.length - n

/-- Frames the pool has and the ring has room for are moved. -/
theorem reserve_of_room {q : NeXskQueue} {pool : NePool} {n : Nat}
    (hpool : n ≤ pool.frames.length) (hroom : q.fq.entries.length + n ≤ q.fq.size) :
    xskRingProdReserve q.fq (poolPop pool n).1.length = (poolPop pool n).1.length ∧
      Topped n q pool ({ q with fq := xskRingProdSubmit q.fq (poolPop pool n).1 },
        (poolPop pool n).2) := by
  obtain ⟨hgot, hleft⟩ := length_poolPop hpool
  refine ⟨?_, rfl, ?_, hleft⟩
  · rw [hgot, xskRingProdReserve, xskProdNbFree, if_neg (by omega)]
  · change (q.fq.entries ++ (poolPop pool n).1).length = _
    rw [List.length_append, hgot]

theorem refillFqQueue_topped {q : NeXskQueue} {pool : NePool}
    (hpool : neBatchSize ≤ pool.frames.length)
    (hroom : q.fq.entries.length + neBatchSize < q.fq.size) :
    Topped neBatchSize q pool (refillFqQueue q pool) := by
  obtain ⟨hres, htop⟩ := reserve_of_room hpool (Nat.le_of_lt hroom)
  have hgot := (length_poolPop hpool).1
  have hfree : xskProdNbFree q.fq > neBatchSize := by rw [xskProdNbFree]; omega
  rw [refillFqQueue]
  dsimp only
  rw [if_neg (by omega), if_pos hfree, if_neg (by rw [hgot]; decide), if_neg (not_not.mpr hres)]
  exact htop

theorem prefillQueue_topped (fuel : Nat) : ∀ {want : Nat} {q : NeXskQueue} {pool : NePool},
    want ≤ fuel → want ≤ pool.frames.length → q.fq.entries.length + want ≤ q.fq.size →
    Topped want q pool (prefillQueue fuel want q pool) := by
  induction fuel with
  | zero =>
      intro want q pool hfuel _ _
      obtain rfl : want = 0 := by omega
      exact ⟨rfl, rfl, rfl⟩
  | succ fuel ih =>
      intro want q pool hfuel hpool hroom
      rw [prefillQueue]
      by_cases hwant : want = 0
      · rw [if_pos hwant, hwant]
        exact ⟨rfl, rfl, rfl⟩
      · -- one batch, then the rest
        have hle : min want neBatchSize ≤ want := Nat.min_le_left _ _
        have hpos : 0 < min want neBatchSize := by
          rw [Nat.lt_min]
          exact ⟨by omega, by decide⟩
        generalize min want neBatchSize = n at hle hpos
        obtain ⟨hres, htop⟩ := @reserve_of_room q pool n (by omega) (by omega)
        have hgot := (@length_poolPop pool n (by omega)).1
        rw [if_neg hwant]
        dsimp only
        rw [if_neg (by omega), if_neg (not_not.mpr hres), hgot]
        have hrest := @ih (want - n) _ _ (by omega)
          (by rw [htop.pool]; omega) (by rw [htop.entries, htop.size]; omega)
        refine ⟨hrest.size.trans htop.size, ?_, ?_⟩
        · rw [hrest.entries, htop.entries]; omega
        · rw [hrest.pool, htop.pool]; omega

/-- The prefill of `k` empty rings. -/
theorem prefillQueues_topped {want : Nat} (hwant : want ≤ neRingSize) (k : Nat) : ∀ {pool : NePool},
    k * want ≤ pool.frames.length →
    (prefillQueues want (List.replicate k NeXskQueue.init) pool).2.frames.length =
        pool.frames.length - k * want ∧
      ∀ q ∈ (prefillQueues want (List.replicate k NeXskQueue.init) pool).1,
        q.fq.size = neRingSize ∧ q.fq.entries.length = want := by
  induction k with
  | zero => intro pool _; simp [prefillQueues]
  | succ k ih =>
      intro pool hpool
      have hmul : (k + 1) * want = k * want + want := Nat.succ_mul k want
      have htop := @prefillQueue_topped want want NeXskQueue.init pool (Nat.le_refl _) (by omega)
        (by rw [NeXskQueue.init]; simpa using hwant)
      obtain ⟨hleft, hall⟩ := @ih (prefillQueue want want NeXskQueue.init pool).2
        (by rw [htop.pool]; omega)
      rw [List.replicate_succ, prefillQueues]
      refine ⟨?_, fun q hq => ?_⟩
      · dsimp only
        rw [hleft, htop.pool]; omega
      · rcases List.mem_cons.mp hq with rfl | hq
        · exact ⟨htop.size, htop.entries.trans (Nat.zero_add _)⟩
        · exact hall q hq

/-- The share of a queue when the rings could take more than three quarters. -/
theorem prefillPerQueue_eq {n : Nat} (h25 : 25 ≤ n) (h128 : n ≤ 2 * maxQueues) :
    prefillPerQueue neNFrames n = 393216 / n := by
  have hle : 393216 / n ≤ 393216 / 25 := Nat.div_le_div_left h25 (by decide)
  have hge : 393216 / (2 * maxQueues) ≤ 393216 / n := Nat.div_le_div_left h128 (by omega)
  have h25' : 393216 / 25 = 15728 := rfl
  have h128' : 393216 / (2 * maxQueues) = 3072 := rfl
  have hfq : neFqPrefill = 16384 := rfl
  have hbatch : neBatchSize = 64 := rfl
  rw [prefillPerQueue, if_neg (by omega)]
  dsimp only
  rw [show neNFrames * 3 / 4 = 393216 from rfl, if_neg (show ¬393216 / n > neFqPrefill by omega),
    if_neg (show ¬393216 / n < neBatchSize by omega)]

/-- Topping up the first ring. -/
theorem FillState.step_refill_topped {s : FillState} {q : NeXskQueue} {qs : List NeXskQueue}
    (hqs : s.queues = q :: qs) (hpool : neBatchSize ≤ s.pool.frames.length)
    (hroom : q.fq.entries.length + neBatchSize < q.fq.size) :
    ∃ q', (s.step (.refill 0)).queues = q' :: qs ∧
      Topped neBatchSize q s.pool (q', (s.step (.refill 0)).pool) := by
  have htop := refillFqQueue_topped hpool hroom
  refine ⟨(refillFqQueue q s.pool).1, ?_, ?_⟩
  · simp [FillState.step, hqs]
  · simp only [FillState.step, hqs, List.getElem?_cons_zero]
    exact htop

/-- With 25 queues or more, two top-ups after the prefill are enough to eat into
the reserve. -/
theorem total_after_refills {lan wan : Nat} (h25 : 25 ≤ lan + wan)
    (h128 : lan + wan ≤ 2 * maxQueues) :
    neNFrames * 3 / 4 <
      (run FillState.step (FillState.open lan wan) [.refill 0, .refill 0]).total := by
  have hper := prefillPerQueue_eq h25 h128
  have hdiv := Nat.div_add_mod 393216 (lan + wan)
  have hmod := Nat.mod_lt 393216 (show 0 < lan + wan by omega)
  have hle : 393216 / (lan + wan) ≤ 393216 / 25 := Nat.div_le_div_left h25 (by decide)
  have h25' : 393216 / 25 = 15728 := rfl
  have hmax : 2 * maxQueues = 128 := rfl
  have hring : neRingSize = 16384 := rfl
  have hframes : neNFrames = 524288 := rfl
  have hbatch : neBatchSize = 64 := rfl
  generalize 393216 / (lan + wan) = per at hper hdiv hle
  have hopen : (poolOpen neNFrames).frames.length = neNFrames := by
    rw [poolOpen_eq]; simp
  obtain ⟨hleft, hall⟩ := @prefillQueues_topped per (by omega) (lan + wan) (poolOpen neNFrames)
    (by rw [hopen]; omega)
  have hstate : FillState.open lan wan =
      ⟨(prefillQueues per (List.replicate (lan + wan) NeXskQueue.init) (poolOpen neNFrames)).2,
        (prefillQueues per (List.replicate (lan + wan) NeXskQueue.init) (poolOpen neNFrames)).1⟩ := by
    rw [FillState.open, hper]
  have hlen := (fits_open lan wan).1
  rw [hstate] at hlen ⊢
  rw [hopen] at hleft
  generalize prefillQueues per (List.replicate (lan + wan) NeXskQueue.init) (poolOpen neNFrames) = r
    at hleft hall hlen ⊢
  obtain ⟨queues, pool⟩ := r
  obtain _ | ⟨q, qs⟩ := queues
  · simp at hlen; omega
  · dsimp only at hleft hall hlen ⊢
    obtain ⟨hsize, hq⟩ := hall q (by simp)
    obtain ⟨q1, hqs1, htop1⟩ := @FillState.step_refill_topped ⟨pool, q :: qs⟩ q qs rfl
      (by dsimp only; omega) (by omega)
    rw [run_cons, run_cons, run_nil]
    generalize FillState.step ⟨pool, q :: qs⟩ (.refill 0) = s1 at hqs1 htop1
    have hsize1 : q1.fq.size = q.fq.size := htop1.size
    have hq1 : q1.fq.entries.length = q.fq.entries.length + neBatchSize := htop1.entries
    have hpool1 : s1.pool.frames.length = pool.frames.length - neBatchSize := htop1.pool
    obtain ⟨q2, hqs2, htop2⟩ := FillState.step_refill_topped hqs1 (by omega) (by omega)
    have hq2 : q2.fq.entries.length = q1.fq.entries.length + neBatchSize := htop2.entries
    have hsum : (qs.map fun q => q.fq.entries.length).sum = qs.length * per := by
      have h := List.sum_eq_card_nsmul (qs.map fun q => q.fq.entries.length) per (by
        intro x hx
        obtain ⟨q', hq', rfl⟩ := List.mem_map.mp hx
        exact (hall q' (by simp [hq'])).2)
      rw [List.length_map] at h
      exact h
    rw [FillState.total, hqs2, List.map_cons, List.sum_cons, hsum, hq2, hq1, hq]
    rw [List.length_cons] at hlen
    rw [← hlen] at hmod hdiv
    rw [Nat.succ_mul] at hdiv
    omega

/-- The fill rings leave a quarter of the UMEM outside, in every run, exactly when
the pair has at most 24 queues. -/
theorem fillRings_bounded_iff {lan wan : Nat} (hlan : 1 ≤ lan ∧ lan ≤ maxQueues)
    (hwan : 1 ≤ wan ∧ wan ≤ maxQueues) :
    (∀ es : List FillEvent,
      (run FillState.step (FillState.open lan wan) es).total ≤ neNFrames * 3 / 4) ↔
        lan + wan ≤ 24 := by
  constructor
  · intro h
    by_contra h24
    have hover := @total_after_refills lan wan (by omega) (by omega)
    exact absurd (h _) (Nat.not_le_of_lt hover)
  · intro h24 es
    have hle := (fits_run lan wan es).total_le
    have hring : neRingSize = 16384 := rfl
    have hbudget : neNFrames * 3 / 4 = 24 * 16384 := rfl
    rw [hring] at hle
    rw [hbudget]
    exact Nat.le_trans hle (Nat.mul_le_mul_right _ h24)

/-- The bound on a server with eight queues on each side. -/
theorem fillRings_bounded_sixteen :
    8 + 8 ≤ 24 ∧ (8 + 8 ≤ 24 → ∀ es : List FillEvent,
      (run FillState.step (FillState.open 8 8) es).total ≤ neNFrames * 3 / 4) :=
  ⟨by decide, (fillRings_bounded_iff (by decide) (by decide)).mpr⟩

/-- With 16 queues on each side two top-ups break it. -/
theorem fillRings_over_budget :
    neNFrames * 3 / 4 < (run FillState.step (FillState.open 16 16) [.refill 0, .refill 0]).total :=
  total_after_refills (by decide) (by decide)

end NetworkEncryptor
