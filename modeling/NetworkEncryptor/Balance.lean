import NetworkEncryptor.Lib.LeastLoaded
import NetworkEncryptor.RouteSteps

/-!
# NetworkEncryptor.Balance

The load of the TX slots (`dp_route_least_loaded` and its calls in
`src/core/dataplane/crypto_route.c`).

The scan of `dp_route_least_loaded` takes `start + off` modulo the number of slots in
32 bits, so it goes round all of them only while that sum does not wrap.  Entries are
never removed, so there are no more than 65536 inserts, and the cursors stay below
that (`SlotsEven.cursor`): every scan that takes place visits every slot, each new flow
goes to one of the least loaded, and the counts stay within one of each other.
-/

namespace NetworkEncryptor

section Scan

variable {counts : Nat → UInt64} {count : Nat} {start : UInt32}

/-- The scan of `dp_route_least_loaded` is one for the least number. -/
theorem leastLoadedNext_toNat (best : UInt64 × Nat) (off : Nat) :
    Prod.map UInt64.toNat id (leastLoadedNext counts count start best off) =
      keepMin (fun i => (counts i).toNat) (Prod.map UInt64.toNat id best)
        ((start + UInt32.ofNat off) % UInt32.ofNat count).toNat := by
  unfold leastLoadedNext keepMin
  simp only [Prod.map_fst, UInt64.lt_iff_toNat_lt]
  split_ifs <;> rfl

theorem foldl_leastLoaded_toNat (offs : List Nat) (best : UInt64 × Nat) :
    Prod.map UInt64.toNat id (offs.foldl (leastLoadedNext counts count start) best) =
      (offs.map fun off => ((start + UInt32.ofNat off) % UInt32.ofNat count).toNat).foldl
        (keepMin fun i => (counts i).toNat) (Prod.map UInt64.toNat id best) := by
  induction offs generalizing best with
  | nil => rfl
  | cons off offs ih => simp only [List.foldl_cons, List.map_cons, ih, leastLoadedNext_toNat]

/-- The index of a turn, where the sum does not wrap. -/
theorem scanIdx_eq (hcount : count < 2 ^ 32) (hstart : start.toNat + count ≤ 2 ^ 32) {off : Nat}
    (hoff : off < count) :
    ((start + UInt32.ofNat off) % UInt32.ofNat count).toNat = (start.toNat + off) % count := by
  rw [UInt32.toNat_mod, UInt32.toNat_add, UInt32.toNat_ofNat_of_lt' hcount,
    UInt32.toNat_ofNat_of_lt' (hoff.trans hcount), Nat.mod_eq_of_lt (a := start.toNat + off) (by omega)]

/-- A scan whose sums do not wrap finds a least count. -/
theorem leastLoaded_min (hcount : count < 2 ^ 32) (hstart : start.toNat + count ≤ 2 ^ 32) {j : Nat}
    (hj : j < count) :
    (counts ((List.range count).foldl (leastLoadedNext counts count start)
      (0xFFFFFFFFFFFFFFFF, 0)).2).toNat ≤ (counts j).toNat := by
  have hmap := @foldl_leastLoaded_toNat counts count start (List.range count) (0xFFFFFFFFFFFFFFFF, 0)
  obtain ⟨hfrom, -, hall⟩ := foldl_keepMin (fun i => (counts i).toNat)
    ((List.range count).map fun off => ((start + UInt32.ofNat off) % UInt32.ofNat count).toNat)
    (Prod.map UInt64.toNat id (0xFFFFFFFFFFFFFFFF, 0))
  rw [← hmap] at hfrom hall
  obtain ⟨off, hoff, hrot⟩ := exists_rotate start.toNat hj
  have hle := hall j (List.mem_map.mpr
    ⟨off, List.mem_range.mpr hoff, (scanIdx_eq hcount hstart hoff).trans hrot⟩)
  rcases hfrom with heq | ⟨i, -, heq⟩
  · -- nothing was below the start value, so every count is the largest there is
    rw [heq] at hle
    have hmax := (counts ((List.range count).foldl (leastLoadedNext counts count start)
      (0xFFFFFFFFFFFFFFFF, 0)).2).toNat_lt
    simp only [Prod.map_fst] at hle
    exact (Nat.le_sub_one_of_lt hmax).trans hle
  · have hidx := congrArg Prod.snd heq
    simp only [Prod.map_snd, id_eq] at hidx
    rw [heq] at hle
    rw [hidx]
    exact hle

end Scan

/-! ## calls in one step -/

/-- The counts of the active slots are within one of each other, and there were at least
as many inserts as the cursors say. -/
structure SlotsEven (rt : RouteState) : Prop where
  even : Balanced {slot | slot < (dpActiveTxSlots rt).toNat} fun slot => (rt.txConnectionCount slot).toNat
  cursor : rt.txRr.toNat ≤ countEntries rt.table (fun _ => true)
  workerCursor : rt.workerRr.toNat ≤ countEntries rt.table (fun _ => true)

theorem SlotsEven.init (n : UInt32) : SlotsEven { RouteState.init with activeTxSlots := n } := by
  refine ⟨fun a _ b _ => ?_, Nat.zero_le _, Nat.zero_le _⟩
  simp [RouteState.init]

section Calls

variable {rt : RouteState} {key : RouteKey} {way : Nat}

theorem SlotsEven.slot_min (h : SlotsEven rt) {slot : Nat} (hslot : slot < (dpActiveTxSlots rt).toNat) :
    (rt.txConnectionCount (routeSlot rt)).toNat ≤ (rt.txConnectionCount slot).toNat := by
  have hactive := (dpActiveTxSlots_bounds rt).2
  have hcursor := h.cursor.trans (countEntries_le _ _)
  simp only [neTxSlots, neCpuTx, List.length_cons, List.length_nil] at hactive
  rw [routeSlot, dpRouteLeastLoaded_eq]
  exact leastLoaded_min (by omega) (by omega) hslot

theorem SlotsEven.worker_min (h : SlotsEven rt) {w : Nat} (hw : w < neCryptoWorkers) :
    (rt.workerConnectionCount (dpRouteLeastLoaded rt.workerConnectionCount neCryptoWorkers
      rt.workerRr)).toNat ≤ (rt.workerConnectionCount w).toNat := by
  have hcursor := h.workerCursor.trans (countEntries_le _ _)
  rw [dpRouteLeastLoaded_eq]
  refine leastLoaded_min (by decide) ?_ hw
  simp only [neCryptoWorkers, neCpuCrypto, List.length_cons, List.length_nil]
  omega

/-- A cursor that was behind the number of entries stays behind it. -/
theorem cursor_succ_le {rr : UInt32} {table : Nat → Nat → RouteEntry} {p : RouteEntry → Bool}
    (h : rr.toNat ≤ countEntries table p) : (rr + 1).toNat ≤ countEntries table p + 1 := by
  have hle := h.trans (countEntries_le table p)
  rw [UInt32.toNat_add, Nat.mod_eq_of_lt]
  · exact Nat.add_le_add_right h 1
  · change rr.toNat + 1 < 2 ^ 32
    omega

/-- The counters do not wrap. -/
theorem TableInv.slot_succ (ht : TableInv rt) (slot : Nat) :
    (rt.txConnectionCount slot + 1).toNat = (rt.txConnectionCount slot).toNat + 1 := by
  have hle : (rt.txConnectionCount slot).toNat ≤ 65536 := by
    rw [ht.counts.2 slot]
    exact countEntries_le _ _
  rw [UInt64.toNat_add, Nat.mod_eq_of_lt]
  · rfl
  · change (rt.txConnectionCount slot).toNat + 1 < 2 ^ 64
    omega

theorem SlotsEven.insert (h : SlotsEven rt) (ht : TableInv rt) (hempty : routeEmpty rt key = some way)
    (hint : Option Nat) : SlotsEven (routeInsert rt key hint way).2 := by
  have hcount := countEntries_routeInsert hempty hint fun _ => true
  rw [if_pos rfl] at hcount
  constructor
  · have hraise := h.even.raise fun slot hslot => h.slot_min hslot
    have hupd : (fun slot => ((routeInsert rt key hint way).2.txConnectionCount slot).toNat) =
        Function.update (fun slot => (rt.txConnectionCount slot).toNat) (routeSlot rt)
          ((rt.txConnectionCount (routeSlot rt)).toNat + 1) := by
      funext slot
      simp only [routeInsert_snd, Function.update_apply]
      split_ifs
      · exact ht.slot_succ _
      · rfl
    rw [hupd]
    exact hraise
  · rw [hcount]
    exact cursor_succ_le h.cursor
  · rw [hcount, routeInsert_snd]
    dsimp only
    split_ifs
    · exact Nat.le_succ_of_le h.workerCursor
    · exact cursor_succ_le h.workerCursor

theorem SlotsEven.getKey (h : SlotsEven rt) (ht : TableInv rt) (key : RouteKey) (hint : Option Nat) :
    SlotsEven (dpFlowRouteGetKey rt key hint).2 := by
  rw [dpFlowRouteGetKey]
  cases hfind : routeFind rt key with
  | some way => exact h
  | none =>
      cases hempty : routeEmpty rt key with
      | none => exact h
      | some way => exact h.insert ht hempty hint

/-- No flow has a slot that is not active. -/
theorem TableInv.slot_idle (ht : TableInv rt) {slot : Nat} (hslot : (dpActiveTxSlots rt).toNat ≤ slot) :
    rt.txConnectionCount slot = 0 := by
  have hnone : countEntries rt.table (·.txSlot = slot) = 0 := by
    rw [countEntries, Finset.card_eq_zero, Finset.filter_eq_empty_iff]
    intro i _ hi
    simp only [Bool.and_eq_true, decide_eq_true_eq] at hi
    exact absurd (ht.bounds i.1 i.2 hi.1).2 (by omega)
  rw [ht.slots, hnone]
  rfl

end Calls

/-! ## every interleaving -/

section Held

variable {base rt : RouteState} {key : RouteKey} {hint : Option Nat} {pc : RoutePc}

/-- While the lock is held the slots are counted as before the call or as after it. -/
theorem HeldInv.slot_counts (h : HeldInv base rt key hint pc) :
    rt.txConnectionCount = base.txConnectionCount ∨
      rt.txConnectionCount = (dpFlowRouteGetKey base key hint).2.txConnectionCount := by
  cases pc with
  | idle => exact h.elim
  | lock => exact h.elim
  | scan m way =>
      cases m with
      | free => exact h.elim
      | held empty => exact .inl (by rw [h.1])
  | compare m way todo =>
      cases m with
      | free => exact h.elim
      | held empty => exact .inl (by rw [h.1])
  | loadWorker m way =>
      cases m with
      | free => exact h.elim
      | held empty => exact .inl (by rw [h.1])
  | loadSlot m way worker =>
      cases m with
      | free => exact h.elim
      | held empty => exact .inl (by rw [h.1])
  | workerCursor empty => exact .inl (by rw [h.2.2])
  | workerLoad empty start off best => exact .inl (by rw [h.2.2.1])
  | slotCursor empty worker => exact .inl (by rw [h.2.2])
  | slotLoad empty worker start off best => exact .inl (by rw [h.2.2.1]; rfl)
  | store empty route todo =>
      obtain ⟨-, -, e, -, -, rfl⟩ := h
      exact .inl rfl
  | countWorker empty route => exact .inl (by rw [h.2.2]; rfl)
  | countSlot empty route => exact .inl (by rw [h.2.2]; rfl)
  | publish empty route =>
      obtain ⟨hvac, rfl, rfl⟩ := h
      exact .inr (by rw [← publish_eq hvac]; rfl)
  | unlock route =>
      have hrt : rt = (dpFlowRouteGetKey base key hint).2 := congrArg Prod.snd h
      exact .inr (by rw [hrt])

end Held

section System

variable {base : RouteState} {holder : Option Nat} {s : RouteSys}

/-- The slots of the table as it is between two steps are counted as in one that the
calls in one step lead to. -/
theorem RouteInv.slot_counts (h : RouteInv base holder s) (heven : SlotsEven base) :
    ∃ rt, TableInv rt ∧ SlotsEven rt ∧ dpActiveTxSlots s.rt = dpActiveTxSlots rt ∧
      s.rt.txConnectionCount = rt.txConnectionCount := by
  cases holder with
  | none => exact ⟨base, h.table, heven, by rw [h.idle rfl], by rw [h.idle rfl]⟩
  | some t =>
      have hheld := h.held t rfl
      have hactive : dpActiveTxSlots s.rt = dpActiveTxSlots base := by
        simp only [dpActiveTxSlots, hheld.table_cases.1]
      rcases hheld.slot_counts with heq | heq
      · exact ⟨base, h.table, heven, hactive, heq⟩
      · refine ⟨_, h.table.getKey _ _, heven.getKey h.table _ _, ?_, heq⟩
        rw [hactive]
        simp only [dpActiveTxSlots, (grows_getKey base _ _).active]

/-- The scan for a slot ends at one of the least loaded. -/
theorem RouteInv.slotLoad_min (h : RouteInv base holder s) (heven : SlotsEven base) {t empty worker : Nat}
    {start : UInt32} {best : UInt64 × Nat}
    (hpc : (s.threads t).pc = .slotLoad empty worker start (dpActiveTxSlots s.rt).toNat best) :
    best.2 < (dpActiveTxSlots s.rt).toNat ∧ ∀ slot < (dpActiveTxSlots s.rt).toNat,
      (s.rt.txConnectionCount best.2).toNat ≤ (s.rt.txConnectionCount slot).toNat := by
  have hheld := h.held t (h.holder_eq (by rw [hpc]; rfl))
  rw [hpc] at hheld
  obtain ⟨-, -, hrt, hstart, -, hbest⟩ := hheld
  have hactive : dpActiveTxSlots s.rt = dpActiveTxSlots base := by rw [hrt]; rfl
  have hcounts : s.rt.txConnectionCount = base.txConnectionCount := by rw [hrt]; rfl
  have hslot : best.2 = routeSlot base := by
    rw [routeSlot, dpRouteLeastLoaded_eq, hbest, hstart, hactive]
  rw [hactive, hcounts, hslot]
  exact ⟨routeSlot_lt, fun slot hlt => heven.slot_min hlt⟩

theorem RouteInv.workerLoad_min (h : RouteInv base holder s) (heven : SlotsEven base) {t empty : Nat}
    {start : UInt32} {best : UInt64 × Nat}
    (hpc : (s.threads t).pc = .workerLoad empty start neCryptoWorkers best) :
    best.2 < neCryptoWorkers ∧ ∀ w < neCryptoWorkers,
      (s.rt.workerConnectionCount best.2).toNat ≤ (s.rt.workerConnectionCount w).toNat := by
  have hheld := h.held t (h.holder_eq (by rw [hpc]; rfl))
  rw [hpc] at hheld
  obtain ⟨-, -, hrt, hstart, -, hbest⟩ := hheld
  have hcounts : s.rt.workerConnectionCount = base.workerConnectionCount := by rw [hrt]
  have hworker : best.2 = dpRouteLeastLoaded base.workerConnectionCount neCryptoWorkers base.workerRr := by
    rw [dpRouteLeastLoaded_eq, hbest, hstart]
  rw [hcounts, hworker]
  exact ⟨dpRouteLeastLoaded_lt (by decide) (by decide), fun w hlt => heven.worker_min hlt⟩

end System

/-- The load of the slots with any fixed number of active ones, after any calls with any
keys and hints, one after the other or interleaved: the counts of the active slots are
within one of each other and the others are 0, and each `dp_route_least_loaded` ends at
an index whose count is least. -/
theorem slots_balanced (slots : UInt32) :
    let start : RouteState := { RouteState.init with activeTxSlots := slots }
    let n := (dpActiveTxSlots start).toNat
    (∀ calls : List (RouteKey × Option Nat),
      let rt := run (fun rt call => (dpFlowRouteGetKey rt call.1 call.2).2) start calls
      (∀ a < n, ∀ b < n, (rt.txConnectionCount a).toNat ≤ (rt.txConnectionCount b).toNat + 1) ∧
      (∀ slot ≥ n, rt.txConnectionCount slot = 0) ∧
      (∀ slot < n, (rt.txConnectionCount (dpRouteLeastLoaded rt.txConnectionCount n rt.txRr)).toNat ≤
        (rt.txConnectionCount slot).toNat) ∧
      (∀ w < neCryptoWorkers, (rt.workerConnectionCount (dpRouteLeastLoaded rt.workerConnectionCount
        neCryptoWorkers rt.workerRr)).toNat ≤ (rt.workerConnectionCount w).toNat)) ∧
    (∀ es : List RouteEvent,
      let s := run RouteSys.step (RouteSys.init slots) es
      (∀ a < n, ∀ b < n, (s.rt.txConnectionCount a).toNat ≤ (s.rt.txConnectionCount b).toNat + 1) ∧
      (∀ slot ≥ n, s.rt.txConnectionCount slot = 0) ∧
      (∀ t empty worker start best, (s.threads t).pc = .slotLoad empty worker start n best →
        best.2 < n ∧ ∀ slot < n, (s.rt.txConnectionCount best.2).toNat ≤ (s.rt.txConnectionCount slot).toNat) ∧
      (∀ t empty start best, (s.threads t).pc = .workerLoad empty start neCryptoWorkers best →
        best.2 < neCryptoWorkers ∧ ∀ w < neCryptoWorkers,
          (s.rt.workerConnectionCount best.2).toNat ≤ (s.rt.workerConnectionCount w).toNat)) := by
  intro start n
  refine ⟨fun calls => ?_, fun es => ?_⟩
  · intro rt
    have hinv : (TableInv rt ∧ SlotsEven rt) ∧ rt.activeTxSlots = slots := by
      have hrun := @Along.invariant _ _ (fun rt (call : RouteKey × Option Nat) =>
        (dpFlowRouteGetKey rt call.1 call.2).2) (fun _ _ => True) (fun _ _ => True)
        (fun rt => (TableInv rt ∧ SlotsEven rt) ∧ rt.activeTxSlots = slots)
        (fun rt call h _ => ⟨⟨⟨h.1.1.getKey _ _, h.1.2.getKey h.1.1 _ _⟩,
          (grows_getKey rt call.1 call.2).active.trans h.2⟩, trivial⟩) start calls
      exact (hrun ⟨⟨TableInv.init slots, SlotsEven.init slots⟩, rfl⟩ (.of_forall fun _ _ _ => trivial)).1
    obtain ⟨⟨htable, heven⟩, hslots⟩ := hinv
    have hn : n = (dpActiveTxSlots rt).toNat := by simp only [n, start, dpActiveTxSlots, hslots]
    rw [hn]
    exact ⟨heven.even, fun slot hslot => htable.slot_idle hslot, fun slot hslot => heven.slot_min hslot,
      fun w hw => heven.worker_min hw⟩
  · intro s
    obtain ⟨base, holder, h, heven⟩ := (RouteInv.init slots).run_base
      (fun rt key hint ht h => h.getKey ht key hint) (SlotsEven.init slots) es
    obtain ⟨rt, htable, hrt, hactive, hcounts⟩ := h.slot_counts heven
    have hn : n = (dpActiveTxSlots s.rt).toNat := by
      have hg := ((RouteInv.init slots).run es).2.active
      simp only [n, start, dpActiveTxSlots]
      rw [show s.rt.activeTxSlots = slots from hg]
    rw [hn]
    refine ⟨?_, ?_, fun t empty worker start best hpc => h.slotLoad_min heven hpc,
      fun t empty start best hpc => h.workerLoad_min heven hpc⟩
    · rw [hactive, hcounts]
      exact hrt.even
    · rw [hactive, hcounts]
      exact fun slot hslot => htable.slot_idle hslot

end NetworkEncryptor
