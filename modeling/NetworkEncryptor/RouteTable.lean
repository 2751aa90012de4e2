import NetworkEncryptor.Routes
import Mathlib.Data.Finset.Card
import Mathlib.Data.Finset.Prod
import Mathlib.Tactic.SplitIfs

/-!
# NetworkEncryptor.RouteTable

What holds of the route table between calls: a flow is in one way of its set, its
worker and slot exist, and the connection counters are the numbers of entries
(`TableInv`).  A call that is one step keeps this (`TableInv.get`), and what it
returns for a flow stays the answer for that flow (`RouteAnswer`): entries are
never removed, and only their sequence numbers change (`Sticks`).
-/

namespace NetworkEncryptor

/-! ## both directions have one key -/

/-- The same flow in the other direction. -/
def Flow.swap (f : Flow) : Flow := ⟨f.dstIp, f.srcIp, f.dstPort, f.srcPort, f.proto⟩

/-- The flows that get a key. -/
def Flow.routed (f : Flow) : Prop := f.proto.toNat = ipprotoTcp ∨ f.proto.toNat = ipprotoUdp

/-- The key of a flow: its smaller endpoint first. -/
def Flow.canonical (f : Flow) : RouteKey :=
  if f.srcIp > f.dstIp ∨ (f.srcIp = f.dstIp ∧ f.srcPort > f.dstPort) then
    ⟨f.dstIp, f.srcIp, f.dstPort, f.srcPort, f.proto⟩
  else ⟨f.srcIp, f.dstIp, f.srcPort, f.dstPort, f.proto⟩

theorem dpRouteKeyFromTuple_key {f : Flow} (h : f.routed) :
    (dpRouteKeyFromTuple f).map (·.1) = some f.canonical := by
  have hn : ¬ (f.proto.toNat ≠ ipprotoTcp ∧ f.proto.toNat ≠ ipprotoUdp) := fun hc =>
    h.elim hc.1 hc.2
  rw [dpRouteKeyFromTuple, if_neg hn, Flow.canonical]
  split_ifs <;> rfl

/-- A key has its two endpoints in order, so it determines the flow up to direction. -/
theorem canonical_eq_iff (f g : Flow) : f.canonical = g.canonical ↔ g = f ∨ g = f.swap := by
  obtain ⟨a, b, p, q, r⟩ := f
  obtain ⟨a', b', p', q', r'⟩ := g
  simp only [Flow.canonical, Flow.swap, Flow.mk.injEq]
  split_ifs <;> simp only [RouteKey.mk.injEq] <;> grind

theorem dpRouteKeyParse_of_flow {pkt : Mem} {len : Nat} {f : Flow} (hflow : (dpParseFlow pkt len).1 = some f)
    (hf : f.routed) : dpRouteKeyParse pkt len = some f.canonical := by
  rw [dpRouteKeyParse, dpRouteKeyParseDirection, hflow]
  exact dpRouteKeyFromTuple_key hf

/-! ## workers and slots exist -/

theorem dpHashToN_lt {hash n : UInt32} (h : 0 < n.toNat) : dpHashToN hash n < n.toNat := by
  have hne : n ≠ 0 := by rintro rfl; simp at h
  rw [dpHashToN, if_neg hne]
  split_ifs
  · have hle : (hash &&& (n - 1)).toNat ≤ (n - 1).toNat := by
      rw [UInt32.toNat_and]; exact Nat.and_le_right
    have hsub : (n - 1).toNat = n.toNat - 1 := by
      rw [UInt32.toNat_sub_of_le]
      · rfl
      · rw [UInt32.le_iff_toNat_le]; exact h
    omega
  · rw [UInt32.toNat_mod]; exact Nat.mod_lt _ h

theorem dpActiveTxSlots_bounds (rt : RouteState) :
    0 < (dpActiveTxSlots rt).toNat ∧ (dpActiveTxSlots rt).toNat ≤ neTxSlots := by
  unfold dpActiveTxSlots
  split_ifs with h
  · exact ⟨UInt32.lt_iff_toNat_lt.mp h.1, h.2⟩
  · decide

/-- One turn of the loop of `dp_route_least_loaded`. -/
def leastLoadedNext (counts : Nat → UInt64) (count : Nat) (start : UInt32) (best : UInt64 × Nat)
    (off : Nat) : UInt64 × Nat :=
  let idx := ((start + UInt32.ofNat off) % UInt32.ofNat count).toNat
  if counts idx < best.1 then (counts idx, idx) else best

theorem dpRouteLeastLoaded_eq (counts : Nat → UInt64) (count : Nat) (start : UInt32) :
    dpRouteLeastLoaded counts count start =
      ((List.range count).foldl (leastLoadedNext counts count start) (0xFFFFFFFFFFFFFFFF, 0)).2 := rfl

theorem leastLoadedNext_lt {counts : Nat → UInt64} {count off : Nat} {start : UInt32} {best : UInt64 × Nat}
    (hpos : 0 < count) (hcount : count < 2 ^ 32) (hbest : best.2 < count) :
    (leastLoadedNext counts count start best off).2 < count := by
  have hidx : ((start + UInt32.ofNat off) % UInt32.ofNat count).toNat < count := by
    rw [UInt32.toNat_mod, UInt32.toNat_ofNat_of_lt' hcount]
    exact Nat.mod_lt _ hpos
  rw [leastLoadedNext]
  split_ifs
  · exact hidx
  · exact hbest

theorem dpRouteLeastLoaded_lt {counts : Nat → UInt64} {count : Nat} {start : UInt32}
    (hpos : 0 < count) (hcount : count < 2 ^ 32) : dpRouteLeastLoaded counts count start < count := by
  have hfold : ∀ (offs : List Nat) (best : UInt64 × Nat), best.2 < count →
      (offs.foldl (leastLoadedNext counts count start) best).2 < count := by
    intro offs
    induction offs with
    | nil => intro best hbest; exact hbest
    | cons off offs ih => intro best hbest; exact ih _ (leastLoadedNext_lt hpos hcount hbest)
  rw [dpRouteLeastLoaded_eq]
  exact hfold _ _ hpos

section Table

variable {rt rt' : RouteState} {key : RouteKey} {route route' : FlowRoute}

/-- A hint that names a worker. -/
def validHint : Option Nat → Option Nat
  | some w => if w < neCryptoWorkers then some w else none
  | none => none

/-- The worker a new flow gets. -/
def routeWorker (rt : RouteState) (hint : Option Nat) : Nat :=
  match validHint hint with
  | some w => w
  | none => dpRouteLeastLoaded rt.workerConnectionCount neCryptoWorkers rt.workerRr

/-- The TX slot a new flow gets. -/
def routeSlot (rt : RouteState) : Nat :=
  dpRouteLeastLoaded rt.txConnectionCount (dpActiveTxSlots rt).toNat rt.txRr

theorem validHint_lt {hint : Option Nat} {w : Nat} (h : validHint hint = some w) : w < neCryptoWorkers := by
  cases hint with
  | none => cases h
  | some v =>
      by_cases hv : v < neCryptoWorkers
      · rw [validHint, if_pos hv] at h
        exact Option.some.inj h ▸ hv
      · rw [validHint, if_neg hv] at h; cases h

theorem routeWorker_lt (hint : Option Nat) : routeWorker rt hint < neCryptoWorkers := by
  rw [routeWorker]
  cases h : validHint hint with
  | some w => exact validHint_lt h
  | none => exact dpRouteLeastLoaded_lt (by decide) (by decide)

theorem routeSlot_lt : routeSlot rt < (dpActiveTxSlots rt).toNat :=
  dpRouteLeastLoaded_lt (dpActiveTxSlots_bounds rt).1
    (Nat.lt_of_le_of_lt (dpActiveTxSlots_bounds rt).2 (by decide))

theorem hashRoute_bounds (hash : UInt32) :
    (hashRoute rt hash).workerIdx < neCryptoWorkers ∧ (hashRoute rt hash).txSlot < (dpActiveTxSlots rt).toNat :=
  ⟨@dpHashToN_lt hash (UInt32.ofNat neCryptoWorkers) (by decide), dpHashToN_lt (dpActiveTxSlots_bounds rt).1⟩

/-- The entry of a new flow. -/
def newEntry (key : RouteKey) (route : FlowRoute) (valid : Bool) : RouteEntry :=
  ⟨key, fun _ => 0, route.workerIdx % 256, route.txSlot % 256, valid⟩

theorem routeInsert_snd (hint : Option Nat) (way : Nat) :
    (routeInsert rt key hint way).2 =
      { rt.setEntry (routeSet key) way (newEntry key ⟨routeWorker rt hint, routeSlot rt⟩ true) with
        workerConnectionCount := Function.update rt.workerConnectionCount (routeWorker rt hint)
          (rt.workerConnectionCount (routeWorker rt hint) + 1)
        txConnectionCount := Function.update rt.txConnectionCount (routeSlot rt)
          (rt.txConnectionCount (routeSlot rt) + 1)
        workerRr := if (validHint hint).isSome then rt.workerRr else rt.workerRr + 1
        txRr := rt.txRr + 1 } := rfl

/-! ## counting entries -/

/-- The ways of all sets. -/
@[irreducible]
def routeWays : Finset (Nat × Nat) := Finset.range dpRouteSetCount ×ˢ Finset.range dpRouteWays

theorem mem_routeWays {set way : Nat} (hs : set < dpRouteSetCount) (hw : way < dpRouteWays) :
    (set, way) ∈ routeWays := by
  unfold routeWays
  simp [hs, hw]

theorem card_routeWays : routeWays.card = 65536 := by
  unfold routeWays
  simp [dpRouteSetCount, dpRouteWays]

/-- How many valid entries satisfy `p`. -/
def countEntries (table : Nat → Nat → RouteEntry) (p : RouteEntry → Bool) : Nat :=
  (routeWays.filter fun i => ((table i.1 i.2).valid && p (table i.1 i.2)) = true).card

theorem countEntries_congr {table table' : Nat → Nat → RouteEntry} {p : RouteEntry → Bool}
    (h : ∀ set way, ((table set way).valid && p (table set way)) = ((table' set way).valid && p (table' set way))) :
    countEntries table p = countEntries table' p := by
  refine congrArg Finset.card (Finset.filter_congr fun i _ => ?_)
  rw [h]

theorem countEntries_le (table : Nat → Nat → RouteEntry) (p : RouteEntry → Bool) :
    countEntries table p ≤ 65536 :=
  (Finset.card_filter_le _ _).trans card_routeWays.le

theorem routeSet_lt (key : RouteKey) : routeSet key < dpRouteSetCount := Nat.mod_lt _ (by decide)

/-- A free way that gets a valid entry. -/
theorem countEntries_setEntry {set way : Nat} {e : RouteEntry} {p : RouteEntry → Bool}
    (hs : set < dpRouteSetCount) (hw : way < dpRouteWays) (hfree : (rt.table set way).valid = false)
    (he : e.valid = true) :
    countEntries (rt.setEntry set way e).table p = countEntries rt.table p + if p e then 1 else 0 := by
  have hmem := mem_routeWays hs hw
  have hold : (set, way) ∉ routeWays.filter fun i => ((rt.table i.1 i.2).valid && p (rt.table i.1 i.2)) = true := by
    simp [hfree]
  unfold countEntries
  by_cases hp : p e = true
  · rw [if_pos hp, ← Finset.card_insert_of_notMem hold]
    refine congrArg Finset.card (Finset.ext fun ⟨s, w⟩ => ?_)
    simp only [Finset.mem_filter, Finset.mem_insert, RouteState.setEntry_table, Prod.mk.injEq]
    by_cases hsw : s = set ∧ w = way
    · obtain ⟨rfl, rfl⟩ := hsw
      simp [hmem, he, hp]
    · simp [hsw]
  · rw [if_neg hp, Nat.add_zero]
    refine congrArg Finset.card (Finset.filter_congr fun i _ => ?_)
    rw [RouteState.setEntry_table]
    split_ifs with hi
    · rw [hi.1, hi.2, hfree]; simp [hp]
    · rfl

/-! ## the table between calls -/

structure TableInv (rt : RouteState) : Prop where
  home : ∀ set way, (rt.table set way).valid = true →
    way < dpRouteWays ∧ set = routeSet (rt.table set way).key
  unique : ∀ set w w', (rt.table set w).valid = true → (rt.table set w').valid = true →
    (rt.table set w).key = (rt.table set w').key → w = w'
  bounds : ∀ set way, (rt.table set way).valid = true →
    (rt.table set way).workerIdx < neCryptoWorkers ∧ (rt.table set way).txSlot < (dpActiveTxSlots rt).toNat
  workers : ∀ w, rt.workerConnectionCount w = UInt64.ofNat (countEntries rt.table (·.workerIdx = w))
  slots : ∀ slot, rt.txConnectionCount slot = UInt64.ofNat (countEntries rt.table (·.txSlot = slot))

/-- The table at program start, with any number of active TX slots. -/
theorem TableInv.init (n : UInt32) : TableInv { RouteState.init with activeTxSlots := n } := by
  have hcount : ∀ p, countEntries RouteState.init.table p = 0 := by
    intro p
    simp [countEntries, RouteState.init]
  constructor
  · intro set way h; cases h
  · intro set w w' h; cases h
  · intro set way h; cases h
  · intro w; simp only [hcount]; rfl
  · intro slot; simp only [hcount]; rfl

/-- Counting the new entry. -/
theorem ofNat_count_update {counts : Nat → UInt64} {n : Nat → Nat} (h : ∀ i, counts i = UInt64.ofNat (n i))
    (j i : Nat) :
    Function.update counts j (counts j + 1) i = UInt64.ofNat (n i + if j = i then 1 else 0) := by
  by_cases hij : i = j
  · subst hij
    rw [Function.update_self, if_pos rfl, UInt64.ofNat_add, h i]
    rfl
  · rw [Function.update_of_ne hij, if_neg (Ne.symm hij), Nat.add_zero, h i]

theorem routeInsert_entry (hint : Option Nat) (way set w : Nat) :
    (routeInsert rt key hint way).2.table set w =
      if set = routeSet key ∧ w = way then newEntry key ⟨routeWorker rt hint, routeSlot rt⟩ true
      else rt.table set w := RouteState.setEntry_table ..

/-- The worker and the slot of the new entry, as the entry has them. -/
theorem newEntry_route (hint : Option Nat) (valid : Bool) :
    (newEntry key ⟨routeWorker rt hint, routeSlot rt⟩ valid).workerIdx = routeWorker rt hint ∧
      (newEntry key ⟨routeWorker rt hint, routeSlot rt⟩ valid).txSlot = routeSlot rt := by
  have hworker := @routeWorker_lt rt hint
  have hslot := @routeSlot_lt rt
  have hslots := (dpActiveTxSlots_bounds rt).2
  simp only [neCryptoWorkers, neCpuCrypto, neTxSlots, neCpuTx, List.length_cons, List.length_nil] at hworker hslots
  have hw : routeWorker rt hint < 256 := by omega
  have hs : routeSlot rt < 256 := by omega
  exact ⟨Nat.mod_eq_of_lt hw, Nat.mod_eq_of_lt hs⟩

theorem countEntries_routeInsert {way : Nat} (hempty : routeEmpty rt key = some way) (hint : Option Nat)
    (p : RouteEntry → Bool) :
    countEntries (routeInsert rt key hint way).2.table p =
      countEntries rt.table p + if p (newEntry key ⟨routeWorker rt hint, routeSlot rt⟩ true) then 1 else 0 :=
  countEntries_setEntry (routeSet_lt key) (routeEmpty_eq_some hempty).1 (routeEmpty_eq_some hempty).2 rfl

theorem TableInv.insert (h : TableInv rt) {way : Nat} (hfind : routeFind rt key = none)
    (hempty : routeEmpty rt key = some way) (hint : Option Nat) :
    TableInv (routeInsert rt key hint way).2 := by
  have hnone := findWay_eq_none_iff.mp (routeFind_eq_findWay ▸ hfind)
  have hnew : ∀ w, (rt.table (routeSet key) w).valid = true → (rt.table (routeSet key) w).key ≠ key := by
    intro w hv hk
    have := hnone w (h.home _ _ hv).1
    simp [RouteState.holds, hv, hk] at this
  constructor
  · intro set w hv
    rw [routeInsert_entry] at hv ⊢
    split_ifs at hv ⊢ with hi
    · exact ⟨hi.2 ▸ (routeEmpty_eq_some hempty).1, hi.1⟩
    · exact h.home set w hv
  · intro set w w' hv hv' hk
    rw [routeInsert_entry] at hv hv' hk
    rw [routeInsert_entry] at hk
    split_ifs at hv hv' hk with hi hi' hi'
    · rw [hi.2, hi'.2]
    · rw [hi.1] at hv' hk
      exact absurd hk.symm (hnew w' hv')
    · rw [hi'.1] at hv hk
      exact absurd hk (hnew w hv)
    · exact h.unique set w w' hv hv' hk
  · intro set w hv
    rw [routeInsert_entry] at hv ⊢
    split_ifs at hv ⊢ with hi
    · rw [(newEntry_route hint true).1, (newEntry_route hint true).2]
      exact ⟨routeWorker_lt hint, routeSlot_lt⟩
    · exact h.bounds set w hv
  · intro w
    have hupd := ofNat_count_update h.workers (routeWorker rt hint) w
    rw [countEntries_routeInsert hempty, (newEntry_route hint true).1, routeInsert_snd]
    simpa only [decide_eq_true_eq] using hupd
  · intro slot
    have hupd := ofNat_count_update h.slots (routeSlot rt) slot
    rw [countEntries_routeInsert hempty, (newEntry_route hint true).2, routeInsert_snd]
    simpa only [decide_eq_true_eq] using hupd

theorem TableInv.getKey (h : TableInv rt) (key : RouteKey) (hint : Option Nat) :
    TableInv (dpFlowRouteGetKey rt key hint).2 := by
  rw [dpFlowRouteGetKey]
  cases hfind : routeFind rt key with
  | some way => exact h
  | none =>
      cases hempty : routeEmpty rt key with
      | none => exact h
      | some way => exact h.insert hfind hempty hint

/-! ## answers -/

/-- The way holds `key`. -/
def Hit (table : Nat → Nat → RouteEntry) (key : RouteKey) (way : Nat) : Prop :=
  way < dpRouteWays ∧ (table (routeSet key) way).valid = true ∧ (table (routeSet key) way).key = key

/-- The answer for a flow: what its entry says, or its hash if it cannot have one. -/
def RouteAnswer (rt : RouteState) (key : RouteKey) (route : FlowRoute) : Prop :=
  (∃ way, Hit rt.table key way ∧
    route = ⟨(rt.table (routeSet key) way).workerIdx, (rt.table (routeSet key) way).txSlot⟩) ∨
  (Saturated rt key ∧ route = hashRoute rt (dpRouteKeyHash key))

/-- Valid entries stay as they are. -/
structure Grows (rt rt' : RouteState) : Prop where
  entry : ∀ set way, (rt.table set way).valid = true → rt'.table set way = rt.table set way
  active : rt'.activeTxSlots = rt.activeTxSlots

theorem Grows.refl (rt : RouteState) : Grows rt rt := ⟨fun _ _ _ => rfl, rfl⟩

theorem Grows.trans {rt'' : RouteState} (h : Grows rt rt') (h' : Grows rt' rt'') : Grows rt rt'' where
  entry := by
    intro set way hv
    have heq := h.entry set way hv
    rw [h'.entry set way (by rw [heq]; exact hv), heq]
  active := h'.active.trans h.active

/-- Valid entries keep their flow and its route; the sequence numbers in them may move. -/
structure Sticks (rt rt' : RouteState) : Prop where
  entry : ∀ set way, (rt.table set way).valid = true → (rt'.table set way).valid = true ∧
    (rt'.table set way).key = (rt.table set way).key ∧
    (rt'.table set way).workerIdx = (rt.table set way).workerIdx ∧
    (rt'.table set way).txSlot = (rt.table set way).txSlot
  active : rt'.activeTxSlots = rt.activeTxSlots

theorem Sticks.refl (rt : RouteState) : Sticks rt rt := ⟨fun _ _ hv => ⟨hv, rfl, rfl, rfl⟩, rfl⟩

theorem Sticks.trans {rt'' : RouteState} (h : Sticks rt rt') (h' : Sticks rt' rt'') : Sticks rt rt'' where
  entry := by
    intro set way hv
    obtain ⟨hv', hk, hw, hs⟩ := h.entry set way hv
    obtain ⟨hv'', hk', hw', hs'⟩ := h'.entry set way hv'
    exact ⟨hv'', hk'.trans hk, hw'.trans hw, hs'.trans hs⟩
  active := h'.active.trans h.active

theorem Grows.sticks (h : Grows rt rt') : Sticks rt rt' := by
  refine ⟨fun set way hv => ?_, h.active⟩
  rw [h.entry set way hv]
  exact ⟨hv, rfl, rfl, rfl⟩

theorem Hit.mono {way : Nat} (hg : Sticks rt rt') (h : Hit rt.table key way) : Hit rt'.table key way := by
  obtain ⟨hw, hv, hk⟩ := h
  obtain ⟨hv', hk', -⟩ := hg.entry _ _ hv
  exact ⟨hw, hv', hk'.trans hk⟩

theorem Saturated.mono (hg : Sticks rt rt') (h : Saturated rt key) : Saturated rt' key := by
  obtain ⟨hfind, hempty⟩ := h
  have hfull := routeEmpty_eq_none_iff.mp hempty
  refine ⟨?_, ?_⟩
  · rw [← hfind]
    refine findWay_congr fun w hw => ?_
    obtain ⟨hv, hk, -⟩ := hg.entry _ _ (hfull w hw)
    rw [hv, hk, hfull w hw]
  · rw [routeEmpty_eq_none_iff]
    intro w hw
    exact (hg.entry _ _ (hfull w hw)).1

theorem hashRoute_congr (h : rt'.activeTxSlots = rt.activeTxSlots) (hash : UInt32) :
    hashRoute rt' hash = hashRoute rt hash := by
  simp only [hashRoute, dpActiveTxSlots, h]

/-- An answer stays the answer. -/
theorem RouteAnswer.mono (hg : Sticks rt rt') (h : RouteAnswer rt key route) : RouteAnswer rt' key route := by
  rcases h with ⟨way, hhit, hroute⟩ | ⟨hsat, hroute⟩
  · refine .inl ⟨way, hhit.mono hg, ?_⟩
    obtain ⟨-, -, hw, hs⟩ := hg.entry _ _ hhit.2.1
    rw [hw, hs]
    exact hroute
  · refine .inr ⟨hsat.mono hg, ?_⟩
    rw [hroute, hashRoute_congr hg.active]

theorem Hit.not_saturated {way : Nat} (h : Hit rt.table key way) : ¬ Saturated rt key := by
  intro hsat
  have := findWay_eq_none_iff.mp (routeFind_eq_findWay ▸ hsat.1) way h.1
  simp [RouteState.holds, h.2.1, h.2.2] at this

/-- There is one answer for a flow. -/
theorem RouteAnswer.unique (huniq : ∀ set w w', (rt.table set w).valid = true → (rt.table set w').valid = true →
      (rt.table set w).key = (rt.table set w').key → w = w')
    (h : RouteAnswer rt key route) (h' : RouteAnswer rt key route') : route = route' := by
  rcases h with ⟨way, hhit, hroute⟩ | ⟨hsat, hroute⟩
  · rcases h' with ⟨way', hhit', hroute'⟩ | ⟨hsat, -⟩
    · have heq := huniq _ way way' hhit.2.1 hhit'.2.1 (hhit.2.2.trans hhit'.2.2.symm)
      rw [hroute, hroute', heq]
    · exact absurd hsat hhit.not_saturated
  · rcases h' with ⟨way', hhit', -⟩ | ⟨-, hroute'⟩
    · exact absurd hsat hhit'.not_saturated
    · rw [hroute, hroute']

theorem RouteAnswer.bounds (hbounds : ∀ set way, (rt.table set way).valid = true →
      (rt.table set way).workerIdx < neCryptoWorkers ∧ (rt.table set way).txSlot < (dpActiveTxSlots rt).toNat)
    (h : RouteAnswer rt key route) :
    route.workerIdx < neCryptoWorkers ∧ route.txSlot < (dpActiveTxSlots rt).toNat := by
  rcases h with ⟨way, hhit, rfl⟩ | ⟨-, rfl⟩
  · exact hbounds _ _ hhit.2.1
  · exact hashRoute_bounds _

theorem grows_insert {way : Nat} (hempty : routeEmpty rt key = some way) (hint : Option Nat) :
    Grows rt (routeInsert rt key hint way).2 :=
  ⟨fun _ _ hv => routeInsert_of_valid hempty hint hv, rfl⟩

theorem grows_getKey (rt : RouteState) (key : RouteKey) (hint : Option Nat) :
    Grows rt (dpFlowRouteGetKey rt key hint).2 := by
  rw [dpFlowRouteGetKey]
  cases hfind : routeFind rt key with
  | some way => exact .refl rt
  | none =>
      cases hempty : routeEmpty rt key with
      | none => exact .refl rt
      | some way => exact grows_insert hempty hint

/-- A call returns the answer. -/
theorem routeAnswer_getKey (rt : RouteState) (key : RouteKey) (hint : Option Nat) :
    RouteAnswer (dpFlowRouteGetKey rt key hint).2 key (dpFlowRouteGetKey rt key hint).1 := by
  rw [dpFlowRouteGetKey]
  cases hfind : routeFind rt key with
  | some way => exact .inl ⟨way, routeFind_eq_some hfind, rfl⟩
  | none =>
      cases hempty : routeEmpty rt key with
      | none => exact .inr ⟨⟨hfind, hempty⟩, rfl⟩
      | some way =>
          refine .inl ⟨way, ⟨(routeEmpty_eq_some hempty).1, ?_⟩, ?_⟩
          · rw [routeInsert_entry, if_pos ⟨rfl, rfl⟩]
            exact ⟨rfl, rfl⟩
          · rw [routeInsert_entry, if_pos ⟨rfl, rfl⟩, (newEntry_route hint true).1, (newEntry_route hint true).2]
            rfl

/-! ## drawing a number -/

theorem routeBumpSeq_route (set way set' way' : Nat) (dir : Bool) :
    ((routeBumpSeq rt set way dir).2.table set' way').workerIdx = (rt.table set' way').workerIdx ∧
      ((routeBumpSeq rt set way dir).2.table set' way').txSlot = (rt.table set' way').txSlot := by
  simp only [routeBumpSeq, RouteState.setEntry_table]
  split_ifs with h
  · simp [h.1, h.2]
  · simp

theorem sticks_bump (set way : Nat) (dir : Bool) : Sticks rt (routeBumpSeq rt set way dir).2 := by
  refine ⟨fun set' way' hv => ?_, rfl⟩
  obtain ⟨hvalid, hkey⟩ := @routeBumpSeq_table rt set way set' way' dir
  obtain ⟨hworker, hslot⟩ := @routeBumpSeq_route rt set way set' way' dir
  exact ⟨hvalid.trans hv, hkey, hworker, hslot⟩

theorem TableInv.bump (h : TableInv rt) (set way : Nat) (dir : Bool) :
    TableInv (routeBumpSeq rt set way dir).2 := by
  have hvalid : ∀ s w, ((routeBumpSeq rt set way dir).2.table s w).valid = (rt.table s w).valid :=
    fun s w => (routeBumpSeq_table set way s w dir).1
  have hkey : ∀ s w, ((routeBumpSeq rt set way dir).2.table s w).key = (rt.table s w).key :=
    fun s w => (routeBumpSeq_table set way s w dir).2
  have hroute := fun s w => @routeBumpSeq_route rt set way s w dir
  constructor
  · intro s w hv
    rw [hvalid] at hv
    rw [hkey]
    exact h.home s w hv
  · intro s w w' hv hv' hk
    rw [hvalid] at hv hv'
    rw [hkey, hkey] at hk
    exact h.unique s w w' hv hv' hk
  · intro s w hv
    rw [hvalid] at hv
    rw [(hroute s w).1, (hroute s w).2]
    exact h.bounds s w hv
  · intro w
    refine (h.workers w).trans (congrArg UInt64.ofNat (countEntries_congr fun s v => ?_))
    rw [hvalid, (hroute s v).1]
  · intro slot
    refine (h.slots slot).trans (congrArg UInt64.ofNat (countEntries_congr fun s v => ?_))
    rw [hvalid, (hroute s v).2]

/-! ## packets -/

theorem TableInv.get (h : TableInv rt) (pkt : Mem) (len : Nat) (hint : Option Nat) :
    TableInv (dpFlowRouteGet rt pkt len hint).2 := by
  unfold dpFlowRouteGet
  cases dpRouteKeyParse pkt len with
  | none => exact h
  | some key => exact h.getKey key hint

theorem sticks_get (rt : RouteState) (pkt : Mem) (len : Nat) (hint : Option Nat) :
    Sticks rt (dpFlowRouteGet rt pkt len hint).2 := by
  unfold dpFlowRouteGet
  cases dpRouteKeyParse pkt len with
  | none => exact .refl rt
  | some key => exact (grows_getKey rt key hint).sticks

/-- A lookup for a packet of a TCP or UDP flow returns the answer for the flow. -/
theorem routeAnswer_get {pkt : Mem} {len : Nat} {f : Flow} (hflow : (dpParseFlow pkt len).1 = some f)
    (hf : f.routed) (hint : Option Nat) :
    RouteAnswer (dpFlowRouteGet rt pkt len hint).2 f.canonical (dpFlowRouteGet rt pkt len hint).1 := by
  rw [dpFlowRouteGet, dpRouteKeyParse_of_flow hflow hf]
  exact routeAnswer_getKey rt f.canonical hint

theorem nextTxSeq_route (h : TableInv rt) (tls : RouteTls) (pkt : Mem) (len : Nat) :
    TableInv (dpUdpNextTxSeq rt tls pkt len).2.1 ∧ Sticks rt (dpUdpNextTxSeq rt tls pkt len).2.1 := by
  unfold dpUdpNextTxSeq
  cases dpRouteKeyParseDirection pkt len with
  | none => exact ⟨h, .refl rt⟩
  | some k =>
      dsimp only
      split_ifs
      · exact ⟨h, .refl rt⟩
      · cases routeFind rt k.1 with
        | some way => exact ⟨h.bump _ _ _, sticks_bump _ _ _⟩
        | none =>
            have hget := h.get pkt len tls.cryptoWorkerIdx
            have hsticks := sticks_get rt pkt len tls.cryptoWorkerIdx
            dsimp only
            cases routeFind (dpFlowRouteGet rt pkt len tls.cryptoWorkerIdx).2 k.1 with
            | some way => exact ⟨hget.bump _ _ _, hsticks.trans (sticks_bump _ _ _)⟩
            | none => exact ⟨hget, hsticks⟩

end Table

end NetworkEncryptor
