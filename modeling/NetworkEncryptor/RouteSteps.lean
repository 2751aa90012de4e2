import NetworkEncryptor.Lib.Run
import NetworkEncryptor.RouteTable

/-!
# NetworkEncryptor.RouteSteps

`dp_flow_route_get` of `src/core/dataplane/crypto_route.c` by many threads at once,
each load and store of the shared table a step.

A call scans the set of its flow without a lock; if it finds nothing, it takes the
insert lock, scans again, and writes an entry into the first free way, whose `valid`
it stores last.  While the lock is held the table is the one that was there when it
was taken (`base`), but for what the holder has written into a way that is not valid
yet; when it is released, the table is what the call does in one step
(`RouteInv.unlock`).  So nobody sees a half-written entry, and the answers for a flow
are all the same (`routeSys_sticky`).
-/

namespace NetworkEncryptor

/-! ## fields -/

/-- The fields of an entry but for `valid`. -/
inductive EntryField
  | ipA
  | ipB
  | portA
  | portB
  | protocol
  | seq (dir : Bool)
  | workerIdx
  | txSlot
  deriving DecidableEq

/-- The order in which `dp_route_key_equal` compares. -/
def keyFields : List EntryField := [.ipA, .ipB, .portA, .portB, .protocol]

/-- The order in which an insert stores. -/
def entryFields : List EntryField := keyFields ++ [.seq false, .seq true, .workerIdx, .txSlot]

/-- What a load of one field gives. -/
def RouteEntry.field (e : RouteEntry) : EntryField → Nat
  | .ipA => e.key.ipA.toNat
  | .ipB => e.key.ipB.toNat
  | .portA => e.key.portA.toNat
  | .portB => e.key.portB.toNat
  | .protocol => e.key.protocol.toNat
  | .seq dir => (e.udpTxSeq dir).toNat
  | .workerIdx => e.workerIdx
  | .txSlot => e.txSlot

/-- One field of `new` is stored. -/
def RouteEntry.setField (e new : RouteEntry) : EntryField → RouteEntry
  | .ipA => { e with key.ipA := new.key.ipA }
  | .ipB => { e with key.ipB := new.key.ipB }
  | .portA => { e with key.portA := new.key.portA }
  | .portB => { e with key.portB := new.key.portB }
  | .protocol => { e with key.protocol := new.key.protocol }
  | .seq dir => { e with udpTxSeq := Function.update e.udpTxSeq dir (new.udpTxSeq dir) }
  | .workerIdx => { e with workerIdx := new.workerIdx }
  | .txSlot => { e with txSlot := new.txSlot }

theorem RouteEntry.setField_field (e new : RouteEntry) (f g : EntryField) :
    (e.setField new f).field g = if g = f then new.field g else e.field g := by
  cases f <;> cases g <;> simp [RouteEntry.setField, RouteEntry.field]
  case seq.seq dir dir' =>
    by_cases h : dir' = dir
    · subst h; simp
    · simp [h]

@[simp] theorem RouteEntry.setField_valid (e new : RouteEntry) (f : EntryField) :
    (e.setField new f).valid = e.valid := by
  cases f <;> rfl

/-- Equal fields are equal keys. -/
theorem key_eq_of_fields {e e' : RouteEntry} (h : ∀ f ∈ keyFields, e.field f = e'.field f) : e.key = e'.key := by
  obtain ⟨⟨a, b, p, q, r⟩, seq, w, t, v⟩ := e
  obtain ⟨⟨a', b', p', q', r'⟩, seq', w', t', v'⟩ := e'
  simp only [keyFields, List.mem_cons, List.not_mem_nil, or_false, forall_eq_or_imp, forall_eq,
    RouteEntry.field, UInt32.toNat_inj, UInt16.toNat_inj, UInt8.toNat_inj] at h
  obtain ⟨rfl, rfl, rfl, rfl, rfl⟩ := h
  rfl

/-- An entry is its fields and `valid`. -/
theorem entry_eq_of_fields {e e' : RouteEntry} (h : ∀ f ∈ entryFields, e.field f = e'.field f)
    (hv : e.valid = e'.valid) : e = e' := by
  have hkey := key_eq_of_fields fun f hf => h f (List.mem_append_left _ hf)
  have hseq : e.udpTxSeq = e'.udpTxSeq := by
    funext dir
    have hdir := h (.seq dir) (by cases dir <;> simp [entryFields])
    exact UInt32.toNat_inj.mp hdir
  have hworker := h .workerIdx (by simp [entryFields])
  have hslot := h .txSlot (by simp [entryFields])
  obtain ⟨key, seq, w, t, v⟩ := e
  obtain ⟨key', seq', w', t', v'⟩ := e'
  simp only [RouteEntry.field] at hworker hslot
  simp only at hkey hseq hv
  rw [hkey, hseq, hworker, hslot, hv]

/-! ## threads -/

/-- A scan without the lock, or with it, and then the first free way so far. -/
inductive ScanMode
  | free
  | held (empty : Option Nat)

/-- A way that is not valid. -/
def ScanMode.skip : ScanMode → Nat → ScanMode
  | .free, _ => .free
  | .held none, way => .held (some way)
  | .held (some empty), _ => .held (some empty)

/-- Where a call is. -/
inductive RoutePc
  | idle
  /-- `valid` of `way` is to be loaded -/
  | scan (m : ScanMode) (way : Nat)
  /-- the fields `todo` of the key of `way` are to be compared -/
  | compare (m : ScanMode) (way : Nat) (todo : List EntryField)
  | loadWorker (m : ScanMode) (way : Nat)
  | loadSlot (m : ScanMode) (way worker : Nat)
  | lock
  /-- in `dp_route_least_loaded` for the worker: the cursor, then the loads -/
  | workerCursor (empty : Nat)
  | workerLoad (empty : Nat) (start : UInt32) (off : Nat) (best : UInt64 × Nat)
  | slotCursor (empty worker : Nat)
  | slotLoad (empty worker : Nat) (start : UInt32) (off : Nat) (best : UInt64 × Nat)
  /-- the fields `todo` are to be stored -/
  | store (empty : Nat) (route : FlowRoute) (todo : List EntryField)
  | countWorker (empty : Nat) (route : FlowRoute)
  | countSlot (empty : Nat) (route : FlowRoute)
  | publish (empty : Nat) (route : FlowRoute)
  | unlock (route : FlowRoute)

/-- A thread and the call it is in. -/
structure RouteThread where
  pkt : Mem
  len : Nat
  hint : Option Nat
  key : RouteKey
  pc : RoutePc

/-- A call that has returned. -/
structure RouteReturn where
  pkt : Mem
  len : Nat
  hint : Option Nat
  route : FlowRoute

/-- The table, the insert lock and the threads; `returned` is history. -/
structure RouteSys where
  rt : RouteState
  lock : Bool
  threads : Nat → RouteThread
  returned : List RouteReturn

/-- The program start, with `slots` stored to `g_active_tx_slots`. -/
def RouteSys.init (slots : UInt32) : RouteSys :=
  { rt := { RouteState.init with activeTxSlots := slots }
    lock := false
    threads := fun _ => ⟨fun _ => 0, 0, none, ⟨0, 0, 0, 0, 0⟩, .idle⟩
    returned := [] }

inductive RouteEvent
  | call (t : Nat) (pkt : Mem) (len : Nat) (hint : Option Nat)
  | step (t : Nat)

def RouteSys.goto (s : RouteSys) (t : Nat) (pc : RoutePc) : RouteSys :=
  { s with threads := Function.update s.threads t { s.threads t with pc := pc } }

def RouteSys.ret (s : RouteSys) (t : Nat) (route : FlowRoute) : RouteSys :=
  { s.goto t .idle with
    returned := s.returned ++ [⟨(s.threads t).pkt, (s.threads t).len, (s.threads t).hint, route⟩] }

/-- The beginning of `dp_flow_route_get`. -/
def routeCall (s : RouteSys) (t : Nat) (pkt : Mem) (len : Nat) (hint : Option Nat) : RouteSys :=
  match (s.threads t).pc with
  | .idle =>
      match dpRouteKeyParse pkt len with
      | none =>
          { s with returned := s.returned ++ [⟨pkt, len, hint, hashRoute s.rt (dpPktFlowHash pkt len)⟩] }
      | some key => { s with threads := Function.update s.threads t ⟨pkt, len, hint, key, .scan .free 0⟩ }
  | _ => s

/-- The key a call compares with, as an entry. -/
def keyEntry (key : RouteKey) : RouteEntry := newEntry key ⟨0, 0⟩ false

/-- The end of a scan. -/
def scanEnd (s : RouteSys) (t : Nat) : ScanMode → RouteSys
  | .free => s.goto t .lock
  | .held none => s.goto t (.unlock (hashRoute s.rt (dpRouteKeyHash (s.threads t).key)))
  | .held (some empty) =>
      match validHint (s.threads t).hint with
      | some w => s.goto t (.slotCursor empty w)
      | none => s.goto t (.workerCursor empty)

/-- The next load or store of a call. -/
def routeThreadStep (s : RouteSys) (t : Nat) : RouteSys :=
  let key := (s.threads t).key
  let set := s.rt.table (routeSet key)
  match (s.threads t).pc with
  | .idle => s
  | .scan m way =>
      if way < dpRouteWays then
        if (set way).valid then s.goto t (.compare m way keyFields)
        else s.goto t (.scan (m.skip way) (way + 1))
      else scanEnd s t m
  | .compare m way [] => s.goto t (.loadWorker m way)
  | .compare m way (f :: todo) =>
      if (set way).field f = (keyEntry key).field f then s.goto t (.compare m way todo)
      else s.goto t (.scan m (way + 1))
  | .loadWorker m way => s.goto t (.loadSlot m way (set way).workerIdx)
  | .loadSlot .free way worker => s.ret t ⟨worker, (set way).txSlot⟩
  | .loadSlot (.held _) way worker => s.goto t (.unlock ⟨worker, (set way).txSlot⟩)
  | .lock =>
      -- `atomic_exchange` until it gives 0
      if s.lock then s else { s.goto t (.scan (.held none) 0) with lock := true }
  | .workerCursor empty =>
      { s.goto t (.workerLoad empty s.rt.workerRr 0 (0xFFFFFFFFFFFFFFFF, 0)) with
        rt := { s.rt with workerRr := s.rt.workerRr + 1 } }
  | .workerLoad empty start off best =>
      if off < neCryptoWorkers then
        s.goto t (.workerLoad empty start (off + 1)
          (leastLoadedNext s.rt.workerConnectionCount neCryptoWorkers start best off))
      else s.goto t (.slotCursor empty best.2)
  | .slotCursor empty worker =>
      { s.goto t (.slotLoad empty worker s.rt.txRr 0 (0xFFFFFFFFFFFFFFFF, 0)) with
        rt := { s.rt with txRr := s.rt.txRr + 1 } }
  | .slotLoad empty worker start off best =>
      if off < (dpActiveTxSlots s.rt).toNat then
        s.goto t (.slotLoad empty worker start (off + 1)
          (leastLoadedNext s.rt.txConnectionCount (dpActiveTxSlots s.rt).toNat start best off))
      else s.goto t (.store empty ⟨worker, best.2⟩ entryFields)
  | .store empty route [] => s.goto t (.countWorker empty route)
  | .store empty route (f :: todo) =>
      { s.goto t (.store empty route todo) with
        rt := s.rt.setEntry (routeSet key) empty ((set empty).setField (newEntry key route true) f) }
  | .countWorker empty route =>
      { s.goto t (.countSlot empty route) with
        rt := { s.rt with
          workerConnectionCount := Function.update s.rt.workerConnectionCount route.workerIdx
            (s.rt.workerConnectionCount route.workerIdx + 1) } }
  | .countSlot empty route =>
      { s.goto t (.publish empty route) with
        rt := { s.rt with
          txConnectionCount := Function.update s.rt.txConnectionCount route.txSlot
            (s.rt.txConnectionCount route.txSlot + 1) } }
  | .publish empty route =>
      { s.goto t (.unlock route) with
        rt := s.rt.setEntry (routeSet key) empty { set empty with valid := true } }
  | .unlock route => { s.ret t route with lock := false }

def RouteSys.step (s : RouteSys) : RouteEvent → RouteSys
  | .call t pkt len hint => routeCall s t pkt len hint
  | .step t => routeThreadStep s t

/-! ## the invariant -/

/-- The call holds the insert lock. -/
def RoutePc.critical : RoutePc → Bool
  | .idle | .lock => false
  | .scan .free _ | .compare .free _ _ | .loadWorker .free _ | .loadSlot .free _ _ => false
  | _ => true

section Invariant

variable {s : RouteSys} {rt rt' base : RouteState} {key : RouteKey} {hint : Option Nat} {t way : Nat}

/-- The way is valid, and all fields of its key that have been compared are those of
`key`. -/
def Matching (table : Nat → Nat → RouteEntry) (key : RouteKey) (way : Nat) (todo : List EntryField) : Prop :=
  way < dpRouteWays ∧ (table (routeSet key) way).valid = true ∧ todo ⊆ keyFields ∧
    ∀ f ∈ keyFields, f ∉ todo → (table (routeSet key) way).field f = (keyEntry key).field f

/-- What a call without the lock knows. -/
def FreeInv (table : Nat → Nat → RouteEntry) (key : RouteKey) : RoutePc → Prop
  | .compare .free way todo => Matching table key way todo
  | .loadWorker .free way => Hit table key way
  | .loadSlot .free way worker => Hit table key way ∧ worker = (table (routeSet key) way).workerIdx
  | _ => True

/-- The ways below `way` do not hold the key, and `empty` is the first free one. -/
def ScannedTo (base : RouteState) (key : RouteKey) (way : Nat) (empty : Option Nat) : Prop :=
  way ≤ dpRouteWays ∧ findWay way (base.holds key) = none ∧
    empty = findWay way fun w => !(base.table (routeSet key) w).valid

/-- The key is not there, and `empty` is the way to put it. -/
def Vacancy (base : RouteState) (key : RouteKey) (empty : Nat) : Prop :=
  routeFind base key = none ∧ routeEmpty base key = some empty

/-- `base` after the cursors have moved on. -/
def cursored (base : RouteState) (hint : Option Nat) : RouteState :=
  { base with
    workerRr := if (validHint hint).isSome then base.workerRr else base.workerRr + 1
    txRr := base.txRr + 1 }

/-- The route a new flow gets. -/
def newRoute (base : RouteState) (hint : Option Nat) : FlowRoute := ⟨routeWorker base hint, routeSlot base⟩

def workerCounted (rt : RouteState) (worker : Nat) : RouteState :=
  { rt with
    workerConnectionCount := Function.update rt.workerConnectionCount worker (rt.workerConnectionCount worker + 1) }

def slotCounted (rt : RouteState) (slot : Nat) : RouteState :=
  { rt with txConnectionCount := Function.update rt.txConnectionCount slot (rt.txConnectionCount slot + 1) }

/-- What the call with the lock knows: how far it has come from `base`, which the table
was when it took the lock, to what it would be after the call in one step. -/
def HeldInv (base rt : RouteState) (key : RouteKey) (hint : Option Nat) : RoutePc → Prop
  | .scan (.held empty) way => rt = base ∧ ScannedTo base key way empty
  | .compare (.held empty) way todo => rt = base ∧ ScannedTo base key way empty ∧ Matching base.table key way todo
  | .loadWorker (.held _) way => rt = base ∧ routeFind base key = some way
  | .loadSlot (.held _) way worker =>
      rt = base ∧ routeFind base key = some way ∧ worker = (base.table (routeSet key) way).workerIdx
  | .workerCursor empty => Vacancy base key empty ∧ validHint hint = none ∧ rt = base
  | .workerLoad empty start off best =>
      Vacancy base key empty ∧ validHint hint = none ∧ rt = { base with workerRr := base.workerRr + 1 } ∧
        start = base.workerRr ∧ off ≤ neCryptoWorkers ∧
        best = (List.range off).foldl (leastLoadedNext base.workerConnectionCount neCryptoWorkers start)
          (0xFFFFFFFFFFFFFFFF, 0)
  | .slotCursor empty worker =>
      Vacancy base key empty ∧ worker = routeWorker base hint ∧
        rt = { base with
          workerRr := if (validHint hint).isSome then base.workerRr else base.workerRr + 1 }
  | .slotLoad empty worker start off best =>
      Vacancy base key empty ∧ worker = routeWorker base hint ∧ rt = cursored base hint ∧
        start = base.txRr ∧ off ≤ (dpActiveTxSlots base).toNat ∧
        best = (List.range off).foldl
          (leastLoadedNext base.txConnectionCount (dpActiveTxSlots base).toNat start) (0xFFFFFFFFFFFFFFFF, 0)
  | .store empty route todo =>
      Vacancy base key empty ∧ route = newRoute base hint ∧
        ∃ e : RouteEntry, e.valid = false ∧
          (∀ f ∈ entryFields, f ∉ todo → e.field f = (newEntry key route true).field f) ∧
          rt = (cursored base hint).setEntry (routeSet key) empty e
  | .countWorker empty route =>
      Vacancy base key empty ∧ route = newRoute base hint ∧
        rt = (cursored base hint).setEntry (routeSet key) empty (newEntry key route false)
  | .countSlot empty route =>
      Vacancy base key empty ∧ route = newRoute base hint ∧
        rt = workerCounted ((cursored base hint).setEntry (routeSet key) empty (newEntry key route false))
          route.workerIdx
  | .publish empty route =>
      Vacancy base key empty ∧ route = newRoute base hint ∧
        rt = slotCounted (workerCounted ((cursored base hint).setEntry (routeSet key) empty
          (newEntry key route false)) route.workerIdx) route.txSlot
  | .unlock route => (route, rt) = dpFlowRouteGetKey base key hint
  | _ => False

/-! ### the table while the lock is held -/

/-- The table before the new entry is valid: `base` but for one free way. -/
def Written (base rt : RouteState) (key : RouteKey) : Prop :=
  ∃ empty e, Vacancy base key empty ∧ e.valid = false ∧
    rt.table = (base.setEntry (routeSet key) empty e).table

theorem HeldInv.table_cases {pc : RoutePc} (h : HeldInv base rt key hint pc) :
    rt.activeTxSlots = base.activeTxSlots ∧
      (rt.table = base.table ∨ Written base rt key ∨ rt = (dpFlowRouteGetKey base key hint).2) := by
  cases pc with
  | idle => exact h.elim
  | lock => exact h.elim
  | scan m way =>
      cases m with
      | free => exact h.elim
      | held empty => rw [h.1]; exact ⟨rfl, .inl rfl⟩
  | compare m way todo =>
      cases m with
      | free => exact h.elim
      | held empty => rw [h.1]; exact ⟨rfl, .inl rfl⟩
  | loadWorker m way =>
      cases m with
      | free => exact h.elim
      | held empty => rw [h.1]; exact ⟨rfl, .inl rfl⟩
  | loadSlot m way worker =>
      cases m with
      | free => exact h.elim
      | held empty => rw [h.1]; exact ⟨rfl, .inl rfl⟩
  | workerCursor empty => rw [h.2.2]; exact ⟨rfl, .inl rfl⟩
  | workerLoad empty start off best => rw [h.2.2.1]; exact ⟨rfl, .inl rfl⟩
  | slotCursor empty worker => rw [h.2.2]; exact ⟨rfl, .inl rfl⟩
  | slotLoad empty worker start off best => rw [h.2.2.1]; exact ⟨rfl, .inl rfl⟩
  | store empty route todo =>
      obtain ⟨hvac, -, e, he, -, rfl⟩ := h
      exact ⟨rfl, .inr (.inl ⟨empty, e, hvac, he, rfl⟩)⟩
  | countWorker empty route =>
      obtain ⟨hvac, -, rfl⟩ := h
      exact ⟨rfl, .inr (.inl ⟨empty, _, hvac, rfl, rfl⟩)⟩
  | countSlot empty route =>
      obtain ⟨hvac, -, rfl⟩ := h
      exact ⟨rfl, .inr (.inl ⟨empty, _, hvac, rfl, rfl⟩)⟩
  | publish empty route =>
      obtain ⟨hvac, -, rfl⟩ := h
      exact ⟨rfl, .inr (.inl ⟨empty, _, hvac, rfl, rfl⟩)⟩
  | unlock route =>
      have hrt : rt = (dpFlowRouteGetKey base key hint).2 := congrArg Prod.snd h
      rw [hrt]
      exact ⟨(grows_getKey base key hint).active, .inr (.inr rfl)⟩

theorem Grows.of_table (ht : rt'.table = rt.table) (ha : rt'.activeTxSlots = rt.activeTxSlots) : Grows rt rt' :=
  ⟨fun _ _ _ => by rw [ht], ha⟩

/-- A free way may be written. -/
theorem grows_setEntry {set way : Nat} {e : RouteEntry} (hfree : (rt.table set way).valid = false) :
    Grows rt (rt.setEntry set way e) := by
  refine ⟨?_, rfl⟩
  intro set' way' hv
  rw [RouteState.setEntry_table, if_neg]
  rintro ⟨rfl, rfl⟩
  rw [hfree] at hv
  cases hv

/-- An entry that is valid while the lock is held stays when it is released. -/
theorem HeldInv.grows_next {pc : RoutePc} (h : HeldInv base rt key hint pc) :
    Grows rt (dpFlowRouteGetKey base key hint).2 := by
  obtain ⟨hactive, htable⟩ := h.table_cases
  have hnext := grows_getKey base key hint
  refine ⟨?_, hnext.active.trans hactive.symm⟩
  intro set way hv
  rcases htable with heq | ⟨empty, e, hvac, he, heq⟩ | rfl
  · rw [heq] at hv ⊢
    exact hnext.entry set way hv
  · rw [heq, RouteState.setEntry_table] at hv ⊢
    split_ifs at hv ⊢ with hi
    · rw [he] at hv; cases hv
    · exact hnext.entry set way hv
  · rfl

/-! ### scanning -/

theorem scannedTo_zero (base : RouteState) (key : RouteKey) : ScannedTo base key 0 none :=
  ⟨Nat.zero_le _, rfl, rfl⟩

theorem ScannedTo.skip {empty : Option Nat} (h : ScannedTo base key way empty) (hlt : way < dpRouteWays)
    (hv : (base.table (routeSet key) way).valid = false) :
    ScannedTo base key (way + 1) (empty.or (some way)) := by
  obtain ⟨-, hnone, hempty⟩ := h
  refine ⟨hlt, ?_, ?_⟩
  · rw [findWay_succ, hnone, RouteState.holds, hv]; rfl
  · rw [findWay_succ, ← hempty, hv]; rfl

theorem ScannedTo.other {empty : Option Nat} (h : ScannedTo base key way empty) (hlt : way < dpRouteWays)
    (hv : (base.table (routeSet key) way).valid = true) (hk : (base.table (routeSet key) way).key ≠ key) :
    ScannedTo base key (way + 1) empty := by
  obtain ⟨-, hnone, hempty⟩ := h
  refine ⟨hlt, ?_, ?_⟩
  · rw [findWay_succ, hnone, RouteState.holds]; simp [hk]
  · rw [findWay_succ, ← hempty, hv]; simp

/-- At the end of the scan the key is in no way. -/
theorem ScannedTo.finish {empty : Option Nat} (h : ScannedTo base key way empty) (hge : ¬ way < dpRouteWays) :
    routeFind base key = none ∧ routeEmpty base key = empty := by
  obtain ⟨hle, hnone, hempty⟩ := h
  obtain rfl : way = dpRouteWays := by omega
  exact ⟨hnone, hempty.symm⟩

/-- The way where the scan stops is the one a lookup finds. -/
theorem ScannedTo.found {empty : Option Nat} (h : ScannedTo base key way empty) (hhit : Hit base.table key way) :
    routeFind base key = some way := by
  obtain ⟨hle, hnone, -⟩ := h
  obtain ⟨hlt, hv, hk⟩ := hhit
  have hpre : findWay (way + 1) (base.holds key) = some way := by
    rw [findWay_succ, hnone, RouteState.holds, hv, hk]; simp
  rw [routeFind_eq_findWay]
  exact findWay_of_le (by omega) hpre

theorem Matching.hit {table : Nat → Nat → RouteEntry} (h : Matching table key way []) : Hit table key way := by
  obtain ⟨hlt, hv, -, hf⟩ := h
  exact ⟨hlt, hv, key_eq_of_fields fun f hmem => hf f hmem (List.not_mem_nil)⟩

theorem Matching.start {table : Nat → Nat → RouteEntry} (hlt : way < dpRouteWays)
    (hv : (table (routeSet key) way).valid = true) : Matching table key way keyFields :=
  ⟨hlt, hv, List.Subset.refl _, fun _ hmem hno => absurd hmem hno⟩

theorem Matching.tail {table : Nat → Nat → RouteEntry} {f : EntryField} {todo : List EntryField}
    (h : Matching table key way (f :: todo))
    (heq : (table (routeSet key) way).field f = (keyEntry key).field f) : Matching table key way todo := by
  obtain ⟨hlt, hv, hsub, hf⟩ := h
  refine ⟨hlt, hv, List.subset_of_cons_subset hsub, ?_⟩
  intro g hmem hno
  by_cases hg : g = f
  · rw [hg]; exact heq
  · exact hf g hmem (by simp [hg, hno])

theorem key_ne_of_field {e : RouteEntry} {f : EntryField} (hf : f ∈ keyFields)
    (hne : e.field f ≠ (keyEntry key).field f) : e.key ≠ key := by
  rintro rfl
  apply hne
  simp only [keyFields, List.mem_cons, List.not_mem_nil, or_false] at hf
  rcases hf with rfl | rfl | rfl | rfl | rfl <;> rfl

theorem Matching.mono {todo : List EntryField} (hg : Grows rt rt') (h : Matching rt.table key way todo) :
    Matching rt'.table key way todo := by
  obtain ⟨hlt, hv, hsub, hf⟩ := h
  rw [Matching, hg.entry _ _ hv]
  exact ⟨hlt, hv, hsub, hf⟩

theorem FreeInv.mono {pc : RoutePc} (hg : Grows rt rt') (h : FreeInv rt.table key pc) :
    FreeInv rt'.table key pc := by
  cases pc with
  | compare m way todo =>
      cases m with
      | free => exact Matching.mono hg h
      | held empty => trivial
  | loadWorker m way =>
      cases m with
      | free => exact Hit.mono hg.sticks h
      | held empty => trivial
  | loadSlot m way worker =>
      cases m with
      | free =>
          obtain ⟨hhit, hw⟩ := h
          refine ⟨hhit.mono hg.sticks, ?_⟩
          rw [hg.entry _ _ hhit.2.1]
          exact hw
      | held empty => trivial
  | scan m way => cases m <;> trivial
  | _ => trivial

theorem freeInv_of_critical {table : Nat → Nat → RouteEntry} {pc : RoutePc} (h : pc.critical = true) :
    FreeInv table key pc := by
  cases pc with
  | scan m way => cases m <;> trivial
  | compare m way todo => cases m <;> trivial
  | loadWorker m way => cases m <;> trivial
  | loadSlot m way worker => cases m <;> trivial
  | _ => trivial

/-! ### the whole system -/

/-- What was returned is the answer for the flow of the packet. -/
def ReturnOk (rt : RouteState) (r : RouteReturn) : Prop :=
  match dpRouteKeyParse r.pkt r.len with
  | none => r.route = hashRoute rt (dpPktFlowHash r.pkt r.len)
  | some key => RouteAnswer rt key r.route

/-- `holder` has the lock, and the table was `base` when it took it; if nobody has it,
the table is `base`. -/
structure RouteInv (base : RouteState) (holder : Option Nat) (s : RouteSys) : Prop where
  table : TableInv base
  lock : s.lock = holder.isSome
  critical : ∀ t, (s.threads t).pc.critical = true ↔ holder = some t
  idle : holder = none → s.rt = base
  held : ∀ t, holder = some t → HeldInv base s.rt (s.threads t).key (s.threads t).hint (s.threads t).pc
  free : ∀ t, FreeInv s.rt.table (s.threads t).key (s.threads t).pc
  parsed : ∀ t, (s.threads t).pc = .idle ∨
    dpRouteKeyParse (s.threads t).pkt (s.threads t).len = some (s.threads t).key
  returned : ∀ r ∈ s.returned, ReturnOk s.rt r

theorem ReturnOk.mono {r : RouteReturn} (hg : Grows rt rt') (h : ReturnOk rt r) : ReturnOk rt' r := by
  unfold ReturnOk at h ⊢
  cases hk : dpRouteKeyParse r.pkt r.len with
  | none => simp only [hk] at h ⊢; rw [h, hashRoute_congr hg.active]
  | some key => simp only [hk] at h ⊢; exact h.mono hg.sticks

theorem RouteInv.init (slots : UInt32) :
    RouteInv { RouteState.init with activeTxSlots := slots } none (RouteSys.init slots) where
  table := TableInv.init slots
  lock := rfl
  critical := by intro t; simp [RouteSys.init, RoutePc.critical]
  idle := fun _ => rfl
  held := by intro t h; cases h
  free := fun _ => trivial
  parsed := fun _ => .inl rfl
  returned := by intro r hr; cases hr

/-- The table to come: the atomic result of the call under way, if there is one. -/
def RouteSys.next (s : RouteSys) (base : RouteState) : Option Nat → RouteState
  | none => base
  | some t => (dpFlowRouteGetKey base (s.threads t).key (s.threads t).hint).2

theorem RouteInv.table_next {holder : Option Nat} (h : RouteInv base holder s) :
    TableInv (s.next base holder) ∧ Grows s.rt (s.next base holder) := by
  cases holder with
  | none => rw [h.idle rfl]; exact ⟨h.table, .refl base⟩
  | some t => exact ⟨h.table.getKey _ _, (h.held t rfl).grows_next⟩

/-! ### moves -/

section Goto

variable {pc : RoutePc}

@[simp] theorem goto_threads_self : (s.goto t pc).threads t = { s.threads t with pc := pc } :=
  Function.update_self ..

theorem goto_threads_of_ne {u : Nat} (h : u ≠ t) : (s.goto t pc).threads u = s.threads u :=
  Function.update_of_ne h ..

@[simp] theorem goto_rt : (s.goto t pc).rt = s.rt := rfl

end Goto

/-- The holder goes on. -/
theorem RouteInv.advance {pc : RoutePc} (h : RouteInv base (some t) s)
    (hpc : pc.critical = true) (hheld : HeldInv base rt' (s.threads t).key (s.threads t).hint pc)
    (hg : Grows s.rt rt') : RouteInv base (some t) { s.goto t pc with rt := rt' } := by
  have hcrit := (h.critical t).mpr rfl
  have hother : ∀ u, u ≠ t → ({ s.goto t pc with rt := rt' } : RouteSys).threads u = s.threads u :=
    fun u hu => goto_threads_of_ne hu
  have hself : ({ s.goto t pc with rt := rt' } : RouteSys).threads t = { s.threads t with pc := pc } :=
    goto_threads_self
  constructor
  · exact h.table
  · exact h.lock
  · intro u
    by_cases hu : u = t
    · subst hu; rw [hself]; simp [hpc]
    · rw [hother u hu]; exact h.critical u
  · intro hc; cases hc
  · intro u hu
    obtain rfl : t = u := Option.some.inj hu
    rw [hself]; exact hheld
  · intro u
    by_cases hu : u = t
    · subst hu
      rw [hself]
      exact freeInv_of_critical hpc
    · rw [hother u hu]; exact (h.free u).mono hg
  · intro u
    by_cases hu : u = t
    · subst hu
      rw [hself]
      refine .inr ((h.parsed u).resolve_left fun hidle => ?_)
      rw [hidle] at hcrit
      cases hcrit
    · rw [hother u hu]; exact h.parsed u
  · intro r hr
    exact (h.returned r hr).mono hg

/-- A call without the lock goes on. -/
theorem RouteInv.move {holder : Option Nat} {pc : RoutePc} (h : RouteInv base holder s)
    (hold : (s.threads t).pc.critical = false) (hbusy : (s.threads t).pc ≠ .idle)
    (hpc : pc.critical = false) (hfree : FreeInv s.rt.table (s.threads t).key pc) :
    RouteInv base holder (s.goto t pc) := by
  have hnot : holder ≠ some t := by
    intro hc
    rw [(h.critical t).mpr hc] at hold
    cases hold
  constructor
  · exact h.table
  · exact h.lock
  · intro u
    by_cases hu : u = t
    · subst hu; simp [hpc, hnot]
    · rw [goto_threads_of_ne hu]; exact h.critical u
  · exact h.idle
  · intro u hu
    have hne : u ≠ t := by rintro rfl; exact hnot hu
    rw [goto_threads_of_ne hne]; exact h.held u hu
  · intro u
    by_cases hu : u = t
    · subst hu; simpa using hfree
    · rw [goto_threads_of_ne hu]; exact h.free u
  · intro u
    by_cases hu : u = t
    · subst hu; simpa using .inr ((h.parsed u).resolve_left hbusy)
    · rw [goto_threads_of_ne hu]; exact h.parsed u
  · exact h.returned

/-- The return of a call without the lock. -/
theorem RouteInv.ret {holder : Option Nat} {route : FlowRoute} (h : RouteInv base holder s)
    (hold : (s.threads t).pc.critical = false) (hbusy : (s.threads t).pc ≠ .idle)
    (hroute : RouteAnswer s.rt (s.threads t).key route) : RouteInv base holder (s.ret t route) := by
  have hgo : RouteInv base holder (s.goto t .idle) := h.move hold hbusy rfl trivial
  refine { hgo with returned := ?_ }
  intro r hr
  rcases List.mem_append.mp hr with hr | hr
  · exact h.returned r hr
  · rw [List.mem_singleton.mp hr, ReturnOk, (h.parsed t).resolve_left hbusy]
    exact hroute

/-- Taking the lock: the table is what it was when it was released. -/
theorem RouteInv.takeLock (h : RouteInv base none s) (hpc : (s.threads t).pc = .lock) :
    RouteInv base (some t) { s.goto t (.scan (.held none) 0) with lock := true } := by
  have hself : ({ s.goto t (.scan (.held none) 0) with lock := true } : RouteSys).threads t =
      { s.threads t with pc := .scan (.held none) 0 } := goto_threads_self
  have hother : ∀ u, u ≠ t →
      ({ s.goto t (.scan (.held none) 0) with lock := true } : RouteSys).threads u = s.threads u :=
    fun u hu => goto_threads_of_ne hu
  constructor
  · exact h.table
  · rfl
  · intro u
    by_cases hu : u = t
    · subst hu; rw [hself]; simp [RoutePc.critical]
    · rw [hother u hu, h.critical u]
      simp [Ne.symm hu]
  · intro hc; cases hc
  · intro u hu
    obtain rfl : t = u := Option.some.inj hu
    rw [hself]
    exact ⟨h.idle rfl, scannedTo_zero _ _⟩
  · intro u
    by_cases hu : u = t
    · subst hu; rw [hself]; trivial
    · rw [hother u hu]; exact h.free u
  · intro u
    by_cases hu : u = t
    · subst hu
      rw [hself]
      exact .inr ((h.parsed u).resolve_left (by rw [hpc]; exact fun hc => by cases hc))
    · rw [hother u hu]; exact h.parsed u
  · exact h.returned

/-- Releasing it: the table is what the call does in one step, and the call returns
what it returns. -/
theorem RouteInv.unlock {route : FlowRoute} (h : RouteInv base (some t) s)
    (hpc : (s.threads t).pc = .unlock route) :
    (route, s.rt) = dpFlowRouteGetKey base (s.threads t).key (s.threads t).hint ∧
      RouteInv s.rt none { s.ret t route with lock := false } := by
  have hheld := h.held t rfl
  rw [hpc] at hheld
  have hres : (route, s.rt) = dpFlowRouteGetKey base (s.threads t).key (s.threads t).hint := hheld
  refine ⟨hres, ?_⟩
  have hroute : route = (dpFlowRouteGetKey base (s.threads t).key (s.threads t).hint).1 := congrArg Prod.fst hres
  have hrt : s.rt = (dpFlowRouteGetKey base (s.threads t).key (s.threads t).hint).2 := congrArg Prod.snd hres
  have hself : ({ s.ret t route with lock := false } : RouteSys).threads t = { s.threads t with pc := .idle } :=
    goto_threads_self
  have hother : ∀ u, u ≠ t → ({ s.ret t route with lock := false } : RouteSys).threads u = s.threads u :=
    fun u hu => goto_threads_of_ne hu
  have hparsed := (h.parsed t).resolve_left (by rw [hpc]; exact fun hc => by cases hc)
  constructor
  · rw [hrt]; exact h.table.getKey _ _
  · rfl
  · intro u
    by_cases hu : u = t
    · subst hu; rw [hself]; simp [RoutePc.critical]
    · rw [hother u hu, h.critical u]
      simp [Ne.symm hu]
  · intro _; rfl
  · intro u hu; cases hu
  · intro u
    by_cases hu : u = t
    · subst hu; rw [hself]; trivial
    · rw [hother u hu]; exact h.free u
  · intro u
    by_cases hu : u = t
    · subst hu; rw [hself]; exact .inl rfl
    · rw [hother u hu]; exact h.parsed u
  · intro r hr
    rcases List.mem_append.mp hr with hr | hr
    · exact h.returned r hr
    · rw [List.mem_singleton.mp hr, ReturnOk, hparsed]
      change RouteAnswer s.rt (s.threads t).key route
      rw [hrt, hroute]
      exact routeAnswer_getKey _ _ _

theorem RouteInv.call {holder : Option Nat} (h : RouteInv base holder s) (t : Nat) (pkt : Mem) (len : Nat)
    (hint : Option Nat) : RouteInv base holder (routeCall s t pkt len hint) := by
  rw [routeCall]
  cases hpc : (s.threads t).pc with
  | idle =>
      have hnot : holder ≠ some t := by
        intro hc
        have := (h.critical t).mpr hc
        rw [hpc] at this
        cases this
      cases hkey : dpRouteKeyParse pkt len with
      | none =>
          refine { h with returned := ?_ }
          intro r hr
          rcases List.mem_append.mp hr with hr | hr
          · exact h.returned r hr
          · rw [List.mem_singleton.mp hr, ReturnOk, hkey]
      | some key =>
          simp only
          constructor
          · exact h.table
          · exact h.lock
          · intro u
            by_cases hu : u = t
            · subst hu; simp [RoutePc.critical, hnot]
            · simpa [hu] using h.critical u
          · exact h.idle
          · intro u hu
            have hne : u ≠ t := by rintro rfl; exact hnot hu
            simpa [hne] using h.held u hu
          · intro u
            by_cases hu : u = t
            · subst hu; simp [FreeInv]
            · simpa [hu] using h.free u
          · intro u
            by_cases hu : u = t
            · subst hu; simp [hkey]
            · simpa [hu] using h.parsed u
          · exact h.returned
  | _ => exact h

/-- The holder goes on and the table stays. -/
theorem RouteInv.stay {pc : RoutePc} (h : RouteInv base (some t) s) (hpc : pc.critical = true)
    (hheld : HeldInv base s.rt (s.threads t).key (s.threads t).hint pc) : RouteInv base (some t) (s.goto t pc) :=
  h.advance hpc hheld (.refl s.rt)

theorem RouteInv.holder_eq {holder : Option Nat} (h : RouteInv base holder s)
    (hcrit : (s.threads t).pc.critical = true) : holder = some t := (h.critical t).mp hcrit

/-! ### one step of a call -/

/-- After a step there is an invariant again, and valid entries are as they were. -/
def Advances (s s' : RouteSys) : Prop := (∃ base holder, RouteInv base holder s') ∧ Grows s.rt s'.rt

/-- The same with the table of the last release given. -/
def RouteMoves (base : RouteState) (s s' : RouteSys) : Prop :=
  (∃ holder, RouteInv base holder s') ∧ Grows s.rt s'.rt

theorem RouteMoves.advances {s' : RouteSys} (h : RouteMoves base s s') : Advances s s' := by
  obtain ⟨⟨holder, hinv⟩, hg⟩ := h
  exact ⟨⟨base, holder, hinv⟩, hg⟩

theorem setEntry_self (rt : RouteState) (set way : Nat) : rt.setEntry set way (rt.table set way) = rt := by
  simp [RouteState.setEntry]

theorem setEntry_setEntry (rt : RouteState) (set way : Nat) (e e' : RouteEntry) :
    (rt.setEntry set way e).setEntry set way e' = rt.setEntry set way e' := by
  simp [RouteState.setEntry]

theorem setEntry_table_self (rt : RouteState) (set way : Nat) (e : RouteEntry) :
    (rt.setEntry set way e).table set way = e := by
  simp [RouteState.setEntry_table]

theorem Vacancy.free {empty : Nat} (h : Vacancy base key empty) :
    (base.table (routeSet key) empty).valid = false := (routeEmpty_eq_some h.2).2

theorem foldl_range_succ {β : Type} (f : β → Nat → β) (b : β) (n : Nat) :
    (List.range (n + 1)).foldl f b = f ((List.range n).foldl f b) n := by
  rw [List.range_succ, List.foldl_append]
  rfl

/-- `valid` is stored last, and the entry is that of the call in one step. -/
theorem publish_eq {empty : Nat} (hvac : Vacancy base key empty) :
    (newRoute base hint,
      (slotCounted (workerCounted ((cursored base hint).setEntry (routeSet key) empty
        (newEntry key (newRoute base hint) false)) (newRoute base hint).workerIdx)
        (newRoute base hint).txSlot).setEntry (routeSet key) empty (newEntry key (newRoute base hint) true)) =
      dpFlowRouteGetKey base key hint := by
  obtain ⟨hfind, hempty⟩ := hvac
  simp only [dpFlowRouteGetKey, hfind, hempty]
  refine Prod.ext rfl ?_
  rw [routeInsert_snd]
  simp [RouteState.setEntry, slotCounted, workerCounted, cursored, newRoute]

section Steps

variable {holder : Option Nat} (h : RouteInv base holder s)

include h

theorem RouteInv.step_scan {m : ScanMode} (hpc : (s.threads t).pc = .scan m way) :
    RouteMoves base s (routeThreadStep s t) := by
  have hbusy : (s.threads t).pc ≠ .idle := by rw [hpc]; exact fun hc => by cases hc
  simp only [routeThreadStep, hpc]
  cases m with
  | free =>
      have hold : (s.threads t).pc.critical = false := by rw [hpc]; rfl
      split_ifs with hlt hv
      · exact ⟨⟨holder, h.move hold hbusy rfl (Matching.start hlt hv)⟩, .refl _⟩
      · exact ⟨⟨holder, h.move hold hbusy rfl trivial⟩, .refl _⟩
      · exact ⟨⟨holder, h.move hold hbusy rfl trivial⟩, .refl _⟩
  | held empty =>
      obtain rfl : holder = some t := h.holder_eq (by rw [hpc]; rfl)
      have hheld := h.held t rfl
      rw [hpc] at hheld
      obtain ⟨hrt, hscan⟩ := hheld
      split_ifs with hlt hv
      · exact ⟨⟨some t, h.stay rfl ⟨hrt, hscan, Matching.start hlt (hrt ▸ hv)⟩⟩, .refl _⟩
      · have hskip := hscan.skip hlt (by rw [← hrt]; simpa using hv)
        refine ⟨⟨some t, ?_⟩, .refl _⟩
        cases empty with
        | none => exact h.stay rfl ⟨hrt, hskip⟩
        | some e => exact h.stay rfl ⟨hrt, hskip⟩
      · obtain ⟨hfind, hempty⟩ := hscan.finish hlt
        cases empty with
        | none =>
            refine ⟨⟨some t, h.stay rfl ?_⟩, .refl _⟩
            simp only [HeldInv, dpFlowRouteGetKey, hfind, hempty, hrt]
        | some e =>
            rw [scanEnd]
            cases hhint : validHint (s.threads t).hint with
            | some w =>
                refine ⟨⟨some t, h.stay rfl ⟨⟨hfind, hempty⟩, ?_, ?_⟩⟩, .refl _⟩
                · simp [routeWorker, hhint]
                · simp [hhint, hrt]
            | none => exact ⟨⟨some t, h.stay rfl ⟨⟨hfind, hempty⟩, hhint, hrt⟩⟩, .refl _⟩

theorem RouteInv.step_compare {m : ScanMode} {todo : List EntryField}
    (hpc : (s.threads t).pc = .compare m way todo) : RouteMoves base s (routeThreadStep s t) := by
  have hbusy : (s.threads t).pc ≠ .idle := by rw [hpc]; exact fun hc => by cases hc
  cases m with
  | free =>
      have hold : (s.threads t).pc.critical = false := by rw [hpc]; rfl
      have hfree := h.free t
      rw [hpc] at hfree
      have hmatch : Matching s.rt.table (s.threads t).key way todo := hfree
      cases todo with
      | nil =>
          simp only [routeThreadStep, hpc]
          exact ⟨⟨holder, h.move hold hbusy rfl hmatch.hit⟩, .refl _⟩
      | cons f todo =>
          simp only [routeThreadStep, hpc]
          split_ifs with heq
          · exact ⟨⟨holder, h.move hold hbusy rfl (hmatch.tail heq)⟩, .refl _⟩
          · exact ⟨⟨holder, h.move hold hbusy rfl trivial⟩, .refl _⟩
  | held empty =>
      obtain rfl : holder = some t := h.holder_eq (by rw [hpc]; rfl)
      have hheld := h.held t rfl
      rw [hpc] at hheld
      obtain ⟨hrt, hscan, hmatch⟩ := hheld
      cases todo with
      | nil =>
          simp only [routeThreadStep, hpc]
          exact ⟨⟨some t, h.stay rfl ⟨hrt, hscan.found hmatch.hit⟩⟩, .refl _⟩
      | cons f todo =>
          simp only [routeThreadStep, hpc]
          split_ifs with heq
          · exact ⟨⟨some t, h.stay rfl ⟨hrt, hscan, hmatch.tail (hrt ▸ heq)⟩⟩, .refl _⟩
          · have hmem : f ∈ keyFields := hmatch.2.2.1 (by simp)
            have hne := key_ne_of_field hmem (hrt ▸ heq)
            exact ⟨⟨some t, h.stay rfl ⟨hrt, hscan.other hmatch.1 hmatch.2.1 hne⟩⟩, .refl _⟩

theorem RouteInv.step_loadWorker {m : ScanMode} (hpc : (s.threads t).pc = .loadWorker m way) :
    RouteMoves base s (routeThreadStep s t) := by
  have hbusy : (s.threads t).pc ≠ .idle := by rw [hpc]; exact fun hc => by cases hc
  simp only [routeThreadStep, hpc]
  cases m with
  | free =>
      have hfree := h.free t
      rw [hpc] at hfree
      exact ⟨⟨holder, h.move (by rw [hpc]; rfl) hbusy rfl ⟨hfree, rfl⟩⟩, .refl _⟩
  | held empty =>
      obtain rfl : holder = some t := h.holder_eq (by rw [hpc]; rfl)
      have hheld := h.held t rfl
      rw [hpc] at hheld
      obtain ⟨hrt, hfind⟩ := hheld
      exact ⟨⟨some t, h.stay rfl ⟨hrt, hfind, by rw [hrt]⟩⟩, .refl _⟩

theorem RouteInv.step_loadSlot {m : ScanMode} {worker : Nat} (hpc : (s.threads t).pc = .loadSlot m way worker) :
    RouteMoves base s (routeThreadStep s t) := by
  have hbusy : (s.threads t).pc ≠ .idle := by rw [hpc]; exact fun hc => by cases hc
  cases m with
  | free =>
      simp only [routeThreadStep, hpc]
      have hfree := h.free t
      rw [hpc] at hfree
      obtain ⟨hhit, hw⟩ := hfree
      exact ⟨⟨holder, h.ret (by rw [hpc]; rfl) hbusy (.inl ⟨way, hhit, by rw [hw]⟩)⟩, .refl _⟩
  | held empty =>
      simp only [routeThreadStep, hpc]
      obtain rfl : holder = some t := h.holder_eq (by rw [hpc]; rfl)
      have hheld := h.held t rfl
      rw [hpc] at hheld
      obtain ⟨hrt, hfind, hw⟩ := hheld
      refine ⟨⟨some t, h.stay rfl ?_⟩, .refl _⟩
      simp only [HeldInv, dpFlowRouteGetKey, hfind, hrt, hw]

theorem RouteInv.step_worker {empty : Nat} (hpc : (s.threads t).pc = .workerCursor empty) :
    RouteMoves base s (routeThreadStep s t) := by
  simp only [routeThreadStep, hpc]
  obtain rfl : holder = some t := h.holder_eq (by rw [hpc]; rfl)
  have hheld := h.held t rfl
  rw [hpc] at hheld
  obtain ⟨hvac, hhint, hrt⟩ := hheld
  refine ⟨⟨some t, h.advance rfl ⟨hvac, hhint, ?_, ?_, Nat.zero_le _, rfl⟩ (.of_table rfl rfl)⟩,
    .of_table rfl rfl⟩
  · rw [hrt]
  · rw [hrt]

theorem RouteInv.step_workerLoad {empty off : Nat} {start : UInt32} {best : UInt64 × Nat}
    (hpc : (s.threads t).pc = .workerLoad empty start off best) : RouteMoves base s (routeThreadStep s t) := by
  simp only [routeThreadStep, hpc]
  obtain rfl : holder = some t := h.holder_eq (by rw [hpc]; rfl)
  have hheld := h.held t rfl
  rw [hpc] at hheld
  obtain ⟨hvac, hhint, hrt, hstart, hoff, hbest⟩ := hheld
  split_ifs with hlt
  · refine ⟨⟨some t, h.stay rfl ⟨hvac, hhint, hrt, hstart, hlt, ?_⟩⟩, .refl _⟩
    rw [foldl_range_succ, ← hbest, hrt]
  · obtain rfl : off = neCryptoWorkers := by omega
    refine ⟨⟨some t, h.stay rfl ⟨hvac, ?_, ?_⟩⟩, .refl _⟩
    · simp only [routeWorker, hhint]
      rw [dpRouteLeastLoaded_eq, ← hstart, ← hbest]
    · simpa [hhint] using hrt

theorem RouteInv.step_slot {empty worker : Nat} (hpc : (s.threads t).pc = .slotCursor empty worker) :
    RouteMoves base s (routeThreadStep s t) := by
  simp only [routeThreadStep, hpc]
  obtain rfl : holder = some t := h.holder_eq (by rw [hpc]; rfl)
  have hheld := h.held t rfl
  rw [hpc] at hheld
  obtain ⟨hvac, hworker, hrt⟩ := hheld
  refine ⟨⟨some t, h.advance rfl ⟨hvac, hworker, ?_, ?_, Nat.zero_le _, rfl⟩ (.of_table rfl rfl)⟩,
    .of_table rfl rfl⟩
  · rw [hrt]; rfl
  · rw [hrt]

theorem RouteInv.step_slotLoad {empty worker off : Nat} {start : UInt32} {best : UInt64 × Nat}
    (hpc : (s.threads t).pc = .slotLoad empty worker start off best) : RouteMoves base s (routeThreadStep s t) := by
  simp only [routeThreadStep, hpc]
  obtain rfl : holder = some t := h.holder_eq (by rw [hpc]; rfl)
  have hheld := h.held t rfl
  rw [hpc] at hheld
  obtain ⟨hvac, hworker, hrt, hstart, hoff, hbest⟩ := hheld
  have hactive : dpActiveTxSlots s.rt = dpActiveTxSlots base := by rw [hrt]; rfl
  have hcounts : s.rt.txConnectionCount = base.txConnectionCount := by rw [hrt]; rfl
  rw [hactive, hcounts]
  split_ifs with hlt
  · refine ⟨⟨some t, h.stay rfl ⟨hvac, hworker, hrt, hstart, hlt, ?_⟩⟩, .refl _⟩
    rw [foldl_range_succ, ← hbest]
  · obtain rfl : off = (dpActiveTxSlots base).toNat := by omega
    have hslot : best.2 = routeSlot base := by
      rw [routeSlot, dpRouteLeastLoaded_eq, ← hstart, ← hbest]
    refine ⟨⟨some t, h.stay rfl ⟨hvac, ?_, (cursored base (s.threads t).hint).table _ empty, hvac.free,
      fun f hf hno => absurd hf hno, ?_⟩⟩, .refl _⟩
    · rw [hworker, hslot]; rfl
    · rw [setEntry_self]; exact hrt

theorem RouteInv.step_store {empty : Nat} {route : FlowRoute} {todo : List EntryField}
    (hpc : (s.threads t).pc = .store empty route todo) : RouteMoves base s (routeThreadStep s t) := by
  obtain rfl : holder = some t := h.holder_eq (by rw [hpc]; rfl)
  have hheld := h.held t rfl
  rw [hpc] at hheld
  obtain ⟨hvac, hroute, e, he, hfields, hrt⟩ := hheld
  cases todo with
  | nil =>
      simp only [routeThreadStep, hpc]
      refine ⟨⟨some t, h.stay rfl ⟨hvac, hroute, ?_⟩⟩, .refl _⟩
      have hnew : e = newEntry (s.threads t).key route false := by
        refine entry_eq_of_fields (fun f hf => ?_) he
        rw [hfields f hf (List.not_mem_nil)]
        cases f <;> rfl
      rw [hrt, hnew]
  | cons f todo =>
      simp only [routeThreadStep, hpc]
      have hentry : s.rt.table (routeSet (s.threads t).key) empty = e := by rw [hrt, setEntry_table_self]
      rw [hentry]
      have hg : Grows s.rt (s.rt.setEntry (routeSet (s.threads t).key) empty
          (e.setField (newEntry (s.threads t).key route true) f)) :=
        grows_setEntry (by rw [hentry]; exact he)
      refine ⟨⟨some t, h.advance rfl ⟨hvac, hroute, e.setField (newEntry (s.threads t).key route true) f,
        ?_, ?_, ?_⟩ hg⟩, hg⟩
      · rw [RouteEntry.setField_valid]; exact he
      · intro g hg' hno
        rw [RouteEntry.setField_field]
        split_ifs with hgf
        · rfl
        · exact hfields g hg' (by simp [hgf, hno])
      · rw [hrt, setEntry_setEntry]

theorem RouteInv.step_countWorker {empty : Nat} {route : FlowRoute}
    (hpc : (s.threads t).pc = .countWorker empty route) : RouteMoves base s (routeThreadStep s t) := by
  simp only [routeThreadStep, hpc]
  obtain rfl : holder = some t := h.holder_eq (by rw [hpc]; rfl)
  have hheld := h.held t rfl
  rw [hpc] at hheld
  obtain ⟨hvac, hroute, hrt⟩ := hheld
  refine ⟨⟨some t, h.advance rfl ⟨hvac, hroute, ?_⟩ (.of_table rfl rfl)⟩, .of_table rfl rfl⟩
  rw [← hrt]; rfl

theorem RouteInv.step_countSlot {empty : Nat} {route : FlowRoute}
    (hpc : (s.threads t).pc = .countSlot empty route) : RouteMoves base s (routeThreadStep s t) := by
  simp only [routeThreadStep, hpc]
  obtain rfl : holder = some t := h.holder_eq (by rw [hpc]; rfl)
  have hheld := h.held t rfl
  rw [hpc] at hheld
  obtain ⟨hvac, hroute, hrt⟩ := hheld
  refine ⟨⟨some t, h.advance rfl ⟨hvac, hroute, ?_⟩ (.of_table rfl rfl)⟩, .of_table rfl rfl⟩
  rw [← hrt]; rfl

theorem RouteInv.step_publish {empty : Nat} {route : FlowRoute}
    (hpc : (s.threads t).pc = .publish empty route) : RouteMoves base s (routeThreadStep s t) := by
  simp only [routeThreadStep, hpc]
  obtain rfl : holder = some t := h.holder_eq (by rw [hpc]; rfl)
  have hheld := h.held t rfl
  rw [hpc] at hheld
  obtain ⟨hvac, hroute, hrt⟩ := hheld
  subst hroute
  have hentry : s.rt.table (routeSet (s.threads t).key) empty =
      newEntry (s.threads t).key (newRoute base (s.threads t).hint) false := by
    rw [hrt]
    exact setEntry_table_self ..
  rw [hentry]
  have hg : Grows s.rt (s.rt.setEntry (routeSet (s.threads t).key) empty
      (newEntry (s.threads t).key (newRoute base (s.threads t).hint) true)) :=
    grows_setEntry (by rw [hentry]; rfl)
  refine ⟨⟨some t, h.advance rfl ?_ hg⟩, hg⟩
  rw [HeldInv, hrt]
  exact publish_eq hvac

/-- A call that releases the lock leaves the table of the call in one step; all other
steps are steps towards it. -/
theorem RouteInv.step_thread (t : Nat) : RouteMoves base s (routeThreadStep s t) ∨
    ∃ key hint, RouteMoves (dpFlowRouteGetKey base key hint).2 s (routeThreadStep s t) := by
  cases hpc : (s.threads t).pc with
  | idle => simp only [routeThreadStep, hpc]; exact .inl ⟨⟨holder, h⟩, .refl _⟩
  | scan m way => exact .inl (h.step_scan hpc)
  | compare m way todo => exact .inl (h.step_compare hpc)
  | loadWorker m way => exact .inl (h.step_loadWorker hpc)
  | loadSlot m way worker => exact .inl (h.step_loadSlot hpc)
  | lock =>
      simp only [routeThreadStep, hpc]
      split_ifs with hlock
      · exact .inl ⟨⟨holder, h⟩, .refl _⟩
      · obtain rfl : holder = none := by
          cases holder with
          | none => rfl
          | some u => exact absurd h.lock hlock
        exact .inl ⟨⟨some t, h.takeLock hpc⟩, .refl _⟩
  | workerCursor empty => exact .inl (h.step_worker hpc)
  | workerLoad empty start off best => exact .inl (h.step_workerLoad hpc)
  | slotCursor empty worker => exact .inl (h.step_slot hpc)
  | slotLoad empty worker start off best => exact .inl (h.step_slotLoad hpc)
  | store empty route todo => exact .inl (h.step_store hpc)
  | countWorker empty route => exact .inl (h.step_countWorker hpc)
  | countSlot empty route => exact .inl (h.step_countSlot hpc)
  | publish empty route => exact .inl (h.step_publish hpc)
  | unlock route =>
      obtain rfl : holder = some t := h.holder_eq (by rw [hpc]; rfl)
      obtain ⟨hres, hinv⟩ := h.unlock hpc
      refine .inr ⟨(s.threads t).key, (s.threads t).hint, ?_⟩
      simp only [routeThreadStep, hpc, ← hres]
      exact ⟨⟨none, hinv⟩, .refl _⟩

theorem RouteInv.step_base (e : RouteEvent) : RouteMoves base s (s.step e) ∨
    ∃ key hint, RouteMoves (dpFlowRouteGetKey base key hint).2 s (s.step e) := by
  cases e with
  | call t pkt len hint =>
      refine .inl ⟨⟨holder, h.call t pkt len hint⟩, ?_⟩
      have hrt : (routeCall s t pkt len hint).rt = s.rt := by
        rw [routeCall]
        cases hpc : (s.threads t).pc with
        | idle => cases hkey : dpRouteKeyParse pkt len <;> rfl
        | _ => rfl
      exact .of_table (congrArg RouteState.table hrt) (congrArg RouteState.activeTxSlots hrt)
  | step t => exact h.step_thread t

theorem RouteInv.step (e : RouteEvent) : Advances s (s.step e) := by
  rcases h.step_base e with hmoves | ⟨key, hint, hmoves⟩
  · exact hmoves.advances
  · exact hmoves.advances

/-- What calls in one step keep holds of the table under every interleaving, as it was
when the lock was last taken. -/
theorem RouteInv.run_base {P : RouteState → Prop}
    (hcall : ∀ rt key hint, TableInv rt → P rt → P (dpFlowRouteGetKey rt key hint).2) (hbase : P base)
    (es : List RouteEvent) : ∃ base' holder', RouteInv base' holder' (run RouteSys.step s es) ∧ P base' := by
  induction es generalizing s base holder with
  | nil => exact ⟨base, holder, h, hbase⟩
  | cons e es ih =>
      rcases h.step_base e with ⟨⟨holder', h'⟩, -⟩ | ⟨key, hint, ⟨holder', h'⟩, -⟩
      · exact ih h' hbase
      · exact ih h' (hcall base key hint h.table hbase)

theorem RouteInv.run (es : List RouteEvent) : Advances s (run RouteSys.step s es) := by
  induction es generalizing s base holder with
  | nil => exact ⟨⟨base, holder, h⟩, .refl _⟩
  | cons e es ih =>
      obtain ⟨⟨base', holder', h'⟩, hg⟩ := h.step e
      obtain ⟨hinv, hg'⟩ := ih h'
      exact ⟨hinv, hg.trans hg'⟩

end Steps

/-! ### the counters -/

/-- No counter is behind the entries, and none is more than one ahead. -/
def CountsWithin (rt : RouteState) : Prop :=
  (∀ w, ∃ d ≤ 1, (rt.workerConnectionCount w).toNat = countEntries rt.table (·.workerIdx = w) + d) ∧
    ∀ slot, ∃ d ≤ 1, (rt.txConnectionCount slot).toNat = countEntries rt.table (·.txSlot = slot) + d

/-- There are too few entries for a counter to wrap. -/
theorem toNat_ofNat_small {n : Nat} (h : n ≤ 65537) : (UInt64.ofNat n).toNat = n :=
  UInt64.toNat_ofNat_of_lt' (Nat.lt_of_le_of_lt h (by decide))

theorem toNat_ofNat_count (table : Nat → Nat → RouteEntry) (p : RouteEntry → Bool) {d : Nat} (hd : d ≤ 1) :
    (UInt64.ofNat (countEntries table p + d)).toNat = countEntries table p + d :=
  toNat_ofNat_small (Nat.add_le_add (countEntries_le table p) hd)

theorem TableInv.counts (h : TableInv rt) :
    (∀ w, (rt.workerConnectionCount w).toNat = countEntries rt.table (·.workerIdx = w)) ∧
      ∀ slot, (rt.txConnectionCount slot).toNat = countEntries rt.table (·.txSlot = slot) := by
  have hle : ∀ p, countEntries rt.table p ≤ 65537 := fun p => Nat.le_succ_of_le (countEntries_le rt.table p)
  refine ⟨fun w => ?_, fun slot => ?_⟩
  · rw [h.workers]; exact toNat_ofNat_small (hle _)
  · rw [h.slots]; exact toNat_ofNat_small (hle _)

/-- A way that is not valid does not count. -/
theorem countEntries_written {empty : Nat} {e : RouteEntry} (hvac : Vacancy base key empty) (he : e.valid = false)
    (p : RouteEntry → Bool) :
    countEntries (base.setEntry (routeSet key) empty e).table p = countEntries base.table p := by
  refine countEntries_congr fun set way => ?_
  rw [RouteState.setEntry_table]
  split_ifs with hi
  · rw [hi.1, hi.2, he, hvac.free]; rfl
  · rfl

theorem count_same {counts : Nat → UInt64} {n : Nat → Nat} (h : ∀ i, counts i = UInt64.ofNat (n i)) (i : Nat) :
    ∃ d ≤ 1, counts i = UInt64.ofNat (n i + d) :=
  ⟨0, Nat.zero_le 1, by rw [Nat.add_zero]; exact h i⟩

/-- One more for one of them. -/
theorem update_count {counts : Nat → UInt64} {n : Nat → Nat} (h : ∀ i, counts i = UInt64.ofNat (n i)) (j i : Nat) :
    ∃ d ≤ 1, Function.update counts j (counts j + 1) i = UInt64.ofNat (n i + d) := by
  refine ⟨if j = i then 1 else 0, ?_, ofNat_count_update h j i⟩
  split_ifs <;> omega

theorem CountsWithin.of_base {nw ns : Nat → Nat} (hw : ∀ w, countEntries rt.table (·.workerIdx = w) = nw w)
    (hs : ∀ slot, countEntries rt.table (·.txSlot = slot) = ns slot)
    (hcw : ∀ w, ∃ d ≤ 1, rt.workerConnectionCount w = UInt64.ofNat (nw w + d))
    (hcs : ∀ slot, ∃ d ≤ 1, rt.txConnectionCount slot = UInt64.ofNat (ns slot + d)) : CountsWithin rt := by
  refine ⟨fun w => ?_, fun slot => ?_⟩
  · obtain ⟨d, hd, heq⟩ := hcw w
    refine ⟨d, hd, ?_⟩
    rw [heq, ← hw w]
    exact toNat_ofNat_count _ _ hd
  · obtain ⟨d, hd, heq⟩ := hcs slot
    refine ⟨d, hd, ?_⟩
    rw [heq, ← hs slot]
    exact toNat_ofNat_count _ _ hd

theorem TableInv.countsWithin (h : TableInv rt) : CountsWithin rt :=
  .of_base (fun _ => rfl) (fun _ => rfl) (count_same h.workers) (count_same h.slots)

/-- The table and the counters of `base`. -/
theorem CountsWithin.of_same (h : TableInv base) (ht : rt.table = base.table)
    (hw : rt.workerConnectionCount = base.workerConnectionCount)
    (hs : rt.txConnectionCount = base.txConnectionCount) : CountsWithin rt := by
  refine .of_base (fun w => by rw [ht]) (fun slot => by rw [ht]) ?_ ?_
  · rw [hw]; exact count_same h.workers
  · rw [hs]; exact count_same h.slots

theorem HeldInv.countsWithin {pc : RoutePc} (h : HeldInv base rt key hint pc) (hb : TableInv base) :
    CountsWithin rt := by
  cases pc with
  | idle => exact h.elim
  | lock => exact h.elim
  | scan m way =>
      cases m with
      | free => exact h.elim
      | held empty => rw [h.1]; exact hb.countsWithin
  | compare m way todo =>
      cases m with
      | free => exact h.elim
      | held empty => rw [h.1]; exact hb.countsWithin
  | loadWorker m way =>
      cases m with
      | free => exact h.elim
      | held empty => rw [h.1]; exact hb.countsWithin
  | loadSlot m way worker =>
      cases m with
      | free => exact h.elim
      | held empty => rw [h.1]; exact hb.countsWithin
  | workerCursor empty => rw [h.2.2]; exact hb.countsWithin
  | workerLoad empty start off best => rw [h.2.2.1]; exact .of_same hb rfl rfl rfl
  | slotCursor empty worker => rw [h.2.2]; exact .of_same hb rfl rfl rfl
  | slotLoad empty worker start off best => rw [h.2.2.1]; exact .of_same hb rfl rfl rfl
  | store empty route todo =>
      obtain ⟨hvac, -, e, he, -, rfl⟩ := h
      exact .of_base (fun w => countEntries_written hvac he _) (fun slot => countEntries_written hvac he _)
        (count_same hb.workers) (count_same hb.slots)
  | countWorker empty route =>
      obtain ⟨hvac, -, rfl⟩ := h
      exact .of_base (fun w => countEntries_written hvac rfl _) (fun slot => countEntries_written hvac rfl _)
        (count_same hb.workers) (count_same hb.slots)
  | countSlot empty route =>
      obtain ⟨hvac, -, rfl⟩ := h
      exact .of_base (fun w => countEntries_written hvac rfl _) (fun slot => countEntries_written hvac rfl _)
        (update_count hb.workers _) (count_same hb.slots)
  | publish empty route =>
      obtain ⟨hvac, -, rfl⟩ := h
      exact .of_base (fun w => countEntries_written hvac rfl _) (fun slot => countEntries_written hvac rfl _)
        (update_count hb.workers _) (update_count hb.slots _)
  | unlock route =>
      have hrt : rt = (dpFlowRouteGetKey base key hint).2 := congrArg Prod.snd h
      rw [hrt]
      exact (hb.getKey key hint).countsWithin

end Invariant

/-! ## the table is safe and sticky -/

/-- The way whose key, worker or slot the call is about to load. -/
def RoutePc.reading : RoutePc → Option Nat
  | .compare _ way _ | .loadWorker _ way | .loadSlot _ way _ => some way
  | _ => none

/-- What is read is valid. -/
theorem RouteInv.reading_valid {base : RouteState} {holder : Option Nat} {s : RouteSys}
    (h : RouteInv base holder s) {t way : Nat} (hread : (s.threads t).pc.reading = some way) :
    (s.rt.table (routeSet (s.threads t).key) way).valid = true := by
  have hfree := h.free t
  by_cases hcrit : (s.threads t).pc.critical = true
  · have hheld := h.held t (h.holder_eq hcrit)
    cases hpc : (s.threads t).pc with
    | compare m way' todo =>
        rw [hpc] at hread hheld hcrit
        obtain rfl : way' = way := Option.some.inj hread
        cases m with
        | free => cases hcrit
        | held empty => obtain ⟨hrt, -, hmatch⟩ := hheld; rw [hrt]; exact hmatch.2.1
    | loadWorker m way' =>
        rw [hpc] at hread hheld hcrit
        obtain rfl : way' = way := Option.some.inj hread
        cases m with
        | free => cases hcrit
        | held empty => obtain ⟨hrt, hfind⟩ := hheld; rw [hrt]; exact (routeFind_eq_some hfind).2.1
    | loadSlot m way' worker =>
        rw [hpc] at hread hheld hcrit
        obtain rfl : way' = way := Option.some.inj hread
        cases m with
        | free => cases hcrit
        | held empty => obtain ⟨hrt, hfind, -⟩ := hheld; rw [hrt]; exact (routeFind_eq_some hfind).2.1
    | _ => rw [hpc] at hread; cases hread
  · cases hpc : (s.threads t).pc with
    | compare m way' todo =>
        rw [hpc] at hread hfree hcrit
        obtain rfl : way' = way := Option.some.inj hread
        cases m with
        | free => exact hfree.2.1
        | held empty => exact absurd rfl hcrit
    | loadWorker m way' =>
        rw [hpc] at hread hfree hcrit
        obtain rfl : way' = way := Option.some.inj hread
        cases m with
        | free => exact hfree.2.1
        | held empty => exact absurd rfl hcrit
    | loadSlot m way' worker =>
        rw [hpc] at hread hfree hcrit
        obtain rfl : way' = way := Option.some.inj hread
        cases m with
        | free => exact hfree.1.2.1
        | held empty => exact absurd rfl hcrit
    | _ => rw [hpc] at hread; cases hread

/-- At most one valid entry for a key, in the whole table. -/
theorem RouteInv.unique {base : RouteState} {holder : Option Nat} {s : RouteSys} (h : RouteInv base holder s)
    {set set' way way' : Nat} (hv : (s.rt.table set way).valid = true)
    (hv' : (s.rt.table set' way').valid = true) (hk : (s.rt.table set way).key = (s.rt.table set' way').key) :
    set = set' ∧ way = way' := by
  obtain ⟨htab, hg⟩ := h.table_next
  have he := hg.entry set way hv
  have he' := hg.entry set' way' hv'
  rw [← he] at hv hk
  rw [← he'] at hv' hk
  obtain rfl : set = set' := by
    rw [(htab.home set way hv).2, (htab.home set' way' hv').2, hk]
  exact ⟨rfl, htab.unique set way way' hv hv' hk⟩

/-- Two answers for one flow are the same. -/
theorem RouteInv.same_route {base : RouteState} {holder : Option Nat} {s : RouteSys} (h : RouteInv base holder s)
    {r r' : RouteReturn} (hr : r ∈ s.returned) (hr' : r' ∈ s.returned) {f f' : Flow}
    (hflow : (dpParseFlow r.pkt r.len).1 = some f) (hflow' : (dpParseFlow r'.pkt r'.len).1 = some f')
    (hf : f.routed) (hsame : f' = f ∨ f' = f.swap) : r.route = r'.route := by
  have hf' : f'.routed := by
    rcases hsame with rfl | rfl
    · exact hf
    · exact hf
  have hkey := (canonical_eq_iff f f').mpr hsame
  have hok := h.returned r hr
  have hok' := h.returned r' hr'
  simp only [ReturnOk, dpRouteKeyParse_of_flow hflow hf] at hok
  simp only [ReturnOk, dpRouteKeyParse_of_flow hflow' hf', ← hkey] at hok'
  exact hok.unique (fun set w w' hv hv' hk => (h.unique hv hv' hk).2) hok'

theorem RouteInv.route_bounds {base : RouteState} {holder : Option Nat} {s : RouteSys}
    (h : RouteInv base holder s) {r : RouteReturn} (hr : r ∈ s.returned) :
    r.route.workerIdx < neCryptoWorkers ∧ r.route.txSlot < (dpActiveTxSlots s.rt).toNat := by
  obtain ⟨htab, hg⟩ := h.table_next
  have hactive : dpActiveTxSlots (s.next base holder) = dpActiveTxSlots s.rt := by
    simp only [dpActiveTxSlots, hg.active]
  have hok := h.returned r hr
  unfold ReturnOk at hok
  cases hkey : dpRouteKeyParse r.pkt r.len with
  | none => simp only [hkey] at hok; rw [hok]; exact hashRoute_bounds _
  | some key =>
      simp only [hkey] at hok
      refine hok.bounds fun set way hv => ?_
      have he := hg.entry set way hv
      rw [← he] at hv ⊢
      rw [← hactive]
      exact htab.bounds set way hv

theorem RouteInv.counts {base : RouteState} {holder : Option Nat} {s : RouteSys} (h : RouteInv base holder s) :
    CountsWithin s.rt ∧
      (s.lock = false → (∀ w, (s.rt.workerConnectionCount w).toNat = countEntries s.rt.table (·.workerIdx = w)) ∧
        ∀ slot, (s.rt.txConnectionCount slot).toNat = countEntries s.rt.table (·.txSlot = slot)) := by
  cases holder with
  | none => rw [h.idle rfl]; exact ⟨h.table.countsWithin, fun _ => h.table.counts⟩
  | some t =>
      refine ⟨(h.held t rfl).countsWithin h.table, fun hlock => ?_⟩
      rw [h.lock] at hlock
      cases hlock

/-- The route table in every interleaving, with any fixed number of active TX slots:
one entry for a key, which stays as it is and is read only when it is complete; one
answer for a flow, in both directions and with any hints; a key for a flow and its
reverse alone; workers and slots that exist, and counters that are the numbers of
entries, but for one entry an insert has counted and not published yet. -/
theorem routeSys_sticky (slots : UInt32) (es fs : List RouteEvent) :
    let s := run RouteSys.step (RouteSys.init slots) es
    (∀ set set' way way', (s.rt.table set way).valid = true → (s.rt.table set' way').valid = true →
        (s.rt.table set way).key = (s.rt.table set' way').key → set = set' ∧ way = way') ∧
    (∀ set way, (s.rt.table set way).valid = true →
        (run RouteSys.step s fs).rt.table set way = s.rt.table set way) ∧
    (∀ t way, (s.threads t).pc.reading = some way →
        (s.rt.table (routeSet (s.threads t).key) way).valid = true) ∧
    (∀ r ∈ s.returned, ∀ r' ∈ s.returned, ∀ f f', (dpParseFlow r.pkt r.len).1 = some f →
        (dpParseFlow r'.pkt r'.len).1 = some f' → f.routed → f' = f ∨ f' = f.swap → r.route = r'.route) ∧
    (∀ pkt len pkt' len' f f', (dpParseFlow pkt len).1 = some f → (dpParseFlow pkt' len').1 = some f' →
        f.routed → f'.routed →
        (dpRouteKeyParse pkt len = dpRouteKeyParse pkt' len' ↔ f' = f ∨ f' = f.swap)) ∧
    (∀ r ∈ s.returned, r.route.workerIdx < neCryptoWorkers ∧
        r.route.txSlot < (dpActiveTxSlots (RouteSys.init slots).rt).toNat) ∧
    CountsWithin s.rt ∧
    (s.lock = false → (∀ w, (s.rt.workerConnectionCount w).toNat = countEntries s.rt.table (·.workerIdx = w)) ∧
        ∀ slot, (s.rt.txConnectionCount slot).toNat = countEntries s.rt.table (·.txSlot = slot)) := by
  intro s
  obtain ⟨⟨base, holder, h⟩, hg⟩ := (RouteInv.init slots).run es
  have hactive : dpActiveTxSlots s.rt = dpActiveTxSlots (RouteSys.init slots).rt := by
    simp only [dpActiveTxSlots]
    rw [show s.rt.activeTxSlots = (RouteSys.init slots).rt.activeTxSlots from hg.active]
  refine ⟨fun set set' way way' hv hv' hk => h.unique hv hv' hk, ?_, ?_, ?_, ?_, ?_, h.counts.1, h.counts.2⟩
  · intro set way hv
    exact (h.run fs).2.entry set way hv
  · intro t way hread
    exact h.reading_valid hread
  · intro r hr r' hr' f f' hflow hflow' hf hsame
    exact h.same_route hr hr' hflow hflow' hf hsame
  · intro pkt len pkt' len' f f' hflow hflow' hf hf'
    rw [dpRouteKeyParse_of_flow hflow hf, dpRouteKeyParse_of_flow hflow' hf', Option.some.injEq]
    exact canonical_eq_iff f f'
  · intro r hr
    rw [← hactive]
    exact h.route_bounds hr

/-- Between the counting of a new entry and the store of its `valid` the counter of its
worker is one ahead. -/
theorem RouteInv.counted_ahead {base : RouteState} {holder : Option Nat} {s : RouteSys}
    (h : RouteInv base holder s) {t empty : Nat} {route : FlowRoute}
    (hpc : (s.threads t).pc = .countSlot empty route) :
    (s.rt.workerConnectionCount route.workerIdx).toNat =
      countEntries s.rt.table (·.workerIdx = route.workerIdx) + 1 := by
  have hheld := h.held t (h.holder_eq (by rw [hpc]; rfl))
  rw [hpc] at hheld
  obtain ⟨hvac, -, hrt⟩ := hheld
  have hcount := ofNat_count_update h.table.workers route.workerIdx route.workerIdx
  rw [if_pos rfl] at hcount
  have htable : countEntries s.rt.table (·.workerIdx = route.workerIdx) =
      countEntries base.table (·.workerIdx = route.workerIdx) := by
    rw [hrt]
    exact countEntries_written hvac rfl _
  have hrtc : s.rt.workerConnectionCount route.workerIdx =
      Function.update base.workerConnectionCount route.workerIdx
        (base.workerConnectionCount route.workerIdx + 1) route.workerIdx := by
    rw [hrt]; rfl
  rw [hrtc, hcount, htable]
  exact toNat_ofNat_count _ _ (Nat.le_refl 1)

theorem RouteInv.not_counts {base : RouteState} {holder : Option Nat} {s : RouteSys} (h : RouteInv base holder s)
    {t empty : Nat} {route : FlowRoute} (hpc : (s.threads t).pc = .countSlot empty route) :
    ¬ ((∀ w, (s.rt.workerConnectionCount w).toNat = countEntries s.rt.table (·.workerIdx = w)) ∧
      ∀ slot, (s.rt.txConnectionCount slot).toNat = countEntries s.rt.table (·.txSlot = slot)) := by
  intro hcounts
  have hahead := h.counted_ahead hpc
  rw [hcounts.1] at hahead
  exact Nat.succ_ne_self _ hahead.symm

/-- A TCP packet, and a call for it that has counted its entry for the worker. -/
def tcpSample : Mem := fun i => if i = 12 then 8 else if i = 14 then 0x45 else if i = 23 then 6 else 0

def halfInserted : List RouteEvent := .call 0 tcpSample 38 (some 0) :: List.replicate 33 (.step 0)

theorem counter_ahead_of_entries :
    let s := run RouteSys.step (RouteSys.init 1) halfInserted
    ¬ ((∀ w, (s.rt.workerConnectionCount w).toNat = countEntries s.rt.table (·.workerIdx = w)) ∧
      ∀ slot, (s.rt.txConnectionCount slot).toNat = countEntries s.rt.table (·.txSlot = slot)) := by
  intro s
  obtain ⟨⟨base, holder, h⟩, -⟩ := (RouteInv.init 1).run halfInserted
  have hcounting : (match (s.threads 0).pc with
      | .countSlot _ route => some route
      | _ => none) = some ⟨0, 0⟩ := by decide +kernel
  cases hpc : (s.threads 0).pc with
  | countSlot empty route => exact h.not_counts hpc
  | _ => simp only [hpc] at hcounting; cases hcounting

end NetworkEncryptor
