import NetworkEncryptor.Ring
import NetworkEncryptor.Lib.Run
import Mathlib.Logic.Function.Basic

/-!
# NetworkEncryptor.Idle

`src/core/dataplane/idle.c`: how crypto workers and TX threads go to sleep, and how
the threads that feed them wake them up.

A consumer arms (stores 1 to its `g_sleeping`), looks at each of its rings once
more, polls its eventfd, drains it and disarms.  A producer pushes to a ring, loads
the `g_sleeping` of the consumer it takes to be the owner, and writes to its
eventfd if it finds it set.  Each ring operation, load, store, read and write is a
step.  Once a ring has been looked at again, a packet in it comes with a signal,
made or on its way (`IdleInv.signalled`); so nobody sleeps over a packet
(`no_lost_wakeup`).
-/

namespace NetworkEncryptor

/-! ## rings, consumers and wake ids -/

/-- The rings between the threads; the arrays towards the interfaces have
`NE_CRYPTO_WORKERS` rings each. -/
inductive RingId
  | localToMid (w : Fin neCryptoWorkers)
  | wanToMid (w : Fin neCryptoWorkers)
  | midToLocal (li : Nat) (ri : Fin neCryptoWorkers)
  | midToWan (wi : Nat) (ri : Fin neCryptoWorkers)
  deriving DecidableEq

/-- The threads that sleep on an eventfd. -/
inductive Consumer
  | crypto (w : Fin neCryptoWorkers)
  | tx (slot : Fin neTxSlots)
  deriving DecidableEq

def neDpWakeCrypto (w : Nat) : Nat := w

def neDpWakeTx (slot : Nat) : Nat := neCryptoWorkers + slot

def neDpWakeN : Nat := neCryptoWorkers + neTxSlots

def Consumer.wakeId : Consumer → Nat
  | .crypto w => neDpWakeCrypto w
  | .tx slot => neDpWakeTx slot

/-- The rings a consumer looks at before it sleeps, in `crypto_idle_pause` and
`tx_slot_has_pending`. -/
def Consumer.rings (localCount wanCount : Nat) : Consumer → List RingId
  | .crypto w => [.localToMid w, .wanToMid w]
  | .tx slot =>
      let ri : Fin neCryptoWorkers := ⟨slot, Nat.lt_of_lt_of_le slot.2 (by decide)⟩
      (List.range localCount).map (fun li => .midToLocal li ri) ++
        (List.range wanCount).map fun wi => .midToWan wi ri

/-- `ne_dp_idle_wake_tx_slot`: the wake id it passes on. -/
def neDpIdleWakeTxSlot (txSlot : Nat) : Option Nat :=
  if txSlot ≥ neTxSlots then none else some (neDpWakeTx txSlot)

def neDpIdleWakeTxWorker (workerIdx : Nat) : Option Nat := neDpIdleWakeTxSlot (workerIdx % neTxSlots)

/-- The wake call that follows a push: in the RX threads, in `dp_ring_push` and in
`push_split_to_wan`. -/
def RingId.wake : RingId → Option Nat
  | .localToMid w => some (neDpWakeCrypto w)
  | .wanToMid w => some (neDpWakeCrypto w)
  | .midToLocal _ ri => neDpIdleWakeTxWorker ri
  | .midToWan _ ri => neDpIdleWakeTxWorker ri

/-! ## the threads -/

/-- Where a consumer is: at its work, looking at its rings again (`seen` looked at,
`left` to look at), in `poll`, draining, about to disarm. -/
inductive ConsumerPc
  | busy
  | checking (seen left : List RingId)
  | polling
  | draining
  | disarming

/-- Where a producer is: about to load `g_sleeping[id]`, about to write to
`g_efd[id]`, elsewhere. -/
inductive ProducerPc
  | idle
  | waking (id : Nat)
  | signalling (id : Nat)

/-- The rings, the flags and counters of `idle.c`, and the threads. -/
structure IdleState where
  rings : RingId → NeRing
  sleeping : Nat → Bool
  efd : Nat → Nat
  consumers : Consumer → ConsumerPc
  producers : Nat → ProducerPc

def IdleState.init : IdleState :=
  ⟨fun _ => NeRing.empty, fun _ => false, fun _ => 0, fun _ => .busy, fun _ => .idle⟩

/-- Writing 1 to an eventfd: the counter stops below its maximum. -/
def eventfdSignal (n : Nat) : Nat := if n < 2 ^ 64 - 2 then n + 1 else n

/-- The steps: of producers, of consumers, and of `ne_dp_idle_wake_all` in a stop. -/
inductive IdleEvent
  | push (p : Nat) (r : RingId) (pkt : NePacket)
  | pushPair (p : Nat) (r : RingId) (first second : NePacket)
  | wakeLoad (p : Nat)
  | wakeSignal (p : Nat)
  | pop (c : Consumer) (r : RingId)
  | arm (c : Consumer)
  | check (c : Consumer)
  | pollReturn (c : Consumer)
  | drain (c : Consumer)
  | disarm (c : Consumer)
  | allStore (id : Nat)
  | allSignal (id : Nat)

/-- A push that succeeded is followed by the wake call. -/
def afterPush (s : IdleState) (p : Nat) (r : RingId) (ring : Option NeRing) : IdleState :=
  match ring with
  | none => s
  | some ring =>
      { s with
        rings := Function.update s.rings r ring
        producers := Function.update s.producers p
          (match r.wake with
          | some id => if id < neDpWakeN then .waking id else .idle
          | none => .idle) }

/-- The consumer goes on to `pc`. -/
def IdleState.goto (s : IdleState) (c : Consumer) (pc : ConsumerPc) : IdleState :=
  { s with consumers := Function.update s.consumers c pc }

/-- `set_sleeping`. -/
def setSleeping (s : IdleState) (id : Nat) (on : Bool) : IdleState :=
  { s with sleeping := Function.update s.sleeping id on }

def IdleState.step (localCount wanCount : Nat) (s : IdleState) : IdleEvent → IdleState
  | .push p r pkt =>
      match s.producers p with
      | .idle => afterPush s p r (neRingTryPush (s.rings r) pkt)
      | _ => s
  | .pushPair p r first second =>
      match s.producers p with
      | .idle => afterPush s p r (neRingTryPushPair (s.rings r) first second)
      | _ => s
  | .wakeLoad p =>
      match s.producers p with
      | .waking id =>
          { s with producers := Function.update s.producers p
                    (if s.sleeping id then .signalling id else .idle) }
      | _ => s
  | .wakeSignal p =>
      match s.producers p with
      | .signalling id =>
          { s with efd := Function.update s.efd id (eventfdSignal (s.efd id)),
                   producers := Function.update s.producers p .idle }
      | _ => s
  | .pop c r =>
      match s.consumers c, neRingTryPop (s.rings r) with
      | .busy, some (_, ring) =>
          if r ∈ c.rings localCount wanCount then
            { s with rings := Function.update s.rings r ring }
          else s
      | _, _ => s
  | .arm c =>
      match s.consumers c with
      | .busy => (setSleeping s c.wakeId true).goto c (.checking [] (c.rings localCount wanCount))
      | _ => s
  | .check c =>
      match s.consumers c with
      | .checking _ [] => s.goto c .polling
      | .checking seen (r :: left) =>
          if neRingCount (s.rings r) ≠ 0 then s.goto c .disarming
          else s.goto c (.checking (seen ++ [r]) left)
      | _ => s
  | .pollReturn c =>
      match s.consumers c with
      | .polling => s.goto c .draining
      | _ => s
  | .drain c =>
      match s.consumers c with
      | .draining =>
          if s.efd c.wakeId > 0 then { s with efd := Function.update s.efd c.wakeId 0 }
          else s.goto c .disarming
      | _ => s
  | .disarm c =>
      match s.consumers c with
      | .disarming => (setSleeping s c.wakeId false).goto c .busy
      | _ => s
  | .allStore id => setSleeping s id true
  | .allSignal id => { s with efd := Function.update s.efd id (eventfdSignal (s.efd id)) }

/-! ## the two maps agree -/

theorem wakeId_injective {c c' : Consumer} (h : c.wakeId = c'.wakeId) : c = c' := by
  cases c with
  | crypto w =>
      cases c' with
      | crypto w' => exact congrArg _ (Fin.ext h)
      | tx slot =>
          have := w.2
          simp only [Consumer.wakeId, neDpWakeCrypto, neDpWakeTx] at h
          omega
  | tx slot =>
      cases c' with
      | crypto w =>
          have := w.2
          simp only [Consumer.wakeId, neDpWakeCrypto, neDpWakeTx] at h
          omega
      | tx slot' =>
          simp only [Consumer.wakeId, neDpWakeTx] at h
          exact congrArg _ (Fin.ext (by omega))

theorem wakeId_lt (c : Consumer) : c.wakeId < neDpWakeN := by
  cases c with
  | crypto w =>
      have := w.2
      simp only [Consumer.wakeId, neDpWakeCrypto, neDpWakeN]
      omega
  | tx slot =>
      have := slot.2
      simp only [Consumer.wakeId, neDpWakeTx, neDpWakeN]
      omega

/-- A push to a ring is followed by the wake call for the consumer that owns it. -/
theorem wake_of_mem {localCount wanCount : Nat} {c : Consumer} {r : RingId}
    (h : r ∈ c.rings localCount wanCount) : r.wake = some c.wakeId := by
  cases c with
  | crypto w =>
      simp only [Consumer.rings, List.mem_cons, List.not_mem_nil, or_false] at h
      rcases h with rfl | rfl
      · rfl
      · rfl
  | tx slot =>
      have hslot : neDpIdleWakeTxWorker slot = some (neDpWakeTx slot) := by
        rw [neDpIdleWakeTxWorker, Nat.mod_eq_of_lt slot.2, neDpIdleWakeTxSlot,
          if_neg (Nat.not_le.mpr slot.2)]
      simp only [Consumer.rings, List.mem_append, List.mem_map] at h
      rcases h with ⟨li, -, rfl⟩ | ⟨wi, -, rfl⟩
      · exact hslot
      · exact hslot

/-! ## what every step keeps -/

/-- A signal for the consumer is in its eventfd or on its way. -/
def Signalled (s : IdleState) (c : Consumer) : Prop :=
  0 < s.efd c.wakeId ∨
    ∃ p, s.producers p = .waking c.wakeId ∨ s.producers p = .signalling c.wakeId

/-- The rings a consumer relies on being told about. -/
def ConsumerPc.rechecked (own : List RingId) : ConsumerPc → List RingId
  | .checking seen _ => seen
  | .polling => own
  | _ => []

/-- The consumer that is not at its work has its flag set, looks at its rings in
turn, and whatever is in a ring it has looked at comes with a signal. -/
structure IdleInv (localCount wanCount : Nat) (s : IdleState) : Prop where
  asleep : ∀ c, s.consumers c ≠ .busy → s.sleeping c.wakeId = true
  order : ∀ c seen left, s.consumers c = .checking seen left →
    seen ++ left = c.rings localCount wanCount
  signalled : ∀ c, ∀ r ∈ (s.consumers c).rechecked (c.rings localCount wanCount),
    (s.rings r).items ≠ [] → Signalled s c

theorem idleInv_init (localCount wanCount : Nat) : IdleInv localCount wanCount IdleState.init where
  asleep _ h := absurd rfl h
  order _ _ _ h := by cases h
  signalled _ _ h := by cases h

section Keeps

variable {localCount wanCount : Nat} {s : IdleState}

theorem eventfdSignal_pos (n : Nat) : 0 < eventfdSignal n := by
  rw [eventfdSignal]
  split <;> omega

/-- What a consumer has looked at is its own. -/
theorem IdleInv.mem_rings (h : IdleInv localCount wanCount s) {c : Consumer} {r : RingId}
    (hr : r ∈ (s.consumers c).rechecked (c.rings localCount wanCount)) :
    r ∈ c.rings localCount wanCount := by
  cases hc : s.consumers c with
  | checking seen left =>
      rw [hc] at hr
      rw [← h.order c seen left hc]
      exact List.mem_append_left _ hr
  | polling => rw [hc] at hr; exact hr
  | busy => rw [hc] at hr; cases hr
  | draining => rw [hc] at hr; cases hr
  | disarming => rw [hc] at hr; cases hr

/-- A signal on its way from another producer is not affected by a step of `p`. -/
theorem Signalled.of_producer {c : Consumer} (h : Signalled s c) {p : Nat} {pc : ProducerPc}
    {s' : IdleState} (hefd : s'.efd = s.efd) (hprod : s'.producers = Function.update s.producers p pc)
    (hp : s.producers p = .waking c.wakeId ∨ s.producers p = .signalling c.wakeId →
      Signalled s' c) : Signalled s' c := by
  rcases h with h | ⟨q, hq⟩
  · exact .inl (by rw [hefd]; exact h)
  · by_cases hqp : q = p
    · subst hqp; exact hp hq
    · exact .inr ⟨q, by rw [hprod, Function.update_of_ne hqp]; exact hq⟩

theorem afterPush_inv (h : IdleInv localCount wanCount s) {p : Nat} (hp : s.producers p = .idle)
    (r : RingId) (ring : Option NeRing) : IdleInv localCount wanCount (afterPush s p r ring) := by
  cases ring with
  | none => exact h
  | some ring =>
      refine ⟨h.asleep, h.order, fun c r' hr' hne => ?_⟩
      change (Function.update s.rings r ring r').items ≠ [] at hne
      by_cases hrr : r' = r
      · -- the producer is about to wake the owner of the ring
        subst hrr
        have hwake := wake_of_mem (h.mem_rings hr')
        refine .inr ⟨p, .inl ?_⟩
        change Function.update s.producers p _ p = _
        rw [Function.update_self, hwake]
        exact if_pos (wakeId_lt c)
      · rw [Function.update_of_ne hrr] at hne
        refine (h.signalled c r' hr' hne).of_producer rfl rfl fun hc => ?_
        rw [hp] at hc
        simp at hc

theorem wakeLoad_inv (h : IdleInv localCount wanCount s) {p id : Nat} (hp : s.producers p = .waking id) :
    IdleInv localCount wanCount { s with
      producers := Function.update s.producers p (if s.sleeping id then .signalling id else .idle) } := by
  refine ⟨h.asleep, h.order, fun c r hr hne => ?_⟩
  refine (h.signalled c r hr hne).of_producer rfl rfl fun hc => ?_
  rw [hp] at hc
  have hid : id = c.wakeId := by simpa using hc
  -- the consumer has looked at a ring, so its flag is set
  have hsleep : s.sleeping id = true := by
    rw [hid]
    refine h.asleep c fun hb => ?_
    change r ∈ (s.consumers c).rechecked _ at hr
    rw [hb] at hr
    cases hr
  refine .inr ⟨p, .inr ?_⟩
  change Function.update s.producers p _ p = _
  rw [Function.update_self, hsleep, if_pos rfl, hid]

/-- A consumer whose eventfd has been written to is signalled. -/
theorem signalled_efd {id : Nat} {s' : IdleState} {c : Consumer}
    (hefd : s'.efd = Function.update s.efd id (eventfdSignal (s.efd id)))
    (h : id ≠ c.wakeId → 0 < s.efd c.wakeId ∨
      ∃ p, s'.producers p = .waking c.wakeId ∨ s'.producers p = .signalling c.wakeId) :
    Signalled s' c := by
  by_cases hid : id = c.wakeId
  · refine .inl ?_
    rw [hefd, hid, Function.update_self]
    exact eventfdSignal_pos _
  · rcases h hid with h | h
    · exact .inl (by rw [hefd, Function.update_of_ne (Ne.symm hid)]; exact h)
    · exact .inr h

theorem wakeSignal_inv (h : IdleInv localCount wanCount s) {p id : Nat}
    (hp : s.producers p = .signalling id) :
    IdleInv localCount wanCount { s with
      efd := Function.update s.efd id (eventfdSignal (s.efd id))
      producers := Function.update s.producers p .idle } := by
  refine ⟨h.asleep, h.order, fun c r hr hne => ?_⟩
  refine @signalled_efd s id _ c rfl fun hid => ?_
  rcases h.signalled c r hr hne with hefd | ⟨q, hq⟩
  · exact .inl hefd
  · have hqp : q ≠ p := by
      intro hqp
      rw [hqp, hp] at hq
      rcases hq with hq | hq
      · cases hq
      · exact hid (ProducerPc.signalling.inj hq)
    exact .inr ⟨q, by dsimp only; rw [Function.update_of_ne hqp]; exact hq⟩

theorem allSignal_inv (h : IdleInv localCount wanCount s) (id : Nat) :
    IdleInv localCount wanCount { s with
      efd := Function.update s.efd id (eventfdSignal (s.efd id)) } :=
  ⟨h.asleep, h.order, fun c r hr hne => @signalled_efd s id _ c rfl fun _ => h.signalled c r hr hne⟩

/-- Taking a packet off a ring leaves no new ring non-empty. -/
theorem pop_inv (h : IdleInv localCount wanCount s) {r : RingId} {pkt : NePacket} {ring : NeRing}
    (hpop : neRingTryPop (s.rings r) = some (pkt, ring)) :
    IdleInv localCount wanCount { s with rings := Function.update s.rings r ring } := by
  refine ⟨h.asleep, h.order, fun c r' hr' hne => h.signalled c r' hr' ?_⟩
  change (Function.update s.rings r ring r').items ≠ [] at hne
  by_cases hrr : r' = r
  · subst hrr
    intro hnil
    rw [neRingTryPop, hnil] at hpop
    cases hpop
  · rw [Function.update_of_ne hrr] at hne; exact hne

/-- Setting a flag harms nobody, clearing one only its owner. -/
theorem setSleeping_inv (h : IdleInv localCount wanCount s) {id : Nat} {on : Bool}
    (hon : on = true ∨ ∀ c : Consumer, c.wakeId = id → s.consumers c = .busy) :
    IdleInv localCount wanCount (setSleeping s id on) := by
  refine ⟨fun c hb => ?_, h.order, h.signalled⟩
  change s.consumers c ≠ .busy at hb
  change Function.update s.sleeping id on c.wakeId = true
  by_cases hid : c.wakeId = id
  · rw [hid, Function.update_self]
    exact hon.resolve_right fun hall => hb (hall c hid)
  · rw [Function.update_of_ne hid]; exact h.asleep c hb

/-- Emptying the eventfd of a consumer that is not waiting for a signal. -/
theorem drain_inv (h : IdleInv localCount wanCount s) {c : Consumer} (hc : s.consumers c = .draining) :
    IdleInv localCount wanCount { s with efd := Function.update s.efd c.wakeId 0 } := by
  refine ⟨h.asleep, h.order, fun c' r hr hne => ?_⟩
  have hcc : c' ≠ c := by
    intro hcc
    change r ∈ (s.consumers c').rechecked _ at hr
    rw [hcc, hc] at hr
    cases hr
  rcases h.signalled c' r hr hne with hefd | hprod
  · refine .inl ?_
    change 0 < Function.update s.efd c.wakeId 0 c'.wakeId
    rw [Function.update_of_ne fun he => hcc (wakeId_injective he)]
    exact hefd
  · exact .inr hprod

/-- A consumer moves on: only what it has looked at itself matters. -/
theorem IdleInv.goto (h : IdleInv localCount wanCount s) {c : Consumer} {pc : ConsumerPc}
    (hasleep : pc ≠ .busy → s.sleeping c.wakeId = true)
    (horder : ∀ seen left, pc = .checking seen left → seen ++ left = c.rings localCount wanCount)
    (hseen : ∀ r ∈ pc.rechecked (c.rings localCount wanCount), (s.rings r).items ≠ [] →
      Signalled s c) : IdleInv localCount wanCount (s.goto c pc) := by
  refine ⟨fun c' hb => ?_, fun c' seen left hc' => ?_, fun c' r hr hne => ?_⟩
  · change Function.update s.consumers c pc c' ≠ .busy at hb
    by_cases hcc : c' = c
    · subst hcc; rw [Function.update_self] at hb; exact hasleep hb
    · rw [Function.update_of_ne hcc] at hb; exact h.asleep c' hb
  · change Function.update s.consumers c pc c' = _ at hc'
    by_cases hcc : c' = c
    · subst hcc; rw [Function.update_self] at hc'; exact horder seen left hc'
    · rw [Function.update_of_ne hcc] at hc'; exact h.order c' seen left hc'
  · change r ∈ (Function.update s.consumers c pc c').rechecked _ at hr
    by_cases hcc : c' = c
    · subst hcc; rw [Function.update_self] at hr; exact hseen r hr hne
    · rw [Function.update_of_ne hcc] at hr; exact h.signalled c' r hr hne

/-- A consumer that arms its wake flag is going to look at all its rings. -/
theorem arm_inv (h : IdleInv localCount wanCount s) (c : Consumer) :
    IdleInv localCount wanCount
      ((setSleeping s c.wakeId true).goto c (.checking [] (c.rings localCount wanCount))) := by
  refine (setSleeping_inv h (.inl rfl)).goto (fun _ => Function.update_self ..) ?_ ?_
  · intro seen left hc
    obtain ⟨rfl, rfl⟩ := ConsumerPc.checking.inj hc
    rfl
  · intro r hr; cases hr

/-- A consumer that has looked at all its rings goes to sleep. -/
theorem poll_inv (h : IdleInv localCount wanCount s) {c : Consumer} {seen : List RingId}
    (hc : s.consumers c = .checking seen []) : IdleInv localCount wanCount (s.goto c .polling) := by
  refine h.goto (fun _ => h.asleep c (by rw [hc]; simp)) (fun _ _ hpc => by cases hpc) ?_
  intro r hr hne
  refine h.signalled c r ?_ hne
  have horder := h.order c seen [] hc
  rw [List.append_nil] at horder
  rw [hc]
  exact horder ▸ hr

/-- A ring is empty when it is looked at. -/
theorem looked_inv (h : IdleInv localCount wanCount s) {c : Consumer} {seen left : List RingId}
    {r : RingId} (hc : s.consumers c = .checking seen (r :: left)) (hempty : (s.rings r).items = []) :
    IdleInv localCount wanCount (s.goto c (.checking (seen ++ [r]) left)) := by
  refine h.goto (fun _ => h.asleep c (by rw [hc]; simp)) ?_ ?_
  · intro seen' left' hpc
    obtain ⟨rfl, rfl⟩ := ConsumerPc.checking.inj hpc
    rw [List.append_assoc]
    exact h.order c seen (r :: left) hc
  · intro r' hr' hne
    rcases List.mem_append.mp hr' with hold | hnew
    · exact h.signalled c r' (by rw [hc]; exact hold) hne
    · rw [List.mem_singleton.mp hnew] at hne
      exact absurd hempty hne

/-- A consumer that is up again owes its rings no look. -/
theorem IdleInv.awake (h : IdleInv localCount wanCount s) {c : Consumer} {pc : ConsumerPc}
    (hc : s.consumers c ≠ .busy) (hpc : pc = .draining ∨ pc = .disarming) :
    IdleInv localCount wanCount (s.goto c pc) := by
  rcases hpc with rfl | rfl <;>
    exact h.goto (fun _ => h.asleep c hc) (fun _ _ he => by cases he) (fun r hr => by cases hr)

/-- First the place, then the flag: nobody else has this wake id. -/
theorem disarm_inv (h : IdleInv localCount wanCount s) (c : Consumer) :
    IdleInv localCount wanCount (setSleeping (s.goto c .busy) c.wakeId false) := by
  have hgo := @IdleInv.goto _ _ _ h c .busy (fun hb => absurd rfl hb) (fun _ _ hpc => by cases hpc)
    (fun r hr => by cases hr)
  refine @setSleeping_inv _ _ _ hgo c.wakeId false (.inr fun c' hid => ?_)
  rw [wakeId_injective hid]
  exact Function.update_self ..

theorem idleInv_step (h : IdleInv localCount wanCount s) (e : IdleEvent) :
    IdleInv localCount wanCount (s.step localCount wanCount e) := by
  cases e with
  | push p r pkt =>
      dsimp only [IdleState.step]
      split
      · rename_i hp; exact afterPush_inv h hp r _
      · exact h
  | pushPair p r first second =>
      dsimp only [IdleState.step]
      split
      · rename_i hp; exact afterPush_inv h hp r _
      · exact h
  | wakeLoad p =>
      dsimp only [IdleState.step]
      split
      · rename_i id hp; exact wakeLoad_inv h hp
      · exact h
  | wakeSignal p =>
      dsimp only [IdleState.step]
      split
      · rename_i id hp; exact wakeSignal_inv h hp
      · exact h
  | pop c r =>
      dsimp only [IdleState.step]
      split
      · rename_i hpop
        split
        · exact pop_inv h hpop
        · exact h
      · exact h
  | arm c =>
      dsimp only [IdleState.step]
      split
      · exact arm_inv h c
      · exact h
  | check c =>
      dsimp only [IdleState.step]
      split
      · rename_i seen hc; exact poll_inv h hc
      · rename_i seen r left hc
        split
        · exact h.awake (by rw [hc]; simp) (.inr rfl)
        · rename_i hempty
          rw [not_not, neRingCount, List.length_eq_zero_iff] at hempty
          exact looked_inv h hc hempty
      · exact h
  | pollReturn c =>
      dsimp only [IdleState.step]
      split
      · rename_i hc; exact h.awake (by rw [hc]; simp) (.inl rfl)
      · exact h
  | drain c =>
      dsimp only [IdleState.step]
      split
      · rename_i hc
        split
        · exact drain_inv h hc
        · exact h.awake (by rw [hc]; simp) (.inr rfl)
      · exact h
  | disarm c =>
      dsimp only [IdleState.step]
      split
      · exact disarm_inv h c
      · exact h
  | allStore id => exact setSleeping_inv h (.inl rfl)
  | allSignal id => exact allSignal_inv h id

end Keeps

/-! ## nobody sleeps over a packet -/

/-- The consumer is blocked in `poll`: its eventfd has nothing to read. -/
def Blocked (s : IdleState) (c : Consumer) : Prop :=
  (match s.consumers c with
  | .polling => True
  | _ => False) ∧ s.efd c.wakeId = 0

/-- The producer has pushed and its wake call for the consumer is not over. -/
def WakePending (s : IdleState) (p : Nat) (c : Consumer) : Prop :=
  s.producers p = .waking c.wakeId ∨ s.producers p = .signalling c.wakeId

/-- The state after a run of any number of producers and consumers. -/
def idleRun (localCount wanCount : Nat) (es : List IdleEvent) : IdleState :=
  run (IdleState.step localCount wanCount) IdleState.init es

theorem idleInv_run (localCount wanCount : Nat) (es : List IdleEvent) :
    IdleInv localCount wanCount (idleRun localCount wanCount es) :=
  (@Along.invariant _ _ _ (fun _ _ => True) (fun _ _ => True) (IdleInv localCount wanCount)
    (fun _ e hi _ => ⟨idleInv_step hi e, trivial⟩) _ _ (idleInv_init localCount wanCount)
    (Along.of_forall fun _ _ _ => trivial)).1

/-- In no state that any interleaving of producers and consumers leads to is a
consumer blocked while one of its rings has a packet in it and no producer is about
to wake it. -/
theorem no_lost_wakeup (localCount wanCount : Nat) (es : List IdleEvent) :
    ¬ ∃ c r, Blocked (idleRun localCount wanCount es) c ∧ r ∈ c.rings localCount wanCount ∧
      ((idleRun localCount wanCount es).rings r).items ≠ [] ∧
      ∀ p, ¬ WakePending (idleRun localCount wanCount es) p c := by
  have hinv := idleInv_run localCount wanCount es
  generalize idleRun localCount wanCount es = s at hinv
  intro hlost
  obtain ⟨c, r, ⟨hpoll, hefd⟩, hown, hne, hpend⟩ := hlost
  have hpc : s.consumers c = .polling := by
    split at hpoll
    · assumption
    · exact hpoll.elim
  rcases hinv.signalled c r (by rw [hpc]; exact hown) hne with hpos | ⟨p, hp⟩
  · omega
  · exact hpend p hp

-- a worker that finds its rings empty twice does get to sleep
example : Blocked (idleRun 1 1 [.arm (.crypto 0), .check (.crypto 0), .check (.crypto 0),
    .check (.crypto 0)]) (.crypto 0) := ⟨trivial, rfl⟩

end NetworkEncryptor
