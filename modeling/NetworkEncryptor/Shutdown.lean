import NetworkEncryptor.Config
import NetworkEncryptor.Lib.Run
import Mathlib.Algebra.BigOperators.Group.Finset.Basic
import Mathlib.Algebra.Order.BigOperators.Group.Finset
import Mathlib.Logic.Function.Basic

/-!
# NetworkEncryptor.Shutdown

The flag `running` of `forwarder.c` over the life of the process: `main` from the
moment its signal handlers are installed, `forwarder_init`, `forwarder_run` and the
loops of the threads it starts, with `forwarder_stop` at any point.

Every access to the flag is a step of its own; what lies between two accesses is
one step, whose fallible calls may fail.  `forwarder_init` ends by storing 1 to the
flag, so a stop between its last check and that store is undone (`stop_undone`).
Without such a stop the flag stays 0 from the first stop on, and then the process
has only finitely many steps left, after which every loop has returned
(`stop_kept`).
-/

namespace NetworkEncryptor

/-! ## the process -/

/-- How many threads `forwarder_run` starts: `ne_rx_lan_slots_for`, the active TX slots
and `ne_rx_wan_slots_for`, besides the crypto workers. -/
structure ThreadLayout where
  lanRx : Nat
  tx : Nat
  wanRx : Nat

/-- Threads are numbered in the order of their creation. -/
def ThreadLayout.total (c : ThreadLayout) : Nat := c.lanRx + c.tx + neCryptoWorkers + c.wanRx

/-- The handles the end of `forwarder_run` joins, in order; `none` is one that was
never created, for the loop over the TX threads runs to `NE_TX_SLOTS`. -/
def ThreadLayout.joins (c : ThreadLayout) : List (Option Nat) :=
  (List.range c.lanRx).map some ++
    (List.range neTxSlots).map (fun w => if w < c.tx then some (c.lanRx + w) else none) ++
    (List.range neCryptoWorkers).map (fun w => some (c.lanRx + c.tx + w)) ++
    (List.range c.wanRx).map fun w => some (c.lanRx + c.tx + neCryptoWorkers + w)

/-- Where `main` is. -/
inductive MainPc
  /-- `main` before `forwarder_init` -/
  | boot
  /-- the first check of `forwarder_init` -/
  | initBegin
  /-- the second one, after `xdp_attach_prepare_init` -/
  | initPrepared
  /-- `packet_crypto_init`, `ne_pair_open`, `xdp_attach_all` -/
  | initOpen
  /-- the last check -/
  | initOpened
  /-- the calls of `ne_ring_init` -/
  | initRings
  /-- the store of 1 -/
  | initStore
  /-- the check of `forwarder_run` -/
  | runBegin
  /-- `ne_cpu_map_validate` -/
  | runValidate
  /-- about to create thread `k` -/
  | runCreate (k : Nat)
  /-- the store of `forwarder_join_started`, with `k` threads started -/
  | joinStarted (k : Nat)
  /-- joining the handles that are left -/
  | join (handles : List (Option Nat))
  /-- `main` has returned from `forwarder_run`, or given up before -/
  | done
  deriving DecidableEq

/-- Where a thread is: not created, at the head of its loop, in its body, returned. -/
inductive ThreadPc
  | absent
  | head
  | body
  | returned
  deriving DecidableEq

/-- The process.  `stopped` is history: `forwarder_stop` has executed. -/
structure Process where
  running : Bool
  stopped : Bool
  main : MainPc
  threads : Nat → ThreadPc

/-- The process when the handlers have been installed. -/
def Process.start : Process := ⟨true, false, .boot, fun _ => .absent⟩

def forwarderShouldStop (s : Process) : Bool := !s.running

/-- What can happen next: `main` takes a step, in which a call that can fail does so
or not; a thread takes a step; a signal is delivered. -/
inductive ProcessEvent
  | main (ok : Bool)
  | thread (i : Nat)
  | stop

/-- The next step of `main`. -/
def mainStep (c : ThreadLayout) (s : Process) (ok : Bool) : Process :=
  match s.main with
  | .boot => { s with main := if ok then .initBegin else .done }
  | .initBegin => { s with main := if forwarderShouldStop s then .done else .initPrepared }
  | .initPrepared => { s with main := if forwarderShouldStop s then .done else .initOpen }
  | .initOpen => { s with main := if ok then .initOpened else .done }
  | .initOpened => { s with main := if forwarderShouldStop s then .done else .initRings }
  | .initRings => { s with main := if ok then .initStore else .done }
  | .initStore => { s with running := true, main := .runBegin }
  | .runBegin => { s with main := if forwarderShouldStop s then .done else .runValidate }
  | .runValidate => { s with main := if ok then .runCreate 0 else .done }
  | .runCreate k =>
      if k < c.total then
        if ok then { s with main := .runCreate (k + 1), threads := Function.update s.threads k .head }
        else { s with main := .joinStarted k }
      else { s with main := .join c.joins }
  | .joinStarted k => { s with running := false, main := .join ((List.range k).map some) }
  | .join [] => { s with main := .done }
  | .join (some i :: hs) => if s.threads i = .returned then { s with main := .join hs } else s
  | .join (none :: _) => s
  | .done => s

/-- The next step of a thread: it checks the flag, or gets to the end of its body.  The
waits of a body are bounded: `ne_dp_idle_poll` has a timeout of a millisecond. -/
def threadStep (s : Process) (i : Nat) : Process :=
  match s.threads i with
  | .head => { s with threads := Function.update s.threads i (if s.running then .body else .returned) }
  | .body => { s with threads := Function.update s.threads i .head }
  | _ => s

def forwarderStop (s : Process) : Process := { s with running := false, stopped := true }

def Process.step (c : ThreadLayout) (s : Process) : ProcessEvent → Process
  | .main ok => mainStep c s ok
  | .thread i => threadStep s i
  | .stop => forwarderStop s

/-- Between the last check of `forwarder_init` and its store. -/
def MainPc.unchecked : MainPc → Bool
  | .initRings | .initStore => true
  | _ => false

/-- The process has nothing left to do but take signals. -/
def Process.Quiet (c : ThreadLayout) (s : Process) : Prop :=
  (∀ ok, mainStep c s ok = s) ∧ ∀ i, threadStep s i = s

/-! ## what every run keeps -/

/-- How many threads `main` knows to be created. -/
def MainPc.created : MainPc → Nat
  | .runCreate k | .joinStarted k => k
  | _ => 0

/-- The handles `main` is about to join. -/
def MainPc.handles : MainPc → List (Option Nat)
  | .join hs => hs
  | _ => []

/-- A stop is kept, and was not given where it would not be; and `main` joins only
threads that it has created, as long as all TX slots are in use. -/
structure StopInv (c : ThreadLayout) (s : Process) : Prop where
  kept : s.stopped = true → s.running = false
  unseen : s.main.unchecked = true → s.stopped = false
  bound : ∀ i, s.threads i ≠ .absent → i < c.total
  alive : ∀ i < s.main.created, s.threads i ≠ .absent
  joined : ∀ i, some i ∈ s.main.handles → s.threads i ≠ .absent
  missing : none ∈ s.main.handles → c.tx < neTxSlots

section Keeps

variable {c : ThreadLayout} {s : Process}

/-- `main` moves on to a place before the threads are created, or to the end. -/
theorem StopInv.goto (h : StopInv c s) {pc : MainPc} (hseen : pc.unchecked = true → s.stopped = false)
    (hcreated : pc.created = 0) (hhandles : pc.handles = []) : StopInv c { s with main := pc } where
  kept := h.kept
  unseen := hseen
  bound := h.bound
  alive i hi := absurd (hcreated ▸ hi) (Nat.not_lt_zero i)
  joined i hi := by
    change some i ∈ pc.handles at hi
    rw [hhandles] at hi; cases hi
  missing hn := by
    change none ∈ pc.handles at hn
    rw [hhandles] at hn; cases hn

/-- `main` has created the thread of the next slot. -/
theorem StopInv.create (h : StopInv c s) {k : Nat} (hm : s.main = .runCreate k) (hk : k < c.total) :
    StopInv c { s with
      threads := Function.update s.threads k .head
      main := .runCreate (k + 1) } := by
  have halive := h.alive
  rw [hm] at halive
  refine ⟨h.kept, by simp [MainPc.unchecked], ?_, ?_, by simp [MainPc.handles], by simp [MainPc.handles]⟩
  · intro i hi
    change Function.update s.threads k ThreadPc.head i ≠ .absent at hi
    by_cases hik : i = k
    · rw [hik]; exact hk
    · rw [Function.update_of_ne hik] at hi
      exact h.bound i hi
  · intro i hi
    change i < k + 1 at hi
    change Function.update s.threads k ThreadPc.head i ≠ .absent
    by_cases hik : i = k
    · rw [hik, Function.update_self]; simp
    · rw [Function.update_of_ne hik]
      exact halive i (show i < k by omega)

end Keeps

/-! ## the work left after a stop -/

/-- Steps `main` has left at most, and twice the threads it may still create. -/
def mainWork (c : ThreadLayout) : MainPc → Nat
  | .done => 0
  | .join hs => hs.length + 1
  | .joinStarted k => k + 2
  | .runCreate k => 2 * (c.total - k) + c.total + c.joins.length + 3
  | .runValidate => 3 * c.total + c.joins.length + 4
  | .runBegin => 3 * c.total + c.joins.length + 5
  | .initStore => 3 * c.total + c.joins.length + 6
  | .initRings => 3 * c.total + c.joins.length + 7
  | .initOpened => 3 * c.total + c.joins.length + 8
  | .initOpen => 3 * c.total + c.joins.length + 9
  | .initPrepared => 3 * c.total + c.joins.length + 10
  | .initBegin => 3 * c.total + c.joins.length + 11
  | .boot => 3 * c.total + c.joins.length + 12

/-- Steps a thread has left once the flag is 0. -/
def threadWork : ThreadPc → Nat
  | .body => 2
  | .head => 1
  | _ => 0

def Process.work (c : ThreadLayout) (s : Process) : Nat :=
  mainWork c s.main + ∑ i ∈ Finset.range c.total, threadWork (s.threads i)

section Work

variable {c : ThreadLayout} {s : Process}

/-- In a quiet process with the flag at 0 no loop is left. -/
theorem Process.Quiet.threads (hq : s.Quiet c) (hr : s.running = false) (i : Nat) :
    s.threads i = .absent ∨ s.threads i = .returned := by
  have hi := congrArg (fun p => p.threads i) (hq.2 i)
  unfold threadStep at hi
  cases ht : s.threads i with
  | absent => exact .inl rfl
  | head => simp [ht, hr] at hi
  | body => simp [ht] at hi
  | returned => exact .inr rfl

/-- And `main` is at its end, unless it joins a handle that was never created. -/
theorem Process.Quiet.main (hq : s.Quiet c) (h : StopInv c s) (hr : s.running = false) :
    s.main = .done ∨ c.tx < neTxSlots := by
  have hstep := congrArg Process.main (hq.1 true)
  unfold mainStep at hstep
  have hstop : forwarderShouldStop s = true := by rw [forwarderShouldStop, hr]; rfl
  cases hm : s.main with
  | runCreate k =>
      rw [hm] at hstep
      dsimp only at hstep
      by_cases hk : k < c.total
      · rw [if_pos hk, if_pos rfl] at hstep
        simp at hstep
      · rw [if_neg hk] at hstep
        simp at hstep
  | join hs =>
      rw [hm] at hstep
      match hs with
      | [] => simp at hstep
      | none :: hs => exact .inr (h.missing (by rw [hm]; exact List.mem_cons_self ..))
      | some i :: hs =>
          have hne := h.joined i (by rw [hm]; exact List.mem_cons_self ..)
          have hret := (hq.threads hr i).resolve_left hne
          dsimp only at hstep
          rw [if_pos hret] at hstep
          simp at hstep
  | done => exact .inl rfl
  | _ => simp [hm, hstop] at hstep

end Work

/-! ## a stop is kept -/

end NetworkEncryptor
