import NetworkEncryptor.Pipeline
import Mathlib.Data.List.Nodup

/-!
# NetworkEncryptor.Threads

The threads `forwarder_run` (`src/core/forwarder/forwarder.c`) starts and joins.

Four groups are started in turn, the number of threads of a group being found at
run time.  A failed `pthread_create` goes through `forwarder_join_started`, which
joins what the counters say was started; the end of `forwarder_run` has joins of
its own, and its loop over the TX threads runs to `NE_TX_SLOTS`, not to the
number of those that were started.
-/

namespace NetworkEncryptor

/-! ## the groups -/

inductive ThreadGroup
  | localRx
  | tx
  | crypto
  | wanRx
  deriving DecidableEq

/-- A `pthread_t` of `struct forwarder`: its array and the index there. -/
structure ThreadHandle where
  group : ThreadGroup
  idx : Nat
  deriving DecidableEq

/-- The first `n` handles of a group. -/
def groupHandles (group : ThreadGroup) (n : Nat) : List ThreadHandle :=
  (List.range n).map (ThreadHandle.mk group)

def neRxSlotsForQueues (queueTotal slotsMax : Nat) : Nat :=
  if queueTotal = 0 then 1 else if queueTotal < slotsMax then queueTotal else slotsMax

def neRxLanSlotsFor (localQueueTotal : Nat) : Nat := neRxSlotsForQueues localQueueTotal neRxLanSlots

def neRxWanSlotsFor (wanQueueTotal : Nat) : Nat := neRxSlotsForQueues wanQueueTotal neRxWanSlots

/-- `local_queue_total` and `wan_queue_total`. -/
def Ifaces.queueTotal (ifs : Ifaces) : Nat := ((List.range ifs.count).map ifs.queueCount).sum

/-! ## starting and joining -/

/-- The threads that were created and the handles that were joined, in order. -/
structure ThreadLog where
  created : List ThreadHandle
  joined : List ThreadHandle
  deriving DecidableEq

def ThreadLog.empty : ThreadLog := ⟨[], []⟩

/-- The loop that starts the threads `w`, .. of a group, `n` of them: how many of
the group are started then, and whether all are. -/
def startThreads (create : ThreadHandle → Bool) (group : ThreadGroup) :
    Nat → Nat → ThreadLog → Nat × Bool × ThreadLog
  | 0, w, log => (w, true, log)
  | n + 1, w, log =>
      if create ⟨group, w⟩ then
        startThreads create group n (w + 1) { log with created := log.created ++ [⟨group, w⟩] }
      else (w, false, log)

/-- The loop that joins the first `n` threads of a group. -/
def joinThreads (group : ThreadGroup) (n : Nat) (log : ThreadLog) : ThreadLog :=
  { log with joined := log.joined ++ groupHandles group n }

def forwarderJoinStarted (log : ThreadLog) (localRxStarted txStarted cryptoStarted wanRxStarted : Nat) :
    ThreadLog :=
  joinThreads .wanRx wanRxStarted
    (joinThreads .crypto cryptoStarted
      (joinThreads .tx txStarted (joinThreads .localRx localRxStarted log)))

/-- `forwarder_run`, where `create` says of a handle whether `pthread_create`
succeeds for it. -/
def forwarderRun (ifs : NePacketDir → Ifaces) (shouldStop cpuMapOk : Bool)
    (create : ThreadHandle → Bool) : ThreadLog :=
  if shouldStop then ThreadLog.empty
  else if !cpuMapOk then ThreadLog.empty
  else
    let activeTxSlots := forwarderActiveTxSlots ifs
    let lanRxActive := neRxLanSlotsFor (ifs .local).queueTotal
    match startThreads create .localRx lanRxActive 0 ThreadLog.empty with
    | (localRxStarted, false, log) => forwarderJoinStarted log localRxStarted 0 0 0
    | (localRxStarted, true, log) =>
        match startThreads create .tx activeTxSlots 0 log with
        | (txStarted, false, log) => forwarderJoinStarted log localRxStarted txStarted 0 0
        | (txStarted, true, log) =>
            match startThreads create .crypto neCryptoWorkers 0 log with
            | (cryptoStarted, false, log) =>
                forwarderJoinStarted log localRxStarted txStarted cryptoStarted 0
            | (cryptoStarted, true, log) =>
                let wanRxActive := neRxWanSlotsFor (ifs .wan).queueTotal
                match startThreads create .wanRx wanRxActive 0 log with
                | (wanRxStarted, false, log) =>
                    forwarderJoinStarted log localRxStarted txStarted cryptoStarted wanRxStarted
                | (wanRxStarted, true, log) =>
                    -- the loop over the TX threads runs to `NE_TX_SLOTS`
                    joinThreads .wanRx wanRxStarted
                      (joinThreads .crypto neCryptoWorkers
                        (joinThreads .tx neTxSlots (joinThreads .localRx localRxStarted log)))

/-- Every thread that was created is joined once, and nothing else is joined. -/
def ThreadLog.JoinedOnce (log : ThreadLog) : Prop := log.joined.Nodup ∧ log.joined.Perm log.created

/-! ## what a run starts and joins -/

/-- The first handles of each group, in the order they are started and joined. -/
def threadHandles (localRx tx crypto wanRx : Nat) : List ThreadHandle :=
  groupHandles .localRx localRx ++ groupHandles .tx tx ++ groupHandles .crypto crypto ++
    groupHandles .wanRx wanRx

/-- The threads `forwarder_run` asks for. -/
def requestedThreads (ifs : NePacketDir → Ifaces) : List ThreadHandle :=
  threadHandles (neRxLanSlotsFor (ifs .local).queueTotal) (forwarderActiveTxSlots ifs) neCryptoWorkers
    (neRxWanSlotsFor (ifs .wan).queueTotal)

@[simp] theorem length_groupHandles (group : ThreadGroup) (n : Nat) :
    (groupHandles group n).length = n := by
  simp [groupHandles]

@[simp] theorem mem_groupHandles {group : ThreadGroup} {n : Nat} {h : ThreadHandle} :
    h ∈ groupHandles group n ↔ h.group = group ∧ h.idx < n := by
  obtain ⟨g, i⟩ := h
  grind [groupHandles]

theorem groupHandles_zero (group : ThreadGroup) : groupHandles group 0 = [] := rfl

theorem groupHandles_succ (group : ThreadGroup) (n : Nat) :
    groupHandles group (n + 1) = groupHandles group n ++ [⟨group, n⟩] := by
  simp [groupHandles, List.range_succ]

theorem nodup_groupHandles (group : ThreadGroup) (n : Nat) : (groupHandles group n).Nodup := by
  refine List.Nodup.map ?_ List.nodup_range
  intro i j hij
  simpa using hij

theorem mem_threadHandles {a b c d : Nat} {h : ThreadHandle} : h ∈ threadHandles a b c d ↔
    h ∈ groupHandles .localRx a ∨ h ∈ groupHandles .tx b ∨ h ∈ groupHandles .crypto c ∨
      h ∈ groupHandles .wanRx d := by
  simp [threadHandles]

theorem length_threadHandles (a b c d : Nat) : (threadHandles a b c d).length = a + b + c + d := by
  simp [threadHandles, Nat.add_assoc]

theorem nodup_threadHandles (a b c d : Nat) : (threadHandles a b c d).Nodup := by
  unfold threadHandles
  simp only [List.nodup_append', nodup_groupHandles, List.disjoint_left, List.mem_append,
    mem_groupHandles, true_and]
  grind

theorem joinThreads_eq (group : ThreadGroup) (n : Nat) (log : ThreadLog) :
    joinThreads group n log = ⟨log.created, log.joined ++ groupHandles group n⟩ := rfl

theorem forwarderJoinStarted_eq (log : ThreadLog) (a b c d : Nat) :
    forwarderJoinStarted log a b c d = ⟨log.created, log.joined ++ threadHandles a b c d⟩ := by
  simp [forwarderJoinStarted, joinThreads_eq, threadHandles]

/-- A group is started as a whole, or up to a handle whose `pthread_create` fails. -/
theorem startThreads_cases (create : ThreadHandle → Bool) (group : ThreadGroup) (n : Nat)
    (log : ThreadLog) :
    ((∀ i < n, create ⟨group, i⟩ = true) ∧ startThreads create group n 0 log =
      (n, true, ⟨log.created ++ groupHandles group n, log.joined⟩)) ∨
    (∃ k < n, create ⟨group, k⟩ = false ∧ startThreads create group n 0 log =
      (k, false, ⟨log.created ++ groupHandles group k, log.joined⟩)) := by
  have hloop : ∀ m w (log' : ThreadLog), m + w = n → (∀ i < w, create ⟨group, i⟩ = true) →
      log' = ⟨log.created ++ groupHandles group w, log.joined⟩ →
      ((∀ i < n, create ⟨group, i⟩ = true) ∧ startThreads create group m w log' =
        (n, true, ⟨log.created ++ groupHandles group n, log.joined⟩)) ∨
      (∃ k < n, create ⟨group, k⟩ = false ∧ startThreads create group m w log' =
        (k, false, ⟨log.created ++ groupHandles group k, log.joined⟩)) := by
    intro m
    induction m with
    | zero =>
        intro w log' hw hall hlog
        obtain rfl : w = n := by omega
        exact Or.inl ⟨hall, by simp [startThreads, hlog]⟩
    | succ m ih =>
        intro w log' hw hall hlog
        cases hc : create ⟨group, w⟩ with
        | false => exact Or.inr ⟨w, by omega, hc, by simp [startThreads, hc, hlog]⟩
        | true =>
            simp only [startThreads, hc, if_true]
            refine ih (w + 1) _ (by omega) ?_ ?_
            · intro i hi
              obtain rfl | hi := Nat.lt_succ_iff_lt_or_eq.mp hi |>.symm
              · exact hc
              · exact hall i hi
            · simp [hlog, groupHandles_succ]
  exact hloop n 0 log rfl (fun i hi => absurd hi (Nat.not_lt_zero i)) (by simp [groupHandles_zero])

/-- Past its first checks `forwarder_run` either fails to create a thread it asks for, and
joins what it created, or creates all of them and runs into the joins at its end. -/
theorem forwarderRun_cases (ifs : NePacketDir → Ifaces) (create : ThreadHandle → Bool) :
    (∃ h ∈ requestedThreads ifs, create h = false) ∧
      (∃ a b c d, forwarderRun ifs false true create = ⟨threadHandles a b c d, threadHandles a b c d⟩) ∨
    (∀ h ∈ requestedThreads ifs, create h = true) ∧ forwarderRun ifs false true create =
      ⟨requestedThreads ifs, threadHandles (neRxLanSlotsFor (ifs .local).queueTotal) neTxSlots
        neCryptoWorkers (neRxWanSlotsFor (ifs .wan).queueTotal)⟩ := by
  -- a failed creation after `a`, `b`, `c` and `d` threads of the groups
  have hfail : ∀ {g : ThreadGroup} {k a b c d : Nat} {created : List ThreadHandle},
      create ⟨g, k⟩ = false → (⟨g, k⟩ : ThreadHandle) ∈ requestedThreads ifs →
      created = threadHandles a b c d →
      (∃ h ∈ requestedThreads ifs, create h = false) ∧ ∃ a' b' c' d',
        forwarderJoinStarted ⟨created, []⟩ a b c d =
          ⟨threadHandles a' b' c' d', threadHandles a' b' c' d'⟩ := by
    intro g k a b c d created hc hmem hcreated
    exact ⟨⟨_, hmem, hc⟩, a, b, c, d, by simp [forwarderJoinStarted_eq, hcreated]⟩
  simp only [requestedThreads, mem_threadHandles, mem_groupHandles] at hfail ⊢
  simp only [forwarderRun, if_false, Bool.not_true, Bool.false_eq_true, ThreadLog.empty]
  rcases startThreads_cases create .localRx (neRxLanSlotsFor (ifs .local).queueTotal) ⟨[], []⟩
    with ⟨hlan, heq⟩ | ⟨a, ha, hc, heq⟩ <;> simp only [heq, List.nil_append]
  case inr => exact Or.inl (hfail hc (by simp [ha]) (by simp [threadHandles, groupHandles_zero]))
  generalize neRxLanSlotsFor (ifs .local).queueTotal = a at *
  rcases startThreads_cases create .tx (forwarderActiveTxSlots ifs) ⟨groupHandles .localRx a, []⟩
    with ⟨htx, heq⟩ | ⟨b, hb, hc, heq⟩ <;> simp only [heq]
  case inr => exact Or.inl (hfail hc (by simp [hb]) (by simp [threadHandles, groupHandles_zero]))
  generalize forwarderActiveTxSlots ifs = b at *
  rcases startThreads_cases create .crypto neCryptoWorkers
    ⟨groupHandles .localRx a ++ groupHandles .tx b, []⟩
    with ⟨hcrypto, heq⟩ | ⟨c, hlt, hc, heq⟩ <;> simp only [heq]
  case inr => exact Or.inl (hfail hc (by simp_all) (by simp [threadHandles, groupHandles_zero]))
  rcases startThreads_cases create .wanRx (neRxWanSlotsFor (ifs .wan).queueTotal)
    ⟨groupHandles .localRx a ++ groupHandles .tx b ++ groupHandles .crypto neCryptoWorkers, []⟩
    with ⟨hwan, heq⟩ | ⟨d, hd, hc, heq⟩ <;> simp only [heq]
  case inr => exact Or.inl (hfail hc (by simp [hd]) (by simp [threadHandles]))
  refine Or.inr ⟨?_, by simp [joinThreads_eq, threadHandles]⟩
  rintro ⟨g, i⟩ (⟨rfl, hi⟩ | ⟨rfl, hi⟩ | ⟨rfl, hi⟩ | ⟨rfl, hi⟩)
  · exact hlan i hi
  · exact htx i hi
  · exact hcrypto i hi
  · exact hwan i hi

/-! ## when the joins match -/

theorem forwarderActiveTxSlots_eq_neTxSlots (ifs : NePacketDir → Ifaces) :
    forwarderActiveTxSlots ifs = neTxSlots ↔
      (∃ dir, ∃ i < (ifs dir).count, (ifs dir).live i = true) ∧
      ∀ dir, ∀ i < (ifs dir).count, (ifs dir).live i = true → neTxSlots ≤ (ifs dir).queueCount i := by
  have hmin : ∀ m, m ≤ (limitTxSlots (ifs .wan) (limitTxSlots (ifs .local) (neTxSlots, false))).1 ↔
      m ≤ neTxSlots ∧ ∀ dir, ∀ i < (ifs dir).count, (ifs dir).live i = true →
        m ≤ (ifs dir).queueCount i := by
    intro m
    rw [le_limitTxSlots, le_limitTxSlots]
    constructor
    · rintro ⟨⟨hm, hlan⟩, hwan⟩
      refine ⟨hm, fun dir => ?_⟩
      cases dir
      · exact hlan
      · exact hwan
    · rintro ⟨hm, hall⟩
      exact ⟨⟨hm, hall .local⟩, hall .wan⟩
  have hfound : (limitTxSlots (ifs .wan) (limitTxSlots (ifs .local) (neTxSlots, false))).2 = true ↔
      ∃ dir, ∃ i < (ifs dir).count, (ifs dir).live i = true := by
    rw [limitTxSlots_found, limitTxSlots_found]
    constructor
    · rintro ((h | h) | h)
      · exact absurd h Bool.false_ne_true
      · exact ⟨.local, h⟩
      · exact ⟨.wan, h⟩
    · rintro ⟨dir, h⟩
      cases dir
      · exact Or.inl (Or.inr h)
      · exact Or.inr h
  rw [← hfound]
  have hle := (hmin _).mp le_rfl
  have heq := hmin neTxSlots
  unfold forwarderActiveTxSlots
  dsimp only
  constructor
  · intro h
    split_ifs at h with hc
    · exact ⟨hc.1, (heq.mp (Nat.le_of_eq h.symm)).2⟩
    · exact absurd h (by decide)
  · rintro ⟨hf, hall⟩
    have hge := heq.mpr ⟨le_rfl, hall⟩
    rw [if_pos ⟨hf, lt_of_lt_of_le (by decide) hge⟩]
    exact le_antisymm hle.1 hge
theorem length_requestedThreads (ifs : NePacketDir → Ifaces) : (requestedThreads ifs).length =
    neRxLanSlotsFor (ifs .local).queueTotal + forwarderActiveTxSlots ifs + neCryptoWorkers +
      neRxWanSlotsFor (ifs .wan).queueTotal := by
  simp [requestedThreads, length_threadHandles]

/-- The joins at the end of `forwarder_run` are those of the threads started exactly when
no TX slot was left out. -/
theorem joinedOnce_end_iff (ifs : NePacketDir → Ifaces) :
    ThreadLog.JoinedOnce ⟨requestedThreads ifs,
      threadHandles (neRxLanSlotsFor (ifs .local).queueTotal) neTxSlots neCryptoWorkers
        (neRxWanSlotsFor (ifs .wan).queueTotal)⟩ ↔ forwarderActiveTxSlots ifs = neTxSlots := by
  constructor
  · rintro ⟨-, hperm⟩
    have hlen := hperm.length_eq
    rw [length_requestedThreads, length_threadHandles] at hlen
    omega
  · intro h
    refine ⟨nodup_threadHandles _ _ _ _, ?_⟩
    simp only [requestedThreads, h]
    exact List.Perm.refl _

/-- The handles joined are the threads created, each once, unless `forwarder_run` creates all
its threads while the queues of a live interface leave TX slots out. -/
theorem forwarderRun_joinedOnce_iff (ifs : NePacketDir → Ifaces) (shouldStop cpuMapOk : Bool)
    (create : ThreadHandle → Bool) : (forwarderRun ifs shouldStop cpuMapOk create).JoinedOnce ↔
      shouldStop = true ∨ cpuMapOk = false ∨ (∃ h ∈ requestedThreads ifs, create h = false) ∨
      (∃ dir, ∃ i < (ifs dir).count, (ifs dir).live i = true) ∧
        ∀ dir, ∀ i < (ifs dir).count, (ifs dir).live i = true →
          neTxSlots ≤ (ifs dir).queueCount i := by
  rw [← forwarderActiveTxSlots_eq_neTxSlots]
  have hempty : ThreadLog.empty.JoinedOnce := ⟨List.nodup_nil, List.Perm.refl _⟩
  cases shouldStop with
  | true => simp [forwarderRun, hempty]
  | false =>
      cases cpuMapOk with
      | false => simp [forwarderRun, hempty]
      | true =>
          obtain ⟨hfail, a, b, c, d, heq⟩ | ⟨hall, heq⟩ := forwarderRun_cases ifs create
          · have hjoined : (forwarderRun ifs false true create).JoinedOnce := by
              rw [heq]
              exact ⟨nodup_threadHandles a b c d, List.Perm.refl _⟩
            simp only [hjoined, hfail, true_or, or_true]
          · have hnone : ¬ ∃ h ∈ requestedThreads ifs, create h = false := by
              rintro ⟨h, hmem, hc⟩
              exact absurd (hall h hmem) (by simp [hc])
            rw [heq, joinedOnce_end_iff]
            simp [hnone]

/-- With one queue a side there is one TX thread, and `tx_threads[1]` is joined all the same. -/
theorem forwarderRun_joins_missing :
    let ifs : NePacketDir → Ifaces := fun _ => ⟨1, fun _ => true, fun _ => 1⟩
    let log := forwarderRun ifs false true (fun _ => true)
    (⟨.tx, 1⟩ : ThreadHandle) ∈ log.joined ∧ (⟨.tx, 1⟩ : ThreadHandle) ∉ log.created ∧
      ¬ log.JoinedOnce := by
  refine ⟨by decide, by decide, fun h => ?_⟩
  exact absurd (h.2.mem_iff (a := ⟨.tx, 1⟩)) (by decide)

end NetworkEncryptor
