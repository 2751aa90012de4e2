import NetworkEncryptor.FlowOrder
import NetworkEncryptor.Threads

/-!
# NetworkEncryptor.CpuMap

The CPUs of the threads: the check of the tables of `inc/core/util/cpu_map.h`
(`src/core/util/cpu_map.c`), and the CPU each thread is pinned to.

The check goes through the tables in order, and stops at the first entry that is not
in the affinity mask of the process or was there before.  A slot past the end of its
table is given the CPU of slot 0, so two threads are apart only because
`forwarder_run` starts no more threads than the tables have entries.
-/

namespace NetworkEncryptor

/-! ## the check -/

def cpuSetSize : Nat := 1024

/-- `cpu_set_t`, or the array `seen`. -/
abbrev CpuSet := Nat → Bool

/-- What the check complains of: entry `i` of a table is outside of the mask, a CPU is
in the tables twice, or there is no mask. -/
inductive CpuMapError
  | outside (name : String) (i cpu : Nat)
  | shared (cpu : Nat)
  | affinity
  deriving DecidableEq

/-- The loop of `validate_group` from entry `i` on. -/
def validateGroupFrom (name : String) (allowed : CpuSet) : Nat → List Nat → CpuSet → Except CpuMapError CpuSet
  | _, [], seen => .ok seen
  | i, cpu :: cpus, seen =>
      if cpuSetSize ≤ cpu ∨ allowed cpu = false then .error (.outside name i cpu)
      else if seen cpu then .error (.shared cpu)
      else validateGroupFrom name allowed (i + 1) cpus (Function.update seen cpu true)

def validateGroup (name : String) (cpus : List Nat) (allowed seen : CpuSet) : Except CpuMapError CpuSet :=
  validateGroupFrom name allowed 0 cpus seen

/-- The groups one after the other. -/
def validateGroups (allowed : CpuSet) : List (String × List Nat) → CpuSet → Except CpuMapError CpuSet
  | [], seen => .ok seen
  | (name, cpus) :: groups, seen =>
      match validateGroup name cpus allowed seen with
      | .error e => .error e
      | .ok seen => validateGroups allowed groups seen

/-- The tables, in the order in which they are checked. -/
def cpuMap : List (String × List Nat) :=
  [("RX_LAN", neCpuRxLan), ("TX", neCpuTx), ("CRYPTO", neCpuCrypto), ("RX_WAN", neCpuRxWan)]

/-- `ne_cpu_map_validate`, where `affinity` is what `sched_getaffinity` answers. -/
def neCpuMapValidate (affinity : Option CpuSet) : Except CpuMapError Unit :=
  match affinity with
  | none => .error .affinity
  | some allowed =>
      match validateGroups allowed cpuMap fun _ => false with
      | .error e => .error e
      | .ok _ => .ok ()

/-- All CPUs are in the mask, none is there twice, and none was seen before. -/
def Assignable (allowed seen : CpuSet) (cpus : List Nat) : Prop :=
  cpus.Nodup ∧ ∀ cpu ∈ cpus, cpu < cpuSetSize ∧ allowed cpu = true ∧ seen cpu = false

/-- `seen` with the CPUs of a list. -/
def CpuSet.mark (seen : CpuSet) (cpus : List Nat) : CpuSet := fun cpu => seen cpu || cpus.contains cpu

section Validate

variable {name : String} {allowed seen : CpuSet} {cpus : List Nat}

theorem assignable_nil : Assignable allowed seen [] := by simp [Assignable]

theorem assignable_append {cpus' : List Nat} : Assignable allowed seen (cpus ++ cpus') ↔
    Assignable allowed seen cpus ∧ Assignable allowed (seen.mark cpus) cpus' := by
  simp only [Assignable, CpuSet.mark, List.nodup_append', List.mem_append, List.Disjoint, Bool.or_eq_false_iff,
    List.contains_eq_mem, decide_eq_false_iff_not]
  grind

theorem mark_mark (seen : CpuSet) (cpus cpus' : List Nat) : (seen.mark cpus).mark cpus' = seen.mark (cpus ++ cpus') := by
  funext cpu
  simp [CpuSet.mark, Bool.or_assoc]

theorem mark_nil (seen : CpuSet) : seen.mark [] = seen := by
  funext cpu
  simp [CpuSet.mark]

theorem mark_singleton (seen : CpuSet) (cpu : Nat) : Function.update seen cpu true = seen.mark [cpu] := by
  funext c
  by_cases h : c = cpu <;> simp [CpuSet.mark, h]

/-- An entry the check complains of. -/
inductive Complains (allowed seen : CpuSet) (groups : List (String × List Nat)) : CpuMapError → Prop
  | outside {name i cpu cpus} (hgroup : (name, cpus) ∈ groups) (hi : cpus[i]? = some cpu)
      (hout : ¬(cpu < cpuSetSize ∧ allowed cpu = true)) : Complains allowed seen groups (.outside name i cpu)
  | shared {cpu} (hmem : cpu ∈ groups.flatMap Prod.snd)
      (h : seen cpu = true ∨ 2 ≤ (groups.flatMap Prod.snd).count cpu) : Complains allowed seen groups (.shared cpu)

/-- `validate_group` from the middle of its table on. -/
theorem validateGroupFrom_spec (done : List Nat) :
    (validateGroupFrom name allowed done.length cpus (seen.mark done) = .ok (seen.mark (done ++ cpus)) ∧
      Assignable allowed (seen.mark done) cpus) ∨
    (∃ e, validateGroupFrom name allowed done.length cpus (seen.mark done) = .error e ∧
      Complains allowed seen [(name, done ++ cpus)] e ∧ ¬Assignable allowed (seen.mark done) cpus) := by
  induction cpus generalizing done with
  | nil => exact .inl ⟨by rw [List.append_nil]; rfl, assignable_nil⟩
  | cons cpu cpus ih =>
      rw [validateGroupFrom]
      by_cases hout : cpuSetSize ≤ cpu ∨ allowed cpu = false
      · rw [if_pos hout]
        refine .inr ⟨_, rfl, .outside (List.mem_singleton_self _) (by simp) ?_, fun h => ?_⟩
        · rintro ⟨hlt, hin⟩
          rcases hout with hge | hno
          · omega
          · rw [hin] at hno
            cases hno
        · obtain ⟨hlt, hin, -⟩ := h.2 cpu List.mem_cons_self
          rcases hout with hge | hno
          · omega
          · rw [hin] at hno
            cases hno
      · rw [if_neg hout]
        cases hseen : seen.mark done cpu with
        | true =>
            rw [if_pos rfl]
            refine .inr ⟨_, rfl, .shared (by simp) ?_, fun h => ?_⟩
            · rw [CpuSet.mark, Bool.or_eq_true, List.contains_iff_mem] at hseen
              refine hseen.imp_right fun hmem => ?_
              have := List.count_pos_iff.mpr hmem
              simp
              omega
            · have := (h.2 cpu List.mem_cons_self).2.2
              rw [hseen] at this
              cases this
        | false =>
            rw [if_neg Bool.false_ne_true, mark_singleton, mark_mark]
            have hsplit : Assignable allowed (seen.mark done) (cpu :: cpus) ↔
                Assignable allowed (seen.mark (done ++ [cpu])) cpus := by
              have happ := @assignable_append allowed (seen.mark done) [cpu] cpus
              rw [mark_mark] at happ
              refine happ.trans (and_iff_right ⟨List.nodup_singleton cpu, fun c hc => ?_⟩)
              rw [List.mem_singleton.mp hc]
              rw [not_or, Nat.not_le, Bool.not_eq_false] at hout
              exact ⟨hout.1, hout.2, hseen⟩
            have hnext := ih (done ++ [cpu])
            rw [List.length_append, List.append_assoc] at hnext
            rw [hsplit]
            exact hnext

theorem Complains.of_group {groups : List (String × List Nat)} {e : CpuMapError}
    (h : Complains allowed seen [(name, cpus)] e) (hin : (name, cpus) ∈ groups) :
    Complains allowed seen groups e := by
  cases h with
  | outside hgroup hi hout =>
      cases List.mem_singleton.mp hgroup
      exact .outside hin hi hout
  | shared hmem h =>
      obtain ⟨pre, post, rfl⟩ := List.append_of_mem hin
      refine .shared ?_ (h.imp_right fun h => Nat.le_trans h ?_)
      · simp only [List.flatMap_cons, List.flatMap_nil, List.append_nil] at hmem
        simp [hmem]
      · simp
        omega

/-- The check accepts the tables exactly when every CPU is in the mask and in one place, and
complains of an entry that is not so. -/
theorem validateGroups_spec (allowed : CpuSet) (groups : List (String × List Nat)) (seen : CpuSet) :
    (validateGroups allowed groups seen = .ok (seen.mark (groups.flatMap Prod.snd)) ∧
      Assignable allowed seen (groups.flatMap Prod.snd)) ∨
    (∃ e, validateGroups allowed groups seen = .error e ∧ Complains allowed seen groups e ∧
      ¬Assignable allowed seen (groups.flatMap Prod.snd)) := by
  induction groups generalizing seen with
  | nil => exact .inl ⟨by rw [List.flatMap_nil, mark_nil]; rfl, assignable_nil⟩
  | cons group groups ih =>
      obtain ⟨name, cpus⟩ := group
      rw [validateGroups, validateGroup, List.flatMap_cons]
      have hgroup := @validateGroupFrom_spec name allowed seen cpus []
      rw [mark_nil, List.length_nil, List.nil_append] at hgroup
      rcases hgroup with ⟨hok, hassign⟩ | ⟨e, herr, hcomp, hassign⟩
      · rw [hok]
        dsimp only
        have hrest := ih (seen.mark cpus)
        rw [mark_mark] at hrest
        rcases hrest with ⟨hok', hassign'⟩ | ⟨e, herr', hcomp', hassign'⟩
        · exact .inl ⟨hok', assignable_append.mpr ⟨hassign, hassign'⟩⟩
        · refine .inr ⟨e, herr', ?_, fun h => hassign' (assignable_append.mp h).2⟩
          cases hcomp' with
          | outside hin hi hout => exact .outside (List.mem_cons_of_mem _ hin) hi hout
          | @shared cpu hmem h =>
              rw [CpuSet.mark, Bool.or_eq_true, List.contains_iff_mem, or_assoc] at h
              refine .shared (by rw [List.flatMap_cons]; exact List.mem_append_right _ hmem) (h.imp_right fun h => ?_)
              rw [List.flatMap_cons, List.count_append]
              dsimp only
              rcases h with h | h
              · have hone := List.count_pos_iff.mpr h
                have htwo := List.count_pos_iff.mpr hmem
                omega
              · omega
      · rw [herr]
        exact .inr ⟨e, rfl, hcomp.of_group List.mem_cons_self, fun h => hassign (assignable_append.mp h).1⟩

end Validate

/-! ## the CPUs of the threads -/

/-- An entry of a table; a slot past its end is given the first. -/
def cpuAt (cpus : List Nat) (slot : Nat) : Nat := cpus.getD (if slot < cpus.length then slot else 0) 0

def neCpuRxLanAt (slot : Nat) : Nat := cpuAt neCpuRxLan slot
def neCpuRxWanAt (slot : Nat) : Nat := cpuAt neCpuRxWan slot
def neCpuTxAt (slot : Nat) : Nat := cpuAt neCpuTx slot
def neCpuCryptoAt (worker : Nat) : Nat := cpuAt neCpuCrypto worker

/-- The `cpu_id` that `forwarder_run` puts into the context of a thread. -/
def ThreadHandle.cpuId (h : ThreadHandle) : Nat :=
  match h.group with
  | .localRx => neCpuRxLanAt h.idx
  | .tx => neCpuTxAt h.idx
  | .crypto => neCpuCryptoAt h.idx
  | .wanRx => neCpuRxWanAt h.idx

/-- `pin_cpu`: the mask of the thread afterwards, where `rc` is what
`pthread_setaffinity_np` answers. -/
def pinCpu (cpu : Nat) (rc : Int) (mask : CpuSet) : CpuSet :=
  if rc ≠ 0 then mask else Function.update (fun _ => false) cpu true

/-- A pinned thread runs on its CPU only. -/
theorem pinCpu_eq_true {cpu c : Nat} {mask : CpuSet} (h : pinCpu cpu 0 mask c = true) : c = cpu := by
  by_contra hne
  rw [pinCpu, if_neg (by decide), Function.update_of_ne hne] at h
  cases h

theorem groupHandles_sublist (group : ThreadGroup) {k n : Nat} (h : k ≤ n) :
    (groupHandles group k).Sublist (groupHandles group n) :=
  (List.range_sublist.mpr h).map _

theorem threadHandles_sublist {a b c d a' b' c' d' : Nat} (ha : a ≤ a') (hb : b ≤ b') (hc : c ≤ c') (hd : d ≤ d') :
    (threadHandles a b c d).Sublist (threadHandles a' b' c' d') :=
  (((groupHandles_sublist _ ha).append (groupHandles_sublist _ hb)).append (groupHandles_sublist _ hc)).append
    (groupHandles_sublist _ hd)

/-- A group is started up to some handle. -/
theorem startThreads_upTo (create : ThreadHandle → Bool) (group : ThreadGroup) (n : Nat) (log : ThreadLog) :
    ∃ k ≤ n, ∃ ok, startThreads create group n 0 log =
      (k, ok, ⟨log.created ++ groupHandles group k, log.joined⟩) := by
  rcases startThreads_cases create group n log with ⟨-, heq⟩ | ⟨k, hk, -, heq⟩
  · exact ⟨n, le_rfl, _, heq⟩
  · exact ⟨k, Nat.le_of_lt hk, _, heq⟩

/-- The threads that are created are among those asked for. -/
theorem forwarderRun_created (ifs : NePacketDir → Ifaces) (shouldStop cpuMapOk : Bool) (create : ThreadHandle → Bool) :
    (forwarderRun ifs shouldStop cpuMapOk create).created.Sublist (requestedThreads ifs) := by
  suffices h : ∃ a ≤ neRxLanSlotsFor (ifs .local).queueTotal, ∃ b ≤ forwarderActiveTxSlots ifs,
      ∃ c ≤ neCryptoWorkers, ∃ d ≤ neRxWanSlotsFor (ifs .wan).queueTotal,
        (forwarderRun ifs shouldStop cpuMapOk create).created = threadHandles a b c d by
    obtain ⟨a, ha, b, hb, c, hc, d, hd, heq⟩ := h
    rw [heq]
    exact threadHandles_sublist ha hb hc hd
  unfold forwarderRun
  split
  · exact ⟨0, Nat.zero_le _, 0, Nat.zero_le _, 0, Nat.zero_le _, 0, Nat.zero_le _, rfl⟩
  split
  · exact ⟨0, Nat.zero_le _, 0, Nat.zero_le _, 0, Nat.zero_le _, 0, Nat.zero_le _, rfl⟩
  dsimp only
  obtain ⟨a, ha, oka, heqa⟩ := startThreads_upTo create .localRx (neRxLanSlotsFor (ifs .local).queueTotal) .empty
  obtain ⟨b, hb, okb, heqb⟩ := startThreads_upTo create .tx (forwarderActiveTxSlots ifs)
    ⟨groupHandles .localRx a, []⟩
  obtain ⟨c, hc, okc, heqc⟩ := startThreads_upTo create .crypto neCryptoWorkers
    ⟨groupHandles .localRx a ++ groupHandles .tx b, []⟩
  obtain ⟨d, hd, okd, heqd⟩ := startThreads_upTo create .wanRx (neRxWanSlotsFor (ifs .wan).queueTotal)
    ⟨groupHandles .localRx a ++ groupHandles .tx b ++ groupHandles .crypto c, []⟩
  rw [heqa]
  cases oka with
  | false => exact ⟨a, ha, 0, Nat.zero_le _, 0, Nat.zero_le _, 0, Nat.zero_le _, by
      simp [forwarderJoinStarted_eq, threadHandles, groupHandles_zero, ThreadLog.empty]⟩
  | true =>
      dsimp only [ThreadLog.empty, List.nil_append]
      rw [heqb]
      cases okb with
      | false => exact ⟨a, ha, b, hb, 0, Nat.zero_le _, 0, Nat.zero_le _, by
          simp [forwarderJoinStarted_eq, threadHandles, groupHandles_zero]⟩
      | true =>
          dsimp only
          rw [heqc]
          cases okc with
          | false => exact ⟨a, ha, b, hb, c, hc, 0, Nat.zero_le _, by
              simp [forwarderJoinStarted_eq, threadHandles, groupHandles_zero]⟩
          | true =>
              dsimp only
              rw [heqd]
              refine ⟨a, ha, b, hb, c, hc, d, hd, ?_⟩
              cases okd <;> simp [forwarderJoinStarted_eq, joinThreads_eq, threadHandles]

/-- Without a CPU map no thread is created. -/
theorem forwarderRun_refused (ifs : NePacketDir → Ifaces) (shouldStop : Bool) (create : ThreadHandle → Bool) :
    forwarderRun ifs shouldStop false create = .empty := by
  cases shouldStop <;> rfl

/-- The slots of a table have its CPUs. -/
theorem map_cpuAt (cpus : List Nat) : (List.range cpus.length).map (cpuAt cpus) = cpus := by
  refine List.ext_getElem (by simp) fun i hi hi' => ?_
  rw [List.getElem_map, List.getElem_range, cpuAt, if_pos hi', List.getD_eq_getElem _ _ hi']

/-- No thread that is asked for is past the end of its table. -/
theorem requestedThreads_sublist (ifs : NePacketDir → Ifaces) : (requestedThreads ifs).Sublist
    (threadHandles neCpuRxLan.length neCpuTx.length neCpuCrypto.length neCpuRxWan.length) := by
  have hslots : ∀ total max, 1 ≤ max → neRxSlotsForQueues total max ≤ max := by
    intro total max hmax
    unfold neRxSlotsForQueues
    split_ifs <;> omega
  exact threadHandles_sublist (hslots _ _ (by decide)) (forwarderActiveTxSlots_bounds ifs).2 le_rfl
    (hslots _ _ (by decide))

/-- One thread for every entry of the tables: the CPUs are those of the map. -/
theorem map_cpuId : (threadHandles neCpuRxLan.length neCpuTx.length neCpuCrypto.length neCpuRxWan.length).map
    ThreadHandle.cpuId = cpuMap.flatMap Prod.snd := by
  have hgroup : ∀ g cpus, (∀ i, ThreadHandle.cpuId ⟨g, i⟩ = cpuAt cpus i) →
      (groupHandles g cpus.length).map ThreadHandle.cpuId = cpus := by
    intro g cpus h
    rw [groupHandles, List.map_map]
    exact (List.map_congr_left fun i _ => h i).trans (map_cpuAt cpus)
  rw [threadHandles, List.map_append, List.map_append, List.map_append, hgroup .localRx neCpuRxLan fun _ => rfl,
    hgroup .tx neCpuTx fun _ => rfl, hgroup .crypto neCpuCrypto fun _ => rfl, hgroup .wanRx neCpuRxWan fun _ => rfl]
  rfl

theorem neCpuMapValidate_isOk {affinity : Option CpuSet} : (neCpuMapValidate affinity).isOk = true ↔
    ∃ allowed, affinity = some allowed ∧ Assignable allowed (fun _ => false) (cpuMap.flatMap Prod.snd) := by
  cases affinity with
  | none => simp [neCpuMapValidate, Except.isOk, Except.toBool]
  | some allowed =>
      rw [neCpuMapValidate]
      rcases validateGroups_spec allowed cpuMap fun _ => false with ⟨hok, hassign⟩ | ⟨e, herr, -, hassign⟩
      · rw [hok]
        exact ⟨fun _ => ⟨allowed, rfl, hassign⟩, fun _ => rfl⟩
      · rw [herr]
        constructor
        · intro h
          cases h
        · rintro ⟨_, heq, h⟩
          cases heq
          exact absurd h hassign

/-- Whatever tables `ne_cpu_map_validate` is given, it accepts them exactly when every CPU is
in the affinity mask and in one place, and complains of an entry that is not so; and whatever
`forwarder_run` creates, each thread has a CPU of the mask, and no two that could be pinned
can run on the same one. -/
theorem threads_pinned_apart :
    (∀ allowed groups, match validateGroups allowed groups fun _ => false with
      | .ok _ => Assignable allowed (fun _ => false) (groups.flatMap Prod.snd)
      | .error e => Complains allowed (fun _ => false) groups e ∧
          ¬Assignable allowed (fun _ => false) (groups.flatMap Prod.snd)) ∧
    ∀ affinity ifs shouldStop create,
      let log := forwarderRun ifs shouldStop (neCpuMapValidate affinity).isOk create
      (∀ h ∈ log.created, ∃ allowed, affinity = some allowed ∧ allowed h.cpuId = true) ∧
        log.created.Pairwise fun h h' => ∀ mask mask' cpu,
          ¬(pinCpu h.cpuId 0 mask cpu = true ∧ pinCpu h'.cpuId 0 mask' cpu = true) := by
  constructor
  · intro allowed groups
    rcases validateGroups_spec allowed groups fun _ => false with ⟨hok, hassign⟩ | ⟨e, herr, hcomp, hassign⟩
    · rw [hok]
      exact hassign
    · rw [herr]
      exact ⟨hcomp, hassign⟩
  · intro affinity ifs shouldStop create
    cases hok : (neCpuMapValidate affinity).isOk with
    | false =>
        rw [forwarderRun_refused]
        exact ⟨fun h hmem => (List.not_mem_nil hmem).elim, List.Pairwise.nil⟩
    | true =>
        obtain ⟨allowed, rfl, hnodup, hall⟩ := neCpuMapValidate_isOk.mp hok
        have hsub := ((forwarderRun_created ifs shouldStop true create).trans (requestedThreads_sublist ifs)).map
          ThreadHandle.cpuId
        rw [map_cpuId] at hsub
        refine ⟨fun h hmem => ⟨allowed, rfl, ?_⟩, (List.pairwise_map.mp (hnodup.sublist hsub)).imp ?_⟩
        · exact (hall _ (hsub.subset (List.mem_map_of_mem hmem))).2.1
        · rintro h h' hne mask mask' cpu ⟨hc, hc'⟩
          exact hne ((pinCpu_eq_true hc).symm.trans (pinCpu_eq_true hc'))

end NetworkEncryptor
