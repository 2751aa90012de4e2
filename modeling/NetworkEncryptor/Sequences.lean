import NetworkEncryptor.Routes
import NetworkEncryptor.Lib.Run

/-!
# NetworkEncryptor.Sequences

The sequence numbers of UDP flows: over every run of draws and route lookups,
what `dp_udp_next_tx_seq` returns for one flow and direction.

A flow's counters live in its route entry, or, when its route set is saturated,
in a fallback table of its worker.  The route table never gives an entry up.
The fallback does: a fifth flow of one fallback set takes the place of the
least recently used one, which starts again at zero.  As long as that does not
happen the numbers are 0, 1, 2, … (`draws_in_order`).
-/

namespace NetworkEncryptor

/-! ## the fallback table -/

/-- The fallback set of a key. -/
def fallbackSet (key : RouteKey) : Nat := (dpRouteKeyHash key).toNat % dpUdpSeqFallbackSets

/-- The way of the fallback that holds `key`. -/
def fallbackFind (tls : RouteTls) (key : RouteKey) : Option Nat :=
  findWay dpUdpSeqFallbackWays fun way =>
    (tls.udpSeqFallback (fallbackSet key) way).valid &&
      (tls.udpSeqFallback (fallbackSet key) way).key = key

/-- The number the fallback holds for a flow; a flow it does not know is at
zero. -/
def fallbackSeq (tls : RouteTls) (key : RouteKey) (dir : Bool) : UInt32 :=
  match fallbackFind tls key with
  | some way => (tls.udpSeqFallback (fallbackSet key) way).nextSeq dir
  | none => 0

/-- The fallback set of `key` holds it already or has a free way. -/
def FallbackRoom (tls : RouteTls) (key : RouteKey) : Prop :=
  ∃ way < dpUdpSeqFallbackWays, (tls.udpSeqFallback (fallbackSet key) way).valid = false ∨
    (tls.udpSeqFallback (fallbackSet key) way).key = key

instance (tls : RouteTls) (key : RouteKey) : Decidable (FallbackRoom tls key) :=
  inferInstanceAs (Decidable (∃ way < _, _))

/-- A way that was never used carries no stamp. -/
def FreeUnstamped (tls : RouteTls) : Prop :=
  ∀ s way, (tls.udpSeqFallback s way).valid = false → (tls.udpSeqFallback s way).stamp = 0

section Scan

variable {set : Nat → UdpSeqFallback} {key : RouteKey}
  (hstamp : ∀ way, (set way).valid = false → (set way).stamp = 0)

include hstamp

/-- One round of the scan over a way that does not match: the victim it goes on
with is free if either candidate is. -/
theorem fallbackScan_next {way : Nat} (ways victim : Nat)
    (hmatch : ¬((set way).valid = true ∧ (set way).key = key)) :
    ∃ v, fallbackScan set key (ways + 1) way victim = fallbackScan set key ways (way + 1) v ∧
      (v = victim ∨ v = way) ∧
      ((set victim).valid = false ∨ (set way).valid = false → (set v).valid = false) := by
  rw [fallbackScan, if_neg hmatch]
  split_ifs with hfree hlt
  · exact ⟨way, rfl, .inr rfl, fun _ => hfree⟩
  · refine ⟨way, rfl, .inr rfl, ?_⟩
    rintro (hv | hv)
    · rw [hstamp victim hv] at hlt
      exact absurd hlt (UInt32.not_lt_zero)
    · exact hv
  · refine ⟨victim, rfl, .inl rfl, ?_⟩
    rintro (hv | hv)
    · exact hv
    · exact absurd hv hfree

/-- The scan finds the first way of the key, or none matches and it ends with a
victim; when a way is free, the victim is one. -/
theorem fallbackScan_spec (ways way victim : Nat) :
    (∃ w, fallbackScan set key ways way victim = .inl w ∧
        (List.range' way ways).find? (fun i => (set i).valid && (set i).key = key) = some w) ∨
      (∃ v, fallbackScan set key ways way victim = .inr v ∧
        (List.range' way ways).find? (fun i => (set i).valid && (set i).key = key) = none ∧
        (v = victim ∨ v ∈ List.range' way ways) ∧
        ((set victim).valid = false ∨ (∃ i ∈ List.range' way ways, (set i).valid = false) →
          (set v).valid = false)) := by
  induction ways generalizing way victim with
  | zero => exact .inr ⟨victim, rfl, rfl, .inl rfl, by simp⟩
  | succ ways ih =>
      rw [List.range'_succ, List.find?_cons]
      by_cases hmatch : (set way).valid = true ∧ (set way).key = key
      · exact .inl ⟨way, by rw [fallbackScan, if_pos hmatch], by simp [hmatch]⟩
      · obtain ⟨v, heq, hv, hfree⟩ := fallbackScan_next hstamp ways victim hmatch
        have hno : ((set way).valid && decide ((set way).key = key)) = false := by
          simpa using hmatch
        rw [heq, hno]
        rcases ih (way + 1) v with ⟨w, hw, hf⟩ | ⟨u, hu, hf, hmem, hfr⟩
        · exact .inl ⟨w, hw, hf⟩
        · refine .inr ⟨u, hu, hf, ?_, ?_⟩
          · rcases hmem with rfl | hmem
            · rcases hv with rfl | rfl
              · exact .inl rfl
              · exact .inr (by simp)
            · exact .inr (List.mem_cons_of_mem _ hmem)
          · rintro (hvic | ⟨i, hi, hif⟩)
            · exact hfr (.inl (hfree (.inl hvic)))
            · rcases List.mem_cons.mp hi with rfl | hi
              · exact hfr (.inl (hfree (.inr hif)))
              · exact hfr (.inr ⟨i, hi, hif⟩)

end Scan

/-! ## a draw from the fallback -/

section Fallback

variable {tls : RouteTls} {key : RouteKey} {w : Nat} {e : UdpSeqFallback}

/-- Store an entry in a way of the fallback set of `key`. -/
def RouteTls.putFallback (tls : RouteTls) (key : RouteKey) (w : Nat) (e : UdpSeqFallback) :
    RouteTls :=
  { tls with
    udpSeqStamp := tls.udpSeqStamp + 1
    udpSeqFallback := Function.update tls.udpSeqFallback (fallbackSet key)
      (Function.update (tls.udpSeqFallback (fallbackSet key)) w e) }

theorem RouteTls.putFallback_entry (s way : Nat) :
    (tls.putFallback key w e).udpSeqFallback s way =
      if s = fallbackSet key ∧ way = w then e else tls.udpSeqFallback s way := by
  unfold RouteTls.putFallback
  by_cases hs : s = fallbackSet key
  · subst hs
    by_cases hw : way = w
    · subst hw; simp
    · simp [hw]
  · simp [hs]

theorem fallbackFind_eq_some (h : fallbackFind tls key = some w) :
    w < dpUdpSeqFallbackWays ∧ (tls.udpSeqFallback (fallbackSet key) w).valid = true ∧
      (tls.udpSeqFallback (fallbackSet key) w).key = key := by
  obtain ⟨hlt, hp⟩ := findWay_eq_some h
  simp only [Bool.and_eq_true, decide_eq_true_eq] at hp
  exact ⟨hlt, hp⟩

/-- The way `w` may be given to `key`: it is the key's, or the key has none and
the way is free. -/
def Available (tls : RouteTls) (key : RouteKey) (w : Nat) : Prop :=
  w < dpUdpSeqFallbackWays ∧ (fallbackFind tls key = some w ∨
    (fallbackFind tls key = none ∧ (tls.udpSeqFallback (fallbackSet key) w).valid = false))

theorem fallbackFind_put (hav : Available tls key w) (hv : e.valid = true) (hk : e.key = key) :
    fallbackFind (tls.putFallback key w e) key = some w := by
  obtain ⟨hlt, hsome | ⟨hnone, -⟩⟩ := hav
  · rw [← hsome]
    refine findWay_congr fun i _ => ?_
    rw [RouteTls.putFallback_entry]
    split_ifs with h
    · obtain ⟨-, hvalid, hkey⟩ := fallbackFind_eq_some hsome
      rw [h.2, hv, hk, hvalid, hkey]
    · rfl
  · refine findWay_eq_of_unique hlt ?_ fun i hi hp => ?_
    · simp [RouteTls.putFallback_entry, hv, hk]
    · by_contra hne
      have hold := findWay_eq_none_iff.mp hnone i hi
      simp only [RouteTls.putFallback_entry, hne, and_false, if_false] at hp
      rw [hp] at hold
      cases hold

theorem fallbackFind_put_of_ne {key' : RouteKey} (hav : Available tls key w) (hk : e.key = key)
    (hne : key' ≠ key) : fallbackFind (tls.putFallback key w e) key' = fallbackFind tls key' := by
  refine findWay_congr fun i _ => ?_
  rw [RouteTls.putFallback_entry]
  split_ifs with h
  · rw [h.1, h.2, hk, decide_eq_false (Ne.symm hne), Bool.and_false]
    rcases hav.2 with hsome | ⟨-, hfree⟩
    · rw [(fallbackFind_eq_some hsome).2.2, decide_eq_false (Ne.symm hne), Bool.and_false]
    · rw [hfree, Bool.false_and]
  · rfl

/-- The way of another flow is neither free nor the key's. -/
theorem putFallback_entry_of_find {key' : RouteKey} {i : Nat} (hav : Available tls key w)
    (hne : key' ≠ key) (hf : fallbackFind tls key' = some i) :
    (tls.putFallback key w e).udpSeqFallback (fallbackSet key') i =
      tls.udpSeqFallback (fallbackSet key') i := by
  obtain ⟨-, hvalid, hkey⟩ := fallbackFind_eq_some hf
  rw [RouteTls.putFallback_entry, if_neg]
  intro h
  rw [h.1, h.2] at hvalid hkey
  rcases hav.2 with hsome | ⟨-, hfree⟩
  · exact hne (hkey.symm.trans (fallbackFind_eq_some hsome).2.2)
  · rw [hfree] at hvalid
    cases hvalid

theorem fallbackSeq_of_find (h : fallbackFind tls key = some w) (dir : Bool) :
    fallbackSeq tls key dir = (tls.udpSeqFallback (fallbackSet key) w).nextSeq dir := by
  rw [fallbackSeq, h]

theorem fallbackSeq_of_none (h : fallbackFind tls key = none) (dir : Bool) :
    fallbackSeq tls key dir = 0 := by
  rw [fallbackSeq, h]

theorem fallbackSeq_put_of_ne {key' : RouteKey} (hav : Available tls key w) (hk : e.key = key)
    (hne : key' ≠ key) (dir : Bool) :
    fallbackSeq (tls.putFallback key w e) key' dir = fallbackSeq tls key' dir := by
  have hfind : fallbackFind (tls.putFallback key w e) key' = fallbackFind tls key' :=
    fallbackFind_put_of_ne hav hk hne
  cases hf : fallbackFind tls key' with
  | none => rw [fallbackSeq_of_none hf, fallbackSeq_of_none (hfind.trans hf)]
  | some i =>
      rw [fallbackSeq_of_find hf, fallbackSeq_of_find (hfind.trans hf),
        putFallback_entry_of_find hav hne hf]

theorem dpUdpSeqFromFallback_inl
    (hscan : fallbackScan (tls.udpSeqFallback (fallbackSet key)) key dpUdpSeqFallbackWays 0 0 = .inl w)
    (dir : Bool) :
    dpUdpSeqFromFallback tls key dir =
      ((tls.udpSeqFallback (fallbackSet key) w).nextSeq dir,
        tls.putFallback key w { tls.udpSeqFallback (fallbackSet key) w with
          stamp := tls.udpSeqStamp + 1
          nextSeq := Function.update (tls.udpSeqFallback (fallbackSet key) w).nextSeq dir
            ((tls.udpSeqFallback (fallbackSet key) w).nextSeq dir + 1) }) := by
  simp only [fallbackSet] at hscan
  simp only [dpUdpSeqFromFallback, hscan]
  rfl

theorem dpUdpSeqFromFallback_inr
    (hscan : fallbackScan (tls.udpSeqFallback (fallbackSet key)) key dpUdpSeqFallbackWays 0 0 = .inr w)
    (dir : Bool) :
    dpUdpSeqFromFallback tls key dir =
      (0, tls.putFallback key w
        ⟨key, Function.update (fun _ => 0) dir 1, tls.udpSeqStamp + 1, true⟩) := by
  simp only [fallbackSet] at hscan
  simp only [dpUdpSeqFromFallback, hscan]
  rfl

/-- A draw from the fallback with room returns the flow's number and stores the
next one. -/
theorem dpUdpSeqFromFallback_eq (hstamp : FreeUnstamped tls) (hroom : FallbackRoom tls key)
    (dir : Bool) :
    ∃ w e, Available tls key w ∧ e.valid = true ∧ e.key = key ∧
      e.nextSeq = Function.update (fallbackSeq tls key) dir (fallbackSeq tls key dir + 1) ∧
      dpUdpSeqFromFallback tls key dir = (fallbackSeq tls key dir, tls.putFallback key w e) := by
  have hrange : ∀ p : Nat → Bool, (List.range' 0 dpUdpSeqFallbackWays).find? p =
      findWay dpUdpSeqFallbackWays p := fun p => by rw [findWay, List.range_eq_range']
  rcases @fallbackScan_spec _ key (hstamp (fallbackSet key)) dpUdpSeqFallbackWays 0 0 with
    ⟨w, hscan, hf⟩ | ⟨v, hscan, hf, hmem, hfree⟩
  · rw [hrange] at hf
    obtain ⟨hlt, hvalid, hkey⟩ := fallbackFind_eq_some hf
    have hseq : fallbackSeq tls key = (tls.udpSeqFallback (fallbackSet key) w).nextSeq :=
      funext (fallbackSeq_of_find hf)
    refine ⟨w, { tls.udpSeqFallback (fallbackSet key) w with
        stamp := tls.udpSeqStamp + 1
        nextSeq := Function.update (fallbackSeq tls key) dir (fallbackSeq tls key dir + 1) },
      ⟨hlt, .inl hf⟩, hvalid, hkey, rfl, ?_⟩
    rw [hseq]
    exact dpUdpSeqFromFallback_inl hscan dir
  · rw [hrange] at hf
    have hseq : fallbackSeq tls key = fun _ => 0 := funext (fallbackSeq_of_none hf)
    have hlt : v < dpUdpSeqFallbackWays := by
      rcases hmem with rfl | hmem
      · decide
      · rw [← List.range_eq_range'] at hmem
        exact List.mem_range.mp hmem
    have hvfree : (tls.udpSeqFallback (fallbackSet key) v).valid = false := by
      obtain ⟨way, hway, hor⟩ := hroom
      refine hfree (.inr ⟨way, ?_, ?_⟩)
      · rw [← List.range_eq_range']
        exact List.mem_range.mpr hway
      · rcases hor with hinv | hkey
        · exact hinv
        · have hno := findWay_eq_none_iff.mp hf way hway
          simpa [hkey] using hno
    refine ⟨v, ⟨key, Function.update (fun _ => 0) dir 1, tls.udpSeqStamp + 1, true⟩,
      ⟨hlt, .inr ⟨hf, hvfree⟩⟩, rfl, rfl, ?_, ?_⟩
    · rw [hseq]; rfl
    · rw [hseq]
      exact dpUdpSeqFromFallback_inr hscan dir

end Fallback

/-! ## runs -/

/-- A number handed out. -/
structure Draw where
  key : RouteKey
  dir : Bool
  value : UInt32
  deriving DecidableEq

/-- The route table, what every worker thread keeps for itself, and the numbers
handed out so far. -/
structure SeqState where
  rt : RouteState
  tls : Nat → RouteTls
  log : List Draw

/-- The state when the threads start, with `slots` TX slots in use. -/
def SeqState.init (slots : UInt32) : SeqState :=
  let rt := dpRouteSetActiveTxSlots RouteState.init slots
  { rt := rt, tls := fun w => dpCryptoWorkerBind rt w RouteTls.init, log := [] }

inductive SeqEvent where
  /-- any thread looks up the route of a packet -/
  | lookup (pkt : Mem) (len : Nat) (hint : Option Nat)
  /-- a worker draws the next number for a packet -/
  | draw (worker : Nat) (pkt : Mem) (len : Nat)

def SeqState.step (s : SeqState) : SeqEvent → SeqState
  | .lookup pkt len hint => { s with rt := (dpFlowRouteGet s.rt pkt len hint).2 }
  | .draw w pkt len =>
      let r := dpUdpNextTxSeq s.rt (s.tls w) pkt len
      { rt := r.2.1
        tls := Function.update s.tls w r.2.2
        log := match dpRouteKeyParseDirection pkt len, r.1 with
          | some (key, dir), some value => s.log ++ [⟨key, dir, value⟩]
          | _, _ => s.log }

/-- The numbers handed out for one flow and direction, in order. -/
def SeqState.draws (s : SeqState) (key : RouteKey) (dir : Bool) : List UInt32 :=
  (s.log.filter fun d => d.key = key ∧ d.dir = dir).map (·.value)

/-- Every draw for a flow is made by the flow's own worker. -/
def Sticky (own : RouteKey → Nat) : SeqEvent → Prop
  | .lookup .. => True
  | .draw w pkt len => ∀ key ∈ dpRouteKeyParse pkt len, own key = w

instance (own : RouteKey → Nat) : ∀ e, Decidable (Sticky own e)
  | .lookup .. => .isTrue trivial
  | .draw .. => inferInstanceAs (Decidable (∀ key ∈ _, _))

/-- A draw for a flow whose route set is saturated finds the flow or a free way
in the fallback set of the worker. -/
def DrawHasRoom (s : SeqState) : SeqEvent → Prop
  | .lookup .. => True
  | .draw w pkt len => ∀ key ∈ dpRouteKeyParse pkt len,
      Saturated s.rt key → FallbackRoom (s.tls w) key

instance (s : SeqState) : ∀ e, Decidable (DrawHasRoom s e)
  | .lookup .. => .isTrue trivial
  | .draw .. => inferInstanceAs (Decidable (∀ key ∈ _, _))

/-! ## the counter of a flow -/

/-- The number the next draw for a flow will return, wherever it is kept. -/
def SeqState.next (own : RouteKey → Nat) (s : SeqState) (key : RouteKey) (dir : Bool) : UInt32 :=
  match routeFind s.rt key with
  | some way => (s.rt.table (routeSet key) way).udpTxSeq dir
  | none => fallbackSeq (s.tls (own key)) key dir

/-- One counter a flow and direction: a flow has numbers in a fallback table only
while its route set is saturated, and what was handed out is an initial segment
of the natural numbers. -/
structure Counted (own : RouteKey → Nat) (s : SeqState) : Prop where
  unstamped : ∀ w, FreeUnstamped (s.tls w)
  saturated : ∀ w key, fallbackFind (s.tls w) key ≠ none → Saturated s.rt key
  counter : ∀ key dir, s.next own key dir = UInt32.ofNat (s.draws key dir).length
  values : ∀ key dir, s.draws key dir = (List.range (s.draws key dir).length).map UInt32.ofNat

section Counter

variable {own : RouteKey → Nat} {s : SeqState} {key : RouteKey} {way : Nat} {dir : Bool}

theorem SeqState.next_of_find (h : routeFind s.rt key = some way) :
    s.next own key dir = (s.rt.table (routeSet key) way).udpTxSeq dir := by
  rw [SeqState.next, h]

theorem SeqState.next_of_none (h : routeFind s.rt key = none) :
    s.next own key dir = fallbackSeq (s.tls (own key)) key dir := by
  rw [SeqState.next, h]

theorem Counted.init (own : RouteKey → Nat) (slots : UInt32) : Counted own (SeqState.init slots) := by
  have hfind : ∀ key, routeFind (SeqState.init slots).rt key = none := by
    intro key
    rw [routeFind_eq_findWay, findWay_eq_none_iff]
    intro i _
    rfl
  have hfall : ∀ w key, fallbackFind ((SeqState.init slots).tls w) key = none := by
    intro w key
    rw [fallbackFind, findWay_eq_none_iff]
    intro i _
    rfl
  refine ⟨fun w s way _ => rfl, fun w key h => absurd (hfall w key) h, fun key dir => ?_,
    fun key dir => rfl⟩
  rw [SeqState.next_of_none (hfind key), fallbackSeq_of_none (hfall _ key)]
  rfl

/-- An insert keeps every counter: the new flow had none yet. -/
theorem Counted.insert (h : Counted own s) (hfind : routeFind s.rt key = none)
    (hempty : routeEmpty s.rt key = some way) (hint : Option Nat) :
    Counted own { s with rt := (routeInsert s.rt key hint way).2 } := by
  refine ⟨h.unstamped, fun w key' hf => Saturated.insert hempty hint (h.saturated w key' hf),
    fun key' dir => ?_, h.values⟩
  refine Eq.trans ?_ (h.counter key' dir)
  by_cases hne : key' = key
  · subst hne
    have hnone : fallbackFind (s.tls (own key')) key' = none := by
      by_contra hsome
      have hsat := (h.saturated _ _ hsome).2
      rw [hempty] at hsat
      cases hsat
    obtain ⟨e, -, -, hzero, htab⟩ := @routeInsert_table s.rt key' way hint
    rw [SeqState.next_of_none hfind, fallbackSeq_of_none hnone,
      SeqState.next_of_find (routeFind_insert hfind hempty hint)]
    simp only [htab, RouteState.setEntry_table, and_self, if_true]
    exact hzero dir
  · have hkeep := routeFind_insert_of_ne hempty hint hne
    cases hf : routeFind s.rt key' with
    | none => rw [SeqState.next_of_none hf, SeqState.next_of_none (hkeep.trans hf)]
    | some i =>
        rw [SeqState.next_of_find hf, SeqState.next_of_find (hkeep.trans hf)]
        simp only [routeInsert_of_valid hempty hint (routeFind_eq_some hf).2.1]

/-- A route lookup keeps every counter. -/
theorem Counted.lookup (h : Counted own s) (pkt : Mem) (len : Nat) (hint : Option Nat) :
    Counted own { s with rt := (dpFlowRouteGet s.rt pkt len hint).2 } := by
  rcases dpFlowRouteGet_cases s.rt pkt len hint with heq | ⟨key, way, -, hfind, hempty, heq⟩
  · rw [heq]; exact h
  · rw [heq]; exact h.insert hfind hempty hint

/-- Handing out the flow's next number, and counting it, keeps the counters. -/
theorem Counted.hand_out {s' : SeqState} (h : Counted own s)
    (hunst : ∀ w, FreeUnstamped (s'.tls w))
    (hsat : ∀ w key, fallbackFind (s'.tls w) key ≠ none → Saturated s'.rt key)
    (hlog : s'.log = s.log ++ [⟨key, dir, s.next own key dir⟩])
    (hnext : ∀ k d, s'.next own k d =
      if k = key ∧ d = dir then s.next own k d + 1 else s.next own k d) :
    Counted own s' := by
  have hdraws : ∀ k d, s'.draws k d =
      if k = key ∧ d = dir then s.draws k d ++ [s.next own k d] else s.draws k d := by
    intro k d
    rw [SeqState.draws, SeqState.draws, hlog, List.filter_append, List.map_append]
    split_ifs with hkd
    · simp [hkd]
    · have hno : ¬(key = k ∧ dir = d) := fun hc => hkd ⟨hc.1.symm, hc.2.symm⟩
      simp [hno]
  refine ⟨hunst, hsat, fun k d => ?_, fun k d => ?_⟩
  · rw [hnext, hdraws]
    split_ifs with hkd
    · rw [List.length_append, List.length_singleton, h.counter, UInt32.ofNat_add]
      rfl
    · exact h.counter k d
  · rw [hdraws]
    split_ifs with hkd
    · rw [List.length_append, List.length_singleton, List.range_succ, List.map_append, ← h.values,
        h.counter]
      rfl
    · exact h.values k d

/-- A draw from an entry moves the one counter it draws from. -/
theorem routeBumpSeq_udpTxSeq {rt : RouteState} {k : RouteKey} {i : Nat}
    (hfind : routeFind rt key = some way) (hf : routeFind rt k = some i) (dir d : Bool) :
    ((routeBumpSeq rt (routeSet key) way dir).2.table (routeSet k) i).udpTxSeq d =
      if k = key ∧ d = dir then (rt.table (routeSet k) i).udpTxSeq d + 1
      else (rt.table (routeSet k) i).udpTxSeq d := by
  simp only [routeBumpSeq, RouteState.setEntry_table]
  by_cases hk : k = key
  · subst hk
    obtain rfl : way = i := Option.some.inj (hfind.symm.trans hf)
    simp only [and_self, if_true, true_and]
    split_ifs with hd
    · rw [hd, Function.update_self]
    · rw [Function.update_of_ne hd]
  · rw [if_neg, if_neg (fun h => hk h.1)]
    intro hsame
    have hkey := (routeFind_eq_some hf).2.2
    rw [hsame.1, hsame.2] at hkey
    exact hk (hkey.symm.trans (routeFind_eq_some hfind).2.2)

/-- A draw from the route entry of a flow. -/
theorem Counted.bump (h : Counted own s) (hfind : routeFind s.rt key = some way) (dir : Bool) :
    Counted own
      { s with
        rt := (routeBumpSeq s.rt (routeSet key) way dir).2
        log := s.log ++ [⟨key, dir, (routeBumpSeq s.rt (routeSet key) way dir).1⟩] } := by
  refine @Counted.hand_out own s key dir _ h h.unstamped ?_ ?_ ?_
  · intro w k hf
    exact ⟨(routeFind_bump _ _ _).trans (h.saturated w k hf).1,
      (routeEmpty_bump _ _ _).trans (h.saturated w k hf).2⟩
  · rw [SeqState.next_of_find hfind]
    rfl
  · intro k d
    have hkeep : routeFind (routeBumpSeq s.rt (routeSet key) way dir).2 k = routeFind s.rt k :=
      routeFind_bump _ _ _
    cases hf : routeFind s.rt k with
    | none =>
        rw [SeqState.next_of_none hf, SeqState.next_of_none (hkeep.trans hf), if_neg]
        rintro ⟨rfl, -⟩
        rw [hfind] at hf
        cases hf
    | some i =>
        rw [SeqState.next_of_find hf, SeqState.next_of_find (hkeep.trans hf)]
        exact routeBumpSeq_udpTxSeq hfind hf dir d


/-- A draw from the fallback of the flow's own worker. -/
theorem Counted.fall_back (h : Counted own s) (hsat : Saturated s.rt key)
    (hroom : FallbackRoom (s.tls (own key)) key) (dir : Bool) :
    Counted own
      { s with
        tls := Function.update s.tls (own key) (dpUdpSeqFromFallback (s.tls (own key)) key dir).2
        log := s.log ++ [⟨key, dir, (dpUdpSeqFromFallback (s.tls (own key)) key dir).1⟩] } := by
  obtain ⟨w, e, hav, hvalid, hkey, hseq, heq⟩ :=
    dpUdpSeqFromFallback_eq (h.unstamped (own key)) hroom dir
  rw [heq]
  refine @Counted.hand_out own s key dir _ h ?_ ?_ ?_ ?_
  · intro w'
    by_cases hw : w' = own key
    · subst hw
      simp only [Function.update_self]
      intro i j hfree
      rw [RouteTls.putFallback_entry] at hfree ⊢
      split_ifs at hfree ⊢ with hij
      · rw [hvalid] at hfree; cases hfree
      · exact h.unstamped _ i j hfree
    · simp only [Function.update_of_ne hw]
      exact h.unstamped w'
  · intro w' k hf
    by_cases hk : k = key
    · subst hk; exact hsat
    · by_cases hw : w' = own key
      · subst hw
        simp only [Function.update_self, fallbackFind_put_of_ne hav hkey hk] at hf
        exact h.saturated _ k hf
      · simp only [Function.update_of_ne hw] at hf
        exact h.saturated w' k hf
  · rw [SeqState.next_of_none hsat.1]
  · intro k d
    cases hf : routeFind s.rt k with
    | some i =>
        simp only [SeqState.next, hf]
        rw [if_neg]
        rintro ⟨rfl, -⟩
        rw [hsat.1] at hf
        cases hf
    | none =>
        simp only [SeqState.next, hf]
        by_cases hw : own k = own key
        · rw [hw, Function.update_self]
          by_cases hk : k = key
          · subst hk
            rw [fallbackSeq_of_find (fallbackFind_put hav hvalid hkey), RouteTls.putFallback_entry,
              if_pos ⟨rfl, rfl⟩, hseq]
            by_cases hd : d = dir
            · rw [if_pos ⟨rfl, hd⟩, hd, Function.update_self]
            · rw [if_neg (fun hc => hd hc.2), Function.update_of_ne hd]
          · rw [fallbackSeq_put_of_ne hav hkey hk, if_neg (fun hc => hk hc.1)]
        · rw [Function.update_of_ne hw, if_neg]
          rintro ⟨rfl, -⟩
          exact hw rfl

section Next

variable {rt : RouteState} {tls : RouteTls} {pkt : Mem} {len : Nat}
  (hparse : dpRouteKeyParseDirection pkt len = some (key, dir))
  (hudp : key.protocol.toNat = ipprotoUdp)

include hparse hudp

theorem dpUdpNextTxSeq_of_find (hf : routeFind rt key = some way) :
    dpUdpNextTxSeq rt tls pkt len =
      (some (routeBumpSeq rt (routeSet key) way dir).1,
        (routeBumpSeq rt (routeSet key) way dir).2, tls) := by
  rw [dpUdpNextTxSeq, hparse]
  dsimp only
  rw [if_neg (fun hc => hc.1 hudp), hf]

theorem dpUdpNextTxSeq_of_empty (hf : routeFind rt key = none) (he : routeEmpty rt key = some way) :
    dpUdpNextTxSeq rt tls pkt len =
      (some (routeBumpSeq (routeInsert rt key tls.cryptoWorkerIdx way).2 (routeSet key) way dir).1,
        (routeBumpSeq (routeInsert rt key tls.cryptoWorkerIdx way).2 (routeSet key) way dir).2,
        tls) := by
  have hkey : dpRouteKeyParse pkt len = some key := by rw [dpRouteKeyParse, hparse]; rfl
  have hget : (dpFlowRouteGet rt pkt len tls.cryptoWorkerIdx).2 =
      (routeInsert rt key tls.cryptoWorkerIdx way).2 := by
    rw [dpFlowRouteGet, hkey]
    dsimp only
    rw [dpFlowRouteGetKey, hf, he]
  rw [dpUdpNextTxSeq, hparse]
  dsimp only
  rw [if_neg (fun hc => hc.1 hudp), hf]
  dsimp only
  rw [hget, routeFind_insert hf he]

theorem dpUdpNextTxSeq_of_saturated (hsat : Saturated rt key) :
    dpUdpNextTxSeq rt tls pkt len =
      (some (dpUdpSeqFromFallback tls key dir).1, rt, (dpUdpSeqFromFallback tls key dir).2) := by
  have hkey : dpRouteKeyParse pkt len = some key := by rw [dpRouteKeyParse, hparse]; rfl
  have hget : (dpFlowRouteGet rt pkt len tls.cryptoWorkerIdx).2 = rt := by
    rw [dpFlowRouteGet, hkey]
    dsimp only
    rw [dpFlowRouteGetKey, hsat.1, hsat.2]
  rw [dpUdpNextTxSeq, hparse]
  dsimp only
  rw [if_neg (fun hc => hc.1 hudp), hsat.1]
  dsimp only
  rw [hget, hsat.1]

end Next

/-- A call for anything but a UDP flow fails and changes nothing. -/
theorem dpUdpNextTxSeq_refused {rt : RouteState} {tls : RouteTls} {pkt : Mem} {len : Nat}
    (h : ∀ key dir, dpRouteKeyParseDirection pkt len = some (key, dir) →
      key.protocol.toNat ≠ ipprotoUdp ∧ key.protocol.toNat ≠ ipprotoIcmp) :
    dpUdpNextTxSeq rt tls pkt len = (none, rt, tls) := by
  rw [dpUdpNextTxSeq]
  cases hparse : dpRouteKeyParseDirection pkt len with
  | none => rfl
  | some kd =>
      obtain ⟨key, dir⟩ := kd
      dsimp only
      rw [if_pos (h key dir hparse)]

/-- The key of a flow is a TCP or a UDP key. -/
theorem dpRouteKeyParseDirection_proto {pkt : Mem} {len : Nat}
    (h : dpRouteKeyParseDirection pkt len = some (key, dir)) :
    key.protocol.toNat = ipprotoTcp ∨ key.protocol.toNat = ipprotoUdp := by
  unfold dpRouteKeyParseDirection at h
  cases hflow : (dpParseFlow pkt len).1 with
  | none => simp [hflow] at h
  | some f =>
      simp only [hflow, dpRouteKeyFromTuple] at h
      split_ifs at h with hproto hswap
      · obtain ⟨rfl, -⟩ := Prod.mk.inj (Option.some.inj h)
        simp only
        omega
      · obtain ⟨rfl, -⟩ := Prod.mk.inj (Option.some.inj h)
        simp only
        omega

/-- Every step keeps the counters, as long as draws are made by the flow's worker
and the fallback has room. -/
theorem Counted.step (h : Counted own s) {e : SeqEvent} (hsticky : Sticky own e)
    (hroom : DrawHasRoom s e) : Counted own (s.step e) := by
  cases e with
  | lookup pkt len hint => exact h.lookup pkt len hint
  | draw w pkt len =>
      have hself : Function.update s.tls w (s.tls w) = s.tls := Function.update_eq_self _ _
      by_cases hudp : ∃ key dir, dpRouteKeyParseDirection pkt len = some (key, dir) ∧
          key.protocol.toNat = ipprotoUdp
      · obtain ⟨key, dir, hparse, hudp⟩ := hudp
        have hkey : dpRouteKeyParse pkt len = some key := by rw [dpRouteKeyParse, hparse]; rfl
        obtain rfl := hsticky key hkey
        cases hf : routeFind s.rt key with
        | some way =>
            rw [SeqState.step, dpUdpNextTxSeq_of_find hparse hudp hf, hparse]
            dsimp only
            rw [hself]
            exact h.bump hf dir
        | none =>
            cases he : routeEmpty s.rt key with
            | some way =>
                rw [SeqState.step, dpUdpNextTxSeq_of_empty hparse hudp hf he, hparse]
                dsimp only
                rw [hself]
                exact (h.insert hf he _).bump (routeFind_insert hf he _) dir
            | none =>
                rw [SeqState.step, dpUdpNextTxSeq_of_saturated hparse hudp ⟨hf, he⟩, hparse]
                dsimp only
                exact h.fall_back ⟨hf, he⟩ (hroom key hkey ⟨hf, he⟩) dir
      · rw [SeqState.step, dpUdpNextTxSeq_refused]
        · dsimp only
          rw [hself]
          rcases dpRouteKeyParseDirection pkt len with _ | ⟨key, dir⟩
          · exact h
          · exact h
        · intro key dir hparse
          have hproto := dpRouteKeyParseDirection_proto hparse
          have hne : key.protocol.toNat ≠ ipprotoUdp := fun hc => hudp ⟨key, dir, hparse, hc⟩
          refine ⟨hne, ?_⟩
          rw [hproto.resolve_right hne]
          decide

end Counter

/-- Over every run of draws and route lookups, in which every flow's draws are
made by one worker and no draw finds its fallback set full of other flows, the
numbers handed out for each flow and direction are 0, 1, 2, … modulo `2 ^ 32`. -/
theorem draws_in_order (own : RouteKey → Nat) (slots : UInt32) (es : List SeqEvent)
    (hsticky : ∀ e ∈ es, Sticky own e)
    (hroom : Along SeqState.step DrawHasRoom (SeqState.init slots) es) (key : RouteKey) (dir : Bool) :
    ∃ n, (run SeqState.step (SeqState.init slots) es).draws key dir =
      (List.range n).map UInt32.ofNat := by
  have hst : Along SeqState.step (fun _ e => Sticky own e) (SeqState.init slots) es :=
    Along.of_forall fun e he _ => hsticky e he
  have hend : Counted own (run SeqState.step (SeqState.init slots) es) :=
    (Along.invariant (Q := fun _ _ => True) (fun s e hinv hp => ⟨hinv.step hp.1 hp.2, trivial⟩)
      (Counted.init own slots) (hst.and hroom)).1
  exact ⟨_, hend.values key dir⟩

/-! ## crowded sets -/

/-- The Ethernet and the IPv4 header of a datagram from 10.0.0.1 to 10.0.0.2. -/
def udpHeaders : List UInt8 :=
  [0x02, 0x00, 0x00, 0x00, 0x00, 0x02, 0x02, 0x00, 0x00, 0x00, 0x00, 0x01, 0x08, 0x00] ++
    [0x45, 0x00, 0x00, 0x1c, 0x00, 0x01, 0x00, 0x00, 0x40, 0x11, 0x66, 0xce, 0x0a, 0x00, 0x00, 0x01,
      0x0a, 0x00, 0x00, 0x02]

/-- A 42-byte datagram and the key of its flow. -/
def udpFlow (srcPort dstPort : Nat) : Mem × RouteKey :=
  (Mem.ofList (udpHeaders ++ [UInt8.ofNat (srcPort / 256), UInt8.ofNat (srcPort % 256),
    UInt8.ofNat (dstPort / 256), UInt8.ofNat (dstPort % 256), 0x00, 0x08, 0x00, 0x00]),
    ⟨0x0a000001, 0x0a000002, UInt16.ofNat srcPort, UInt16.ofNat dstPort, 17⟩)

/-- Eight flows that share one route set. -/
def crowd : List (Mem × RouteKey) :=
  [udpFlow 1027 1127, udpFlow 1040 305, udpFlow 1044 923, udpFlow 1059 2040, udpFlow 1063 224,
    udpFlow 1063 1156, udpFlow 1070 237, udpFlow 1074 1116]

/-- Five more flows of that set, all of one worker. -/
def latecomers : List (Mem × RouteKey) :=
  [udpFlow 1024 1, udpFlow 1039 1745, udpFlow 1064 358, udpFlow 1064 399, udpFlow 1091 1048]

def lookups (fs : List (Mem × RouteKey)) : List SeqEvent := fs.map fun f => .lookup f.1 42 none

def drawsBy (w : Nat) (fs : List (Mem × RouteKey)) : List SeqEvent := fs.map fun f => .draw w f.1 42

/-- The worker the dataplane gives a flow of a saturated set. -/
def hashWorker (key : RouteKey) : Nat :=
  (hashRoute (SeqState.init 4).rt (dpRouteKeyHash key)).workerIdx

/-- Lookups of flows with known keys. -/
theorem run_lookups (s : SeqState) {fs : List (Mem × RouteKey)}
    (h : ∀ f ∈ fs, dpRouteKeyParse f.1 42 = some f.2) :
    run SeqState.step s (lookups fs) =
      { s with rt := fs.foldl (fun rt f => (dpFlowRouteGetKey rt f.2 none).2) s.rt } := by
  induction fs generalizing s with
  | nil => rfl
  | cons f fs ih =>
      have hstep : s.step (.lookup f.1 42 none) =
          { s with rt := (dpFlowRouteGetKey s.rt f.2 none).2 } := by
        rw [SeqState.step, dpFlowRouteGet, h f (by simp)]
      rw [lookups, List.map_cons, run_cons, hstep]
      exact ih _ fun f' hf' => h f' (by simp [hf'])

/-- Draws from the fallback alone: what is handed out, and the table after. -/
def fallbackDraws (tls : RouteTls) : List RouteKey → List Draw × RouteTls
  | [] => ([], tls)
  | key :: keys =>
      let r := dpUdpSeqFromFallback tls key false
      let rest := fallbackDraws r.2 keys
      (⟨key, false, r.1⟩ :: rest.1, rest.2)

/-- Every one of the draws finds room. -/
def RoomForAll (tls : RouteTls) : List RouteKey → Prop
  | [] => True
  | key :: keys =>
      FallbackRoom tls key ∧ RoomForAll (dpUdpSeqFromFallback tls key false).2 keys

instance RoomForAll.decidable : (tls : RouteTls) → (keys : List RouteKey) →
    Decidable (RoomForAll tls keys)
  | _, [] => .isTrue trivial
  | tls, key :: keys =>
      have := RoomForAll.decidable (dpUdpSeqFromFallback tls key false).2 keys
      inferInstanceAs (Decidable (_ ∧ _))

/-- A flow whose draws come from the fallback. -/
def FallsBack (rt : RouteState) (f : Mem × RouteKey) : Prop :=
  dpRouteKeyParseDirection f.1 42 = some (f.2, false) ∧ f.2.protocol.toNat = ipprotoUdp ∧
    Saturated rt f.2

instance (rt : RouteState) (f : Mem × RouteKey) : Decidable (FallsBack rt f) :=
  inferInstanceAs (Decidable (_ ∧ _))

theorem step_fallsBack {s : SeqState} {f : Mem × RouteKey} (h : FallsBack s.rt f) (w : Nat) :
    s.step (.draw w f.1 42) =
      { s with
        tls := Function.update s.tls w (dpUdpSeqFromFallback (s.tls w) f.2 false).2
        log := s.log ++ [⟨f.2, false, (dpUdpSeqFromFallback (s.tls w) f.2 false).1⟩] } := by
  obtain ⟨hparse, hudp, hsat⟩ := h
  rw [SeqState.step, dpUdpNextTxSeq_of_saturated hparse hudp hsat, hparse]

/-- Draws of flows of saturated sets, as draws from the fallback alone. -/
theorem run_drawsBy (w : Nat) {s : SeqState} {fs : List (Mem × RouteKey)}
    (h : ∀ f ∈ fs, FallsBack s.rt f) :
    (run SeqState.step s (drawsBy w fs)).log =
        s.log ++ (fallbackDraws (s.tls w) (fs.map (·.2))).1 ∧
      (RoomForAll (s.tls w) (fs.map (·.2)) → Along SeqState.step DrawHasRoom s (drawsBy w fs)) := by
  induction fs generalizing s with
  | nil => exact ⟨(List.append_nil _).symm, fun _ => trivial⟩
  | cons f fs ih =>
      have hstep := step_fallsBack (h f (by simp)) w
      have hrest := @ih (s.step (.draw w f.1 42)) (by
        rw [hstep]
        exact fun f' hf' => h f' (by simp [hf']))
      rw [hstep] at hrest
      simp only [Function.update_self] at hrest
      refine ⟨?_, fun hroom => ⟨?_, ?_⟩⟩
      · rw [drawsBy, List.map_cons, run_cons, hstep]
        refine hrest.1.trans ?_
        rw [List.append_assoc]
        rfl
      · intro key hkey _
        have hparse : dpRouteKeyParse f.1 42 = some f.2 := by
          rw [dpRouteKeyParse, (h f (by simp)).1]; rfl
        obtain rfl : f.2 = key := Option.some.inj (hparse.symm.trans hkey)
        exact hroom.1
      · rw [hstep]
        exact hrest.2 hroom.2

/-- The table once the crowd is in. -/
theorem crowd_run : run SeqState.step (SeqState.init 4) (lookups crowd) =
    { SeqState.init 4 with
      rt := crowd.foldl (fun rt f => (dpFlowRouteGetKey rt f.2 none).2) (SeqState.init 4).rt } :=
  run_lookups _ (by decide +kernel)

theorem latecomers_fallsBack :
    ∀ f ∈ latecomers, FallsBack (run SeqState.step (SeqState.init 4) (lookups crowd)).rt f := by
  rw [crowd_run]
  decide +kernel

/-- Four latecomers, served in turns by the fallback. -/
theorem draws_in_order_crowd :
    ∃ n, (run SeqState.step (SeqState.init 4)
        (lookups crowd ++ drawsBy 1 (latecomers.take 4 ++ latecomers.take 4))).draws
      (udpFlow 1024 1).2 false = (List.range n).map UInt32.ofNat := by
  refine draws_in_order hashWorker 4 _ (by decide +kernel) ?_ _ _
  have hlookups : Along SeqState.step DrawHasRoom (SeqState.init 4) (lookups crowd) := by
    refine Along.of_forall fun e he s => ?_
    obtain ⟨f, -, rfl⟩ := List.mem_map.mp he
    trivial
  refine hlookups.append ((run_drawsBy 1 fun f hf => latecomers_fallsBack f ?_).2 ?_)
  · rcases List.mem_append.mp hf with hf | hf
    · exact List.mem_of_mem_take hf
    · exact List.mem_of_mem_take hf
  · rw [crowd_run]
    decide +kernel

/-- A fifth latecomer pushes the first one out, whose next number is 0 again. -/
theorem latecomer_restarts :
    (∀ e ∈ lookups crowd ++ drawsBy 1 (latecomers ++ latecomers.take 1), Sticky hashWorker e) ∧
      (run SeqState.step (SeqState.init 4)
          (lookups crowd ++ drawsBy 1 (latecomers ++ latecomers.take 1))).draws
        (udpFlow 1024 1).2 false = [0, 0] := by
  refine ⟨by decide +kernel, ?_⟩
  have hlog := (@run_drawsBy 1 _ (latecomers ++ latecomers.take 1) fun f hf =>
    latecomers_fallsBack f (by
      rcases List.mem_append.mp hf with hf | hf
      · exact hf
      · exact List.mem_of_mem_take hf)).1
  rw [SeqState.draws, run_append, hlog, crowd_run]
  decide +kernel

end NetworkEncryptor
