import NetworkEncryptor.RingSteps
import Mathlib.Data.List.Infix

/-!
# NetworkEncryptor.SplitSteps

`push_split_to_wan` of `src/core/dataplane/local_egress.c` in single steps, beside
the other producers and the consumer of its ring (`NetworkEncryptor.RingSteps`).

Its test for room is `ne_ring_count`, without the lock: `head` is loaded, and then
`tail`.  Between the two loads other workers may push and the TX thread may pop what
they pushed, so `tail` can be past the `head` that was loaded, and the difference
wraps.  Two packets past it the addition of 2 wraps back; from three on the sum is
close to 2³² and the datagram is refused, however empty the ring is.
-/

namespace NetworkEncryptor

/-! ## the call -/

/-- The arguments of `push_split_to_wan` and what it reads of the forwarder. -/
structure SplitCall (k : Nat) (ω : Type) where
  job : Words k ω
  tail : Words k ω
  l1 : Nat
  l2 : Nat
  wanDp : Nat
  wanCount : Nat

/-- The lengths `push_split_to_wan` accepts. -/
def SplitCall.lengthsOk {k : Nat} {ω : Type} (c : SplitCall k ω) : Bool :=
  !(c.l1 == 0 || c.l2 == 0 || decide (c.l1 > neJumboFrameMax) || decide (c.l2 > neJumboFrameMax))

/-- Where the call is: before `ne_ring_count`, between its two loads, before the lock,
in the push, before the release of the lock, or it has returned; `true` is its 0.  With
the `head` it loaded stands how many packets had been pushed then, which is history. -/
inductive SplitPc
  | start
  | counted (head : UInt32) (pushed : Nat)
  | checked
  | pushing
  | unlocking (ok : Bool)
  | done (ok : Bool)
  deriving DecidableEq

structure SplitState (k : Nat) (ω : Type) where
  ring : RingState k ω
  pc : SplitPc

/-- A step of another thread, or of the call; `e` says which one of its push. -/
inductive SplitEvent (k : Nat) (ω : Type)
  | other (e : RingEvent k ω)
  | own (e : RingEvent k ω)

section Steps

variable {k : Nat} {ω : Type}

/-- The step of a producer. -/
def RingEvent.producer : RingEvent k ω → Bool
  | .lock _ | .loadHead | .loadTail | .copy _ _ | .publish | .unlock => true
  | _ => false

/-- The call holds the push lock. -/
def SplitPc.holding : SplitPc → Bool
  | .pushing | .unlocking _ => true
  | _ => false

/-- The call has not returned. -/
def SplitPc.running : SplitPc → Bool
  | .done _ => false
  | _ => true

/-- The push of the pair: refused at the load of `tail`, or done at the store of
`head`. -/
def splitPush (cap : UInt32) (s : SplitState k ω) (e : RingEvent k ω) : SplitState k ω :=
  let ring := ringStep cap s.ring e
  match s.ring.pusher, ring.pusher with
  | .loaded _ _, .unlocking => ⟨ring, .unlocking false⟩
  | .copying _ _ _, .unlocking => ⟨ring, .unlocking true⟩
  | _, _ => ⟨ring, .pushing⟩

/-- The next step of `push_split_to_wan`. -/
def splitOwn (cap : UInt32) (c : SplitCall k ω) (s : SplitState k ω) (e : RingEvent k ω) : SplitState k ω :=
  match s.pc with
  | .start =>
      if c.wanDp ≥ c.wanCount then { s with pc := .done false }
      else { s with pc := .counted s.ring.head (fifoPushes s.ring.log).length }
  | .counted head _ =>
      if head - s.ring.tail + 2 > cap then { s with pc := .done false }
      else if !c.lengthsOk then { s with pc := .done false }
      else { s with pc := .checked }
  | .checked =>
      match s.ring.pusher with
      | .free =>
          let ring := pushLock cap s.ring (.pair c.job c.tail)
          if cap < 2 then ⟨ring, .done false⟩ else ⟨ring, .pushing⟩
      | _ => s
  | .pushing => if e.producer then splitPush cap s e else s
  | .unlocking ok => ⟨ringStep cap s.ring .unlock, .done ok⟩
  | .done _ => s

/-- While the call holds the lock no other producer can do a step. -/
def splitStep (cap : UInt32) (c : SplitCall k ω) (s : SplitState k ω) : SplitEvent k ω → SplitState k ω
  | .other e =>
      if s.pc.holding && e.producer then s else { s with ring := ringStep cap s.ring e }
  | .own e => splitOwn cap c s e

/-- There are fewer than two free slots. -/
def ShortOfRoom (cap : UInt32) (r : RingState k ω) : Prop := cap.toNat < (r.head - r.tail).toNat + 2

/-- The ring holds the two packets, one after the other, as the youngest. -/
def HoldsPair (cap : UInt32) (r : RingState k ω) (first second : Words k ω) : Prop :=
  ∃ q, (r.head - r.tail).toNat = q.length + 2 ∧ SlotsHold cap r.tail r.buf (q ++ [first, second])

/-- No more than two of the packets pushed since `head` was loaded are gone when `tail`
is. -/
def TailNearHead (s : SplitState k ω) : SplitEvent k ω → Prop
  | .own _ =>
      match s.pc with
      | .counted _ pushed => (fifoPops s.ring.log).length ≤ pushed + 2
      | _ => True
  | .other _ => True

instance : ∀ (s : SplitState k ω) (e : SplitEvent k ω), Decidable (TailNearHead s e)
  | _, .other _ => inferInstanceAs (Decidable True)
  | ⟨_, .counted _ _⟩, .own _ => inferInstanceAs (Decidable (_ ≤ _))
  | ⟨_, .start⟩, .own _ => inferInstanceAs (Decidable True)
  | ⟨_, .checked⟩, .own _ => inferInstanceAs (Decidable True)
  | ⟨_, .pushing⟩, .own _ => inferInstanceAs (Decidable True)
  | ⟨_, .unlocking _⟩, .own _ => inferInstanceAs (Decidable True)
  | ⟨_, .done _⟩, .own _ => inferInstanceAs (Decidable True)

end Steps

/-! ## indices as numbers of packets -/

section Indices

variable {k : Nat} {ω : Type} {cap base : UInt32} {r : RingState k ω} {q : List (Words k ω)}

/-- `tail` counts the packets popped. -/
def TailCounts (base : UInt32) (r : RingState k ω) : Prop :=
  r.tail = base + UInt32.ofNat (fifoPops r.log).length

/-- `head` counts the packets pushed then. -/
theorem TailCounts.head_eq (h : TailCounts base r) (hr : RingInv cap r q) :
    r.head = base + UInt32.ofNat (fifoPushes r.log).length := by
  rw [hr.head_eq, h, index_add, hr.fifo.pushes_eq, List.length_append]

/-- A step moves `tail` by one with a pop and not at all without one, and takes back no
push. -/
theorem ringStep_tail (hr : RingInv cap r q) (e : RingEvent k ω) :
    (((ringStep cap r e).tail = r.tail ∧ fifoPops (ringStep cap r e).log = fifoPops r.log) ∨
      ((ringStep cap r e).tail = r.tail + 1 ∧
        ∃ x, fifoPops (ringStep cap r e).log = fifoPops r.log ++ [x])) ∧
      fifoPushes r.log <+: fifoPushes (ringStep cap r e).log := by
  have hconsumer := hr.consumer
  cases e with
  | lock req =>
      cases hpc : r.pusher <;> simp only [ringStep, hpc]
      case free =>
        cases req <;> simp only [pushLock]
        case pair first second =>
          split <;> simp [fifoPops, fifoPushes]
        all_goals simp
      all_goals simp
  | loadTail =>
      cases hpc : r.pusher <;> simp only [ringStep, hpc]
      case loaded req head =>
        cases req <;> simp only [pushTest]
        case count => simp
        all_goals split <;> simp [fifoPops, fifoPushes]
      all_goals simp
  | publish =>
      cases hpc : r.pusher <;> simp only [ringStep, hpc]
      case copying pkts head done =>
        split <;> simp [fifoPops, fifoPushes]
      all_goals simp
  | popHead =>
      cases hpc : r.consumer <;> simp only [ringStep, hpc]
      case loadedTail tail out =>
        split <;> simp [fifoPops, fifoPushes]
      all_goals simp
  | popStore =>
      cases hpc : r.consumer <;> simp only [ringStep, hpc]
      case reading tail done out =>
        rw [hpc] at hconsumer
        obtain ⟨rfl, -⟩ := hconsumer
        split <;> simp [fifoPops, fifoPushes]
      all_goals simp
  | loadHead => cases hpc : r.pusher <;> simp [ringStep, hpc]
  | copy p w => cases hpc : r.pusher <;> simp [ringStep, hpc]
  | unlock => cases hpc : r.pusher <;> simp [ringStep, hpc]
  | popTail out => cases hpc : r.consumer <;> simp [ringStep, hpc]
  | read w => cases hpc : r.consumer <;> simp [ringStep, hpc]
  | countHead => cases hpc : r.consumer <;> simp [ringStep, hpc]
  | countTail => cases hpc : r.consumer <;> simp [ringStep, hpc]

theorem TailCounts.step (h : TailCounts base r) (hr : RingInv cap r q) (e : RingEvent k ω) :
    TailCounts base (ringStep cap r e) := by
  obtain ⟨⟨htail, hpops⟩ | ⟨htail, x, hpops⟩, -⟩ := ringStep_tail hr e
  · rw [TailCounts, htail, hpops]
    exact h
  · rw [TailCounts, htail, hpops, List.length_append, h, ← index_add]
    rfl

/-- The count of a call that loaded `head` after `pushed` pushes: if it says that there is
no room, there is none. -/
theorem shortOfRoom_of_count (hcap : neRingInitOk cap = true) (h : TailCounts base r)
    (hr : RingInv cap r q) {pushed : Nat} (hpushed : pushed ≤ (fifoPushes r.log).length)
    (hnear : (fifoPops r.log).length ≤ pushed + 2)
    (hfull : base + UInt32.ofNat pushed - r.tail + 2 > cap) : ShortOfRoom cap r := by
  obtain ⟨n, hn, hcapn⟩ := neRingInitOk_spec hcap
  have hpow : cap.toNat ≤ 2 ^ 31 := by
    rw [hcapn]
    exact Nat.pow_le_pow_right (by decide) (by omega)
  have hcap1 : 1 ≤ cap.toNat := by
    rw [hcapn]
    exact Nat.one_le_two_pow
  have hq := hr.fifo.length_le
  have hin : (fifoPushes r.log).length = (fifoPops r.log).length + q.length := by
    rw [hr.fifo.pushes_eq, List.length_append]
  have hlt := UInt32.lt_iff_toNat_lt.mp hfull
  rw [ShortOfRoom, hr.toNat_sub]
  rw [h] at hlt
  generalize (fifoPops r.log).length = popped at *
  rcases Nat.lt_or_ge pushed popped with hgt | hle
  · -- one or two packets past it the sum wraps to 1 or 0
    obtain ⟨d, rfl⟩ := Nat.exists_eq_add_of_lt hgt
    have hsum : base + UInt32.ofNat pushed - (base + UInt32.ofNat (pushed + d + 1)) + 2 =
        2 - UInt32.ofNat (d + 1) := by
      rw [Nat.add_assoc, ← index_add]
      grind
    rw [hsum] at hlt
    obtain rfl | rfl : d = 0 ∨ d = 1 := by omega
    · have hone : (2 - UInt32.ofNat (0 + 1)).toNat = 1 := rfl
      omega
    · have hzero : (2 - UInt32.ofNat (1 + 1)).toNat = 0 := rfl
      omega
  · -- the packets between the two indices are still there
    obtain ⟨d, rfl⟩ := Nat.exists_eq_add_of_le hle
    have hd : (base + UInt32.ofNat (popped + d) - (base + UInt32.ofNat popped)).toNat = d := by
      rw [← index_add]
      exact @toNat_index_sub cap _ d (by omega)
    rw [UInt32.toNat_add, hd] at hlt
    change cap.toNat < (d + 2) % 2 ^ 32 at hlt
    rw [Nat.mod_eq_of_lt (by omega)] at hlt
    omega

end Indices

/-! ## the call among the others -/

section Call

variable {k : Nat} {ω : Type} {cap : UInt32} {c : SplitCall k ω} {s : SplitState k ω}

/-- The push under way is that of the call. -/
def OwnPush (c : SplitCall k ω) : PushPc k ω → Prop
  | .locked req => req = .pair c.job c.tail
  | .loaded req _ => req = .pair c.job c.tail
  | .copying pkts _ _ => pkts = [c.job, c.tail]
  | _ => False

structure SplitInv (cap : UInt32) (c : SplitCall k ω) (s : SplitState k ω) : Prop where
  ring : ∃ q, RingInv cap s.ring q
  index : ∃ base, TailCounts base s.ring ∧ ∀ head pushed, s.pc = .counted head pushed →
    head = base + UInt32.ofNat pushed ∧ pushed ≤ (fifoPushes s.ring.log).length
  own : s.pc = .pushing → OwnPush c s.ring.pusher

theorem SplitInv.start {r : RingState k ω} {q : List (Words k ω)} (h : RingInv cap r q) :
    SplitInv cap c ⟨r, .start⟩ where
  ring := ⟨q, h⟩
  index := ⟨r.tail - UInt32.ofNat (fifoPops r.log).length, by simp [TailCounts],
    fun _ _ hc => by cases hc⟩
  own := fun hc => by cases hc

theorem ringStep_pusher {r : RingState k ω} {e : RingEvent k ω} (he : e.producer = false) :
    (ringStep cap r e).pusher = r.pusher := by
  cases e with
  | popTail out => cases hpc : r.consumer <;> simp [ringStep, hpc]
  | popHead => cases hpc : r.consumer <;> simp only [ringStep, hpc]; split <;> rfl
  | read w => cases hpc : r.consumer <;> simp [ringStep, hpc]
  | popStore => cases hpc : r.consumer <;> simp only [ringStep, hpc]; split <;> rfl
  | countHead => cases hpc : r.consumer <;> simp [ringStep, hpc]
  | countTail => cases hpc : r.consumer <;> simp [ringStep, hpc]
  | _ => cases he

/-- What a step does to a push whose `head` is to be loaded, .. -/
theorem ringStep_locked {r : RingState k ω} {req : PushReq k ω} (hp : r.pusher = .locked req)
    (e : RingEvent k ω) :
    (ringStep cap r e).pusher = .locked req ∨ (ringStep cap r e).pusher = .loaded req r.head := by
  cases he : e.producer with
  | false => exact .inl (by rw [ringStep_pusher he, hp])
  | true => cases e <;> first | (simp [ringStep, hp]; done) | cases he

/-- .. whose `tail` is to be loaded, .. -/
theorem ringStep_loaded {r : RingState k ω} {req : PushReq k ω} {head : UInt32}
    (hp : r.pusher = .loaded req head) (e : RingEvent k ω) :
    (ringStep cap r e).pusher = .loaded req head ∨ ringStep cap r e = pushTest cap r req head := by
  cases he : e.producer with
  | false => exact .inl (by rw [ringStep_pusher he, hp])
  | true => cases e <;> first | (simp [ringStep, hp]; done) | cases he

/-- .. and whose packets are to be copied. -/
theorem ringStep_copying {r : RingState k ω} {pkts : List (Words k ω)} {head : UInt32}
    {done : List (Nat × Fin k)} (hp : r.pusher = .copying pkts head done) (e : RingEvent k ω) :
    (∃ done', (ringStep cap r e).pusher = .copying pkts head done') ∨
      ((∀ p < pkts.length, ∀ w, (p, w) ∈ done) ∧ ringStep cap r e =
        { r with head := head + UInt32.ofNat pkts.length, pusher := .unlocking, log := r.log ++ [.push pkts] }) := by
  cases he : e.producer with
  | false => exact .inl ⟨done, by rw [ringStep_pusher he, hp]⟩
  | true =>
      cases e with
      | publish =>
          simp only [ringStep, hp]
          split
          · next hall => exact .inr ⟨hall, rfl⟩
          · exact .inl ⟨done, hp⟩
      | copy p w => exact .inl ⟨(p, w) :: done, by simp [ringStep, hp]⟩
      | lock req => exact .inl ⟨done, by simp [ringStep, hp]⟩
      | loadHead => exact .inl ⟨done, by simp [ringStep, hp]⟩
      | loadTail => exact .inl ⟨done, by simp [ringStep, hp]⟩
      | unlock => exact .inl ⟨done, by simp [ringStep, hp]⟩
      | _ => cases he

/-- The push of the call goes on, or it is refused and there is no room, or the pair is
in the ring. -/
theorem splitPush_cases {q : List (Words k ω)} (hr : RingInv cap s.ring q)
    (hown : OwnPush c s.ring.pusher) (e : RingEvent k ω) :
    ((splitPush cap s e).pc = .pushing ∧ OwnPush c (splitPush cap s e).ring.pusher) ∨
    ((splitPush cap s e).pc = .unlocking false ∧ ShortOfRoom cap s.ring) ∨
    ((splitPush cap s e).pc = .unlocking true ∧
      HoldsPair cap (splitPush cap s e).ring c.job c.tail) := by
  have hpush := hr.pusher
  cases hp : s.ring.pusher with
  | free => rw [hp] at hown; exact hown.elim
  | unlocking => rw [hp] at hown; exact hown.elim
  | locked req =>
      rw [hp] at hown
      rcases @ringStep_locked k ω cap s.ring req hp e with hp' | hp'
      · exact .inl (by simpa [splitPush, hp, hp', OwnPush] using hown)
      · exact .inl (by simpa [splitPush, hp, hp', OwnPush] using hown)
  | loaded req head =>
      rw [hp] at hown hpush
      obtain ⟨rfl, htwo⟩ := hpush
      obtain rfl : req = .pair c.job c.tail := hown
      rcases @ringStep_loaded k ω cap s.ring _ _ hp e with hp' | hstep
      · exact .inl (by simp [splitPush, hp, hp', OwnPush])
      · have hsub : (cap - 2).toNat = cap.toNat - 2 := UInt32.toNat_sub_of_le _ _
          (UInt32.le_iff_toNat_le.mpr (htwo _ _ rfl))
        by_cases hc : s.ring.head - s.ring.tail > cap - 2
        · right; left
          have hlt := UInt32.lt_iff_toNat_lt.mp hc
          refine ⟨by simp [splitPush, hp, hstep, pushTest, hc], ?_⟩
          rw [ShortOfRoom]
          omega
        · exact .inl (by simp [splitPush, hp, hstep, pushTest, hc, OwnPush])
  | copying pkts head done =>
      rw [hp] at hown
      obtain rfl : pkts = [c.job, c.tail] := hown
      rcases @ringStep_copying k ω cap s.ring _ _ _ hp e with ⟨done', hp'⟩ | ⟨hall, hstep⟩
      · exact .inl (by simp [splitPush, hp, hp', OwnPush])
      · right; right
        have hpub := hr.publish hp hall
        have hring : (splitPush cap s e).ring = ringStep cap s.ring e := by
          simp [splitPush, hp, hstep]
        refine ⟨by simp [splitPush, hp, hstep], q, ?_, ?_⟩
        · rw [hring, hstep, hpub.toNat_sub, List.length_append]
          rfl
        · rw [hring, hstep]
          exact hpub.slots

/-- Every step of the system is a step of the ring, or leaves it alone. -/
theorem splitStep_ring (e : SplitEvent k ω) : (splitStep cap c s e).ring = s.ring ∨
    ∃ e', (splitStep cap c s e).ring = ringStep cap s.ring e' := by
  cases e with
  | other e =>
      simp only [splitStep]
      split
      · exact .inl rfl
      · exact .inr ⟨e, rfl⟩
  | own e =>
      cases hpc : s.pc <;> simp only [splitStep, splitOwn, hpc]
      case start => split <;> exact .inl rfl
      case counted head pushed =>
        split
        · exact .inl rfl
        · split <;> exact .inl rfl
      case checked =>
        cases hp : s.ring.pusher
        case free =>
          refine .inr ⟨.lock (.pair c.job c.tail), ?_⟩
          simp only [ringStep, hp]
          split <;> rfl
        all_goals exact .inl rfl
      case pushing =>
        split
        · refine .inr ⟨e, ?_⟩
          simp only [splitPush]
          split <;> rfl
        · exact .inl rfl
      case unlocking ok => exact .inr ⟨.unlock, rfl⟩
      case done ok => simp

/-- What a step of the call does to where it is; `l1`, `l2` and `wan_dp` are in range. -/
theorem splitOwn_pc (hinv : SplitInv cap c s) (hcap : neRingInitOk cap = true) (hlen : c.lengthsOk = true)
    (hwan : c.wanDp < c.wanCount) (e : RingEvent k ω) (hnear : TailNearHead s (.own e)) :
    ((splitOwn cap c s e).pc = .pushing → OwnPush c (splitOwn cap c s e).ring.pusher) ∧
    ((splitOwn cap c s e).pc = .unlocking false ∨ (splitOwn cap c s e).pc = .done false →
      s.pc = .unlocking false ∨ s.pc = .done false ∨ s.pc.running = true ∧ ShortOfRoom cap s.ring) ∧
    ((splitOwn cap c s e).pc = .unlocking true ∨ (splitOwn cap c s e).pc = .done true →
      s.pc = .unlocking true ∨ s.pc = .done true ∨
        (splitOwn cap c s e).pc.running = true ∧ HoldsPair cap (splitOwn cap c s e).ring c.job c.tail) ∧
    (∀ head pushed, (splitOwn cap c s e).pc = .counted head pushed →
      s.pc = .start ∧ head = s.ring.head ∧ pushed = (fifoPushes s.ring.log).length) := by
  obtain ⟨q, hr⟩ := hinv.ring
  cases hpc : s.pc <;> simp only [splitOwn, hpc]
  case start =>
    rw [if_neg (by omega)]
    simp
  case counted head pushed =>
    obtain ⟨base, htail, hcounted⟩ := hinv.index
    obtain ⟨rfl, hpushed⟩ := hcounted head pushed hpc
    simp only [TailNearHead, hpc] at hnear
    simp only [hlen, Bool.not_true, Bool.false_eq_true, if_false]
    split
    · next hfull =>
      have hshort := shortOfRoom_of_count hcap htail hr hpushed hnear hfull
      simp [hshort, SplitPc.running]
    · simp
  case checked =>
    cases hp : s.ring.pusher <;> simp only [hpc]
    case free =>
      split
      · next hsmall =>
        have hlt : cap.toNat < 2 := UInt32.lt_iff_toNat_lt.mp hsmall
        have hshort : ShortOfRoom cap s.ring := by
          rw [ShortOfRoom]
          omega
        simp [hshort, SplitPc.running]
      · next hsmall => simp [pushLock, hsmall, OwnPush]
    all_goals simp
  case pushing =>
    split
    · rcases splitPush_cases hr (hinv.own hpc) e with ⟨hpc', hown⟩ | ⟨hpc', hshort⟩ | ⟨hpc', hholds⟩
      · simp [hpc', hown]
      · simp [hpc', hshort, SplitPc.running]
      · simp [hpc', hholds, SplitPc.running]
    · simpa [hpc] using hinv.own hpc
  case unlocking ok => cases ok <;> simp
  case done ok => cases ok <;> simp

theorem splitStep_other_pc (e : RingEvent k ω) : (splitStep cap c s (.other e)).pc = s.pc := by
  simp only [splitStep]
  split <;> rfl

theorem SplitInv.step (hinv : SplitInv cap c s) (hcap : neRingInitOk cap = true) (hlen : c.lengthsOk = true)
    (hwan : c.wanDp < c.wanCount) (e : SplitEvent k ω) (hnear : TailNearHead s e) :
    SplitInv cap c (splitStep cap c s e) := by
  obtain ⟨q, hr⟩ := hinv.ring
  obtain ⟨base, htail, hcounted⟩ := hinv.index
  have hring : (∃ q', RingInv cap (splitStep cap c s e).ring q') ∧ TailCounts base (splitStep cap c s e).ring ∧
      fifoPushes s.ring.log <+: fifoPushes (splitStep cap c s e).ring.log := by
    rcases @splitStep_ring k ω cap c s e with heq | ⟨e', heq⟩ <;> rw [heq]
    · exact ⟨⟨q, hr⟩, htail, List.prefix_rfl⟩
    · exact ⟨hr.step hcap e', htail.step hr e', (ringStep_tail hr e').2⟩
  obtain ⟨hring', htail', hmono⟩ := hring
  refine ⟨hring', ⟨base, htail', ?_⟩, ?_⟩
  · intro head pushed hpc
    cases e with
    | other e =>
        rw [splitStep_other_pc] at hpc
        obtain ⟨hhead, hle⟩ := hcounted head pushed hpc
        exact ⟨hhead, hle.trans hmono.length_le⟩
    | own e =>
        obtain ⟨-, rfl, rfl⟩ := (splitOwn_pc hinv hcap hlen hwan e hnear).2.2.2 head pushed hpc
        exact ⟨htail.head_eq hr, hmono.length_le⟩
  · cases e with
    | other e =>
        intro hpc
        rw [splitStep_other_pc] at hpc
        cases he : e.producer with
        | true => simpa [splitStep, hpc, he, SplitPc.holding] using hinv.own hpc
        | false => simpa [splitStep, he, ringStep_pusher he] using hinv.own hpc
    | own e => exact (splitOwn_pc hinv hcap hlen hwan e hnear).1

theorem SplitInv.refused (hinv : SplitInv cap c s) (hcap : neRingInitOk cap = true)
    (hlen : c.lengthsOk = true) (hwan : c.wanDp < c.wanCount) (e : SplitEvent k ω) (hnear : TailNearHead s e)
    (hpc : (splitStep cap c s e).pc = .unlocking false ∨ (splitStep cap c s e).pc = .done false) :
    (s.pc = .unlocking false ∨ s.pc = .done false) ∨ s.pc.running = true ∧ ShortOfRoom cap s.ring := by
  cases e with
  | other e => rw [splitStep_other_pc] at hpc; exact .inl hpc
  | own e => exact or_assoc.mpr ((splitOwn_pc hinv hcap hlen hwan e hnear).2.1 hpc)

theorem SplitInv.accepted (hinv : SplitInv cap c s) (hcap : neRingInitOk cap = true)
    (hlen : c.lengthsOk = true) (hwan : c.wanDp < c.wanCount) (e : SplitEvent k ω) (hnear : TailNearHead s e)
    (hpc : (splitStep cap c s e).pc = .unlocking true ∨ (splitStep cap c s e).pc = .done true) :
    (s.pc = .unlocking true ∨ s.pc = .done true) ∨ (splitStep cap c s e).pc.running = true ∧
      HoldsPair cap (splitStep cap c s e).ring c.job c.tail := by
  cases e with
  | other e => rw [splitStep_other_pc] at hpc; exact .inl hpc
  | own e => exact or_assoc.mpr ((splitOwn_pc hinv hcap hlen hwan e hnear).2.2.1 hpc)

end Call

/-- A call with valid arguments on a ring in any state it can reach, while other threads
push and pop: where `tail` is not loaded when it is more than two packets past the
`head` that was loaded, the call is refused only if there are fewer than two free slots
at some moment of it, and if it is not, both halves are in the ring at some moment of
it, one after the other. -/
theorem split_refused_only_when_short {k : Nat} {ω : Type} {cap : UInt32}
    (hcap : neRingInitOk cap = true) (start : UInt32) (buf : Nat → Words k ω) (before : List (RingEvent k ω))
    (c : SplitCall k ω) (hlen : c.lengthsOk = true) (hwan : c.wanDp < c.wanCount) (es : List (SplitEvent k ω)) :
    let s : SplitState k ω := ⟨run (ringStep cap) (RingState.init start buf) before, .start⟩
    Along (splitStep cap c) TailNearHead s es →
    ((run (splitStep cap c) s es).pc = .done false →
      ∃ es', es' <+: es ∧ (run (splitStep cap c) s es').pc.running = true ∧
        ShortOfRoom cap (run (splitStep cap c) s es').ring) ∧
    ((run (splitStep cap c) s es).pc = .done true →
      ∃ es', es' <+: es ∧ (run (splitStep cap c) s es').pc.running = true ∧
        HoldsPair cap (run (splitStep cap c) s es').ring c.job c.tail) := by
  intro s hal
  obtain ⟨q, hr⟩ := (@RingInv.init k ω cap start buf).run hcap before
  have hinv : SplitInv cap c s := SplitInv.start hr
  refine ⟨fun hend => ?_, fun hend => ?_⟩
  · have hmoment := hal.exists_moment (A := fun s => s.pc = .unlocking false ∨ s.pc = .done false)
      (B := fun s => s.pc.running = true ∧ ShortOfRoom cap s.ring)
      (fun s e hinv hnear => ⟨hinv.step hcap hlen hwan e hnear, fun hpc =>
        (hinv.refused hcap hlen hwan e hnear hpc).imp_right .inl⟩) hinv (.inr hend)
    exact hmoment.resolve_left (by simp [s])
  · have hmoment := hal.exists_moment (A := fun s => s.pc = .unlocking true ∨ s.pc = .done true)
      (B := fun s => s.pc.running = true ∧ HoldsPair cap s.ring c.job c.tail)
      (fun s e hinv hnear => ⟨hinv.step hcap hlen hwan e hnear, fun hpc =>
        (hinv.accepted hcap hlen hwan e hnear hpc).imp_right .inr⟩) hinv (.inr hend)
    exact hmoment.resolve_left (by simp [s])

/-- The word of a slot, where there is one. -/
abbrev onlyWord : Fin 1 := ⟨0, Nat.one_pos⟩

/-- A packet goes through the ring: it is pushed, and popped at once. -/
def passingPacket : List (SplitEvent 1 Nat) :=
  [.lock (.one fun _ => 7), .loadHead, .loadTail, .copy 0 onlyWord, .publish, .unlock,
    .popTail fun _ => 0, .popHead, .read onlyWord, .popStore].map .other

/-- Three packets go through the ring between the two loads of `ne_ring_count`. -/
def staleHeadRun : List (SplitEvent 1 Nat) :=
  .own .countHead :: (passingPacket ++ passingPacket ++ passingPacket) ++ [.own .countTail]

/-- The two halves of a datagram, for the one WAN interface. -/
def splitSample : SplitCall 1 Nat :=
  { job := fun _ => 1, tail := fun _ => 2, l1 := 9014, l2 := 100, wanDp := 0, wanCount := 1 }

/-- The datagram is refused by a ring of 16384 slots in which there is never more than
one packet. -/
theorem split_refused_by_empty_ring :
    let s : SplitState 1 Nat := ⟨RingState.init 0 fun _ _ => 0, .start⟩
    neRingInitOk 16384 = true ∧ splitSample.lengthsOk = true ∧
      (run (splitStep 16384 splitSample) s staleHeadRun).pc = .done false ∧
      ¬ ∃ es', es' <+: staleHeadRun ∧ ShortOfRoom 16384 (run (splitStep 16384 splitSample) s es').ring := by
  intro s
  have hroom : ∀ es' ∈ staleHeadRun.inits, ((run (splitStep 16384 splitSample) s es').ring.head -
      (run (splitStep 16384 splitSample) s es').ring.tail).toNat + 2 ≤ (16384 : UInt32).toNat := by
    decide +kernel
  refine ⟨by decide, by decide, by decide +kernel, ?_⟩
  rintro ⟨es', hpre, hshort⟩
  exact absurd hshort (Nat.not_lt.mpr (hroom es' ((List.mem_inits es' staleHeadRun).mpr hpre)))

/-- The same call, with no more than two packets going through. -/
def freshHeadRun : List (SplitEvent 1 Nat) :=
  .own .countHead :: (passingPacket ++ passingPacket) ++
    [.own .countTail, .own .loadHead, .own .loadHead, .own .loadTail, .own (.copy 0 onlyWord),
      .own (.copy 1 onlyWord), .own .publish, .own .unlock]

theorem split_accepted_sample :
    let s : SplitState 1 Nat := ⟨run (ringStep 16384) (RingState.init 0 fun _ _ => 0) [], .start⟩
    neRingInitOk 16384 = true ∧ splitSample.lengthsOk = true ∧ splitSample.wanDp < splitSample.wanCount ∧
      Along (splitStep 16384 splitSample) TailNearHead s freshHeadRun ∧
      (run (splitStep 16384 splitSample) s freshHeadRun).pc = .done true ∧
      ∃ es', es' <+: freshHeadRun ∧ (run (splitStep 16384 splitSample) s es').pc.running = true ∧
        HoldsPair 16384 (run (splitStep 16384 splitSample) s es').ring splitSample.job splitSample.tail := by
  intro s
  have hal : Along (splitStep 16384 splitSample) TailNearHead s freshHeadRun := by decide +kernel
  have hend : (run (splitStep 16384 splitSample) s freshHeadRun).pc = .done true := by decide +kernel
  exact ⟨by decide, by decide, by decide, hal, hend,
    (split_refused_only_when_short (by decide) 0 _ [] splitSample (by decide) (by decide) freshHeadRun hal).2 hend⟩

end NetworkEncryptor
