import NetworkEncryptor.Lib.Fifo
import NetworkEncryptor.Lib.Run
import NetworkEncryptor.Ring
import Mathlib.Data.List.Forall2
import Mathlib.Data.Nat.ModEq
import Mathlib.Logic.Function.Basic

/-!
# NetworkEncryptor.RingSteps

`ne_ring_try_push`, `ne_ring_try_push_pair`, `ne_ring_try_pop` and `ne_ring_count` of
`src/core/iface/xdp_interface.c` in single steps: the loads and stores of the two
32-bit indices, and the copies of a packet word by word, in any order.

Producers are serialised by the push lock, so there is one push under way at a time;
the one consumer runs beside it.  The ring starts with both indices at any value.
`log` is history: what a bounded FIFO would have shown, a push at the store of
`head`, a refusal at the load of `tail`, a pop at the store of `tail`.  The log is a
run of the specification (`neRing_refines`), and so is what `NetworkEncryptor.Ring`
does in one step each (`fifoStep_of_neRing`).
-/

namespace NetworkEncryptor

/-! ## the ring -/

/-- A packet in memory: its words. -/
abbrev Words (k : Nat) (ω : Type) := Fin k → ω

/-- What a producer holds the lock for. -/
inductive PushReq (k : Nat) (ω : Type)
  | one (pkt : Words k ω)
  | pair (first second : Words k ω)
  | count

/-- The push under way: none, `head` to be loaded, `tail` to be loaded, the packets to
be copied (`done` says which words are), the lock to be released. -/
inductive PushPc (k : Nat) (ω : Type)
  | free
  | locked (req : PushReq k ω)
  | loaded (req : PushReq k ω) (head : UInt32)
  | copying (pkts : List (Words k ω)) (head : UInt32) (done : List (Nat × Fin k))
  | unlocking

/-- The consumer: idle, `head` to be loaded, the packet to be copied to `out`, or in
`ne_ring_count` with `tail` to be loaded. -/
inductive PopPc (k : Nat) (ω : Type)
  | idle
  | loadedTail (tail : UInt32) (out : Words k ω)
  | reading (tail : UInt32) (done : List (Fin k)) (out : Words k ω)
  | counting (head : UInt32)

/-- The shared ring and the two threads on it; `log`, `asked` and `counts` are histories, of
the events, of the pushes that were begun and of the results of `ne_ring_count`. -/
structure RingState (k : Nat) (ω : Type) where
  buf : Nat → Words k ω
  head : UInt32
  tail : UInt32
  pusher : PushPc k ω
  consumer : PopPc k ω
  log : List (FifoEvent (Words k ω))
  asked : List (List (Words k ω))
  counts : List UInt32

/-- The capacities `ne_ring_init` accepts. -/
def neRingInitOk (cap : UInt32) : Bool := !(cap == 0 || cap &&& (cap - 1) != 0)

/-- A ring with `head` and `tail` at `start`. -/
def RingState.init {k : Nat} {ω : Type} (start : UInt32) (buf : Nat → Words k ω) : RingState k ω :=
  ⟨buf, start, start, .free, .idle, [], [], []⟩

inductive RingEvent (k : Nat) (ω : Type)
  | lock (req : PushReq k ω)
  | loadHead
  | loadTail
  | copy (p : Nat) (w : Fin k)
  | publish
  | unlock
  | popTail (out : Words k ω)
  | popHead
  | read (w : Fin k)
  | popStore
  | countHead
  | countTail

section Steps

variable {k : Nat} {ω : Type}

/-- The slot of an index. -/
def slotOf (cap idx : UInt32) : Nat := (idx &&& (cap - 1)).toNat

/-- The load of `tail` and the test on it. -/
def pushTest (cap : UInt32) (s : RingState k ω) (req : PushReq k ω) (head : UInt32) : RingState k ω :=
  match req with
  | .one pkt =>
      if head - s.tail ≥ cap then { s with pusher := .unlocking, log := s.log ++ [.refuse 1] }
      else { s with pusher := .copying [pkt] head [] }
  | .pair first second =>
      if head - s.tail > cap - 2 then { s with pusher := .unlocking, log := s.log ++ [.refuse 2] }
      else { s with pusher := .copying [first, second] head [] }
  | .count => { s with pusher := .unlocking, counts := s.counts ++ [head - s.tail] }

/-- A producer that wants to push a pair gives up at once if there is no room for one
in the whole ring. -/
def pushLock (cap : UInt32) (s : RingState k ω) (req : PushReq k ω) : RingState k ω :=
  match req with
  | .one pkt => { s with pusher := .locked req, asked := s.asked ++ [[pkt]] }
  | .pair first second =>
      if cap < 2 then { s with asked := s.asked ++ [[first, second]], log := s.log ++ [.refuse 2] }
      else { s with pusher := .locked req, asked := s.asked ++ [[first, second]] }
  | .count => { s with pusher := .locked req }

/-- A word of one of the packets is stored. -/
def storeWord (cap : UInt32) (s : RingState k ω) (pkts : List (Words k ω)) (head : UInt32)
    (p : Nat) (w : Fin k) : Nat → Words k ω :=
  match pkts[p]? with
  | none => s.buf
  | some pkt =>
      let i := slotOf cap (head + UInt32.ofNat p)
      Function.update s.buf i (Function.update (s.buf i) w (pkt w))

def ringStep (cap : UInt32) (s : RingState k ω) : RingEvent k ω → RingState k ω
  | .lock req =>
      match s.pusher with
      | .free => pushLock cap s req
      | _ => s
  | .loadHead =>
      match s.pusher with
      | .locked req => { s with pusher := .loaded req s.head }
      | _ => s
  | .loadTail =>
      match s.pusher with
      | .loaded req head => pushTest cap s req head
      | _ => s
  | .copy p w =>
      match s.pusher with
      | .copying pkts head done =>
          { s with buf := storeWord cap s pkts head p w, pusher := .copying pkts head ((p, w) :: done) }
      | _ => s
  | .publish =>
      match s.pusher with
      | .copying pkts head done =>
          if ∀ p < pkts.length, ∀ w, (p, w) ∈ done then
            { s with head := head + UInt32.ofNat pkts.length, pusher := .unlocking,
                     log := s.log ++ [.push pkts] }
          else s
      | _ => s
  | .unlock =>
      match s.pusher with
      | .unlocking => { s with pusher := .free }
      | _ => s
  | .popTail out =>
      match s.consumer with
      | .idle => { s with consumer := .loadedTail s.tail out }
      | _ => s
  | .popHead =>
      match s.consumer with
      | .loadedTail tail out =>
          if tail = s.head then { s with consumer := .idle, log := s.log ++ [.empty] }
          else { s with consumer := .reading tail [] out }
      | _ => s
  | .read w =>
      match s.consumer with
      | .reading tail done out =>
          { s with consumer := .reading tail (w :: done)
                    (Function.update out w (s.buf (slotOf cap tail) w)) }
      | _ => s
  | .popStore =>
      match s.consumer with
      | .reading tail done out =>
          if ∀ w, w ∈ done then
            { s with tail := tail + 1, consumer := .idle, log := s.log ++ [.pop out] }
          else s
      | _ => s
  | .countHead =>
      match s.consumer with
      | .idle => { s with consumer := .counting s.head }
      | _ => s
  | .countTail =>
      match s.consumer with
      | .counting head => { s with consumer := .idle, counts := s.counts ++ [head - s.tail] }
      | _ => s

end Steps

/-! ## indices -/

/-- An accepted capacity is a power of two below 2³². -/
theorem neRingInitOk_spec {cap : UInt32} (h : neRingInitOk cap = true) :
    ∃ e, e < 32 ∧ cap.toNat = 2 ^ e := by
  simp only [neRingInitOk, Bool.not_eq_true', Bool.or_eq_false_iff, beq_eq_false_iff_ne, bne_eq_false_iff_eq] at h
  obtain ⟨hne, hand⟩ := h
  have hpos : cap.toNat ≠ 0 := fun h0 => hne (UInt32.toNat_inj.mp h0)
  have hsub : (cap - 1).toNat = cap.toNat - 1 := by
    rw [UInt32.toNat_sub_of_le]
    · rfl
    · rw [UInt32.le_iff_toNat_le]; change 1 ≤ cap.toNat; omega
  have hzero : cap.toNat &&& (cap.toNat - 1) = 0 := by
    rw [← hsub, ← UInt32.toNat_and, hand]; rfl
  obtain ⟨e, he⟩ := (Nat.and_sub_one_eq_zero_iff_isPowerOfTwo hpos).mp hzero
  refine ⟨e, ?_, he⟩
  have hlt := cap.toNat_lt
  rw [he] at hlt
  exact (Nat.pow_lt_pow_iff_right (by decide)).mp hlt

/-- Indices are taken modulo the capacity: the wrap at 2³² does not show. -/
theorem slotOf_add {cap : UInt32} (h : neRingInitOk cap = true) (i : UInt32) (j : Nat) :
    slotOf cap (i + UInt32.ofNat j) = (i.toNat + j) % cap.toNat := by
  obtain ⟨e, he, hcap⟩ := neRingInitOk_spec h
  have hsub : (cap - 1).toNat = 2 ^ e - 1 := by
    rw [UInt32.toNat_sub_of_le, hcap]
    · rfl
    · rw [UInt32.le_iff_toNat_le, hcap]; exact Nat.one_le_two_pow
  have hdvd : 2 ^ e ∣ 2 ^ 32 := Nat.pow_dvd_pow 2 he.le
  rw [slotOf, UInt32.toNat_and, hsub, Nat.and_two_pow_sub_one_eq_mod, UInt32.toNat_add,
    UInt32.toNat_ofNat', Nat.mod_mod_of_dvd _ hdvd, hcap, Nat.add_mod,
    Nat.mod_mod_of_dvd _ hdvd, ← Nat.add_mod]

/-- Two indices less than the capacity apart have different slots. -/
theorem slotOf_ne {cap : UInt32} (h : neRingInitOk cap = true) (i : UInt32) {a b : Nat} (hab : a < b)
    (hb : b < a + cap.toNat) : slotOf cap (i + UInt32.ofNat a) ≠ slotOf cap (i + UInt32.ofNat b) := by
  rw [slotOf_add h, slotOf_add h]
  intro heq
  have hdvd : cap.toNat ∣ (i.toNat + b) - (i.toNat + a) := (Nat.modEq_iff_dvd' (by omega)).mp heq
  have := Nat.le_of_dvd (by omega) hdvd
  omega

/-- The difference of two indices counts the packets between them. -/
theorem toNat_index_sub {cap : UInt32} (i : UInt32) {n : Nat} (hn : n ≤ cap.toNat) :
    (i + UInt32.ofNat n - i).toNat = n := by
  rw [UInt32.add_comm, UInt32.add_sub_cancel]
  exact UInt32.toNat_ofNat_of_lt' (lt_of_le_of_lt hn cap.toNat_lt)

theorem index_add (i : UInt32) (a b : Nat) :
    i + UInt32.ofNat a + UInt32.ofNat b = i + UInt32.ofNat (a + b) := by
  rw [UInt32.ofNat_add, UInt32.add_assoc]

/-! ## the invariant -/

section Invariant

variable {k : Nat} {ω : Type} {cap : UInt32}

/-- The slots from `tail` on hold the contents. -/
def SlotsHold (cap tail : UInt32) (buf : Nat → Words k ω) (q : List (Words k ω)) : Prop :=
  ∀ j x, q[j]? = some x → buf (slotOf cap (tail + UInt32.ofNat j)) = x

/-- The words that are done are in their slots from `head` on. -/
def Copied (cap head : UInt32) (buf : Nat → Words k ω) (pkts : List (Words k ω))
    (done : List (Nat × Fin k)) : Prop :=
  ∀ p w pkt, (p, w) ∈ done → pkts[p]? = some pkt → buf (slotOf cap (head + UInt32.ofNat p)) w = pkt w

/-- What a push under way knows: its `head` is the ring's, which no other producer can
move; there was room, and the consumer only makes more; the copied words are there. -/
def PushInv (cap head : UInt32) (buf : Nat → Words k ω) (q : List (Words k ω)) : PushPc k ω → Prop
  | .free | .unlocking => True
  | .locked req => ∀ a b, req = .pair a b → 2 ≤ cap.toNat
  | .loaded req seen => seen = head ∧ ∀ a b, req = .pair a b → 2 ≤ cap.toNat
  | .copying pkts seen done =>
      seen = head ∧ q.length + pkts.length ≤ cap.toNat ∧ Copied cap head buf pkts done

/-- What the consumer knows: its `tail` is the ring's; once it has seen the ring not
empty there is an oldest packet, and the words it has read are of that one.  A `head`
it has loaded may be old, but is no more than the capacity away. -/
def PopInv (cap tail : UInt32) (q : List (Words k ω)) : PopPc k ω → Prop
  | .idle => True
  | .loadedTail seen _ => seen = tail
  | .reading seen done out => seen = tail ∧ ∃ x rest, q = x :: rest ∧ ∀ w ∈ done, out w = x w
  | .counting head => (head - tail).toNat ≤ cap.toNat

/-- `q` is what is in the ring. -/
structure RingInv (cap : UInt32) (s : RingState k ω) (q : List (Words k ω)) : Prop where
  fifo : FifoRun cap.toNat [] s.log q
  head_eq : s.head = s.tail + UInt32.ofNat q.length
  slots : SlotsHold cap s.tail s.buf q
  pusher : PushInv cap s.head s.buf q s.pusher
  consumer : PopInv cap s.tail q s.consumer
  counts : ∀ c ∈ s.counts, c.toNat ≤ cap.toNat

theorem RingInv.init (start : UInt32) (buf : Nat → Words k ω) : RingInv cap (RingState.init start buf) [] where
  fifo := .nil []
  head_eq := by simp [RingState.init]
  slots := by intro j x hx; simp at hx
  pusher := trivial
  consumer := trivial
  counts := by intro c hc; simp [RingState.init] at hc

/-- `head - tail` is the number of packets inside. -/
theorem RingInv.toNat_sub {s : RingState k ω} {q : List (Words k ω)} (h : RingInv cap s q) :
    (s.head - s.tail).toNat = q.length := by
  rw [h.head_eq]; exact toNat_index_sub s.tail h.fifo.length_le

/-! ## the steps of a push -/

theorem RingInv.lock {s : RingState k ω} {q : List (Words k ω)} (h : RingInv cap s q) (req : PushReq k ω) :
    RingInv cap (pushLock cap s req) q := by
  cases req with
  | one pkt => exact { h with pusher := by intro a b hab; cases hab }
  | count => exact { h with pusher := by intro a b hab; cases hab }
  | pair first second =>
      rw [pushLock]
      by_cases hc : cap < 2
      · rw [if_pos hc]
        have hlt : cap.toNat < 2 := UInt32.lt_iff_toNat_lt.mp hc
        exact { h with fifo := h.fifo.snoc (.refuse (by omega)) }
      · rw [if_neg hc]
        have hle : 2 ≤ cap.toNat := UInt32.le_iff_toNat_le.mp (UInt32.not_lt.mp hc)
        exact { h with pusher := fun _ _ _ => hle }

/-- A push is refused when there is no room for it, and has room when it is not. -/
theorem RingInv.test {s : RingState k ω} {q : List (Words k ω)} (h : RingInv cap s q)
    {req : PushReq k ω} (hreq : ∀ a b, req = .pair a b → 2 ≤ cap.toNat) :
    RingInv cap (pushTest cap s req s.head) q := by
  cases req with
  | one pkt =>
      rw [pushTest]
      by_cases hc : s.head - s.tail ≥ cap
      · rw [if_pos hc]
        have hle := UInt32.le_iff_toNat_le.mp hc
        rw [h.toNat_sub] at hle
        exact { h with fifo := h.fifo.snoc (.refuse (by omega)), pusher := trivial }
      · rw [if_neg hc]
        have hlt := UInt32.lt_iff_toNat_lt.mp (UInt32.not_le.mp hc)
        rw [h.toNat_sub] at hlt
        exact { h with pusher := ⟨rfl, by rw [List.length_singleton]; omega, fun p w pkt hd => by simp at hd⟩ }
  | pair first second =>
      have htwo := hreq first second rfl
      have hsub : (cap - 2).toNat = cap.toNat - 2 := by
        rw [UInt32.toNat_sub_of_le]
        · rfl
        · rw [UInt32.le_iff_toNat_le]; exact htwo
      rw [pushTest]
      by_cases hc : s.head - s.tail > cap - 2
      · rw [if_pos hc]
        have hlt := UInt32.lt_iff_toNat_lt.mp hc
        rw [h.toNat_sub, hsub] at hlt
        exact { h with fifo := h.fifo.snoc (.refuse (by omega)), pusher := trivial }
      · rw [if_neg hc]
        have hle := UInt32.le_iff_toNat_le.mp (UInt32.not_lt.mp hc)
        rw [h.toNat_sub, hsub] at hle
        exact { h with
          pusher := ⟨rfl, by simp only [List.length_cons, List.length_nil]; omega,
            fun p w pkt hd => by simp at hd⟩ }
  | count =>
      have hle : (s.head - s.tail).toNat ≤ cap.toNat := by rw [h.toNat_sub]; exact h.fifo.length_le
      refine { h with pusher := trivial, counts := ?_ }
      intro c hc
      rcases List.mem_append.mp hc with hc | hc
      · exact h.counts c hc
      · rw [List.mem_singleton.mp hc]; exact hle

/-- The slots of a push lie behind those in use, and no two of them are the same. -/
theorem RingInv.slot_ne {s : RingState k ω} {q : List (Words k ω)} (hcap : neRingInitOk cap = true)
    (h : RingInv cap s q) {j p n : Nat} (hroom : q.length + n ≤ cap.toNat) (hp : p < n) (hj : j < q.length) :
    slotOf cap (s.tail + UInt32.ofNat j) ≠ slotOf cap (s.head + UInt32.ofNat p) := by
  rw [h.head_eq, index_add]
  exact slotOf_ne hcap s.tail (by omega) (by omega)

theorem slotOf_inj {head : UInt32} (hcap : neRingInitOk cap = true) {p p' : Nat} (hp : p < cap.toNat)
    (hp' : p' < cap.toNat) (heq : slotOf cap (head + UInt32.ofNat p) = slotOf cap (head + UInt32.ofNat p')) :
    p = p' := by
  rcases Nat.lt_trichotomy p p' with hlt | heqp | hlt
  · exact absurd heq (slotOf_ne hcap head hlt (by omega))
  · exact heqp
  · exact absurd heq.symm (slotOf_ne hcap head hlt (by omega))

theorem storeWord_eq {s : RingState k ω} {pkts : List (Words k ω)} {head : UInt32} {p : Nat} {w : Fin k}
    {pkt : Words k ω} (hpkt : pkts[p]? = some pkt) :
    storeWord cap s pkts head p w = Function.update s.buf (slotOf cap (head + UInt32.ofNat p))
      (Function.update (s.buf (slotOf cap (head + UInt32.ofNat p))) w (pkt w)) := by
  simp [storeWord, hpkt]

theorem storeWord_none {s : RingState k ω} {pkts : List (Words k ω)} {head : UInt32} {p : Nat} {w : Fin k}
    (hpkt : pkts[p]? = none) : storeWord cap s pkts head p w = s.buf := by
  simp [storeWord, hpkt]

/-- No packet inside is touched. -/
theorem RingInv.slotsHold_storeWord {s : RingState k ω} {q : List (Words k ω)}
    (hcap : neRingInitOk cap = true) (h : RingInv cap s q) {pkts : List (Words k ω)}
    (hroom : q.length + pkts.length ≤ cap.toNat) (p : Nat) (w : Fin k) :
    SlotsHold cap s.tail (storeWord cap s pkts s.head p w) q := by
  intro j x hx
  cases hpkt : pkts[p]? with
  | none => rw [storeWord_none hpkt]; exact h.slots j x hx
  | some pkt =>
      have hlt : p < pkts.length := (List.getElem?_eq_some_iff.mp hpkt).1
      have hj : j < q.length := (List.getElem?_eq_some_iff.mp hx).1
      rw [storeWord_eq hpkt, Function.update_of_ne (h.slot_ne hcap hroom hlt hj)]
      exact h.slots j x hx

/-- One more word is done, and the others stay. -/
theorem copied_storeWord {s : RingState k ω} (hcap : neRingInitOk cap = true) {pkts : List (Words k ω)}
    {done : List (Nat × Fin k)} (hlen : pkts.length ≤ cap.toNat) (h : Copied cap s.head s.buf pkts done)
    (p : Nat) (w : Fin k) :
    Copied cap s.head (storeWord cap s pkts s.head p w) pkts ((p, w) :: done) := by
  intro p' w' pkt' hmem hp'
  have hold : (p', w') ≠ (p, w) → s.buf (slotOf cap (s.head + UInt32.ofNat p')) w' = pkt' w' := by
    intro hne
    rcases List.mem_cons.mp hmem with heq | hmem
    · exact absurd heq hne
    · exact h p' w' pkt' hmem hp'
  have hlt' : p' < pkts.length := (List.getElem?_eq_some_iff.mp hp').1
  cases hpkt : pkts[p]? with
  | none =>
      rw [storeWord_none hpkt]
      refine hold fun heq => ?_
      rw [(Prod.mk.inj heq).1, hpkt] at hp'
      cases hp'
  | some pkt =>
      have hlt : p < pkts.length := (List.getElem?_eq_some_iff.mp hpkt).1
      rw [storeWord_eq hpkt]
      by_cases heq : p' = p
      · subst heq
        have hsame : pkt = pkt' := Option.some.inj (hpkt.symm.trans hp')
        rw [Function.update_self, hsame]
        by_cases hw : w' = w
        · rw [hw, Function.update_self]
        · rw [Function.update_of_ne hw]
          exact hold fun hpw => hw (Prod.mk.inj hpw).2
      · have hslot : slotOf cap (s.head + UInt32.ofNat p') ≠ slotOf cap (s.head + UInt32.ofNat p) :=
          fun hs => heq (slotOf_inj hcap (by omega) (by omega) hs)
        rw [Function.update_of_ne hslot]
        exact hold fun hpw => heq (Prod.mk.inj hpw).1

theorem RingInv.copy {s : RingState k ω} {q : List (Words k ω)} (hcap : neRingInitOk cap = true)
    (h : RingInv cap s q) {pkts : List (Words k ω)} {head : UInt32} {done : List (Nat × Fin k)}
    (hp : s.pusher = .copying pkts head done) (p : Nat) (w : Fin k) :
    RingInv cap { s with
      buf := storeWord cap s pkts head p w
      pusher := .copying pkts head ((p, w) :: done) } q := by
  have hpush := h.pusher
  rw [hp] at hpush
  obtain ⟨rfl, hroom, hdone⟩ := hpush
  exact { h with
    slots := h.slotsHold_storeWord hcap hroom p w
    pusher := ⟨rfl, hroom, copied_storeWord hcap (by omega) hdone p w⟩ }

/-- The store of `head` is the push. -/
theorem RingInv.publish {s : RingState k ω} {q : List (Words k ω)} (h : RingInv cap s q)
    {pkts : List (Words k ω)} {head : UInt32} {done : List (Nat × Fin k)}
    (hp : s.pusher = .copying pkts head done) (hall : ∀ p < pkts.length, ∀ w, (p, w) ∈ done) :
    RingInv cap { s with
      head := head + UInt32.ofNat pkts.length
      pusher := .unlocking
      log := s.log ++ [.push pkts] } (q ++ pkts) := by
  have hpush := h.pusher
  rw [hp] at hpush
  obtain ⟨rfl, hroom, hdone⟩ := hpush
  refine { h with fifo := h.fifo.snoc (.push hroom), head_eq := ?_, slots := ?_, pusher := trivial,
                  consumer := ?_ }
  · rw [h.head_eq, index_add, List.length_append]
  · intro j x hx
    by_cases hj : j < q.length
    · rw [List.getElem?_append_left hj] at hx
      exact h.slots j x hx
    · rw [List.getElem?_append_right (by omega)] at hx
      have hlt := (List.getElem?_eq_some_iff.mp hx).1
      have hidx : s.tail + UInt32.ofNat j = s.head + UInt32.ofNat (j - q.length) := by
        rw [h.head_eq, index_add, Nat.add_sub_cancel' (by omega)]
      funext w
      simp only [hidx]
      exact hdone _ w x (hall _ hlt w) hx
  · have hc := h.consumer
    cases hpc : s.consumer with
    | idle => trivial
    | loadedTail tail out => rw [hpc] at hc; exact hc
    | counting head => rw [hpc] at hc; exact hc
    | reading tail done out =>
        rw [hpc] at hc
        obtain ⟨ht, x, rest, rfl, hw⟩ := hc
        exact ⟨ht, x, rest ++ pkts, rfl, hw⟩

/-! ## the steps of the consumer -/

/-- The oldest packet is at `tail`. -/
theorem SlotsHold.oldest {tail : UInt32} {buf : Nat → Words k ω} {x : Words k ω} {rest : List (Words k ω)}
    (h : SlotsHold cap tail buf (x :: rest)) : buf (slotOf cap tail) = x := by
  have h0 := h 0 x rfl
  rwa [show tail + UInt32.ofNat 0 = tail by simp] at h0

theorem RingInv.popHead {s : RingState k ω} {q : List (Words k ω)} (h : RingInv cap s q)
    (out : Words k ω) :
    RingInv cap (if s.tail = s.head then { s with consumer := .idle, log := s.log ++ [.empty] }
      else { s with consumer := .reading s.tail [] out }) q := by
  have hlen := h.toNat_sub
  by_cases hc : s.tail = s.head
  · rw [if_pos hc]
    rw [← hc, UInt32.sub_self] at hlen
    obtain rfl : q = [] := List.length_eq_zero_iff.mp hlen.symm
    exact { h with fifo := h.fifo.snoc .empty, consumer := trivial }
  · rw [if_neg hc]
    cases q with
    | nil => exact absurd (by simpa using h.head_eq.symm) hc
    | cons x rest => exact { h with consumer := ⟨rfl, x, rest, rfl, fun w hw => by simp at hw⟩ }

theorem RingInv.read {s : RingState k ω} {q : List (Words k ω)} (h : RingInv cap s q) {tail : UInt32}
    {done : List (Fin k)} {out : Words k ω} (hc : s.consumer = .reading tail done out) (w : Fin k) :
    RingInv cap { s with
      consumer := .reading tail (w :: done) (Function.update out w (s.buf (slotOf cap tail) w)) } q := by
  have hpop := h.consumer
  rw [hc] at hpop
  obtain ⟨rfl, x, rest, rfl, hdone⟩ := hpop
  refine { h with consumer := ⟨rfl, x, rest, rfl, ?_⟩ }
  intro w' hw'
  by_cases heq : w' = w
  · rw [heq, Function.update_self, h.slots.oldest]
  · rw [Function.update_of_ne heq]
    exact hdone w' ((List.mem_cons.mp hw').resolve_left heq)

/-- The store of `tail` is the pop: all words that were read are the oldest packet's. -/
theorem RingInv.popStore {s : RingState k ω} {q : List (Words k ω)} (h : RingInv cap s q) {tail : UInt32}
    {done : List (Fin k)} {out : Words k ω} (hc : s.consumer = .reading tail done out)
    (hall : ∀ w, w ∈ done) :
    ∃ q', RingInv cap { s with
      tail := tail + 1
      consumer := .idle
      log := s.log ++ [.pop out] } q' := by
  have hpop := h.consumer
  rw [hc] at hpop
  obtain ⟨rfl, x, rest, rfl, hdone⟩ := hpop
  obtain rfl : out = x := funext fun w => hdone w (hall w)
  refine ⟨rest, { h with fifo := h.fifo.snoc .pop, head_eq := ?_, slots := ?_, pusher := ?_, consumer := trivial }⟩
  · rw [h.head_eq, List.length_cons, Nat.add_comm, ← index_add]
    rfl
  · intro j x hx
    have hj := h.slots (j + 1) x hx
    rwa [Nat.add_comm, ← index_add] at hj
  · have hp := h.pusher
    cases hpc : s.pusher with
    | free => trivial
    | unlocking => trivial
    | locked req => rw [hpc] at hp; exact hp
    | loaded req head => rw [hpc] at hp; exact hp
    | copying pkts head done' =>
        rw [hpc] at hp
        obtain ⟨hh, hroom, hcopied⟩ := hp
        rw [List.length_cons] at hroom
        exact ⟨hh, by omega, hcopied⟩

theorem RingInv.countTail {s : RingState k ω} {q : List (Words k ω)} (h : RingInv cap s q) {head : UInt32}
    (hc : s.consumer = .counting head) :
    RingInv cap { s with consumer := .idle, counts := s.counts ++ [head - s.tail] } q := by
  have hpop := h.consumer
  rw [hc] at hpop
  refine { h with consumer := trivial, counts := ?_ }
  intro c hmem
  rcases List.mem_append.mp hmem with hmem | hmem
  · exact h.counts c hmem
  · rw [List.mem_singleton.mp hmem]; exact hpop

/-! ## all steps -/

theorem RingInv.step {s : RingState k ω} {q : List (Words k ω)} (hcap : neRingInitOk cap = true)
    (h : RingInv cap s q) (e : RingEvent k ω) : ∃ q', RingInv cap (ringStep cap s e) q' := by
  have hp := h.pusher
  have hc := h.consumer
  cases e with
  | lock req =>
      cases hpc : s.pusher <;> simp only [ringStep, hpc]
      case free => exact ⟨q, h.lock req⟩
      all_goals exact ⟨q, h⟩
  | loadHead =>
      cases hpc : s.pusher <;> simp only [ringStep, hpc]
      case locked req => rw [hpc] at hp; exact ⟨q, { h with pusher := ⟨rfl, hp⟩ }⟩
      all_goals exact ⟨q, h⟩
  | loadTail =>
      cases hpc : s.pusher <;> simp only [ringStep, hpc]
      case loaded req head =>
        rw [hpc] at hp
        obtain ⟨rfl, hreq⟩ := hp
        exact ⟨q, h.test hreq⟩
      all_goals exact ⟨q, h⟩
  | copy p w =>
      cases hpc : s.pusher <;> simp only [ringStep, hpc]
      case copying pkts head done => exact ⟨q, h.copy hcap hpc p w⟩
      all_goals exact ⟨q, h⟩
  | publish =>
      cases hpc : s.pusher <;> simp only [ringStep, hpc]
      case copying pkts head done =>
        by_cases hall : ∀ p < pkts.length, ∀ w, (p, w) ∈ done
        · rw [if_pos hall]; exact ⟨q ++ pkts, h.publish hpc hall⟩
        · rw [if_neg hall]; exact ⟨q, h⟩
      all_goals exact ⟨q, h⟩
  | unlock =>
      cases hpc : s.pusher <;> simp only [ringStep, hpc]
      case unlocking => exact ⟨q, { h with pusher := trivial }⟩
      all_goals exact ⟨q, h⟩
  | popTail out =>
      cases hpc : s.consumer <;> simp only [ringStep, hpc]
      case idle => exact ⟨q, { h with consumer := rfl }⟩
      all_goals exact ⟨q, h⟩
  | popHead =>
      cases hpc : s.consumer <;> simp only [ringStep, hpc]
      case loadedTail tail out =>
        rw [hpc] at hc
        obtain rfl : tail = s.tail := hc
        exact ⟨q, h.popHead out⟩
      all_goals exact ⟨q, h⟩
  | read w =>
      cases hpc : s.consumer <;> simp only [ringStep, hpc]
      case reading tail done out => exact ⟨q, h.read hpc w⟩
      all_goals exact ⟨q, h⟩
  | popStore =>
      cases hpc : s.consumer <;> simp only [ringStep, hpc]
      case reading tail done out =>
        by_cases hall : ∀ w, w ∈ done
        · rw [if_pos hall]; exact h.popStore hpc hall
        · rw [if_neg hall]; exact ⟨q, h⟩
      all_goals exact ⟨q, h⟩
  | countHead =>
      cases hpc : s.consumer <;> simp only [ringStep, hpc]
      case idle =>
        have hle : (s.head - s.tail).toNat ≤ cap.toNat := by rw [h.toNat_sub]; exact h.fifo.length_le
        exact ⟨q, { h with consumer := hle }⟩
      all_goals exact ⟨q, h⟩
  | countTail =>
      cases hpc : s.consumer <;> simp only [ringStep, hpc]
      case counting head => exact ⟨q, h.countTail hpc⟩
      all_goals exact ⟨q, h⟩

theorem RingInv.run {s : RingState k ω} {q : List (Words k ω)} (hcap : neRingInitOk cap = true)
    (h : RingInv cap s q) (es : List (RingEvent k ω)) : ∃ q', RingInv cap (run (ringStep cap) s es) q' := by
  induction es generalizing s q with
  | nil => exact ⟨q, h⟩
  | cons e es ih =>
      obtain ⟨q', h'⟩ := h.step hcap e
      exact ih h'

/-! ## each push is answered once -/

/-- The answer to a push: all of it was put in, or it was refused. -/
def Answers (pkts : List (Words k ω)) (e : FifoEvent (Words k ω)) : Prop :=
  e = .push pkts ∨ e = .refuse pkts.length

/-- The pushes of the log and the refused ones. -/
def pushAnswers (log : List (FifoEvent (Words k ω))) : List (FifoEvent (Words k ω)) :=
  log.filter fun
    | .push _ | .refuse _ => true
    | _ => false

/-- The packets of a push. -/
def PushReq.packets : PushReq k ω → List (List (Words k ω))
  | .one pkt => [[pkt]]
  | .pair first second => [[first, second]]
  | .count => []

/-- The push under way. -/
def PushPc.pending : PushPc k ω → List (List (Words k ω))
  | .free | .unlocking => []
  | .locked req => req.packets
  | .loaded req _ => req.packets
  | .copying pkts _ _ => [pkts]

/-- All pushes but the one under way are answered, in order. -/
def PushesAnswered (s : RingState k ω) : Prop :=
  ∃ old, s.asked = old ++ s.pusher.pending ∧ List.Forall₂ Answers old (pushAnswers s.log)

theorem length_pending_le (pc : PushPc k ω) : pc.pending.length ≤ 1 := by
  have hreq : ∀ req : PushReq k ω, req.packets.length ≤ 1 := by
    intro req
    cases req <;> simp [PushReq.packets]
  cases pc with
  | free => simp [PushPc.pending]
  | unlocking => simp [PushPc.pending]
  | locked req => exact hreq req
  | loaded req head => exact hreq req
  | copying pkts head done => simp [PushPc.pending]

theorem PushesAnswered.snoc {s : RingState k ω} {old : List (List (Words k ω))} {pkts : List (Words k ω)}
    {e : FifoEvent (Words k ω)} (h : List.Forall₂ Answers old (pushAnswers s.log)) (he : Answers pkts e) :
    List.Forall₂ Answers (old ++ [pkts]) (pushAnswers (s.log ++ [e])) := by
  have hone : pushAnswers [e] = [e] := by
    rcases he with rfl | rfl <;> rfl
  rw [show pushAnswers (s.log ++ [e]) = pushAnswers s.log ++ pushAnswers [e] from List.filter_append ..,
    hone]
  exact List.rel_append h (.cons he .nil)

theorem PushesAnswered.lock {s : RingState k ω} (h : PushesAnswered s) (hfree : s.pusher = .free)
    (req : PushReq k ω) : PushesAnswered (pushLock cap s req) := by
  obtain ⟨old, hold, hans⟩ := h
  rw [hfree, PushPc.pending, List.append_nil] at hold
  cases req with
  | one pkt => exact ⟨old, by simp [pushLock, PushPc.pending, PushReq.packets, hold], hans⟩
  | count => exact ⟨old, by simp [pushLock, PushPc.pending, PushReq.packets, hold], hans⟩
  | pair first second =>
      rw [pushLock]
      by_cases hc : cap < 2
      · rw [if_pos hc]
        exact ⟨old ++ [[first, second]], by simp [PushPc.pending, hfree, hold], PushesAnswered.snoc hans (.inr rfl)⟩
      · rw [if_neg hc]
        exact ⟨old, by simp [PushPc.pending, PushReq.packets, hold], hans⟩

theorem PushesAnswered.test {s : RingState k ω} (h : PushesAnswered s) {req : PushReq k ω} {head : UInt32}
    (hpc : s.pusher = .loaded req head) : PushesAnswered (pushTest cap s req head) := by
  obtain ⟨old, hold, hans⟩ := h
  rw [hpc] at hold
  cases req with
  | one pkt =>
      rw [pushTest]
      by_cases hc : head - s.tail ≥ cap
      · rw [if_pos hc]
        exact ⟨old ++ [[pkt]], by simpa [PushPc.pending, PushReq.packets] using hold,
          PushesAnswered.snoc hans (.inr rfl)⟩
      · rw [if_neg hc]; exact ⟨old, hold, hans⟩
  | pair first second =>
      rw [pushTest]
      by_cases hc : head - s.tail > cap - 2
      · rw [if_pos hc]
        exact ⟨old ++ [[first, second]], by simpa [PushPc.pending, PushReq.packets] using hold,
          PushesAnswered.snoc hans (.inr rfl)⟩
      · rw [if_neg hc]; exact ⟨old, hold, hans⟩
  | count => exact ⟨old, hold, hans⟩

theorem pushAnswers_skip {log : List (FifoEvent (Words k ω))} {e : FifoEvent (Words k ω)}
    (h : pushAnswers [e] = []) : pushAnswers (log ++ [e]) = pushAnswers log := by
  have happ : pushAnswers (log ++ [e]) = pushAnswers log ++ pushAnswers [e] := List.filter_append ..
  rw [happ, h, List.append_nil]

theorem PushesAnswered.step {s : RingState k ω} (h : PushesAnswered s) (e : RingEvent k ω) :
    PushesAnswered (ringStep cap s e) := by
  cases e with
  | lock req =>
      cases hpc : s.pusher <;> simp only [ringStep, hpc]
      case free => exact h.lock hpc req
      all_goals exact h
  | loadHead =>
      cases hpc : s.pusher <;> simp only [ringStep, hpc]
      case locked req =>
        obtain ⟨old, hold, hans⟩ := h
        rw [hpc] at hold
        exact ⟨old, hold, hans⟩
      all_goals exact h
  | loadTail =>
      cases hpc : s.pusher <;> simp only [ringStep, hpc]
      case loaded req head => exact h.test hpc
      all_goals exact h
  | copy p w =>
      cases hpc : s.pusher <;> simp only [ringStep, hpc]
      case copying pkts head done =>
        obtain ⟨old, hold, hans⟩ := h
        rw [hpc] at hold
        exact ⟨old, hold, hans⟩
      all_goals exact h
  | publish =>
      cases hpc : s.pusher <;> simp only [ringStep, hpc]
      case copying pkts head done =>
        by_cases hall : ∀ p < pkts.length, ∀ w, (p, w) ∈ done
        · rw [if_pos hall]
          obtain ⟨old, hold, hans⟩ := h
          rw [hpc] at hold
          exact ⟨old ++ [pkts], by simpa [PushPc.pending] using hold, PushesAnswered.snoc hans (.inl rfl)⟩
        · rw [if_neg hall]; exact h
      all_goals exact h
  | unlock =>
      cases hpc : s.pusher <;> simp only [ringStep, hpc]
      case unlocking =>
        obtain ⟨old, hold, hans⟩ := h
        rw [hpc] at hold
        exact ⟨old, hold, hans⟩
      all_goals exact h
  | popTail out =>
      cases hpc : s.consumer <;> simp only [ringStep, hpc] <;> exact h
  | popHead =>
      cases hpc : s.consumer <;> simp only [ringStep, hpc]
      case loadedTail tail out =>
        by_cases hc : tail = s.head
        · rw [if_pos hc]
          obtain ⟨old, hold, hans⟩ := h
          exact ⟨old, hold, by rw [pushAnswers_skip rfl]; exact hans⟩
        · rw [if_neg hc]; exact h
      all_goals exact h
  | read w =>
      cases hpc : s.consumer <;> simp only [ringStep, hpc] <;> exact h
  | popStore =>
      cases hpc : s.consumer <;> simp only [ringStep, hpc]
      case reading tail done out =>
        by_cases hall : ∀ w, w ∈ done
        · rw [if_pos hall]
          obtain ⟨old, hold, hans⟩ := h
          exact ⟨old, hold, by rw [pushAnswers_skip rfl]; exact hans⟩
        · rw [if_neg hall]; exact h
      all_goals exact h
  | countHead =>
      cases hpc : s.consumer <;> simp only [ringStep, hpc] <;> exact h
  | countTail =>
      cases hpc : s.consumer <;> simp only [ringStep, hpc] <;> exact h

theorem PushesAnswered.run {s : RingState k ω} (h : PushesAnswered s) (es : List (RingEvent k ω)) :
    PushesAnswered (run (ringStep cap) s es) := by
  induction es generalizing s with
  | nil => exact h
  | cons e es ih => exact ih (h.step e)

end Invariant

/-! ## the refinement -/

/-- A ring is a bounded FIFO queue, in every interleaving: its log is a run of the
specification, each push that was begun is answered once (but for the one under way),
what was popped is what was pushed in order up to what is inside, and no count exceeds
the capacity. -/
theorem neRing_refines {k : Nat} {ω : Type} {cap : UInt32} (hcap : neRingInitOk cap = true) (start : UInt32)
    (buf : Nat → Words k ω) (es : List (RingEvent k ω)) :
    let s := run (ringStep cap) (RingState.init start buf) es
    (∃ q, FifoRun cap.toNat [] s.log q ∧ fifoPushes s.log = fifoPops s.log ++ q ∧ q.length ≤ cap.toNat) ∧
      (∃ answered pending, s.asked = answered ++ pending ∧ pending.length ≤ 1 ∧
        List.Forall₂ Answers answered (pushAnswers s.log)) ∧
      ∀ c ∈ s.counts, c.toNat ≤ cap.toNat := by
  intro s
  obtain ⟨q, hq⟩ := (@RingInv.init k ω cap start buf).run hcap es
  have hans : PushesAnswered (RingState.init start buf) := ⟨[], rfl, .nil⟩
  obtain ⟨old, hold, hall⟩ := @PushesAnswered.run k ω cap _ hans es
  exact ⟨⟨q, hq.fifo, hq.fifo.pushes_eq, hq.fifo.length_le⟩,
    ⟨old, s.pusher.pending, hold, length_pending_le _, hall⟩, hq.counts⟩

/-- A pair goes in where `head` wraps, and its first half comes out. -/
def wrapRun : List (RingEvent 1 Nat) :=
  [.lock (.pair (fun _ => 5) (fun _ => 6)), .loadHead, .loadTail, .popTail (fun _ => 0), .copy 1 0,
    .copy 0 0, .publish, .popHead, .read 0, .unlock, .popStore, .countHead, .countTail]

theorem neRing_refines_wrap :
    neRingInitOk 2 = true ∧
    (let s := run (ringStep 2) (RingState.init 0xFFFFFFFF fun _ _ => 0) wrapRun
    ((fifoPops s.log).map fun x => x 0) = [5] ∧ s.head = 1 ∧ s.tail = 0 ∧ s.counts = [1] ∧
      ∃ q, FifoRun 2 [] s.log q ∧ fifoPushes s.log = fifoPops s.log ++ q ∧ q.length ≤ 2) :=
  ⟨by decide, rfl, rfl, rfl, rfl, 
    (@neRing_refines 1 Nat 2 (by decide) 0xFFFFFFFF (fun _ _ => 0) wrapRun).1⟩

/-- The one-step operations of `NetworkEncryptor.Ring` are events of the same queue. -/
theorem fifoStep_of_neRing (r : NeRing) (pkt second : NePacket) :
    (match neRingTryPush r pkt with
      | some r' => FifoStep r.cap r.items (.push [pkt]) r'.items
      | none => FifoStep r.cap r.items (.refuse 1) r.items) ∧
    (match neRingTryPushPair r pkt second with
      | some r' => FifoStep r.cap r.items (.push [pkt, second]) r'.items
      | none => FifoStep r.cap r.items (.refuse 2) r.items) ∧
    (match neRingTryPop r with
      | some (x, r') => FifoStep r.cap r.items (.pop x) r'.items
      | none => FifoStep r.cap r.items .empty r.items) := by
  refine ⟨?_, ?_, ?_⟩
  · rw [neRingTryPush]
    by_cases hc : r.items.length ≥ r.cap
    · rw [if_pos hc]; exact .refuse (by omega)
    · rw [if_neg hc]; exact .push (by rw [List.length_singleton]; omega)
  · rw [neRingTryPushPair]
    by_cases htwo : r.cap < 2
    · rw [if_pos htwo]; exact .refuse (by omega)
    · rw [if_neg htwo]
      by_cases hc : r.items.length > r.cap - 2
      · rw [if_pos hc]; exact .refuse (by omega)
      · rw [if_neg hc]
        exact .push (by simp only [List.length_cons, List.length_nil]; omega)
  · obtain ⟨items, cap⟩ := r
    cases items with
    | nil => exact .empty
    | cons x rest => exact .pop

end NetworkEncryptor
