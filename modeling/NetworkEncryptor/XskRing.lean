import NetworkEncryptor.RingSteps
import NetworkEncryptor.RxLoop

/-!
# NetworkEncryptor.XskRing

The rings of `include/xdp/xsk.h` as they are in memory: 32-bit indices, two of them
shared with the kernel and two of the program's own that lag behind, and the entries in
a ring of a power of two of slots.

Every step of the program (one access to the shared memory each) may be followed by any
steps of the kernel.  `log` is history: the operations in their order.  The rings that
`Xsk` has as lists, given the same operations, show the program the same
(`consRun_refines`, `prodRun_refines`): a stale index of a consumer ring only delays
entries, and one of a producer ring never decides anything.
-/

namespace NetworkEncryptor

section XskRing

variable {α : Type}

/-- Indices keep their distance. -/
theorem index_sub (start : UInt32) (a b : Nat) :
    start + UInt32.ofNat (a + b) - (start + UInt32.ofNat a) = UInt32.ofNat b := by
  rw [← index_add, UInt32.add_comm, UInt32.add_sub_cancel]

theorem toNat_index_sub_of_le {start : UInt32} {a b : Nat} (hab : a ≤ b) (hlt : b - a < UInt32.size) :
    (start + UInt32.ofNat b - (start + UInt32.ofNat a)).toNat = b - a := by
  have hsub := index_sub start a (b - a)
  rw [Nat.add_sub_cancel' hab] at hsub
  rw [hsub, UInt32.toNat_ofNat_of_lt' hlt]

/-- The entries from the index `lo` on. -/
def EntriesAt (size start : UInt32) (ring : Nat → α) (lo : Nat) (xs : List α) : Prop :=
  ∀ j x, xs[j]? = some x → ring (slotOf size (start + UInt32.ofNat (lo + j))) = x

/-- Storing in a slot that is free keeps the entries. -/
theorem EntriesAt.store {size start : UInt32} {ring : Nat → α} {lo k : Nat} {xs : List α}
    (hsize : neRingInitOk size = true) (h : EntriesAt size start ring lo xs) (hk : xs.length ≤ k)
    (hroom : k < size.toNat) (y : α) :
    EntriesAt size start (Function.update ring (slotOf size (start + UInt32.ofNat (lo + k))) y) lo xs := by
  intro j x hx
  have hj := (List.getElem?_eq_some_iff.mp hx).1
  have hne := slotOf_ne hsize start (a := lo + j) (b := lo + k) (by omega) (by omega)
  rw [Function.update_of_ne hne]
  exact h j x hx

/-! ## consumer rings -/

/-- `struct xsk_ring_cons`; `producer` and `consumer` are the indices its pointers lead
to. -/
structure XskRingConsMem (α : Type) where
  ring : Nat → α
  size : UInt32
  producer : UInt32
  consumer : UInt32
  cachedProd : UInt32
  cachedCons : UInt32

namespace XskRingConsMem

/-- `xsk_cons_nb_avail`. -/
def nbAvail (r : XskRingConsMem α) (nb : UInt32) : UInt32 × XskRingConsMem α :=
  let r := if r.cachedProd - r.cachedCons = 0 then { r with cachedProd := r.producer } else r
  let entries := r.cachedProd - r.cachedCons
  (if entries > nb then nb else entries, r)

/-- `xsk_ring_cons__peek`: the number of entries, the index of the first, the ring. -/
def peek (r : XskRingConsMem α) (nb : UInt32) : UInt32 × UInt32 × XskRingConsMem α :=
  let a := r.nbAvail nb
  if a.1 > 0 then (a.1, a.2.cachedCons, { a.2 with cachedCons := a.2.cachedCons + a.1 })
  else (a.1, a.2.cachedCons, a.2)

/-- `xsk_ring_cons__rx_desc` and `xsk_ring_cons__comp_addr`. -/
def entry (r : XskRingConsMem α) (idx : UInt32) : α := r.ring (slotOf r.size idx)

/-- `xsk_ring_cons__release`. -/
def release (r : XskRingConsMem α) (nb : UInt32) : XskRingConsMem α :=
  { r with consumer := r.consumer + nb }

end XskRingConsMem

/-- The operations on a consumer ring that the program or the kernel sees. -/
inductive ConsOp (α : Type)
  | peek (nb : UInt32)
  | release (nb : UInt32)
  | publish (x : α)

/-- The same on the ring as lists, with what the peeks gave. -/
def listConsStep (r : XskRingCons α × List (List α)) : ConsOp α → XskRingCons α × List (List α)
  | .peek nb => ((xskRingConsPeek r.1 nb.toNat).2, r.2 ++ [(xskRingConsPeek r.1 nb.toNat).1])
  | .release nb => (xskRingConsRelease r.1 nb.toNat, r.2)
  | .publish x => (r.1.publish [x], r.2)

def listCons (log : List (ConsOp α)) : XskRingCons α × List (List α) :=
  log.foldl listConsStep (⟨[], [], [], 0⟩, [])

/-- The program: between calls, or in the loop over the `n` entries it peeked, of which it
has read `out`. -/
inductive ConsPc (α : Type)
  | idle
  | reading (idx n : UInt32) (out : List α)

/-- `written` is an entry the kernel has stored and not published. -/
structure ConsState (α : Type) where
  mem : XskRingConsMem α
  pc : ConsPc α
  written : Option α
  got : List (List α)
  log : List (ConsOp α)

/-- A ring with its indices at `start`. -/
def ConsState.init (size start : UInt32) (ring : Nat → α) : ConsState α :=
  ⟨⟨ring, size, start, start, start, start⟩, .idle, none, [], []⟩

inductive ConsEvent (α : Type)
  | peek (nb : UInt32)
  | read
  | release (nb : UInt32)
  | store (x : α)
  | publish

def consStep (s : ConsState α) : ConsEvent α → ConsState α
  | .peek nb =>
      match s.pc with
      | .idle =>
          let p := s.mem.peek nb
          if p.1 = 0 then { s with mem := p.2.2, got := s.got ++ [[]], log := s.log ++ [.peek nb] }
          else { s with mem := p.2.2, pc := .reading p.2.1 p.1 [], log := s.log ++ [.peek nb] }
      | _ => s
  | .read =>
      match s.pc with
      | .reading idx n out =>
          let out' := out ++ [s.mem.entry (idx + UInt32.ofNat out.length)]
          if out'.length = n.toNat then { s with pc := .idle, got := s.got ++ [out'] }
          else { s with pc := .reading idx n out' }
      | _ => s
  | .release nb =>
      -- the callers release no more than they peeked
      match s.pc with
      | .idle =>
          if nb ≤ s.mem.cachedCons - s.mem.consumer then
            { s with mem := s.mem.release nb, log := s.log ++ [.release nb] }
          else s
      | _ => s
  | .store x =>
      if s.written.isNone ∧ s.mem.producer - s.mem.consumer < s.mem.size then
        { s with
          mem := { s.mem with ring := Function.update s.mem.ring (slotOf s.mem.size s.mem.producer) x }
          written := some x }
      else s
  | .publish =>
      match s.written with
      | some x =>
          { s with mem := { s.mem with producer := s.mem.producer + 1 }, written := none,
                   log := s.log ++ [.publish x] }
      | none => s

/-- The ring in memory shows the lists: `peeked` entries were taken since `start`. -/
structure ConsShows (start : UInt32) (m : XskRingConsMem α) (r : XskRingCons α) : Prop where
  consumer : m.consumer = start + UInt32.ofNat r.released
  cachedCons : m.cachedCons = start + UInt32.ofNat r.peeked.length
  cachedProd : m.cachedProd = start + UInt32.ofNat (r.peeked.length + r.seen.length)
  producer : m.producer = start + UInt32.ofNat (r.peeked.length + r.waiting.length)
  released_le : r.released ≤ r.peeked.length
  room : r.peeked.length + r.waiting.length ≤ r.released + m.size.toNat
  entries : EntriesAt m.size start m.ring r.released ((r.peeked ++ r.waiting).drop r.released)

/-- A peek of the program does not touch what it shares. -/
theorem XskRingConsMem.peek_frame (m : XskRingConsMem α) (nb : UInt32) :
    (m.peek nb).2.2.size = m.size ∧ (m.peek nb).2.2.ring = m.ring ∧
      (m.peek nb).2.2.producer = m.producer := by
  rw [peek, nbAvail]
  split_ifs <;> exact ⟨rfl, rfl, rfl⟩

namespace ConsShows

variable {start : UInt32} {m : XskRingConsMem α} {r : XskRingCons α}

/-- What is seen fits the 32 bits of an index. -/
theorem seen_lt (h : ConsShows start m r) : r.seen.length < 2 ^ 32 := by
  have hroom := h.room
  have hsize := m.size.toNat_lt
  have hle := h.released_le
  rw [XskRingCons.waiting, List.length_append] at hroom
  omega

theorem toNat_seen (h : ConsShows start m r) : (m.cachedProd - m.cachedCons).toNat = r.seen.length := by
  rw [h.cachedProd, h.cachedCons, index_sub]
  exact UInt32.toNat_ofNat_of_lt' h.seen_lt

/-- The refresh of `xsk_cons_nb_avail` is that of the lists. -/
theorem refresh (h : ConsShows start m r) :
    ConsShows start (if m.cachedProd - m.cachedCons = 0 then { m with cachedProd := m.producer } else m)
      r.refresh := by
  have hzero : m.cachedProd - m.cachedCons = 0 ↔ r.seen = [] := by
    rw [← UInt32.toNat_inj, h.toNat_seen]
    exact List.length_eq_zero_iff
  by_cases hs : r.seen = []
  · rw [if_pos (hzero.mpr hs), XskRingCons.refresh, if_pos (by rw [hs]; rfl)]
    have hw : (⟨r.fresh, [], r.peeked, r.released⟩ : XskRingCons α).waiting = r.waiting := by
      simp [XskRingCons.waiting, hs]
    refine ⟨h.consumer, h.cachedCons, ?_, ?_, h.released_le, ?_, ?_⟩
    · rw [h.producer, XskRingCons.waiting, hs, List.nil_append]
    · rw [hw]; exact h.producer
    · rw [hw]; exact h.room
    · rw [hw]; exact h.entries
  · rw [if_neg (mt hzero.mp hs), XskRingCons.refresh, if_neg (by simpa using hs)]
    exact h

/-- `xsk_ring_cons__peek` gives the program as many entries as the lists do, from the index
of the first. -/
theorem peek (h : ConsShows start m r) (nb : UInt32) :
    (m.peek nb).1.toNat = (xskRingConsPeek r nb.toNat).1.length ∧
      (m.peek nb).2.1 = start + UInt32.ofNat r.peeked.length ∧
      ConsShows start (m.peek nb).2.2 (xskRingConsPeek r nb.toNat).2 := by
  have hr := h.refresh
  have hpeeked : r.refresh.peeked = r.peeked := by rw [XskRingCons.refresh]; split <;> rfl
  rw [XskRingConsMem.peek, XskRingConsMem.nbAvail]
  generalize (if m.cachedProd - m.cachedCons = 0 then { m with cachedProd := m.producer } else m) = m' at hr ⊢
  generalize hn : (if m'.cachedProd - m'.cachedCons > nb then nb else m'.cachedProd - m'.cachedCons) = n
  have hcount : n.toNat = (r.refresh.seen.take nb.toNat).length := by
    rw [List.length_take, ← hr.toNat_seen, ← hn]
    split
    · rename_i hgt
      have := UInt32.lt_iff_toNat_lt.mp hgt
      omega
    · rename_i hle
      have := UInt32.le_iff_toNat_le.mp (UInt32.not_lt.mp hle)
      omega
  have hidx : m'.cachedCons = start + UInt32.ofNat r.peeked.length := by rw [hr.cachedCons, hpeeked]
  have hshow : ConsShows start { m' with cachedCons := m'.cachedCons + n }
      (xskRingConsPeek r nb.toNat).2 := by
    have hn' : n = UInt32.ofNat (r.refresh.seen.take nb.toNat).length := by
      rw [← hcount, UInt32.ofNat_toNat]
    have hsplit := congrArg List.length (List.take_append_drop nb.toNat r.refresh.seen)
    rw [List.length_append] at hsplit
    have hlist : (xskRingConsPeek r nb.toNat).2.peeked ++ (xskRingConsPeek r nb.toNat).2.waiting =
        r.refresh.peeked ++ r.refresh.waiting := by
      simp only [xskRingConsPeek, XskRingCons.waiting, List.append_assoc]
      rw [← List.append_assoc (r.refresh.seen.take _), List.take_append_drop]
    have hlen := congrArg List.length hlist
    rw [List.length_append, List.length_append] at hlen
    refine ⟨hr.consumer, ?_, ?_, ?_, ?_, ?_, ?_⟩
    · rw [hr.cachedCons, hn', index_add, xskRingConsPeek, List.length_append]
    · rw [hr.cachedProd]
      simp only [xskRingConsPeek, List.length_append]
      congr 2
      omega
    · rw [hlen]; exact hr.producer
    · have hle := hr.released_le
      simp only [xskRingConsPeek, List.length_append]
      omega
    · rw [hlen]; exact hr.room
    · rw [hlist]; exact hr.entries
  refine ⟨?_, ?_, ?_⟩
  · split <;> exact hcount
  · split <;> exact hidx
  · split
    · exact hshow
    · rename_i hz
      have hzero : n = 0 := by
        have := UInt32.lt_iff_toNat_lt.not.mp hz
        exact UInt32.toNat_inj.mp (by simpa using this)
      rw [hzero, UInt32.add_zero] at hshow
      exact hshow

/-- What the program has not released is what lies between the indices of the kernel. -/
theorem toNat_used (h : ConsShows start m r) :
    (m.producer - m.consumer).toNat + r.released = r.peeked.length + r.waiting.length := by
  have hle := h.released_le
  have hroom := h.room
  have hlt : m.size.toNat < UInt32.size := m.size.toNat_lt
  rw [h.producer, h.consumer, toNat_index_sub_of_le (by omega) (by omega)]
  omega

theorem toNat_peeked (h : ConsShows start m r) :
    (m.cachedCons - m.consumer).toNat + r.released = r.peeked.length := by
  have hle := h.released_le
  have hroom := h.room
  have hlt : m.size.toNat < UInt32.size := m.size.toNat_lt
  rw [h.cachedCons, h.consumer, toNat_index_sub_of_le (by omega) (by omega)]
  omega

theorem release (h : ConsShows start m r) {nb : UInt32} (hnb : nb ≤ m.cachedCons - m.consumer) :
    ConsShows start (m.release nb) (xskRingConsRelease r nb.toNat) := by
  have hle := UInt32.le_iff_toNat_le.mp hnb
  have hpeeked := h.toNat_peeked
  refine ⟨?_, h.cachedCons, h.cachedProd, h.producer, ?_, ?_, fun j x hx => ?_⟩
  · rw [XskRingConsMem.release, h.consumer, xskRingConsRelease, ← index_add, UInt32.ofNat_toNat]
  · simp only [xskRingConsRelease]; omega
  · have hroom := h.room
    simp only [xskRingConsRelease, XskRingConsMem.release]
    exact hroom.trans (by omega)
  · simp only [xskRingConsRelease] at hx ⊢
    rw [List.getElem?_drop] at hx
    have hentry := h.entries (nb.toNat + j) x (by rwa [List.getElem?_drop, ← Nat.add_assoc])
    rwa [← Nat.add_assoc] at hentry

/-- The kernel stores behind the entries. -/
theorem store (hsize : neRingInitOk m.size = true) (h : ConsShows start m r)
    (hroom : r.peeked.length + r.waiting.length < r.released + m.size.toNat) (x : α) :
    ConsShows start { m with ring := Function.update m.ring (slotOf m.size m.producer) x } r := by
  refine { h with entries := ?_ }
  have hle := h.released_le
  have hslot : m.producer =
      start + UInt32.ofNat (r.released + (r.peeked.length + r.waiting.length - r.released)) := by
    rw [h.producer]
    congr 2
    omega
  rw [hslot]
  refine h.entries.store hsize ?_ (by omega) x
  rw [List.length_drop, List.length_append]

theorem publish (h : ConsShows start m r) {x : α} (hx : m.ring (slotOf m.size m.producer) = x)
    (hroom : r.peeked.length + r.waiting.length < r.released + m.size.toNat) :
    ConsShows start { m with producer := m.producer + 1 } (r.publish [x]) := by
  have hw : (r.publish [x]).waiting = r.waiting ++ [x] := by simp [XskRingCons.publish, XskRingCons.waiting]
  have hle := h.released_le
  refine ⟨h.consumer, h.cachedCons, h.cachedProd, ?_, hle, ?_, fun j y hy => ?_⟩
  · rw [hw, List.length_append, List.length_singleton]
    change m.producer + UInt32.ofNat 1 = _
    rw [h.producer, index_add, Nat.add_assoc]
    rfl
  · rw [hw, List.length_append, List.length_singleton]
    change r.peeked.length + (r.waiting.length + 1) ≤ r.released + m.size.toNat
    omega
  · rw [hw, ← List.append_assoc] at hy
    change ((r.peeked ++ r.waiting ++ [x]).drop r.released)[j]? = some y at hy
    change m.ring (slotOf m.size (start + UInt32.ofNat (r.released + j))) = y
    by_cases hj : r.released + j < (r.peeked ++ r.waiting).length
    · refine h.entries j y ?_
      rw [List.getElem?_drop] at hy ⊢
      rwa [List.getElem?_append_left hj] at hy
    · rw [List.getElem?_drop, List.getElem?_append_right (by omega)] at hy
      have hlen : r.released + j = (r.peeked ++ r.waiting).length := by
        have := (List.getElem?_eq_some_iff.mp hy).1
        rw [List.length_singleton] at this
        omega
      rw [hlen, Nat.sub_self] at hy
      rw [hlen, List.length_append, ← h.producer, hx]
      exact Option.some.inj hy

/-- A peeked entry that is not released is in its slot. -/
theorem entry_eq (h : ConsShows start m r) {k : Nat} {x : α} (hk : r.released ≤ k)
    (hx : r.peeked[k]? = some x) : m.entry (start + UInt32.ofNat k) = x := by
  have hlt := (List.getElem?_eq_some_iff.mp hx).1
  have hentry := h.entries (k - r.released) x (by
    rw [List.getElem?_drop, Nat.add_sub_cancel' hk, List.getElem?_append_left hlt, hx])
  rwa [Nat.add_sub_cancel' hk] at hentry

end ConsShows

theorem listCons_snoc (log : List (ConsOp α)) (op : ConsOp α) :
    listCons (log ++ [op]) = listConsStep (listCons log) op := by
  rw [listCons, List.foldl_append]
  rfl

/-- What the program knows in its loop: it reads the last entries that were peeked, none of
them released, and what it read is a part of what the lists gave. -/
def ConsPc.Knows (start : UInt32) (r : XskRingCons α) (got got' : List (List α)) : ConsPc α → Prop
  | .idle => got' = got
  | .reading idx n out => ∃ k, idx = start + UInt32.ofNat k ∧ r.released ≤ k ∧
      got' = got ++ [r.peeked.drop k] ∧ (r.peeked.drop k).length = n.toNat ∧
      out <+: r.peeked.drop k ∧ out.length < n.toNat

structure ConsInv (size start : UInt32) (s : ConsState α) : Prop where
  size : s.mem.size = size
  shows : ConsShows start s.mem (listCons s.log).1
  written : ∀ x, s.written = some x → s.mem.ring (slotOf s.mem.size s.mem.producer) = x ∧
    (listCons s.log).1.peeked.length + (listCons s.log).1.waiting.length <
      (listCons s.log).1.released + s.mem.size.toNat
  pc : s.pc.Knows start (listCons s.log).1 s.got (listCons s.log).2

theorem consInv_init (size start : UInt32) (ring : Nat → α) :
    ConsInv size start (ConsState.init size start ring) := by
  refine ⟨rfl, ⟨?_, ?_, ?_, ?_, Nat.le_refl 0, Nat.zero_le _, fun j x hx => ?_⟩, fun x hx => (nomatch hx), rfl⟩
  · exact (UInt32.add_zero start).symm
  · exact (UInt32.add_zero start).symm
  · exact (UInt32.add_zero start).symm
  · exact (UInt32.add_zero start).symm
  · simp [ConsState.init, listCons, XskRingCons.waiting] at hx

section ConsSteps

variable {size start : UInt32} {s : ConsState α}

/-- A peek that gives entries starts the loop over them. -/
theorem ConsInv.peek (h : ConsInv size start s) (nb : UInt32) : ConsInv size start (consStep s (.peek nb)) := by
  rw [consStep]
  split
  · rename_i hpc
    have hgot : (listCons s.log).2 = s.got := by
      have hk := h.pc
      rwa [hpc] at hk
    obtain ⟨hcount, hidx, hshow⟩ := h.shows.peek nb
    obtain ⟨hsz, hring, hprod⟩ := s.mem.peek_frame nb
    obtain ⟨hwait, hpeeked, hrel, -⟩ := xskRingConsPeek_spec (listCons s.log).1 nb.toNat
    have hall : (xskRingConsPeek (listCons s.log).1 nb.toNat).2.peeked.length +
        (xskRingConsPeek (listCons s.log).1 nb.toNat).2.waiting.length =
          (listCons s.log).1.peeked.length + (listCons s.log).1.waiting.length := by
      rw [hpeeked, ← hwait, List.length_append, List.length_append, Nat.add_assoc]
    have hwritten : ∀ x, s.written = some x →
        (s.mem.peek nb).2.2.ring (slotOf (s.mem.peek nb).2.2.size (s.mem.peek nb).2.2.producer) = x ∧
        (xskRingConsPeek (listCons s.log).1 nb.toNat).2.peeked.length +
          (xskRingConsPeek (listCons s.log).1 nb.toNat).2.waiting.length <
          (xskRingConsPeek (listCons s.log).1 nb.toNat).2.released + (s.mem.peek nb).2.2.size.toNat := by
      intro x hx
      obtain ⟨hslot, hroom⟩ := h.written x hx
      rw [hring, hsz, hprod, hrel, hall]
      exact ⟨hslot, hroom⟩
    by_cases hz : (s.mem.peek nb).1 = 0
    · have hnil : (xskRingConsPeek (listCons s.log).1 nb.toNat).1 = [] := by
        rw [← List.length_eq_zero_iff, ← hcount, hz]
        rfl
      simp only [if_pos hz]
      refine ⟨hsz.trans h.size, ?_, fun x hx => ?_, ?_⟩
      · rw [listCons_snoc]; exact hshow
      · rw [listCons_snoc]; exact hwritten x hx
      · rw [listCons_snoc, hpc]
        change (listCons s.log).2 ++ [_] = s.got ++ [[]]
        rw [hgot, hnil]
    · simp only [if_neg hz]
      refine ⟨hsz.trans h.size, ?_, fun x hx => ?_, ?_⟩
      · rw [listCons_snoc]; exact hshow
      · rw [listCons_snoc]; exact hwritten x hx
      · rw [listCons_snoc]
        have hdrop : (xskRingConsPeek (listCons s.log).1 nb.toNat).2.peeked.drop
            (listCons s.log).1.peeked.length = (xskRingConsPeek (listCons s.log).1 nb.toNat).1 := by
          rw [hpeeked, List.drop_left]
        refine ⟨(listCons s.log).1.peeked.length, hidx, ?_, ?_, ?_, List.nil_prefix, ?_⟩
        · change (xskRingConsPeek (listCons s.log).1 nb.toNat).2.released ≤ _
          rw [hrel]
          exact h.shows.released_le
        · change (listCons s.log).2 ++ [_] = s.got ++ [_]
          rw [hgot]
          exact congrArg (s.got ++ [·]) hdrop.symm
        · exact (congrArg List.length hdrop).trans hcount.symm
        · have hne : (s.mem.peek nb).1.toNat ≠ 0 := fun h0 => hz (UInt32.toNat_inj.mp h0)
          exact Nat.pos_of_ne_zero hne
  · exact h

/-- The entry that is read is the next one of those that were peeked. -/
theorem ConsInv.read (h : ConsInv size start s) : ConsInv size start (consStep s .read) := by
  rw [consStep]
  split
  · rename_i idx n out hpc
    have hk := h.pc
    rw [hpc] at hk
    obtain ⟨k, hidx, hrel, hgot, hlen, hpre, hlt⟩ := hk
    obtain ⟨x, hx⟩ : ∃ x, ((listCons s.log).1.peeked.drop k)[out.length]? = some x := by
      rw [← hlen] at hlt
      exact ⟨_, List.getElem?_eq_getElem hlt⟩
    have hentry : s.mem.entry (idx + UInt32.ofNat out.length) = x := by
      rw [hidx, index_add]
      rw [List.getElem?_drop] at hx
      exact h.shows.entry_eq (hrel.trans (Nat.le_add_right ..)) hx
    have hpre' : out ++ [x] <+: (listCons s.log).1.peeked.drop k := by
      obtain ⟨rest, hrest⟩ := hpre
      rw [← hrest, List.getElem?_append_right (Nat.le_refl _), Nat.sub_self] at hx
      cases rest with
      | nil => cases hx
      | cons y rest =>
          cases hx
          exact ⟨rest, by rw [← hrest, List.append_assoc, List.singleton_append]⟩
    simp only [hentry]
    split
    · rename_i hfull
      refine ⟨h.size, h.shows, h.written, ?_⟩
      have heq := hpre'.eq_of_length (hfull.trans hlen.symm)
      change (listCons s.log).2 = s.got ++ [out ++ [x]]
      rw [hgot, heq]
    · rename_i hmore
      have hle := hpre'.length_le
      refine ⟨h.size, h.shows, h.written, k, hidx, hrel, hgot, hlen, hpre', ?_⟩
      omega
  · exact h

theorem ConsInv.release (h : ConsInv size start s) (nb : UInt32) :
    ConsInv size start (consStep s (.release nb)) := by
  rw [consStep]
  split
  · rename_i hpc
    have hk := h.pc
    rw [hpc] at hk
    split
    · rename_i hnb
      refine ⟨h.size, ?_, fun x hx => ?_, ?_⟩
      · rw [listCons_snoc]; exact h.shows.release hnb
      · rw [listCons_snoc]
        obtain ⟨hslot, hroom⟩ := h.written x hx
        refine ⟨hslot, ?_⟩
        simp only [listConsStep, xskRingConsRelease, XskRingConsMem.release]
        exact Nat.lt_of_lt_of_le hroom (by omega)
      · rw [listCons_snoc, hpc]; exact hk
    · exact h
  · exact h

/-- The kernel stores where nothing is. -/
theorem ConsInv.store (hsize : neRingInitOk size = true) (h : ConsInv size start s) (x : α) :
    ConsInv size start (consStep s (.store x)) := by
  rw [consStep]
  split
  · rename_i hc
    have hroom : (listCons s.log).1.peeked.length + (listCons s.log).1.waiting.length <
        (listCons s.log).1.released + s.mem.size.toNat := by
      have hlt := UInt32.lt_iff_toNat_lt.mp hc.2
      have hused := h.shows.toNat_used
      omega
    refine ⟨h.size, h.shows.store (h.size ▸ hsize) hroom x, fun y hy => ⟨?_, hroom⟩, h.pc⟩
    rw [Option.some.injEq] at hy
    exact (Function.update_self ..).trans hy
  · exact h

theorem ConsInv.publish (h : ConsInv size start s) : ConsInv size start (consStep s .publish) := by
  rw [consStep]
  split
  · rename_i x hw
    obtain ⟨hslot, hroom⟩ := h.written x hw
    refine ⟨h.size, ?_, fun y hy => (nomatch hy), ?_⟩
    · rw [listCons_snoc]; exact h.shows.publish hslot hroom
    · rw [listCons_snoc]; exact h.pc
  · exact h

/-- One step of the program or of the kernel. -/
theorem ConsInv.step (hsize : neRingInitOk size = true) (h : ConsInv size start s) (e : ConsEvent α) :
    ConsInv size start (consStep s e) := by
  cases e with
  | peek nb => exact h.peek nb
  | read => exact h.read
  | release nb => exact h.release nb
  | store x => exact h.store hsize x
  | publish => exact h.publish

theorem consInv_run (hsize : neRingInitOk size = true) (start : UInt32) (ring : Nat → α)
    (es : List (ConsEvent α)) : ConsInv size start (run consStep (ConsState.init size start ring) es) := by
  have hstep : ∀ s e, ConsInv size start s → True → ConsInv (α := α) size start (consStep s e) ∧ True :=
    fun s e h _ => ⟨h.step hsize e, trivial⟩
  exact (Along.invariant hstep (consInv_init size start ring) (Along.of_forall fun _ _ _ => trivial)).1

end ConsSteps

/-- What the kernel published. -/
def published (log : List (ConsOp α)) : List α :=
  log.flatMap fun
    | .publish x => [x]
    | _ => []

/-- The lists lose nothing: what was published was peeked, in order, or is waiting. -/
theorem listCons_published (log : List (ConsOp α)) :
    (listCons log).1.peeked = (listCons log).2.flatten ∧
      (listCons log).1.peeked ++ (listCons log).1.waiting = published log := by
  induction log using List.reverseRecOn with
  | nil => exact ⟨rfl, rfl⟩
  | append_singleton log op ih =>
      obtain ⟨hpeeked, hall⟩ := ih
      rw [listCons_snoc]
      have hlog : published (log ++ [op]) = published log ++ published [op] := List.flatMap_append
      rw [hlog]
      cases op with
      | peek nb =>
          obtain ⟨hwait, hpeeked', -, -⟩ := xskRingConsPeek_spec (listCons log).1 nb.toNat
          simp only [listConsStep]
          refine ⟨by rw [hpeeked', hpeeked, List.flatten_append, List.flatten_singleton], ?_⟩
          rw [hpeeked', List.append_assoc, hwait, hall]
          exact (List.append_nil _).symm
      | release nb => exact ⟨hpeeked, hall.trans (List.append_nil _).symm⟩
      | publish x =>
          refine ⟨hpeeked, ?_⟩
          change (listCons log).1.peeked ++ ((listCons log).1.seen ++ ((listCons log).1.fresh ++ [x])) = _
          rw [← hall, XskRingCons.waiting, List.append_assoc, List.append_assoc]
          rfl

/-- The RX and completion rings in memory do what the rings of lists do, from any index on
and with the kernel at work between any two accesses: each peek hands over the same
entries, whole and in the order in which they were published, and the kernel never has
more than the ring holds. -/
theorem consRun_refines {size : UInt32} (hsize : neRingInitOk size = true) (start : UInt32)
    (ring : Nat → α) (es : List (ConsEvent α)) :
    let s := run consStep (ConsState.init size start ring) es
    s.got <+: (listCons s.log).2 ∧ (s.pc = .idle → s.got = (listCons s.log).2) ∧
      s.got.flatten <+: published s.log ∧ (s.mem.producer - s.mem.consumer).toNat ≤ size.toNat ∧
      ∀ k x, (listCons s.log).1.released ≤ k → (listCons s.log).1.peeked[k]? = some x →
        s.mem.entry (start + UInt32.ofNat k) = x := by
  intro s
  have h : ConsInv size start s := consInv_run hsize start ring es
  have hpre : s.got <+: (listCons s.log).2 := by
    have hk := h.pc
    cases hpc : s.pc with
    | idle => rw [hpc] at hk; exact hk ▸ List.prefix_refl _
    | reading idx n out =>
        rw [hpc] at hk
        obtain ⟨k, _, _, hgot, _⟩ := hk
        exact hgot ▸ List.prefix_append ..
  refine ⟨hpre, fun hpc => ?_, ?_, ?_, fun k x hk hx => h.shows.entry_eq hk hx⟩
  · have hk := h.pc
    rw [hpc] at hk
    exact hk.symm
  · obtain ⟨rest, hrest⟩ := hpre
    obtain ⟨hpeeked, hall⟩ := listCons_published s.log
    rw [← hall, hpeeked, ← hrest, List.flatten_append, List.append_assoc]
    exact List.prefix_append ..
  · have hused := h.shows.toNat_used
    have hroom := h.shows.room
    rw [h.size] at hroom
    omega

/-- Two entries across the wrap of the indices; a third comes between the reads. -/
theorem consRun_refines_wrap :
    let s := run consStep (ConsState.init 4 4294967295 fun _ => 0)
      [.store 7, .publish, .store 8, .publish, .peek 4, .read, .store 9, .publish, .read]
    s.got.flatten <+: published s.log :=
  have hsize : neRingInitOk 4 = true := by decide
  (consRun_refines hsize 4294967295 (fun _ => 0)
    [.store 7, .publish, .store 8, .publish, .peek 4, .read, .store 9, .publish, .read]).2.2.1

/-! ## producer rings -/

/-- `struct xsk_ring_prod`. -/
structure XskRingProdMem (α : Type) where
  ring : Nat → α
  size : UInt32
  producer : UInt32
  consumer : UInt32
  cachedProd : UInt32
  cachedCons : UInt32

namespace XskRingProdMem

/-- `xsk_prod_nb_free`; `cached_cons` is `size` more than an earlier `*r->consumer`. -/
def nbFree (r : XskRingProdMem α) (nb : UInt32) : UInt32 × XskRingProdMem α :=
  let freeEntries := r.cachedCons - r.cachedProd
  if freeEntries ≥ nb then (freeEntries, r)
  else
    let r := { r with cachedCons := r.consumer + r.size }
    (r.cachedCons - r.cachedProd, r)

/-- `xsk_ring_prod__reserve`: the number of slots, the index of the first, the ring. -/
def reserve (r : XskRingProdMem α) (nb : UInt32) : UInt32 × UInt32 × XskRingProdMem α :=
  let f := r.nbFree nb
  if f.1 < nb then (0, f.2.cachedProd, f.2)
  else (nb, f.2.cachedProd, { f.2 with cachedProd := f.2.cachedProd + nb })

/-- A store through `xsk_ring_prod__fill_addr` or `xsk_ring_prod__tx_desc`. -/
def setEntry (r : XskRingProdMem α) (idx : UInt32) (x : α) : XskRingProdMem α :=
  { r with ring := Function.update r.ring (slotOf r.size idx) x }

/-- `xsk_ring_prod__submit`. -/
def submit (r : XskRingProdMem α) (nb : UInt32) : XskRingProdMem α :=
  { r with producer := r.producer + nb }

end XskRingProdMem

/-- The program's own indices do not touch what it shares. -/
theorem XskRingProdMem.nbFree_frame (m : XskRingProdMem α) (nb : UInt32) :
    (m.nbFree nb).2.size = m.size ∧ (m.nbFree nb).2.ring = m.ring := by
  rw [nbFree]
  split_ifs <;> exact ⟨rfl, rfl⟩

theorem XskRingProdMem.reserve_frame (m : XskRingProdMem α) (nb : UInt32) :
    (m.reserve nb).2.2.size = m.size := by
  rw [reserve]
  split_ifs <;> exact (m.nbFree_frame nb).1

/-- The operations on a producer ring, with what they gave. -/
inductive ProdOp (α : Type)
  | free (nb answer : UInt32)
  | reserve (nb answer : UInt32)
  | submit (xs : List α)
  | consume (x : α)

/-- The program: between calls, or writing entries into the slots it reserved. -/
inductive ProdPc (α : Type)
  | idle
  | writing (idx : UInt32) (xs : List α) (done : List Nat)

/-- `held` is an entry the kernel has read and not given back. -/
structure ProdState (α : Type) where
  mem : XskRingProdMem α
  pc : ProdPc α
  held : Option α
  log : List (ProdOp α)

def ProdState.init (size start : UInt32) (ring : Nat → α) : ProdState α :=
  ⟨⟨ring, size, start, start, start, start + size⟩, .idle, none, []⟩

inductive ProdEvent (α : Type)
  | free (nb : UInt32)
  | reserve (xs : List α)
  | write (i : Nat)
  | submit
  | fetch
  | consume

def prodStep (s : ProdState α) : ProdEvent α → ProdState α
  | .free nb =>
      match s.pc with
      | .idle =>
          let f := s.mem.nbFree nb
          { s with mem := f.2, log := s.log ++ [.free nb f.1] }
      | _ => s
  | .reserve xs =>
      match s.pc with
      | .idle =>
          if xs.length < 2 ^ 32 then
            let nb := UInt32.ofNat xs.length
            let r := s.mem.reserve nb
            -- as the callers do: they write when they got all they asked for
            if r.1 = nb then
              { s with mem := r.2.2, pc := .writing r.2.1 xs [], log := s.log ++ [.reserve nb r.1] }
            else { s with mem := r.2.2, log := s.log ++ [.reserve nb r.1] }
          else s
      | _ => s
  | .write i =>
      match s.pc with
      | .writing idx xs done =>
          match xs[i]? with
          | some x =>
              { s with mem := s.mem.setEntry (idx + UInt32.ofNat i) x, pc := .writing idx xs (i :: done) }
          | none => s
      | _ => s
  | .submit =>
      match s.pc with
      | .writing _ xs done =>
          if ∀ i < xs.length, i ∈ done then
            { s with mem := s.mem.submit (UInt32.ofNat xs.length), pc := .idle, log := s.log ++ [.submit xs] }
          else s
      | _ => s
  | .fetch =>
      if s.held.isNone ∧ s.mem.producer ≠ s.mem.consumer then
        { s with held := some (s.mem.ring (slotOf s.mem.size s.mem.consumer)) }
      else s
  | .consume =>
      match s.held with
      | some x =>
          { s with mem := { s.mem with consumer := s.mem.consumer + 1 }, held := none,
                   log := s.log ++ [.consume x] }
      | none => s

/-- What a ring of lists shows: an answer about free entries is right as far as was asked, a
reservation succeeds when there is room, and what is consumed is the oldest entry. -/
inductive ListProd (size : Nat) : List (ProdOp α) → XskRingProd α → Prop
  | nil : ListProd size [] ⟨[], size⟩
  | free {log : List (ProdOp α)} {r : XskRingProd α} {nb answer : UInt32} (h : ListProd size log r)
      (hanswer : min answer.toNat nb.toNat = min (xskProdNbFree r) nb.toNat) :
      ListProd size (log ++ [.free nb answer]) r
  | reserve {log : List (ProdOp α)} {r : XskRingProd α} {nb answer : UInt32} (h : ListProd size log r)
      (hanswer : answer.toNat = xskRingProdReserve r nb.toNat) :
      ListProd size (log ++ [.reserve nb answer]) r
  | submit {log : List (ProdOp α)} {r : XskRingProd α} {xs : List α} (h : ListProd size log r)
      (hroom : r.entries.length + xs.length ≤ r.size) :
      ListProd size (log ++ [.submit xs]) (xskRingProdSubmit r xs)
  | consume {log : List (ProdOp α)} {x : α} {rest : List α} {n : Nat}
      (h : ListProd size log ⟨x :: rest, n⟩) : ListProd size (log ++ [.consume x]) ⟨rest, n⟩

/-- The ring in memory shows the list: `c` entries were consumed since `start`, `k` slots
are reserved and not submitted, and `cached_cons` is from the time `old`. -/
structure ProdShows (start : UInt32) (m : XskRingProdMem α) (r : XskRingProd α) (c k : Nat) : Prop where
  size : r.size = m.size.toNat
  consumer : m.consumer = start + UInt32.ofNat c
  producer : m.producer = start + UInt32.ofNat (c + r.entries.length)
  cachedProd : m.cachedProd = start + UInt32.ofNat (c + r.entries.length + k)
  cachedCons : ∃ old, old ≤ c ∧ m.cachedCons = start + UInt32.ofNat (old + m.size.toNat) ∧
    c + r.entries.length + k ≤ old + m.size.toNat
  entries : EntriesAt m.size start m.ring c r.entries

namespace ProdShows

variable {start : UInt32} {m : XskRingProdMem α} {r : XskRingProd α} {c k : Nat}

theorem room (h : ProdShows start m r c k) : r.entries.length + k ≤ m.size.toNat := by
  obtain ⟨old, hold, _, hle⟩ := h.cachedCons
  omega

/-- `xsk_prod_nb_free` reads the consumer index when its own would decide. -/
theorem nbFree (h : ProdShows start m r c 0) (nb : UInt32) :
    ProdShows start (m.nbFree nb).2 r c 0 ∧
      (m.nbFree nb).1 = (m.nbFree nb).2.cachedCons - (m.nbFree nb).2.cachedProd ∧
      min (m.nbFree nb).1.toNat nb.toNat = min (xskProdNbFree r) nb.toNat := by
  have hroom := h.room
  have hlt : m.size.toNat < UInt32.size := m.size.toNat_lt
  obtain ⟨old, hold, hcons, hle⟩ := h.cachedCons
  rw [XskRingProdMem.nbFree, xskProdNbFree, h.size]
  by_cases hge : m.cachedCons - m.cachedProd ≥ nb
  · simp only [if_pos hge]
    refine ⟨h, trivial, ?_⟩
    have hnb := UInt32.le_iff_toNat_le.mp hge
    rw [hcons, h.cachedProd, toNat_index_sub_of_le hle (by omega)] at hnb ⊢
    omega
  · simp only [if_neg hge]
    have hcons' : m.consumer + m.size = start + UInt32.ofNat (c + m.size.toNat) := by
      rw [h.consumer, ← index_add, UInt32.ofNat_toNat]
    refine ⟨{ h with cachedCons := ⟨c, Nat.le_refl c, hcons', ?_⟩ }, trivial, ?_⟩
    · change c + r.entries.length + 0 ≤ c + m.size.toNat
      omega
    · rw [hcons', h.cachedProd, toNat_index_sub_of_le (by omega) (by omega)]
      congr 1
      omega

/-- A reservation gives all slots or none, and gives them when the list has room. -/
theorem reserve (h : ProdShows start m r c 0) (nb : UInt32) :
    (m.reserve nb).1.toNat = xskRingProdReserve r nb.toNat ∧
      (m.reserve nb).2.1 = start + UInt32.ofNat (c + r.entries.length) ∧
      ProdShows start (m.reserve nb).2.2 r c (m.reserve nb).1.toNat := by
  obtain ⟨hshow, hanswer, hmin⟩ := h.nbFree nb
  have hidx := hshow.cachedProd
  rw [XskRingProdMem.reserve, xskRingProdReserve]
  by_cases hlt : (m.nbFree nb).1 < nb
  · have hnb := UInt32.lt_iff_toNat_lt.mp hlt
    simp only [if_pos hlt]
    rw [if_pos (by omega)]
    exact ⟨rfl, hidx, hshow⟩
  · have hnb := UInt32.le_iff_toNat_le.mp (UInt32.not_lt.mp hlt)
    simp only [if_neg hlt]
    rw [if_neg (by omega)]
    refine ⟨rfl, hidx, hshow.size, hshow.consumer, hshow.producer, ?_, ?_, hshow.entries⟩
    · rw [hshow.cachedProd, Nat.add_zero, ← index_add start (c + r.entries.length), UInt32.ofNat_toNat]
    · obtain ⟨old, hold, hcons, hle⟩ := hshow.cachedCons
      refine ⟨old, hold, hcons, ?_⟩
      have hsize : (m.nbFree nb).2.size.toNat < UInt32.size := (m.nbFree nb).2.size.toNat_lt
      rw [hanswer, hcons, hshow.cachedProd, toNat_index_sub_of_le hle (by omega)] at hnb
      change c + r.entries.length + nb.toNat ≤ old + (m.nbFree nb).2.size.toNat
      omega

/-- A store behind the entries. -/
theorem setEntry (hsize : neRingInitOk m.size = true) (h : ProdShows start m r c k) {i : Nat} (hi : i < k)
    (x : α) : ProdShows start (m.setEntry (start + UInt32.ofNat (c + r.entries.length + i)) x) r c k := by
  have hroom := h.room
  refine { h with entries := ?_ }
  rw [Nat.add_assoc]
  exact h.entries.store hsize (Nat.le_add_right ..) (by omega) x

/-- The entries that were written are the kernel's. -/
theorem submit (h : ProdShows start m r c k) {xs : List α} (hk : xs.length = k)
    (hxs : EntriesAt m.size start m.ring (c + r.entries.length) xs) :
    ProdShows start (m.submit (UInt32.ofNat xs.length)) (xskRingProdSubmit r xs) c 0 := by
  have hlen : (xskRingProdSubmit r xs).entries.length = r.entries.length + k := by
    rw [xskRingProdSubmit, List.length_append, hk]
  refine ⟨h.size, h.consumer, ?_, ?_, ?_, fun j x hx => ?_⟩
  · rw [hlen, XskRingProdMem.submit, h.producer, hk, index_add, Nat.add_assoc]
  · rw [hlen, Nat.add_zero, ← Nat.add_assoc]
    exact h.cachedProd
  · obtain ⟨old, hold, hcons, hle⟩ := h.cachedCons
    refine ⟨old, hold, hcons, ?_⟩
    rw [hlen]
    change _ ≤ old + m.size.toNat
    omega
  · change (r.entries ++ xs)[j]? = some x at hx
    change m.ring (slotOf m.size (start + UInt32.ofNat (c + j))) = x
    by_cases hj : j < r.entries.length
    · rw [List.getElem?_append_left hj] at hx
      exact h.entries j x hx
    · rw [List.getElem?_append_right (by omega)] at hx
      have hentry := hxs (j - r.entries.length) x hx
      rwa [Nat.add_assoc, Nat.add_sub_cancel' (by omega)] at hentry

/-- The kernel gives a slot back. -/
theorem consume {x : α} {rest : List α} {n : Nat} (h : ProdShows start m ⟨x :: rest, n⟩ c k) :
    ProdShows start { m with consumer := m.consumer + 1 } ⟨rest, n⟩ (c + 1) k := by
  have hlen : c + (x :: rest).length = c + 1 + rest.length := by rw [List.length_cons]; omega
  obtain ⟨old, hold, hcons, hle⟩ := h.cachedCons
  refine ⟨h.size, ?_, ?_, ?_, ⟨old, Nat.le_succ_of_le hold, hcons, ?_⟩, fun j y hy => ?_⟩
  · change m.consumer + UInt32.ofNat 1 = _
    rw [h.consumer, index_add]
  · rw [← hlen]; exact h.producer
  · rw [← hlen]; exact h.cachedProd
  · rw [← hlen]; exact hle
  · have hentry := h.entries (j + 1) y (by rwa [List.getElem?_cons_succ])
    rwa [show c + (j + 1) = c + 1 + j by omega] at hentry

end ProdShows

/-- What the program knows: the slots it writes are behind the entries, and those that are
done are written. -/
def ProdPc.Knows (m : XskRingProdMem α) (start : UInt32) (last : Nat) (k : Nat) : ProdPc α → Prop
  | .idle => k = 0
  | .writing idx xs done => idx = start + UInt32.ofNat last ∧ xs.length = k ∧
      ∀ i ∈ done, ∀ x, xs[i]? = some x → m.ring (slotOf m.size (start + UInt32.ofNat (last + i))) = x

structure ProdInv (size start : UInt32) (s : ProdState α) (r : XskRingProd α) (c k : Nat) : Prop where
  size_eq : s.mem.size = size
  log : ListProd size.toNat s.log r
  shows : ProdShows start s.mem r c k
  pc : s.pc.Knows s.mem start (c + r.entries.length) k
  held : ∀ x, s.held = some x → ∃ rest, r.entries = x :: rest

theorem prodInv_init (size start : UInt32) (ring : Nat → α) :
    ProdInv size start (ProdState.init size start ring) ⟨[], size.toNat⟩ 0 0 := by
  have hstart : start = start + UInt32.ofNat 0 := (UInt32.add_zero start).symm
  refine ⟨rfl, .nil, ⟨rfl, hstart, hstart, hstart, ⟨0, Nat.le_refl 0, ?_, Nat.zero_le _⟩, ?_⟩, rfl,
    fun x hx => nomatch hx⟩
  · rw [Nat.zero_add, UInt32.ofNat_toNat]
    rfl
  · intro j x hx
    cases hx

section ProdSteps

variable {size start : UInt32} {s : ProdState α} {r : XskRingProd α} {c k : Nat}

theorem ProdInv.free (h : ProdInv size start s r c k) (nb : UInt32) :
    ProdInv size start (prodStep s (.free nb)) r c k := by
  rw [prodStep]
  split
  · rename_i hpc
    have hk := h.pc
    rw [hpc] at hk
    cases hk
    obtain ⟨hshow, -, hmin⟩ := h.shows.nbFree nb
    refine ⟨(s.mem.nbFree_frame nb).1.trans h.size_eq, h.log.free hmin, hshow, ?_, h.held⟩
    rw [hpc]
    rfl
  · exact h

theorem ProdInv.reserve (h : ProdInv size start s r c k) (xs : List α) :
    ∃ k', ProdInv size start (prodStep s (.reserve xs)) r c k' := by
  rw [prodStep]
  split
  · rename_i hpc
    have hk := h.pc
    rw [hpc] at hk
    cases hk
    split
    · rename_i hlt
      have hnb : (UInt32.ofNat xs.length).toNat = xs.length := UInt32.toNat_ofNat_of_lt' hlt
      obtain ⟨hanswer, hidx, hshow⟩ := h.shows.reserve (UInt32.ofNat xs.length)
      have hsize := (s.mem.reserve_frame (UInt32.ofNat xs.length)).trans h.size_eq
      have hlog := h.log.reserve hanswer
      by_cases hall : (s.mem.reserve (UInt32.ofNat xs.length)).1 = UInt32.ofNat xs.length
      · simp only [if_pos hall]
        refine ⟨_, hsize, hlog, hshow, ⟨hidx, ?_, fun i hi => nomatch hi⟩, h.held⟩
        rw [hall, hnb]
      · simp only [if_neg hall]
        have hzero : (s.mem.reserve (UInt32.ofNat xs.length)).1.toNat = 0 := by
          rw [hanswer, xskRingProdReserve]
          split
          · rfl
          · rename_i hge
            refine absurd (UInt32.toNat_inj.mp ?_) hall
            rw [hanswer, xskRingProdReserve, if_neg hge]
        refine ⟨0, hsize, hlog, hzero ▸ hshow, ?_, h.held⟩
        rw [hpc]
        rfl
    · exact ⟨_, h⟩
  · exact ⟨k, h⟩

theorem ProdInv.write (hsize : neRingInitOk size = true) (h : ProdInv size start s r c k) (i : Nat) :
    ProdInv size start (prodStep s (.write i)) r c k := by
  rw [prodStep]
  split
  · rename_i idx xs done hpc
    have hk := h.pc
    rw [hpc] at hk
    obtain ⟨hidx, hlen, hdone⟩ := hk
    split
    · rename_i x hx
      have hi := (List.getElem?_eq_some_iff.mp hx).1
      have hcap := h.size_eq ▸ hsize
      have hroom := h.shows.room
      have hat : idx + UInt32.ofNat i = start + UInt32.ofNat (c + r.entries.length + i) := by
        rw [hidx, index_add]
      refine ⟨h.size_eq, h.log, hat ▸ h.shows.setEntry hcap (hlen ▸ hi) x, ⟨hidx, hlen, fun j hj y hy => ?_⟩,
        h.held⟩
      rw [hat]
      by_cases hij : j = i
      · subst hij
        rw [hx] at hy
        exact (Function.update_self ..).trans (Option.some.inj hy)
      · have hj' := (List.getElem?_eq_some_iff.mp hy).1
        have hne : slotOf s.mem.size (start + UInt32.ofNat (c + r.entries.length + j)) ≠
            slotOf s.mem.size (start + UInt32.ofNat (c + r.entries.length + i)) := fun heq => hij <| by
          rw [← index_add start (c + r.entries.length) j, ← index_add start (c + r.entries.length) i] at heq
          exact slotOf_inj hcap (by omega) (by omega) heq
        refine (Function.update_of_ne hne _ _).trans (hdone j ?_ y hy)
        exact (List.mem_cons.mp hj).resolve_left hij
    · exact h
  · exact h

theorem ProdInv.submit (h : ProdInv size start s r c k) :
    ∃ r' k', ProdInv size start (prodStep s .submit) r' c k' := by
  rw [prodStep]
  split
  · rename_i idx xs done hpc
    have hk := h.pc
    rw [hpc] at hk
    obtain ⟨hidx, hlen, hdone⟩ := hk
    split
    · rename_i hall
      have hroom := h.shows.room
      have hwritten : EntriesAt s.mem.size start s.mem.ring (c + r.entries.length) xs := fun j x hx =>
        hdone j (hall j (List.getElem?_eq_some_iff.mp hx).1) x hx
      refine ⟨_, 0, h.size_eq, h.log.submit ?_, h.shows.submit hlen hwritten, rfl, fun x hx => ?_⟩
      · rw [h.shows.size]
        omega
      · obtain ⟨rest, hrest⟩ := h.held x hx
        exact ⟨rest ++ xs, by rw [xskRingProdSubmit, hrest, List.cons_append]⟩
    · exact ⟨r, k, h⟩
  · exact ⟨r, k, h⟩

theorem ProdInv.fetch (h : ProdInv size start s r c k) : ProdInv size start (prodStep s .fetch) r c k := by
  rw [prodStep]
  split
  · rename_i hc
    refine ⟨h.size_eq, h.log, h.shows, h.pc, fun x hx => ?_⟩
    rw [Option.some.injEq] at hx
    cases hentries : r.entries with
    | nil =>
        have hprod := h.shows.producer
        rw [hentries] at hprod
        exact absurd (hprod.trans h.shows.consumer.symm) hc.2
    | cons y rest =>
        have hentry := h.shows.entries 0 y (by rw [hentries]; rfl)
        rw [Nat.add_zero, ← h.shows.consumer, hx] at hentry
        exact ⟨rest, by rw [hentry]⟩
  · exact h

theorem ProdInv.consume (h : ProdInv size start s r c k) :
    ∃ r' c', ProdInv size start (prodStep s .consume) r' c' k := by
  rw [prodStep]
  split
  · rename_i x hx
    obtain ⟨rest, hrest⟩ := h.held x hx
    obtain ⟨entries, n⟩ := r
    cases hrest
    refine ⟨⟨rest, n⟩, c + 1, h.size_eq, h.log.consume, h.shows.consume, ?_, fun y hy => nomatch hy⟩
    have hlast : c + (x :: rest).length = c + 1 + rest.length := by rw [List.length_cons]; omega
    have hk := h.pc
    rw [show c + (XskRingProd.mk (x :: rest) n).entries.length = c + 1 + rest.length from hlast] at hk
    exact hk
  · exact ⟨r, c, h⟩

/-- One step of the program or of the kernel. -/
theorem ProdInv.step (hsize : neRingInitOk size = true) (h : ProdInv size start s r c k) (e : ProdEvent α) :
    ∃ r' c' k', ProdInv size start (prodStep s e) r' c' k' := by
  cases e with
  | free nb => exact ⟨r, c, k, h.free nb⟩
  | reserve xs =>
      obtain ⟨k', h'⟩ := h.reserve xs
      exact ⟨r, c, k', h'⟩
  | write i => exact ⟨r, c, k, h.write hsize i⟩
  | submit =>
      obtain ⟨r', k', h'⟩ := h.submit
      exact ⟨r', c, k', h'⟩
  | fetch => exact ⟨r, c, k, h.fetch⟩
  | consume =>
      obtain ⟨r', c', h'⟩ := h.consume
      exact ⟨r', c', k, h'⟩

end ProdSteps

/-- What was submitted, and what was consumed. -/
def submitted (log : List (ProdOp α)) : List α :=
  log.flatMap fun
    | .submit xs => xs
    | _ => []

def consumed (log : List (ProdOp α)) : List α :=
  log.flatMap fun
    | .consume x => [x]
    | _ => []

/-- First in, first out, and never more than the ring holds. -/
theorem ListProd.fifo {size : Nat} {log : List (ProdOp α)} {r : XskRingProd α} (h : ListProd size log r) :
    submitted log = consumed log ++ r.entries ∧ r.entries.length ≤ r.size := by
  induction h with
  | nil => exact ⟨rfl, Nat.zero_le _⟩
  | free _ _ ih => simpa [submitted, consumed] using ih
  | reserve _ _ ih => simpa [submitted, consumed] using ih
  | submit _ hroom ih =>
      refine ⟨?_, by rw [xskRingProdSubmit, List.length_append]; exact hroom⟩
      have hleft := ih.1
      simp only [submitted, consumed, List.flatMap_append] at hleft ⊢
      rw [hleft]
      simp [xskRingProdSubmit]
  | consume _ ih =>
      refine ⟨?_, Nat.le_of_succ_le ih.2⟩
      have hleft := ih.1
      simp only [submitted, consumed, List.flatMap_append] at hleft ⊢
      rw [hleft]
      simp

/-- The fill and TX rings in memory do what the rings of lists do, from any index on and with
the kernel at work between any two accesses: an answer about free slots is right as far
as it was asked, a reservation succeeds exactly when there is room, and the kernel takes
the entries whole and in the order in which they were submitted. -/
theorem prodRun_refines {size : UInt32} (hsize : neRingInitOk size = true) (start : UInt32)
    (ring : Nat → α) (es : List (ProdEvent α)) :
    let s := run prodStep (ProdState.init size start ring) es
    ∃ r, ListProd size.toNat s.log r ∧ submitted s.log = consumed s.log ++ r.entries ∧
      (s.mem.producer - s.mem.consumer).toNat = r.entries.length ∧
      ∀ j x, r.entries[j]? = some x → s.mem.ring (slotOf s.mem.size (s.mem.consumer + UInt32.ofNat j)) = x := by
  intro s
  have hstep : ∀ s e, (∃ r c k, ProdInv size start s r c k) → True →
      (∃ r c k, ProdInv (α := α) size start (prodStep s e) r c k) ∧ True := fun s e ⟨r, c, k, h⟩ _ =>
    ⟨h.step hsize e, trivial⟩
  have hall : Along prodStep (fun _ _ => True) (ProdState.init size start ring) es :=
    .of_forall fun _ _ _ => trivial
  obtain ⟨r, c, k, h⟩ := (Along.invariant hstep ⟨_, _, _, prodInv_init size start ring⟩ hall).1
  have hroom : r.entries.length + k ≤ s.mem.size.toNat := h.shows.room
  have hlt : s.mem.size.toNat < UInt32.size := s.mem.size.toNat_lt
  refine ⟨r, h.log, h.log.fifo.1, ?_, fun j x hx => ?_⟩
  · rw [h.shows.producer, h.shows.consumer, toNat_index_sub_of_le (Nat.le_add_right ..) (by omega)]
    omega
  · rw [h.shows.consumer, index_add]
    exact h.shows.entries j x hx

/-- The kernel reads the first entry while the second waits. -/
theorem prodRun_refines_wrap :
    let s := run prodStep (ProdState.init 4 4294967295 fun _ => 0)
      [.reserve [7, 8], .write 1, .write 0, .submit, .free 4, .fetch, .reserve [9, 9, 9], .consume]
    ∃ r, ListProd (UInt32.toNat 4) s.log r ∧ submitted s.log = consumed s.log ++ r.entries :=
  have hsize : neRingInitOk 4 = true := by decide
  (prodRun_refines hsize 4294967295 (fun _ => 0)
    [.reserve [7, 8], .write 1, .write 0, .submit, .free 4, .fetch, .reserve [9, 9, 9], .consume]).imp
    fun _ h => ⟨h.1, h.2.1⟩

end XskRing

end NetworkEncryptor
