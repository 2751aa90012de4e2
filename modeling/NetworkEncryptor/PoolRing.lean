import NetworkEncryptor.Umem
import NetworkEncryptor.XskRing

/-!
# NetworkEncryptor.PoolRing

`struct ne_pool` as it is in memory: a ring of a power of two of addresses between two
32-bit indices that only grow.  `pool_push` and `pool_pop` hold the spin lock from their
first access to their last, so that a call is one step, whichever thread makes it.

Every sequence of calls gives what the list of `Umem` gives (`poolRun_refines`).
-/

namespace NetworkEncryptor

/-- `struct ne_pool`; `mask` is `cap - 1`. -/
structure NePoolMem where
  buf : Nat → Nat
  cap : UInt32
  head : UInt32
  tail : UInt32

namespace NePoolMem

/-- The loop of `pool_push`, from its round `i` on. -/
def storeAddrs (cap head : UInt32) : (i : Nat) → List Nat → (Nat → Nat) → Nat → Nat
  | _, [], buf => buf
  | i, a :: as, buf =>
      storeAddrs cap head (i + 1) as (Function.update buf (slotOf cap (head + UInt32.ofNat i)) a)

/-- `pool_push`, with the number of addresses it took. -/
def push (p : NePoolMem) (addrs : List Nat) : UInt32 × NePoolMem :=
  let n := UInt32.ofNat addrs.length
  let freeSlots := p.cap - (p.head - p.tail)
  let put := if n < freeSlots then n else freeSlots
  (put, { p with buf := storeAddrs p.cap p.head 0 (addrs.take put.toNat) p.buf, head := p.head + put })

/-- `pool_pop`, with the addresses it stored for the caller. -/
def pop (p : NePoolMem) (n : UInt32) : List Nat × NePoolMem :=
  let avail := p.head - p.tail
  let got := if n < avail then n else avail
  ((List.range got.toNat).map fun i => p.buf (slotOf p.cap (p.tail + UInt32.ofNat i)),
    { p with tail := p.tail + got })

/-- `ne_pool_free_count`. -/
def freeCount (p : NePoolMem) : UInt32 := p.head - p.tail

/-- The memory shows the list. -/
structure Shows (m : NePoolMem) (p : NePool) : Prop where
  cap : p.cap = m.cap.toNat
  head : m.head = m.tail + UInt32.ofNat p.frames.length
  room : p.frames.length ≤ m.cap.toNat
  addrs : EntriesAt m.cap m.tail m.buf 0 p.frames

variable {m : NePoolMem} {p : NePool}

/-- A pool after `pool_init`, with both indices at any value. -/
theorem Shows.init (buf : Nat → Nat) (cap start : UInt32) :
    Shows ⟨buf, cap, start, start⟩ ⟨[], cap.toNat, 0⟩ :=
  ⟨rfl, (UInt32.add_zero start).symm, Nat.zero_le _, fun _ _ hx => nomatch hx⟩

theorem Shows.toNat_used (h : Shows m p) : (m.head - m.tail).toNat = p.frames.length := by
  rw [h.head]
  exact toNat_index_sub m.tail h.room

/-- The loop of `pool_push` fills the slots behind the addresses, and no others. -/
theorem storeAddrs_entries {cap tail : UInt32} (hcap : neRingInitOk cap = true) (as : List Nat) :
    ∀ {xs : List Nat} {buf : Nat → Nat} {i n : Nat}, xs.length = n + i → xs.length + as.length ≤ cap.toNat →
      EntriesAt cap tail buf 0 xs →
      EntriesAt cap tail (storeAddrs cap (tail + UInt32.ofNat n) i as buf) 0 (xs ++ as) := by
  induction as with
  | nil =>
      intro xs buf i n _ _ h
      rw [List.append_nil]
      exact h
  | cons a as ih =>
      intro xs buf i n hlen hroom h
      rw [List.length_cons] at hroom
      have hat : tail + UInt32.ofNat n + UInt32.ofNat i = tail + UInt32.ofNat (0 + xs.length) := by
        rw [index_add, hlen, Nat.zero_add]
      have hkeep := h.store hcap (Nat.le_refl _) (by omega) a
      have hnext : EntriesAt cap tail
          (Function.update buf (slotOf cap (tail + UInt32.ofNat n + UInt32.ofNat i)) a) 0 (xs ++ [a]) := by
        rw [hat]
        intro j x hx
        by_cases hj : j < xs.length
        · exact hkeep j x (by rwa [List.getElem?_append_left hj] at hx)
        · have hjlen := (List.getElem?_eq_some_iff.mp hx).1
          rw [List.length_append, List.length_singleton] at hjlen
          obtain rfl : j = xs.length := by omega
          rw [List.getElem?_append_right (Nat.le_refl _), Nat.sub_self] at hx
          rw [Function.update_self]
          exact Option.some.inj hx
      have hend := ih (i := i + 1) (n := n)
        (by rw [List.length_append, List.length_singleton, hlen, Nat.add_assoc])
        (by rw [List.length_append, List.length_singleton]; omega) hnext
      rw [List.append_assoc, List.singleton_append] at hend
      exact hend

/-- The smaller of two counts. -/
theorem toNat_ite_lt (a b : UInt32) : (if a < b then a else b).toNat = min a.toNat b.toNat := by
  split
  · rename_i hlt
    have := UInt32.lt_iff_toNat_lt.mp hlt
    omega
  · rename_i hge
    have := UInt32.le_iff_toNat_le.mp (UInt32.not_lt.mp hge)
    omega

/-- `pool_push` takes what fits. -/
theorem Shows.push (hcap : neRingInitOk m.cap = true) (h : Shows m p) {addrs : List Nat}
    (hlen : addrs.length < UInt32.size) :
    (m.push addrs).1.toNat = min addrs.length (p.cap - p.frames.length) ∧
      Shows (m.push addrs).2 (poolPush p addrs) := by
  have hroom := h.room
  have hused := h.toNat_used
  have hn : (UInt32.ofNat addrs.length).toNat = addrs.length := UInt32.toNat_ofNat_of_lt' hlen
  have hfree : (m.cap - (m.head - m.tail)).toNat = m.cap.toNat - p.frames.length := by
    rw [UInt32.toNat_sub_of_le _ _ (UInt32.le_iff_toNat_le.mpr (by omega)), hused]
  have hput : (m.push addrs).1.toNat = min addrs.length (p.cap - p.frames.length) :=
    (toNat_ite_lt _ _).trans (by rw [hn, hfree, h.cap])
  refine ⟨hput, ?_⟩
  have hframes : (poolPush p addrs).frames = p.frames ++ addrs.take (m.push addrs).1.toNat := by
    rw [poolPush, hput]
  have htaken : (addrs.take (m.push addrs).1.toNat).length = (m.push addrs).1.toNat := by
    rw [List.length_take, hput]
    omega
  refine ⟨h.cap, ?_, ?_, ?_⟩
  · change m.head + (m.push addrs).1 = m.tail + _
    rw [hframes, List.length_append, htaken, ← index_add, ← h.head, UInt32.ofNat_toNat]
  · rw [hframes, List.length_append, htaken, hput, h.cap]
    change _ ≤ m.cap.toNat
    omega
  · rw [hframes]
    have hentries := storeAddrs_entries hcap (addrs.take (m.push addrs).1.toNat) (i := 0)
      (n := p.frames.length) rfl (by rw [htaken, hput, h.cap]; omega) h.addrs
    rw [← h.head] at hentries
    exact hentries

/-- `pool_pop` takes the oldest addresses. -/
theorem Shows.pop (h : Shows m p) (n : UInt32) :
    (m.pop n).1 = (poolPop p n.toNat).1 ∧ Shows (m.pop n).2 (poolPop p n.toNat).2 := by
  have hroom := h.room
  have hused := h.toNat_used
  generalize hgot : (if n < m.head - m.tail then n else m.head - m.tail) = got
  have hmin : got.toNat = min n.toNat p.frames.length := by rw [← hgot, toNat_ite_lt, hused]
  have hlen : got.toNat ≤ p.frames.length := by omega
  rw [NePoolMem.pop, hgot, poolPop, ← hmin]
  refine ⟨List.ext_getElem? fun i => ?_, h.cap, ?_, ?_, fun j x hx => ?_⟩
  · by_cases hi : i < got.toNat
    · rw [List.getElem?_map, List.getElem?_range hi, List.getElem?_take_of_lt hi, Option.map_some]
      have hx : p.frames[i]? = some p.frames[i] := List.getElem?_eq_getElem (by omega)
      have haddr := h.addrs i _ hx
      rw [Nat.zero_add] at haddr
      rw [haddr, hx]
    · rw [List.getElem?_eq_none (by simp; omega), List.getElem?_eq_none (by simp; omega)]
  · have hsplit : p.frames.length = got.toNat + (p.frames.drop got.toNat).length := by
      rw [List.length_drop]
      omega
    change m.head = m.tail + got + _
    rw [h.head, hsplit, ← index_add, UInt32.ofNat_toNat]
  · rw [List.length_drop]
    exact (Nat.sub_le ..).trans hroom
  · rw [List.getElem?_drop] at hx
    have haddr := h.addrs _ x hx
    change m.buf (slotOf m.cap (m.tail + got + _)) = x
    rw [Nat.zero_add] at haddr ⊢
    rwa [← index_add, UInt32.ofNat_toNat] at haddr

/-- The calls, of any threads. -/
inductive Call
  | push (addrs : List Nat)
  | pop (n : UInt32)
  | count

/-- What a call gives back. -/
inductive Answer
  | pushed (n : Nat)
  | popped (addrs : List Nat)
  | counted (n : Nat)
  deriving DecidableEq

/-- A call on the memory; the number of addresses is a 32-bit one. -/
def call (s : NePoolMem × List Answer) : Call → NePoolMem × List Answer
  | .push addrs =>
      if addrs.length < UInt32.size then
        ((s.1.push addrs).2, s.2 ++ [.pushed (s.1.push addrs).1.toNat])
      else s
  | .pop n => ((s.1.pop n).2, s.2 ++ [.popped (s.1.pop n).1])
  | .count => (s.1, s.2 ++ [.counted s.1.freeCount.toNat])

/-- The same call on the list. -/
def listCall (s : NePool × List Answer) : Call → NePool × List Answer
  | .push addrs =>
      if addrs.length < UInt32.size then
        (poolPush s.1 addrs, s.2 ++ [.pushed (min addrs.length (s.1.cap - s.1.frames.length))])
      else s
  | .pop n => ((poolPop s.1 n.toNat).2, s.2 ++ [.popped (poolPop s.1 n.toNat).1])
  | .count => (s.1, s.2 ++ [.counted s.1.frames.length])

/-- One call. -/
theorem call_refines {s : NePoolMem × List Answer} {t : NePool × List Answer}
    (hcap : neRingInitOk s.1.cap = true) (h : Shows s.1 t.1) (hans : s.2 = t.2) (c : Call) :
    (call s c).1.cap = s.1.cap ∧ Shows (call s c).1 (listCall t c).1 ∧ (call s c).2 = (listCall t c).2 := by
  cases c with
  | push addrs =>
      rw [call, listCall]
      split
      · rename_i hlen
        obtain ⟨hput, hshow⟩ := h.push hcap hlen
        exact ⟨rfl, hshow, by rw [hans, hput]⟩
      · exact ⟨rfl, h, hans⟩
  | pop n =>
      obtain ⟨hgot, hshow⟩ := h.pop n
      exact ⟨rfl, hshow, by rw [call, listCall, hans, hgot]⟩
  | count => exact ⟨rfl, h, by rw [call, listCall, hans, freeCount, h.toNat_used]⟩

/-- The pool in memory answers every sequence of calls as the list of addresses does, from
any index on and across the wrap of the indices. -/
theorem poolRun_refines {cap : UInt32} (hcap : neRingInitOk cap = true) (buf : Nat → Nat) (start : UInt32)
    (cs : List Call) :
    let s := cs.foldl call (⟨buf, cap, start, start⟩, [])
    let t := cs.foldl listCall (⟨[], cap.toNat, 0⟩, [])
    s.2 = t.2 ∧ Shows s.1 t.1 := by
  suffices hrun : ∀ (cs : List Call) (s : NePoolMem × List Answer) (t : NePool × List Answer),
      neRingInitOk s.1.cap = true → Shows s.1 t.1 → s.2 = t.2 →
      (cs.foldl call s).2 = (cs.foldl listCall t).2 ∧ Shows (cs.foldl call s).1 (cs.foldl listCall t).1 from
    hrun cs _ _ hcap (Shows.init buf cap start) rfl
  intro cs
  induction cs with
  | nil => exact fun s t _ h hans => ⟨hans, h⟩
  | cons c cs ih =>
      intro s t hcap h hans
      obtain ⟨hsame, hshow, hans'⟩ := call_refines hcap h hans c
      exact ih _ _ (hsame ▸ hcap) hshow hans'

/-- The indices wrap while addresses are inside. -/
theorem poolRun_refines_wrap :
    ([.push [4096, 8192, 12288], .pop 2, .push [4096, 8192, 0, 16384], .pop 4, .count].foldl call
        (⟨fun _ => 0, 4, 4294967294, 4294967294⟩, [])).2 =
      ([.push [4096, 8192, 12288], .pop 2, .push [4096, 8192, 0, 16384], .pop 4, .count].foldl listCall
        (⟨[], UInt32.toNat 4, 0⟩, [])).2 :=
  have hcap : neRingInitOk 4 = true := by decide
  (poolRun_refines hcap (fun _ => 0) 4294967294 _).1

end NePoolMem

end NetworkEncryptor
