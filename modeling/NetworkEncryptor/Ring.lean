import NetworkEncryptor.Umem

/-!
# NetworkEncryptor.Ring

`struct ne_ring`: the bounded queues between the threads.  Producers hold a
lock and there is one consumer, so every operation is one step on a FIFO.
-/

namespace NetworkEncryptor

/-- `struct ne_ring`, oldest packet first. -/
structure NeRing where
  items : List NePacket
  cap : Nat

def NeRing.empty : NeRing := ⟨[], neRingSize⟩

def neRingCount (r : NeRing) : Nat := r.items.length

/-- `ne_ring_try_push`; `none` is its `-1`. -/
def neRingTryPush (r : NeRing) (pkt : NePacket) : Option NeRing :=
  if r.items.length ≥ r.cap then none else some { r with items := r.items ++ [pkt] }

/-- `ne_ring_try_push_pair`: both or neither. -/
def neRingTryPushPair (r : NeRing) (first second : NePacket) : Option NeRing :=
  if r.cap < 2 then none
  else if r.items.length > r.cap - 2 then none
  else some { r with items := r.items ++ [first, second] }

def neRingTryPop (r : NeRing) : Option (NePacket × NeRing) :=
  match r.items with
  | [] => none
  | pkt :: rest => some (pkt, { r with items := rest })

theorem neRingTryPush_eq_some {r r' : NeRing} {pkt : NePacket} (h : neRingTryPush r pkt = some r') :
    r' = { r with items := r.items ++ [pkt] } := by
  rw [neRingTryPush] at h
  by_cases hfull : r.items.length ≥ r.cap
  · rw [if_pos hfull] at h; cases h
  · rw [if_neg hfull] at h; exact (Option.some.inj h).symm

theorem neRingTryPushPair_eq_some {r r' : NeRing} {first second : NePacket}
    (h : neRingTryPushPair r first second = some r') :
    r' = { r with items := r.items ++ [first, second] } := by
  rw [neRingTryPushPair] at h
  by_cases hcap : r.cap < 2
  · rw [if_pos hcap] at h; cases h
  · rw [if_neg hcap] at h
    by_cases hfull : r.items.length > r.cap - 2
    · rw [if_pos hfull] at h; cases h
    · rw [if_neg hfull] at h; exact (Option.some.inj h).symm

end NetworkEncryptor
