import NetworkEncryptor.Lib.Ordered
import NetworkEncryptor.Pipeline
import NetworkEncryptor.RouteTable

/-!
# NetworkEncryptor.Lanes

One direction of the pipeline as the order of packets depends on it: the batch of
the RX thread, one queue to each worker, and one line to each TX slot.

```
batch ── mid w ── line slot
```

A packet a worker has taken still counts to its queue, and one that was submitted
to the TX ring still counts to its line, so that taking and submitting are no
steps here.  Of the processing of a packet only this is left: what is made of it
goes to the end of one line.

All that passes through one worker stays in order on every line (`LaneOk.order`),
and the sticky route of a flow keeps it on one worker and one line (`LaneOk.line`).
-/

namespace NetworkEncryptor

structure Lane where
  batch : List NePacket
  picked : Option Pick
  mid : Nat → List NePacket
  line : Nat → List NePacket
  routed : List Routed
  route : RouteState
  nextTag : Nat

/-! ## steps -/

/-- What a worker can make of a packet: nothing, one packet, or two. -/
inductive Yields (pkt : NePacket) : List NePacket → Prop
  | none : Yields pkt []
  | one {q} : q.tag = pkt.tag → q.part = pkt.part → Yields pkt [q]
  | two {q r} : q.tag = pkt.tag → q.part = pkt.part → r.tag = pkt.tag → r.part = 1 → r.flow = q.flow →
      Yields pkt [q, r]

/-- Why a packet went to the line of `slot`: it came from the LAN with that slot, or
it was routed when it had been restored. -/
def SlotBy (dir : NePacketDir) (pkt : NePacket) (rt : RouteState) (slot : Nat) (q : NePacket) : Prop :=
  match dir with
  | .local => q.flow = pkt.flow ∧ (pkt.txSlot < (dpActiveTxSlots rt).toNat → slot = pkt.txSlot)
  | .wan => ∀ f, q.flow = some f → f.routed → ∃ v, RouteAnswer rt f.canonical ⟨v, slot⟩

/-- What the RX thread of the LAN found for a packet is the route of its flow. -/
def LookedUp (rt : RouteState) (pick : Pick) (pkt : NePacket) : Prop :=
  ∀ w f, pick = .worker w → pkt.flow = some f → f.routed → RouteAnswer rt f.canonical ⟨w, pkt.txSlot⟩

inductive LaneStep (dir : NePacketDir) (l : Lane) : Lane → Prop
  | idle {rt : RouteState} {n : Nat} (htable : TableInv rt) (hsticks : Sticks l.route rt)
      (hnext : l.nextTag ≤ n) : LaneStep dir l { l with
        route := rt
        nextTag := n }
  | recv {pkts : List NePacket} (hparts : ∀ pkt ∈ pkts, pkt.part = 0) : LaneStep dir l { l with
      batch := l.batch ++ tagFrom l.nextTag pkts
      nextTag := l.nextTag + pkts.length }
  | lookup {pkt pkt' : NePacket} {rest : List NePacket} {pick : Pick} {flow : Option Flow} {rt : RouteState}
      (hpicked : l.picked = none) (hbatch : l.batch = pkt :: rest) (htag : pkt'.tag = pkt.tag)
      (hpart : pkt'.part = pkt.part) (htable : TableInv rt) (hsticks : Sticks l.route rt)
      (hlan : dir = .local → flow = pkt'.flow ∧ LookedUp rt pick pkt') : LaneStep dir l { l with
        batch := pkt' :: rest
        picked := some pick
        routed := l.routed ++ [⟨pkt.tag, flow, pick⟩]
        route := rt }
  | handOn {w : Nat} {pkt : NePacket} {rest : List NePacket} (hpicked : l.picked = some (.worker w))
      (hbatch : l.batch = pkt :: rest) : LaneStep dir l { l with
        batch := rest
        picked := none
        mid := Function.update l.mid w (l.mid w ++ [pkt]) }
  | drop {pick : Pick} {pkt : NePacket} {rest : List NePacket} (hpicked : l.picked = some pick)
      (hbatch : l.batch = pkt :: rest) : LaneStep dir l { l with
        batch := rest
        picked := none }
  | process {w slot : Nat} {pkt : NePacket} {rest pkts : List NePacket} {rt : RouteState}
      (hmid : l.mid w = pkt :: rest) (htable : TableInv rt) (hsticks : Sticks l.route rt)
      (hyields : Yields pkt pkts) (hslot : ∀ q ∈ pkts, SlotBy dir pkt rt slot q) : LaneStep dir l { l with
        mid := Function.update l.mid w rest
        line := Function.update l.line slot (l.line slot ++ pkts)
        route := rt }

/-! ## the invariant -/

/-- The order of the packets a worker is given: by the number of the packet they were
made from, the first of two before the second. -/
def NePacket.Before (p q : NePacket) : Prop := p.tag < q.tag ∨ (p.tag = q.tag ∧ p.part < q.part)

/-- The packets of a batch that are not looked up yet. -/
def Lane.unlooked (l : Lane) : List NePacket :=
  match l.picked with
  | none => l.batch
  | some _ => l.batch.tail

/-- The numbers of all packets looked up so far and of those still to look up. -/
def Lane.tags (l : Lane) : List Nat := l.routed.map Routed.tag ++ l.unlooked.map NePacket.tag

/-- The packet was looked up, with this result. -/
def Lane.Found (l : Lane) (dir : NePacketDir) (pick : Pick) (pkt : NePacket) : Prop :=
  ∃ r ∈ l.routed, r.tag = pkt.tag ∧ r.pick = pick ∧ (dir = .local → r.flow = pkt.flow)

/-- The packet went to a worker. -/
def Lane.took (l : Lane) (w : Nat) (pkt : NePacket) : Bool :=
  l.routed.any fun r => decide (r.tag = pkt.tag ∧ r.pick = .worker w)

/-- All that has passed, is in, or can still come to the queue of a worker, with what
it put on one line. -/
def Lane.chain (l : Lane) (w slot : Nat) : List NePacket :=
  (l.line slot).filter (l.took w) ++ l.mid w ++ l.batch

/-- A flow is on the line of its slot, and from the LAN by the worker of its route. -/
def Lane.OnLine (l : Lane) (dir : NePacketDir) (w slot : Nat) (pkt : NePacket) : Prop :=
  ∀ f, pkt.flow = some f → f.routed →
    ∃ v, RouteAnswer l.route f.canonical ⟨v, slot⟩ ∧ (dir = .local → v = w)

/-- The second of two packets directly follows the first. -/
def PairedLine (pkts : List NePacket) : Prop :=
  Paired (fun p q => p.tag = q.tag ∧ p.part = 0 ∧ q.part = 1 ∧ q.flow = p.flow) (·.part ≠ 0) pkts

structure LaneOk (dir : NePacketDir) (l : Lane) : Prop where
  table : TableInv l.route
  tags : l.tags.Pairwise (· < ·)
  below : ∀ t ∈ l.tags, t < l.nextTag
  batch : ∀ pkt ∈ l.batch, pkt.part = 0
  picked : ∀ pick, l.picked = some pick → ∃ pkt rest, l.batch = pkt :: rest ∧ l.Found dir pick pkt ∧
    (dir = .local → LookedUp l.route pick pkt)
  mid : ∀ w, ∀ pkt ∈ l.mid w, pkt.part = 0 ∧ l.Found dir (.worker w) pkt ∧
    (dir = .local → LookedUp l.route (.worker w) pkt)
  line : ∀ slot, ∀ pkt ∈ l.line slot, ∃ w, l.Found dir (.worker w) pkt ∧ l.OnLine dir w slot pkt
  order : ∀ w slot, (l.chain w slot).Pairwise NePacket.Before
  pairs : ∀ slot, PairedLine (l.line slot)

section Facts

variable {dir : NePacketDir} {l l' : Lane} {pkt p q : NePacket} {pick : Pick} {w slot : Nat}

theorem Lane.took_iff : l.took w pkt = true ↔ ∃ r ∈ l.routed, r.tag = pkt.tag ∧ r.pick = .worker w := by
  simp [Lane.took]

theorem Lane.Found.took (h : l.Found dir (.worker w) pkt) : l.took w pkt = true := by
  obtain ⟨r, hr, htag, hpick, -⟩ := h
  exact Lane.took_iff.mpr ⟨r, hr, htag, hpick⟩

theorem Lane.Found.tag_mem (h : l.Found dir pick pkt) : pkt.tag ∈ l.tags := by
  obtain ⟨r, hr, htag, -⟩ := h
  exact List.mem_append_left _ (List.mem_map.mpr ⟨r, hr, htag⟩)

theorem Lane.Found.mono (h : l.Found dir pick pkt) (hr : ∀ r ∈ l.routed, r ∈ l'.routed) :
    l'.Found dir pick pkt := by
  obtain ⟨r, hmem, hrec⟩ := h
  exact ⟨r, hr r hmem, hrec⟩

theorem LookedUp.mono {rt rt' : RouteState} (h : LookedUp rt pick pkt) (hs : Sticks rt rt') :
    LookedUp rt' pick pkt :=
  fun w f hpick hflow hf => (h w f hpick hflow hf).mono hs

theorem Lane.OnLine.mono (h : l.OnLine dir w slot pkt) (hs : Sticks l.route l'.route) :
    l'.OnLine dir w slot pkt := by
  intro f hflow hf
  obtain ⟨v, hans, hv⟩ := h f hflow hf
  exact ⟨v, hans.mono hs, hv⟩

/-- Nothing is before a first packet but packets of smaller number. -/
theorem NePacket.Before.tag_lt (h : p.Before q) (hq : q.part = 0) : p.tag < q.tag := by
  unfold NePacket.Before at h
  omega

/-! ## numbers -/

/-- A packet was looked up once. -/
theorem LaneOk.record_unique (h : LaneOk dir l) {r r' : Routed} (hr : r ∈ l.routed) (hr' : r' ∈ l.routed)
    (htag : r.tag = r'.tag) : r = r' := by
  have hnodup : (l.routed.map Routed.tag).Nodup := (List.pairwise_append.mp h.tags).1.nodup
  exact List.inj_on_of_nodup_map hnodup hr hr' htag

theorem LaneOk.batch_tag (h : LaneOk dir l) (hp : pkt ∈ l.batch) : pkt.tag ∈ l.tags := by
  unfold Lane.tags Lane.unlooked
  cases hpick : l.picked with
  | none => exact List.mem_append_right _ (List.mem_map_of_mem hp)
  | some pick =>
      obtain ⟨p, rest, hb, hfound, -⟩ := h.picked pick hpick
      rw [hb] at hp
      rcases List.mem_cons.mp hp with rfl | hp
      · obtain ⟨r, hr, htag, -⟩ := hfound
        exact List.mem_append_left _ (List.mem_map.mpr ⟨r, hr, htag⟩)
      · simp only [hb, List.tail_cons]
        exact List.mem_append_right _ (List.mem_map_of_mem hp)

theorem LaneOk.chain_tag (h : LaneOk dir l) (hp : pkt ∈ l.chain w slot) : pkt.tag ∈ l.tags := by
  simp only [Lane.chain, List.mem_append, List.mem_filter] at hp
  rcases hp with (⟨hline, -⟩ | hmid) | hbatch
  · obtain ⟨v, hfound, -⟩ := h.line slot pkt hline
    exact hfound.tag_mem
  · exact (h.mid w pkt hmid).2.1.tag_mem
  · exact h.batch_tag hbatch

/-- What is on a line came before all that is still in the batch. -/
theorem LaneOk.line_lt_batch (h : LaneOk dir l) (hp : p ∈ l.line slot) (hq : q ∈ l.batch) : p.tag < q.tag := by
  obtain ⟨w, hfound, -⟩ := h.line slot p hp
  have hord := h.order w slot
  rw [Lane.chain, List.append_assoc] at hord
  have hbefore := (List.pairwise_append.mp hord).2.2 p (List.mem_filter.mpr ⟨hp, hfound.took⟩) q
    (List.mem_append_right _ hq)
  exact hbefore.tag_lt (h.batch q hq)

/-! ## receiving -/

theorem tagFrom_tags (pkts : List NePacket) : ∀ tag, (tagFrom tag pkts).map NePacket.tag =
    List.range' tag pkts.length := by
  induction pkts with
  | nil => intro tag; rfl
  | cons pkt pkts ih => intro tag; simp [tagFrom, ih, List.range'_succ]

theorem tagFrom_part {pkts : List NePacket} (h : ∀ pkt ∈ pkts, pkt.part = 0) :
    ∀ tag, ∀ pkt ∈ tagFrom tag pkts, pkt.part = 0 := by
  induction pkts with
  | nil => intro tag pkt hp; simp [tagFrom] at hp
  | cons p pkts ih =>
      intro tag pkt hp
      rcases List.mem_cons.mp hp with rfl | hp
      · exact h p (by simp)
      · exact ih (fun q hq => h q (by simp [hq])) _ pkt hp

theorem tagFrom_increasing (tag : Nat) (pkts : List NePacket) :
    (tagFrom tag pkts).Pairwise (fun p q => p.tag < q.tag) := by
  have hrange : (List.range' tag pkts.length).Pairwise (· < ·) := List.pairwise_lt_range'
  rw [← tagFrom_tags, List.pairwise_map] at hrange
  exact hrange

theorem le_of_mem_tagFrom {tag : Nat} {pkts : List NePacket} (h : pkt ∈ tagFrom tag pkts) : tag ≤ pkt.tag := by
  have hmem := List.mem_map_of_mem (f := NePacket.tag) h
  rw [tagFrom_tags, List.mem_range'_1] at hmem
  exact hmem.1

/-- The numbers of new packets come after all there are. -/
theorem LaneOk.recv (h : LaneOk dir l) {pkts : List NePacket} (hparts : ∀ pkt ∈ pkts, pkt.part = 0) :
    LaneOk dir { l with
      batch := l.batch ++ tagFrom l.nextTag pkts
      nextTag := l.nextTag + pkts.length } := by
  have htags : Lane.tags { l with
      batch := l.batch ++ tagFrom l.nextTag pkts
      nextTag := l.nextTag + pkts.length } = l.tags ++ List.range' l.nextTag pkts.length := by
    unfold Lane.tags Lane.unlooked
    cases hpick : l.picked with
    | none => simp [tagFrom_tags]
    | some pick =>
        obtain ⟨pkt, rest, hb, -⟩ := h.picked pick hpick
        simp [hb, tagFrom_tags]
  refine ⟨h.table, ?_, ?_, ?_, ?_, h.mid, h.line, ?_, h.pairs⟩
  · rw [htags, List.pairwise_append]
    refine ⟨h.tags, List.pairwise_lt_range', fun a ha b hb => ?_⟩
    have := h.below a ha
    have := (List.mem_range'_1.mp hb).1
    omega
  · intro t ht
    rw [htags] at ht
    dsimp only
    rcases List.mem_append.mp ht with ht | ht
    · have := h.below t ht; omega
    · exact (List.mem_range'_1.mp ht).2
  · intro pkt hp
    rcases List.mem_append.mp hp with hp | hp
    · exact h.batch pkt hp
    · exact tagFrom_part hparts _ pkt hp
  · intro pick hpick
    obtain ⟨pkt, rest, hb, hfound⟩ := h.picked pick hpick
    exact ⟨pkt, rest ++ tagFrom l.nextTag pkts, by simp [hb], hfound⟩
  · intro w slot
    have hchain : Lane.chain { l with
        batch := l.batch ++ tagFrom l.nextTag pkts
        nextTag := l.nextTag + pkts.length } w slot = l.chain w slot ++ tagFrom l.nextTag pkts :=
      (List.append_assoc ..).symm
    rw [hchain, List.pairwise_append]
    refine ⟨h.order w slot, (tagFrom_increasing _ _).imp .inl, fun a ha b hb => .inl ?_⟩
    have := h.below _ (h.chain_tag ha)
    have := le_of_mem_tagFrom hb
    omega

/-! ## the RX thread -/

theorem LaneOk.idle (h : LaneOk dir l) {rt : RouteState} {n : Nat} (htable : TableInv rt)
    (hsticks : Sticks l.route rt) (hnext : l.nextTag ≤ n) :
    LaneOk dir { l with
      route := rt
      nextTag := n } := by
  refine ⟨htable, h.tags, fun t ht => (h.below t ht).trans_le hnext, h.batch, ?_, ?_, ?_, h.order, h.pairs⟩
  · intro pick hpick
    obtain ⟨pkt, rest, hb, hfound, hlook⟩ := h.picked pick hpick
    exact ⟨pkt, rest, hb, hfound, fun hd => (hlook hd).mono hsticks⟩
  · intro w pkt hp
    obtain ⟨hpart, hfound, hlook⟩ := h.mid w pkt hp
    exact ⟨hpart, hfound, fun hd => (hlook hd).mono hsticks⟩
  · intro slot pkt hp
    obtain ⟨w, hfound, hon⟩ := h.line slot pkt hp
    exact ⟨w, hfound, hon.mono hsticks⟩

/-- A lookup adds the record of a packet that is in no queue and on no line. -/
theorem LaneOk.lookup (h : LaneOk dir l) {pkt' : NePacket} {rest : List NePacket} {flow : Option Flow}
    {rt : RouteState} (hpicked : l.picked = none) (hbatch : l.batch = pkt :: rest)
    (htag : pkt'.tag = pkt.tag) (hpart : pkt'.part = pkt.part) (htable : TableInv rt)
    (hsticks : Sticks l.route rt) (hlan : dir = .local → flow = pkt'.flow ∧ LookedUp rt pick pkt') :
    LaneOk dir { l with
      batch := pkt' :: rest
      picked := some pick
      routed := l.routed ++ [⟨pkt.tag, flow, pick⟩]
      route := rt } := by
  generalize hl' : ({ l with
    batch := pkt' :: rest
    picked := some pick
    routed := l.routed ++ [⟨pkt.tag, flow, pick⟩]
    route := rt } : Lane) = l'
  have hrouted : l'.routed = l.routed ++ [⟨pkt.tag, flow, pick⟩] := by rw [← hl']
  have hgrown : ∀ r ∈ l.routed, r ∈ l'.routed := by
    intro r hr
    rw [hrouted]
    exact List.mem_append_left _ hr
  have htags : l'.tags = l.tags := by
    subst hl'
    simp [Lane.tags, Lane.unlooked, hpicked, hbatch]
  have hpkt : pkt ∈ l.batch := by rw [hbatch]; exact List.mem_cons_self ..
  have htook : ∀ w slot, (l'.line slot).filter (l'.took w) = (l.line slot).filter (l.took w) := by
    intro w slot
    have hline : l'.line = l.line := by rw [← hl']
    rw [hline]
    refine List.filter_congr fun p hp => ?_
    have hne : pkt.tag ≠ p.tag := (h.line_lt_batch hp hpkt).ne'
    simp [Lane.took, hrouted, hne]
  refine ⟨by rw [← hl']; exact htable, by rw [htags]; exact h.tags, ?_, ?_, ?_, ?_, ?_, ?_, ?_⟩
  · rw [htags, ← hl']; exact h.below
  · intro p hp
    rw [← hl'] at hp
    rcases List.mem_cons.mp hp with rfl | hp
    · rw [hpart]; exact h.batch pkt hpkt
    · exact h.batch p (by rw [hbatch]; exact List.mem_cons_of_mem _ hp)
  · intro pick' hp
    obtain rfl : pick = pick' := by rw [← hl'] at hp; exact Option.some.inj hp
    refine ⟨pkt', rest, by rw [← hl'], ⟨⟨pkt.tag, flow, pick⟩, by rw [hrouted]; simp, ?_⟩, ?_⟩
    · exact ⟨htag.symm, rfl, fun hd => (hlan hd).1⟩
    · rw [← hl']; exact fun hd => (hlan hd).2
  · intro w p hp
    have hp' : p ∈ l.mid w := by rw [← hl'] at hp; exact hp
    obtain ⟨hz, hfound, hlook⟩ := h.mid w p hp'
    refine ⟨hz, hfound.mono hgrown, fun hd => ?_⟩
    rw [← hl']; exact (hlook hd).mono hsticks
  · intro slot p hp
    have hp' : p ∈ l.line slot := by rw [← hl'] at hp; exact hp
    obtain ⟨w, hfound, hon⟩ := h.line slot p hp'
    exact ⟨w, hfound.mono hgrown, hon.mono (by rw [← hl']; exact hsticks)⟩
  · intro w slot
    have hord := h.order w slot
    rw [Lane.chain, hbatch] at hord
    have hspliced := pairwise_splice hord (List.pairwise_singleton _ pkt')
      (fun q hq a _ ha => by
        rw [List.mem_singleton.mp hq]
        simpa only [NePacket.Before, htag, hpart] using ha)
      (fun q hq b _ hb => by
        rw [List.mem_singleton.mp hq]
        simpa only [NePacket.Before, htag, hpart] using hb)
    rw [Lane.chain, htook, ← hl']
    simpa using hspliced
  · rw [← hl']; exact h.pairs

/-- A packet leaves the batch: for the queue of its worker, or for good. -/
theorem LaneOk.leave (h : LaneOk dir l) {rest : List NePacket} {mid : Nat → List NePacket}
    (hpicked : l.picked = some pick) (hbatch : l.batch = pkt :: rest)
    (hmid : ∀ w, mid w = l.mid w ∨ (mid w = l.mid w ++ [pkt] ∧ pick = .worker w)) :
    LaneOk dir { l with
      batch := rest
      picked := none
      mid := mid } := by
  obtain ⟨pkt', rest', hb, hfound, hlook⟩ := h.picked pick hpicked
  obtain ⟨rfl, rfl⟩ : pkt = pkt' ∧ rest = rest' := by rw [hbatch] at hb; exact List.cons.inj hb
  have htags : Lane.tags { l with
      batch := rest
      picked := none
      mid := mid } = l.tags := by
    simp [Lane.tags, Lane.unlooked, hpicked, hbatch]
  refine ⟨h.table, by rw [htags]; exact h.tags, by rw [htags]; exact h.below, ?_, ?_, ?_, h.line, ?_, h.pairs⟩
  · intro p hp
    exact h.batch p (by rw [hbatch]; exact List.mem_cons_of_mem _ hp)
  · intro p hp; cases hp
  · intro w p hp
    rcases hmid w with hw | ⟨hw, rfl⟩
    · exact h.mid w p (hw ▸ hp)
    · dsimp only at hp
      rw [hw] at hp
      rcases List.mem_append.mp hp with hp | hp
      · exact h.mid w p hp
      · rw [List.mem_singleton.mp hp]
        exact ⟨h.batch pkt (by rw [hbatch]; exact List.mem_cons_self ..), hfound, hlook⟩
  · intro w slot
    have hord := h.order w slot
    rw [Lane.chain, hbatch] at hord
    change ((l.line slot).filter (l.took w) ++ mid w ++ rest).Pairwise NePacket.Before
    rcases hmid w with hw | ⟨hw, -⟩
    · rw [hw]
      exact hord.sublist ((List.sublist_cons_self ..).append_left _)
    · rw [hw]
      simpa using hord

/-! ## the workers -/

theorem Yields.paired {pkts : List NePacket} (h : Yields pkt pkts) (hpart : pkt.part = 0) :
    PairedLine pkts := by
  cases h with
  | none => exact paired_nil
  | one _ hq => exact paired_one (by simp [hq, hpart])
  | two htag hq htag' hr hflow =>
      exact paired_pair (by simp [hq, hpart]) ⟨htag.trans htag'.symm, hq.trans hpart, hr, hflow⟩

theorem Yields.tag {pkts : List NePacket} (h : Yields pkt pkts) (hq : q ∈ pkts) : q.tag = pkt.tag := by
  cases h with
  | none => cases hq
  | one htag _ => rw [List.mem_singleton.mp hq]; exact htag
  | two htag _ htag' _ _ =>
      simp only [List.mem_cons, List.not_mem_nil, or_false] at hq
      rcases hq with rfl | rfl
      · exact htag
      · exact htag'

/-- What was made of a packet takes its place in the order. -/
theorem Yields.splice {pkts as bs : List NePacket} (h : Yields pkt pkts) (hpart : pkt.part = 0)
    (hord : (as ++ pkt :: bs).Pairwise NePacket.Before) (hbs : ∀ b ∈ bs, b.part = 0) :
    (as ++ pkts ++ bs).Pairwise NePacket.Before := by
  have hsame : ∀ q ∈ pkts, q.tag = pkt.tag := fun q hq => h.tag hq
  refine pairwise_splice hord ?_ ?_ ?_
  · cases h with
    | none => exact .nil
    | one _ _ => exact List.pairwise_singleton ..
    | two htag hq htag' hr _ =>
        refine List.pairwise_pair.mpr (.inr ⟨htag.trans htag'.symm, ?_⟩)
        omega
  · intro q hq a _ ha
    have := hsame q hq
    have := ha.tag_lt hpart
    exact .inl (by omega)
  · intro q hq b hb hp
    have := hsame q hq
    have := hp.tag_lt (hbs b hb)
    exact .inl (by omega)

/-- A flow stays on its line: from the LAN by the slot it was looked up with, to the LAN
by the slot of the restored packet. -/
theorem SlotBy.onLine {rt : RouteState} (h : SlotBy dir pkt rt slot q) (htable : TableInv rt)
    (hlook : dir = .local → LookedUp rt (.worker w) pkt) {f : Flow} (hflow : q.flow = some f) (hf : f.routed) :
    ∃ v, RouteAnswer rt f.canonical ⟨v, slot⟩ ∧ (dir = .local → v = w) := by
  cases dir with
  | «local» =>
      obtain ⟨hqflow, hslot⟩ := h
      have hans := hlook rfl w f rfl (hqflow.symm.trans hflow) hf
      rw [hslot (hans.bounds htable.bounds).2]
      exact ⟨w, hans, fun _ => rfl⟩
  | wan =>
      obtain ⟨v, hans⟩ := h f hflow hf
      exact ⟨v, hans, fun hd => by cases hd⟩

/-- What a worker made of its packet went to this worker and to no other. -/
theorem LaneOk.took_yields (h : LaneOk dir l) {pkts : List NePacket} (hfound : l.Found dir (.worker w) pkt)
    (hyields : Yields pkt pkts) (v : Nat) : pkts.filter (l.took v) = if v = w then pkts else [] := by
  obtain ⟨r, hr, hrtag, hrpick, -⟩ := hfound
  split_ifs with hv
  · refine List.filter_eq_self.mpr fun q hq => Lane.took_iff.mpr ⟨r, hr, ?_, hv ▸ hrpick⟩
    rw [hyields.tag hq, hrtag]
  · refine List.filter_eq_nil_iff.mpr fun q hq htook => hv ?_
    obtain ⟨r', hr', htag', hpick'⟩ := Lane.took_iff.mp htook
    have heq := h.record_unique hr' hr (by rw [htag', hyields.tag hq, hrtag])
    rw [heq, hrpick] at hpick'
    injection hpick' with hpick'
    exact hpick'.symm

/-- A worker puts what it made of its packet at the end of one line. -/
theorem LaneOk.process (h : LaneOk dir l) {rest pkts : List NePacket} {rt : RouteState}
    (hmid : l.mid w = pkt :: rest) (htable : TableInv rt) (hsticks : Sticks l.route rt)
    (hyields : Yields pkt pkts) (hslot : ∀ q ∈ pkts, SlotBy dir pkt rt slot q) :
    LaneOk dir { l with
      mid := Function.update l.mid w rest
      line := Function.update l.line slot (l.line slot ++ pkts)
      route := rt } := by
  generalize hmid' : Function.update l.mid w rest = mid'
  generalize hline' : Function.update l.line slot (l.line slot ++ pkts) = line'
  have hmidw : mid' w = rest := by rw [← hmid']; exact Function.update_self ..
  have hmidv : ∀ v, v ≠ w → mid' v = l.mid v := by
    intro v hv; rw [← hmid']; exact Function.update_of_ne hv ..
  have hlines : line' slot = l.line slot ++ pkts := by rw [← hline']; exact Function.update_self ..
  have hline : ∀ s, s ≠ slot → line' s = l.line s := by
    intro s hs; rw [← hline']; exact Function.update_of_ne hs ..
  have hpkt : pkt ∈ l.mid w := by rw [hmid]; exact List.mem_cons_self ..
  obtain ⟨hpart, hfound, hlook⟩ := h.mid w pkt hpkt
  have htook := h.took_yields hfound hyields
  obtain ⟨r, hr, hrtag, hrpick, hrflow⟩ := hfound
  refine ⟨htable, h.tags, h.below, h.batch, ?_, ?_, ?_, ?_, ?_⟩
  · intro pick hpick
    obtain ⟨p, rest', hb, hf, hl⟩ := h.picked pick hpick
    exact ⟨p, rest', hb, hf, fun hd => (hl hd).mono hsticks⟩
  · intro v p hp
    have hold : p ∈ l.mid v := by
      by_cases hv : v = w
      · rw [hv, hmid]
        exact List.mem_cons_of_mem _ (hmidw ▸ hv ▸ hp)
      · exact hmidv v hv ▸ hp
    obtain ⟨hz, hf, hl⟩ := h.mid v p hold
    exact ⟨hz, hf, fun hd => (hl hd).mono hsticks⟩
  · intro s p hp
    have hold : p ∈ l.line s → ∃ v, l.Found dir (.worker v) p ∧ ∀ f, p.flow = some f → f.routed →
        ∃ u, RouteAnswer rt f.canonical ⟨u, s⟩ ∧ (dir = .local → u = v) := by
      intro hp
      obtain ⟨v, hf, hon⟩ := h.line s p hp
      refine ⟨v, hf, fun f hflow hrouted => ?_⟩
      obtain ⟨u, hans, hu⟩ := hon f hflow hrouted
      exact ⟨u, hans.mono hsticks, hu⟩
    by_cases hs : s = slot
    · have hp' : p ∈ l.line s ++ pkts := by rw [hs, ← hlines, ← hs]; exact hp
      rcases List.mem_append.mp hp' with hp' | hp'
      · exact hold hp'
      · refine ⟨w, ⟨r, hr, hrtag.trans (hyields.tag hp').symm, hrpick, ?_⟩, ?_⟩
        · rintro rfl
          rw [hrflow rfl, (hslot p hp').1]
        · intro f hflow hf
          exact hs ▸ (hslot p hp').onLine htable (fun hd => (hlook hd).mono hsticks) hflow hf
    · exact hold (hline s hs ▸ hp)
  · intro v s
    have hord := h.order v s
    rw [Lane.chain] at hord
    change ((line' s).filter (l.took v) ++ mid' v ++ l.batch).Pairwise NePacket.Before
    have hline_s : (line' s).filter (l.took v) =
        (l.line s).filter (l.took v) ++ if s = slot ∧ v = w then pkts else [] := by
      by_cases hs : s = slot
      · simp [hs, hlines, List.filter_append, htook]
      · simp [hs, hline s hs]
    rw [hline_s]
    by_cases hv : v = w
    · subst hv
      rw [hmid, List.append_assoc] at hord
      rw [hmidw, List.append_assoc]
      by_cases hs : s = slot
      · rw [if_pos ⟨hs, rfl⟩]
        refine hyields.splice hpart hord fun b hb => ?_
        rcases List.mem_append.mp hb with hb | hb
        · exact (h.mid v b (by rw [hmid]; exact List.mem_cons_of_mem _ hb)).1
        · exact h.batch b hb
      · rw [if_neg (fun hc => hs hc.1), List.append_nil]
        exact hord.sublist ((List.sublist_cons_self ..).append_left _)
    · rw [if_neg (fun hc => hv hc.2), List.append_nil, hmidv v hv]
      exact hord
  · intro s
    change PairedLine (line' s)
    by_cases hs : s = slot
    · rw [hs, hlines]
      exact (h.pairs slot).append (hyields.paired hpart)
    · rw [hline s hs]; exact h.pairs s

/-! ## runs -/

theorem LaneStep.ok (hs : LaneStep dir l l') (h : LaneOk dir l) : LaneOk dir l' := by
  cases hs with
  | idle htable hsticks hnext => exact h.idle htable hsticks hnext
  | recv hparts => exact h.recv hparts
  | lookup hpicked hbatch htag hpart htable hsticks hlan =>
      exact h.lookup hpicked hbatch htag hpart htable hsticks hlan
  | @handOn w pkt rest hpicked hbatch =>
      refine h.leave hpicked hbatch fun v => ?_
      by_cases hv : v = w
      · subst hv; exact .inr ⟨Function.update_self .., rfl⟩
      · exact .inl (Function.update_of_ne hv ..)
  | drop hpicked hbatch => exact h.leave hpicked hbatch fun _ => .inl rfl
  | process hmid htable hsticks hyields hslot => exact h.process hmid htable hsticks hyields hslot

/-- A direction at program start. -/
theorem laneOk_init {rt : RouteState} (dir : NePacketDir) (htable : TableInv rt) :
    LaneOk dir ⟨[], none, fun _ => [], fun _ => [], [], rt, 0⟩ := by
  refine ⟨htable, .nil, ?_, ?_, ?_, ?_, ?_, ?_, fun _ => paired_nil⟩
  · intro t ht; cases ht
  · intro p hp; cases hp
  · intro p hp; cases hp
  · intro w p hp; cases hp
  · intro s p hp; cases hp
  · intro w s; exact .nil

/-! ## flows -/

/-- All packets of a flow are on one line. -/
theorem LaneOk.slot_unique (h : LaneOk dir l) {f : Flow} (hf : f.routed) {s s' : Nat} (hp : p ∈ l.line s)
    (hq : q ∈ l.line s') (hpf : p.flow = some f) (hqf : q.flow = some f) : s = s' := by
  obtain ⟨_, -, hon⟩ := h.line s p hp
  obtain ⟨_, -, hon'⟩ := h.line s' q hq
  obtain ⟨v, hans, -⟩ := hon f hpf hf
  obtain ⟨v', hans', -⟩ := hon' f hqf hf
  exact congrArg FlowRoute.txSlot (hans.unique h.table.unique hans')

/-- From the LAN they came by one worker. -/
theorem LaneOk.worker_unique (h : LaneOk .local l) {f : Flow} (hf : f.routed) {s s' : Nat} (hp : p ∈ l.line s)
    (hq : q ∈ l.line s') (hpf : p.flow = some f) (hqf : q.flow = some f) (hw : l.took w p = true) :
    l.took w q = true := by
  obtain ⟨u, ⟨r, hr, htag, hpick, -⟩, hon⟩ := h.line s p hp
  obtain ⟨u', hfound', hon'⟩ := h.line s' q hq
  obtain ⟨v, hans, hv⟩ := hon f hpf hf
  obtain ⟨v', hans', hv'⟩ := hon' f hqf hf
  obtain ⟨r', hr', htag', hpick'⟩ := Lane.took_iff.mp hw
  rw [h.record_unique hr' hr (htag'.trans htag.symm), hpick] at hpick'
  injection hpick' with huw
  have hroute := congrArg FlowRoute.workerIdx (hans.unique h.table.unique hans')
  have huu : u = u' := by rw [← hv rfl, ← hv' rfl]; exact hroute
  rw [← huw, huu]
  exact hfound'.took

/-- The frames are, in order, what became of some of the received packets: none is
overtaken, and none is sent twice. -/
structure InOrder (sent : List NePacket) (received : List Routed) : Prop where
  order : sent.Pairwise NePacket.Before
  made : ((sent.filter (·.part = 0)).map NePacket.tag).Sublist (received.map Routed.tag)

/-- What one worker has put on a line. -/
theorem LaneOk.inOrder (h : LaneOk dir l) {sent : List NePacket} {received : List Routed} (hsent : sent.Sublist (l.line slot))
    (hw : ∀ p ∈ sent, l.took w p = true) (hreceived : received.Sublist l.routed)
    (hmade : ∀ p ∈ sent, ∃ r ∈ received, r.tag = p.tag) : InOrder sent received := by
  have hchain : sent.Sublist (l.chain w slot) := by
    rw [Lane.chain, List.append_assoc]
    have hself : sent.filter (l.took w) = sent := List.filter_eq_self.mpr hw
    rw [← hself]
    exact (hsent.filter _).trans (List.sublist_append_left ..)
  have horder := (h.order w slot).sublist hchain
  refine ⟨horder, sublist_of_increasing ?_ ?_ ?_⟩
  · rw [List.pairwise_map]
    refine (horder.sublist List.filter_sublist).imp_of_mem fun _ hq hpq => ?_
    exact hpq.tag_lt (of_decide_eq_true (List.mem_filter.mp hq).2)
  · exact (List.pairwise_append.mp h.tags).1.sublist (hreceived.map _)
  · intro t ht
    obtain ⟨p, hp, rfl⟩ := List.mem_map.mp ht
    obtain ⟨r, hr, htag⟩ := hmade p (List.mem_filter.mp hp).1
    exact List.mem_map.mpr ⟨r, hr, htag⟩

end Facts

end NetworkEncryptor
