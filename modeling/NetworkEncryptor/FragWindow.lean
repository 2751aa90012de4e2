import NetworkEncryptor.Joining
import NetworkEncryptor.Lib.Run

/-!
# NetworkEncryptor.FragWindow

The fragment table while it has room: a half is kept until the other one
arrives, whatever other datagrams pass through the table in between.

The probe looks at a window of eight slots and chooses the slot of the key, else
a free one, else the oldest (`optPickSlot_spec`).  Every entry lies in the window
of its own key and no key has two (`Placed`), so a call that finds its key or a
free slot disturbs no live entry of another key.
-/

namespace NetworkEncryptor

/-! ## the window -/

/-- Slot `i` of the window that starts at `base`. -/
def windowSlot (base i : Nat) : Nat := (base + i) % l2FragTableSize

/-- The slots of a window are different. -/
theorem windowSlot_inj {base i j : Nat} (hi : i < 8) (hj : j < 8)
    (h : windowSlot base i = windowSlot base j) : i = j := by
  rw [windowSlot, windowSlot, l2FragTableSize] at h
  omega

/-- The entry has a half that is not too old. -/
def OptEntry.Live (e : OptEntry) (now : UInt64) : Prop :=
  e.occupied = true ∧ e.expired now = false

instance (e : OptEntry) (now : UInt64) : Decidable (e.Live now) :=
  inferInstanceAs (Decidable (_ ∧ _))

def OptEntry.age (e : OptEntry) (now : UInt64) : UInt64 := now - e.timestampNs

/-- The entry belongs to `(epoch, datagram_id)`. -/
def OptEntry.HasKey (e : OptEntry) (epoch datagramId : UInt32) : Prop :=
  e.epoch = epoch ∧ e.datagramId = datagramId

instance (e : OptEntry) (epoch datagramId : UInt32) : Decidable (e.HasKey epoch datagramId) :=
  inferInstanceAs (Decidable (_ ∧ _))

/-- Only dead entries were cleared. -/
def Swept (now : UInt64) (ft ft' : OptTable) : Prop :=
  ∀ j, ft'.entries j = ft.entries j ∨
    (¬(ft.entries j).Live now ∧ ft'.entries j = optClearEntry (ft.entries j))

theorem Swept.refl (now : UInt64) (ft : OptTable) : Swept now ft ft := fun _ => .inl rfl

theorem optClearEntry_idem (e : OptEntry) : optClearEntry (optClearEntry e) = optClearEntry e := rfl

theorem Swept.trans {now : UInt64} {ft ft' ft'' : OptTable} (h : Swept now ft ft')
    (h' : Swept now ft' ft'') : Swept now ft ft'' := by
  intro j
  rcases h j with h1 | ⟨hd, h1⟩
  · rcases h' j with h2 | ⟨hd, h2⟩
    · exact .inl (h2.trans h1)
    · rw [h1] at hd h2
      exact .inr ⟨hd, h2⟩
  · rcases h' j with h2 | ⟨-, h2⟩
    · exact .inr ⟨hd, h2.trans h1⟩
    · refine .inr ⟨hd, ?_⟩
      rw [h2, h1, optClearEntry_idem]

theorem Swept.live {now : UInt64} {ft ft' : OptTable} (h : Swept now ft ft') {j : Nat}
    (hl : (ft.entries j).Live now) : ft'.entries j = ft.entries j := by
  rcases h j with heq | ⟨hd, -⟩
  · exact heq
  · exact absurd hl hd

theorem swept_set_clear {now : UInt64} {ft : OptTable} {idx : Nat}
    (hd : ¬(ft.entries idx).Live now) :
    Swept now ft (ft.set idx (optClearEntry (ft.entries idx))) := by
  intro j
  by_cases hj : j = idx
  · subst hj
    exact .inr ⟨hd, ft.set_entries_self j _⟩
  · exact .inl (ft.set_entries_of_ne _ hj)

/-! ## the probe -/

section Probe

variable {epoch datagramId : UInt32} {now : UInt64} {base : Nat}

/-- What the probe knows after `i` slots: none is a live one of the key, the
first free one is remembered, and of the live ones the oldest. -/
structure Scanned (epoch datagramId : UInt32) (now : UInt64) (base i : Nat) (ft : OptTable)
    (emptyIdx oldestIdx : Option Nat) (oldestAge : UInt64) : Prop where
  slots : ∀ j < i, (ft.entries (windowSlot base j)).occupied = false ∨
    ((ft.entries (windowSlot base j)).Live now ∧
      ¬(ft.entries (windowSlot base j)).HasKey epoch datagramId)
  empty : ∀ idx, emptyIdx = some idx →
    ∃ j < i, idx = windowSlot base j ∧ (ft.entries idx).occupied = false
  full : emptyIdx = none → ∀ j < i, (ft.entries (windowSlot base j)).Live now
  oldest : ∀ idx, oldestIdx = some idx →
    (∃ j < i, idx = windowSlot base j) ∧ (ft.entries idx).age now = oldestAge ∧
      ∀ j < i, (ft.entries (windowSlot base j)).Live now →
        (ft.entries (windowSlot base j)).age now ≤ oldestAge
  noneLive : oldestIdx = none → ∀ j < i, ¬(ft.entries (windowSlot base j)).Live now

/-- The slot chosen for a key: its own, a free one when no live one is its own,
or the oldest when all eight are live and none is its own. -/
inductive SlotChoice (epoch datagramId : UInt32) (now : UInt64) (base : Nat) (ft : OptTable) :
    Nat → Prop
  | hit {j} (hj : j < 8) (hlive : (ft.entries (windowSlot base j)).Live now)
      (hkey : (ft.entries (windowSlot base j)).HasKey epoch datagramId) :
      SlotChoice epoch datagramId now base ft (windowSlot base j)
  | free {j} (hj : j < 8) (hfree : (ft.entries (windowSlot base j)).occupied = false)
      (hslots : ∀ i < 8, (ft.entries (windowSlot base i)).occupied = false ∨
        ¬(ft.entries (windowSlot base i)).HasKey epoch datagramId) :
      SlotChoice epoch datagramId now base ft (windowSlot base j)
  | full {j} (hj : j < 8)
      (hslots : ∀ i < 8, (ft.entries (windowSlot base i)).Live now ∧
        ¬(ft.entries (windowSlot base i)).HasKey epoch datagramId)
      (hage : ∀ i < 8, (ft.entries (windowSlot base i)).age now ≤
        (ft.entries (windowSlot base j)).age now) :
      SlotChoice epoch datagramId now base ft (windowSlot base j)

theorem scanned_zero (ft : OptTable) : Scanned epoch datagramId now base 0 ft none none 0 where
  slots := by omega
  empty _ h := by cases h
  full := by omega
  oldest _ h := by cases h
  noneLive := by omega

/-- The whole window scanned. -/
theorem Scanned.choice {ft : OptTable} {emptyIdx oldestIdx : Option Nat} {oldestAge : UInt64}
    (h : Scanned epoch datagramId now base 8 ft emptyIdx oldestIdx oldestAge) :
    SlotChoice epoch datagramId now base ft (emptyIdx.getD (oldestIdx.getD base)) := by
  cases hempty : emptyIdx with
  | some idx =>
      obtain ⟨j, hj, rfl, hfree⟩ := h.empty idx hempty
      refine .free hj hfree fun i hi => ?_
      rcases h.slots i hi with ho | ⟨-, hk⟩
      · exact .inl ho
      · exact .inr hk
  | none =>
      have hlive := h.full hempty
      cases hold : oldestIdx with
      | none => exact absurd (hlive 0 (by omega)) (h.noneLive hold 0 (by omega))
      | some idx =>
          obtain ⟨⟨j, hj, rfl⟩, hage, hmax⟩ := h.oldest idx hold
          refine .full hj (fun i hi => ⟨hlive i hi, ?_⟩) fun i hi => ?_
          · rcases h.slots i hi with ho | ⟨-, hk⟩
            · have := (hlive i hi).1
              rw [ho] at this
              cases this
            · exact hk
          · rw [hage]
            exact hmax i hi (hlive i hi)

/-- A slot away from the window position `i` is not changed by an update there. -/
theorem set_windowSlot_of_lt {ft : OptTable} {i j : Nat} (e : OptEntry) (hi : i < 8) (hj : j < i) :
    (ft.set (windowSlot base i) e).entries (windowSlot base j) = ft.entries (windowSlot base j) := by
  apply ft.set_entries_of_ne
  intro h
  have := windowSlot_inj (by omega) hi h
  omega

section Next

variable {ft : OptTable} {emptyIdx oldestIdx : Option Nat} {oldestAge : UInt64} {i : Nat}
  (h : Scanned epoch datagramId now base i ft emptyIdx oldestIdx oldestAge)

include h

/-- A live slot of another key: what remains is to say which is the oldest now. -/
theorem Scanned.live {oldestIdx' : Option Nat} {oldestAge' : UInt64}
    (hlive : (ft.entries (windowSlot base i)).Live now)
    (hkey : ¬(ft.entries (windowSlot base i)).HasKey epoch datagramId) (hsome : oldestIdx' ≠ none)
    (holdest : ∀ idx, oldestIdx' = some idx →
      (∃ j < i + 1, idx = windowSlot base j) ∧ (ft.entries idx).age now = oldestAge' ∧
        ∀ j < i + 1, (ft.entries (windowSlot base j)).Live now →
          (ft.entries (windowSlot base j)).age now ≤ oldestAge') :
    Scanned epoch datagramId now base (i + 1) ft emptyIdx oldestIdx' oldestAge' where
  slots j hj := by
    rcases Nat.lt_succ_iff_lt_or_eq.mp hj with hj | rfl
    · exact h.slots j hj
    · exact .inr ⟨hlive, hkey⟩
  empty idx hidx := by
    obtain ⟨j, hj, hrest⟩ := h.empty idx hidx
    exact ⟨j, by omega, hrest⟩
  full hnone j hj := by
    rcases Nat.lt_succ_iff_lt_or_eq.mp hj with hj | rfl
    · exact h.full hnone j hj
    · exact hlive
  oldest := holdest
  noneLive hnone := absurd hnone hsome

/-- A live slot of another key, older than those before it. -/
theorem Scanned.older (hlive : (ft.entries (windowSlot base i)).Live now)
    (hkey : ¬(ft.entries (windowSlot base i)).HasKey epoch datagramId)
    (hold : oldestIdx = none ∨ (ft.entries (windowSlot base i)).age now > oldestAge) :
    Scanned epoch datagramId now base (i + 1) ft emptyIdx (some (windowSlot base i))
      ((ft.entries (windowSlot base i)).age now) := by
  refine h.live hlive hkey (by simp) fun idx hidx => ?_
  obtain rfl := Option.some.inj hidx
  refine ⟨⟨i, by omega, rfl⟩, rfl, fun j hj hl => ?_⟩
  rcases Nat.lt_succ_iff_lt_or_eq.mp hj with hj | rfl
  · rcases hold with hnone | hgt
    · exact absurd hl (h.noneLive hnone j hj)
    · cases ho : oldestIdx with
      | none => exact absurd hl (h.noneLive ho j hj)
      | some o => exact UInt64.le_trans ((h.oldest o ho).2.2 j hj hl) (UInt64.le_of_lt hgt)
  · exact UInt64.le_refl _

/-- A live slot of another key, younger than the oldest before it. -/
theorem Scanned.younger (hlive : (ft.entries (windowSlot base i)).Live now)
    (hkey : ¬(ft.entries (windowSlot base i)).HasKey epoch datagramId)
    (hold : ¬(oldestIdx = none ∨ (ft.entries (windowSlot base i)).age now > oldestAge)) :
    Scanned epoch datagramId now base (i + 1) ft emptyIdx oldestIdx oldestAge := by
  refine h.live hlive hkey (fun hnone => hold (.inl hnone)) fun idx hidx => ?_
  obtain ⟨⟨j, hj, hjidx⟩, hage, hmax⟩ := h.oldest idx hidx
  refine ⟨⟨j, by omega, hjidx⟩, hage, fun j' hj' hl => ?_⟩
  rcases Nat.lt_succ_iff_lt_or_eq.mp hj' with hj' | rfl
  · exact hmax j' hj' hl
  · exact UInt64.not_lt.mp fun hlt => hold (.inr hlt)

/-- A free slot. -/
theorem Scanned.free (hfree : (ft.entries (windowSlot base i)).occupied = false) :
    Scanned epoch datagramId now base (i + 1) ft (emptyIdx <|> some (windowSlot base i)) oldestIdx
      oldestAge where
  slots j hj := by
    rcases Nat.lt_succ_iff_lt_or_eq.mp hj with hj | rfl
    · exact h.slots j hj
    · exact .inl hfree
  empty idx hidx := by
    cases he : emptyIdx with
    | none =>
        rw [he] at hidx
        obtain rfl := Option.some.inj hidx
        exact ⟨i, by omega, rfl, hfree⟩
    | some idx' =>
        rw [he] at hidx
        obtain rfl := Option.some.inj hidx
        obtain ⟨j, hj, hrest⟩ := h.empty idx' he
        exact ⟨j, by omega, hrest⟩
  full hnone := by
    cases he : emptyIdx with
    | none => rw [he] at hnone; cases hnone
    | some idx' => rw [he] at hnone; cases hnone
  oldest idx hidx := by
    obtain ⟨⟨j, hj, hjidx⟩, hage, hmax⟩ := h.oldest idx hidx
    refine ⟨⟨j, by omega, hjidx⟩, hage, fun j' hj' hl => ?_⟩
    rcases Nat.lt_succ_iff_lt_or_eq.mp hj' with hj' | rfl
    · exact hmax j' hj' hl
    · rw [OptEntry.Live, hfree] at hl
      exact absurd hl.1 (by simp)
  noneLive hnone j hj := by
    rcases Nat.lt_succ_iff_lt_or_eq.mp hj with hj | rfl
    · exact h.noneLive hnone j hj
    · rintro ⟨ho, -⟩
      rw [hfree] at ho
      cases ho

/-- Clearing the slot that comes next changes nothing about those before it. -/
theorem Scanned.clear_next (hi : i < 8) :
    Scanned epoch datagramId now base i
      (ft.set (windowSlot base i) (optClearEntry (ft.entries (windowSlot base i)))) emptyIdx
      oldestIdx oldestAge := by
  have hset : ∀ j < i, (ft.set (windowSlot base i)
      (optClearEntry (ft.entries (windowSlot base i)))).entries (windowSlot base j) =
        ft.entries (windowSlot base j) := fun j hj => set_windowSlot_of_lt _ hi hj
  refine ⟨fun j hj => ?_, fun idx hidx => ?_, fun hnone j hj => ?_, fun idx hidx => ?_,
    fun hnone j hj => ?_⟩
  · rw [hset j hj]; exact h.slots j hj
  · obtain ⟨j, hj, rfl, hfree⟩ := h.empty idx hidx
    exact ⟨j, hj, rfl, by rw [hset j hj]; exact hfree⟩
  · rw [hset j hj]; exact h.full hnone j hj
  · obtain ⟨⟨j, hj, rfl⟩, hage, hmax⟩ := h.oldest idx hidx
    refine ⟨⟨j, hj, rfl⟩, by rw [hset j hj]; exact hage, fun j' hj' hl => ?_⟩
    rw [hset j' hj'] at hl ⊢
    exact hmax j' hj' hl
  · rw [hset j hj]; exact h.noneLive hnone j hj

end Next

/-- The probe over the rest of the window. -/
theorem optProbe_spec (k : Nat) : ∀ {i : Nat} {ft : OptTable} {emptyIdx oldestIdx : Option Nat}
    {oldestAge : UInt64}, i + k = 8 →
    Scanned epoch datagramId now base i ft emptyIdx oldestIdx oldestAge →
    Swept now ft (optProbe epoch datagramId now base k i ft emptyIdx oldestIdx oldestAge).1 ∧
      SlotChoice epoch datagramId now base
        (optProbe epoch datagramId now base k i ft emptyIdx oldestIdx oldestAge).1
        (optProbe epoch datagramId now base k i ft emptyIdx oldestIdx oldestAge).2 := by
  induction k with
  | zero =>
      intro i ft emptyIdx oldestIdx oldestAge hi h
      obtain rfl : i = 8 := by omega
      have hc := h.choice
      cases emptyIdx with
      | none => exact ⟨Swept.refl now ft, hc⟩
      | some idx => exact ⟨Swept.refl now ft, hc⟩
  | succ k ih =>
      intro i ft emptyIdx oldestIdx oldestAge hi h
      rw [optProbe, show (base + i) % l2FragTableSize = windowSlot base i from rfl]
      dsimp only
      by_cases hlive : (ft.entries (windowSlot base i)).occupied = true ∧
          (ft.entries (windowSlot base i)).expired now = false
      · rw [if_pos hlive]
        split
        · rename_i hkey
          exact ⟨Swept.refl now ft, .hit (by omega) hlive hkey⟩
        · rename_i hkey
          split
          · rename_i hold
            exact ih (by omega) (h.older hlive hkey hold)
          · rename_i hold
            exact ih (by omega) (h.younger hlive hkey hold)
      · rw [if_neg hlive]
        by_cases hocc : (ft.entries (windowSlot base i)).occupied = true
        · rw [if_pos hocc]
          have hclear := (h.clear_next (by omega)).free (by rw [OptTable.set_entries_self]; rfl)
          obtain ⟨hswept, hchoice⟩ := ih (by omega) hclear
          exact ⟨(swept_set_clear hlive).trans hswept, hchoice⟩
        · rw [if_neg hocc]
          exact ih (by omega) (h.free (by simpa using hocc))

theorem optPickSlot_spec (ft : OptTable) (epoch datagramId : UInt32) (now : UInt64) :
    Swept now ft (optPickSlot ft epoch datagramId now).1 ∧
      SlotChoice epoch datagramId now (optBase epoch datagramId)
        (optPickSlot ft epoch datagramId now).1 (optPickSlot ft epoch datagramId now).2 :=
  optProbe_spec 8 rfl (scanned_zero ft)

end Probe

/-! ## where entries are -/

/-- Every entry lies in the window of its key, and no key has two. -/
structure Placed (ft : OptTable) : Prop where
  window : ∀ j, (ft.entries j).occupied = true →
    ∃ i < 8, j = windowSlot (optBase (ft.entries j).epoch (ft.entries j).datagramId) i
  unique : ∀ j j', (ft.entries j).occupied = true → (ft.entries j').occupied = true →
    (ft.entries j').HasKey (ft.entries j).epoch (ft.entries j).datagramId → j = j'

theorem placed_empty : Placed OptTable.empty :=
  ⟨fun _ h => (Bool.false_ne_true h).elim, fun _ _ h _ _ => (Bool.false_ne_true h).elim⟩

section Placed

variable {ft ft' : OptTable} {epoch datagramId : UInt32} {now : UInt64} {idx : Nat}

/-- What is occupied after a sweep was there before. -/
theorem Swept.occupied (h : Swept now ft ft') {j : Nat} (ho : (ft'.entries j).occupied = true) :
    ft'.entries j = ft.entries j := by
  rcases h j with heq | ⟨-, heq⟩
  · exact heq
  · rw [heq] at ho
    cases ho

theorem Placed.swept (h : Placed ft) (hs : Swept now ft ft') : Placed ft' := by
  refine ⟨fun j ho => ?_, fun j j' ho ho' hk => ?_⟩
  · have heq := hs.occupied ho
    rw [heq] at ho ⊢
    exact h.window j ho
  · have heq := hs.occupied ho
    have heq' := hs.occupied ho'
    rw [heq] at ho hk
    rw [heq'] at ho' hk
    exact h.unique j j' ho ho' hk

theorem SlotChoice.mem {base : Nat} (h : SlotChoice epoch datagramId now base ft idx) :
    ∃ i < 8, idx = windowSlot base i := by
  cases h with
  | hit hj => exact ⟨_, hj, rfl⟩
  | free hj => exact ⟨_, hj, rfl⟩
  | full hj => exact ⟨_, hj, rfl⟩

/-- No entry but the chosen one belongs to the key. -/
theorem SlotChoice.sole (hp : Placed ft)
    (h : SlotChoice epoch datagramId now (optBase epoch datagramId) ft idx) {j : Nat}
    (ho : (ft.entries j).occupied = true) (hk : (ft.entries j).HasKey epoch datagramId) :
    j = idx := by
  obtain ⟨i, hi, hji⟩ := hp.window j ho
  rw [hk.1, hk.2] at hji
  cases h with
  | hit hj hlive hkey =>
      refine hp.unique j _ ho hlive.1 ?_
      rw [hk.1, hk.2]
      exact hkey
  | free hj hfree hslots =>
      rw [hji] at ho hk
      rcases hslots i hi with hno | hno
      · rw [hno] at ho; cases ho
      · exact absurd hk hno
  | full hj hslots hage =>
      rw [hji] at hk
      exact absurd hk (hslots i hi).2

theorem Placed.set (hp : Placed ft)
    (h : SlotChoice epoch datagramId now (optBase epoch datagramId) ft idx) {e : OptEntry}
    (he : e.occupied = true → e.HasKey epoch datagramId) : Placed (ft.set idx e) := by
  refine ⟨fun j ho => ?_, fun j j' ho ho' hk => ?_⟩
  · by_cases hj : j = idx
    · subst hj
      rw [ft.set_entries_self] at ho ⊢
      rw [(he ho).1, (he ho).2]
      exact h.mem
    · rw [ft.set_entries_of_ne e hj] at ho ⊢
      exact hp.window j ho
  · by_cases hj : j = idx
    · subst hj
      by_cases hj' : j' = j
      · exact hj'.symm
      · rw [ft.set_entries_self] at ho hk
        rw [ft.set_entries_of_ne e hj'] at ho' hk
        rw [(he ho).1, (he ho).2] at hk
        exact (h.sole hp ho' hk).symm
    · rw [ft.set_entries_of_ne e hj] at ho hk
      by_cases hj' : j' = idx
      · subst hj'
        rw [ft.set_entries_self] at ho' hk
        refine h.sole hp ho ?_
        exact ⟨hk.1.symm.trans (he ho').1, hk.2.symm.trans (he ho').2⟩
      · rw [ft.set_entries_of_ne e hj'] at ho' hk
        exact hp.unique j j' ho ho' hk

end Placed

/-! ## calls -/

/-- One `l2_reassemble` call. -/
structure ReasmCall where
  data : Mem
  len : Nat
  dg : UdpMeta
  kind : L2UdpKind
  now : UInt64
  outBuf : Mem

def ReasmCall.apply (c : ReasmCall) (ft : OptTable) : OptTable × ReasmResult :=
  l2Reassemble ft c.data c.len c.dg c.kind c.now c.outBuf

/-- An entry prepared for a datagram belongs to it, and keeps it when joined. -/
theorem optEmitJoin_hasKey {e : OptEntry} {dg : UdpMeta} (h : e.dg = dg) (out : Mem) :
    (optEmitJoin e out).1.occupied = true →
      (optEmitJoin e out).1.HasKey dg.epoch dg.datagramId := by
  have hkey : e.HasKey dg.epoch dg.datagramId :=
    ⟨congrArg UdpMeta.epoch h, congrArg UdpMeta.datagramId h⟩
  intro ho
  unfold optEmitJoin at ho ⊢
  split
  · exact hkey
  · rename_i hflags
    rw [if_neg hflags] at ho
    dsimp only at ho
    rw [apply_ite Prod.fst, ite_self] at ho
    cases ho

/-- What a call does to the table: it sweeps dead entries away, and writes at most
the slot chosen for its key. -/
theorem ReasmCall.outcome (c : ReasmCall) (ft : OptTable) :
    ∃ ft', Swept c.now ft ft' ∧ ((c.apply ft).1 = ft' ∨
      ∃ idx e, SlotChoice c.dg.epoch c.dg.datagramId c.now (optBase c.dg.epoch c.dg.datagramId) ft' idx ∧
        (c.apply ft).1 = ft'.set idx e ∧
        (e.occupied = true → e.HasKey c.dg.epoch c.dg.datagramId)) := by
  unfold ReasmCall.apply l2Reassemble
  cases l2WirePrefixLen c.data c.len with
  | none => exact ⟨ft, Swept.refl _ _, .inl rfl⟩
  | some wireEth =>
      dsimp only
      split
      · exact ⟨ft, Swept.refl _ _, .inl rfl⟩
      · obtain ⟨hswept, hchoice⟩ := optPickSlot_spec ft c.dg.epoch c.dg.datagramId c.now
        refine ⟨_, hswept, ?_⟩
        generalize optPickSlot ft c.dg.epoch c.dg.datagramId c.now = r at hchoice
        cases c.kind with
        | full => exact .inl rfl
        | frag0 =>
            simp only [l2ReassembleFirst]
            split
            · exact .inl rfl
            · split
              · exact .inl rfl
              · cases hst : optStoreFirst (r.1.entries r.2) c.dg c.data wireEth c.data wireEth
                  (c.len - wireEth) c.now with
                | none => exact .inl rfl
                | some e =>
                    refine .inr ⟨r.2, _, hchoice, rfl, optEmitJoin_hasKey ?_ c.outBuf⟩
                    unfold optStoreFirst at hst
                    split at hst
                    · cases hst
                    · split at hst
                      · cases hst
                      · rw [← Option.some.inj hst]
                        rfl
        | frag1 =>
            simp only [l2ReassembleSecond]
            generalize he : (if (r.1.entries r.2).occupied = true ∧
              (r.1.entries r.2).epoch = c.dg.epoch ∧ (r.1.entries r.2).datagramId = c.dg.datagramId ∧
              (r.1.entries r.2).expired c.now = true then optClearEntry (r.1.entries r.2)
              else r.1.entries r.2) = e
            cases hst : optStoreSecond e c.dg c.data wireEth (c.len - wireEth) c.now with
            | none =>
                split at he
                · exact .inr ⟨r.2, e, hchoice, rfl, fun ho => by rw [← he] at ho; cases ho⟩
                · refine .inl ?_
                  rw [← he]
                  exact congrArg (OptTable.mk _) (Function.update_eq_self _ _)
            | some e' =>
                refine .inr ⟨r.2, _, hchoice, rfl, optEmitJoin_hasKey ?_ c.outBuf⟩
                unfold optStoreSecond at hst
                split at hst
                · cases hst
                · rw [← Option.some.inj hst]
                  rfl

/-! ## eviction -/

/-- A window has room for a call: its own key, a free slot or an expired one. -/
def ReasmCall.HasRoom (c : ReasmCall) (ft : OptTable) : Prop :=
  ∃ i < 8, ¬(ft.entries (windowSlot (optBase c.dg.epoch c.dg.datagramId) i)).Live c.now ∨
    (ft.entries (windowSlot (optBase c.dg.epoch c.dg.datagramId) i)).HasKey c.dg.epoch
      c.dg.datagramId

instance (c : ReasmCall) (ft : OptTable) : Decidable (c.HasRoom ft) :=
  inferInstanceAs (Decidable (∃ i < 8, _))

/-- The call makes the live entry of another key in slot `j` give way. -/
def ReasmCall.Evicts (c : ReasmCall) (ft : OptTable) (j : Nat) : Prop :=
  (ft.entries j).Live c.now ∧ ¬(ft.entries j).HasKey c.dg.epoch c.dg.datagramId ∧
    (c.apply ft).1.entries j ≠ ft.entries j

/-- Only a full window evicts, and then its oldest entry. -/
theorem ReasmCall.Evicts.oldest {c : ReasmCall} {ft : OptTable} {j : Nat} (h : c.Evicts ft j) :
    ¬c.HasRoom ft ∧ ∃ i < 8, j = windowSlot (optBase c.dg.epoch c.dg.datagramId) i ∧
      ∀ i < 8, (ft.entries (windowSlot (optBase c.dg.epoch c.dg.datagramId) i)).age c.now ≤
        (ft.entries j).age c.now := by
  obtain ⟨hlive, hkey, hne⟩ := h
  obtain ⟨ft', hswept, heq | ⟨idx, e, hchoice, heq, -⟩⟩ := c.outcome ft
  · rw [heq] at hne
    exact absurd (hswept.live hlive) hne
  · have hj : j = idx := by
      by_contra hj
      rw [heq, ft'.set_entries_of_ne e hj] at hne
      exact hne (hswept.live hlive)
    subst hj
    have hsame := hswept.live hlive
    cases hchoice with
    | hit hi _ hk =>
        rw [hsame] at hk
        exact absurd hk hkey
    | free hi hfree _ =>
        rw [hsame, hlive.1] at hfree
        cases hfree
    | full hi hslots hage =>
        -- a slot that is live after the sweep is as it was before
        have hback : ∀ i < 8, ft'.entries (windowSlot (optBase c.dg.epoch c.dg.datagramId) i) =
            ft.entries (windowSlot (optBase c.dg.epoch c.dg.datagramId) i) :=
          fun i hi => hswept.occupied (hslots i hi).1.1
        refine ⟨?_, _, hi, rfl, fun i hi' => ?_⟩
        · rintro ⟨i, hi', hor⟩
          have hs := hslots i hi'
          rw [hback i hi'] at hs
          rcases hor with hnl | hk
          · exact hnl hs.1
          · exact hs.2 hk
        · have ha := hage i hi'
          rw [hback i hi', hsame] at ha
          exact ha

/-- A call for another key that finds room leaves a live entry alone. -/
theorem ReasmCall.keeps {c : ReasmCall} {ft : OptTable} {j : Nat}
    (hlive : (ft.entries j).Live c.now)
    (hkey : ¬(ft.entries j).HasKey c.dg.epoch c.dg.datagramId) (hroom : c.HasRoom ft) :
    (c.apply ft).1.entries j = ft.entries j := by
  by_contra hne
  exact (ReasmCall.Evicts.oldest ⟨hlive, hkey, hne⟩).1 hroom

theorem ReasmCall.placed (c : ReasmCall) {ft : OptTable} (h : Placed ft) : Placed (c.apply ft).1 := by
  obtain ⟨ft', hswept, heq | ⟨idx, e, hchoice, heq, hkey⟩⟩ := c.outcome ft
  · rw [heq]; exact h.swept hswept
  · rw [heq]; exact (h.swept hswept).set hchoice hkey

theorem swept_optFragGcTable (ft : OptTable) (now : UInt64) : Swept now ft (optFragGcTable ft now) := by
  have hsweep : ∀ n, Swept now ft (optGcSweep now ft.gcCursor n ft) := by
    intro n
    induction n with
    | zero => exact Swept.refl now ft
    | succ n ih =>
        rw [optGcSweep]
        split
        · rename_i hexp
          refine ih.trans (swept_set_clear ?_)
          rintro ⟨-, hl⟩
          rw [hexp.2] at hl
          cases hl
        · exact ih
  unfold optFragGcTable
  generalize 256 = n
  exact hsweep n

/-! ## runs -/

inductive TableEvent where
  | reassemble (c : ReasmCall)
  | gc (now : UInt64)

def tableStep (ft : OptTable) : TableEvent → OptTable
  | .reassemble c => (c.apply ft).1
  | .gc now => optFragGcTable ft now

theorem placed_step {ft : OptTable} (h : Placed ft) (e : TableEvent) : Placed (tableStep ft e) := by
  cases e with
  | reassemble c => exact c.placed h
  | gc now => exact h.swept (swept_optFragGcTable ft now)

theorem placed_run (es : List TableEvent) {ft : OptTable} (h : Placed ft) :
    Placed (run tableStep ft es) := by
  induction es generalizing ft with
  | nil => exact h
  | cons e es ih => exact ih (placed_step h e)

/-- A clock value in `[t, t + L2_FRAG_TIMEOUT_NS]`. -/
def Within (t now : UInt64) : Prop := t ≤ now ∧ now.toNat ≤ t.toNat + l2FragTimeoutNs.toNat

instance (t now : UInt64) : Decidable (Within t now) := inferInstanceAs (Decidable (_ ∧ _))

theorem Within.sub_le {t now : UInt64} (h : Within t now) : now - t ≤ l2FragTimeoutNs := by
  rw [UInt64.le_iff_toNat_le, UInt64.toNat_sub_of_le _ _ h.1]
  have := h.2
  omega

/-- An entry stamped `t` lives as long as the clock stays within the timeout. -/
theorem Within.not_expired {t now : UInt64} (h : Within t now) {e : OptEntry}
    (ht : e.timestampNs = t) : e.expired now = false := by
  rw [OptEntry.expired_eq ht, decide_eq_false_iff_not, gt_iff_lt, UInt64.not_lt]
  exact h.sub_le

/-- What may happen between the two halves of `dg`, the first taken at `t`: calls
for other keys that find room, and sweeps, all within the timeout. -/
def Passes (dg : UdpMeta) (t : UInt64) (ft : OptTable) : TableEvent → Prop
  | .reassemble c => ¬(c.dg.epoch = dg.epoch ∧ c.dg.datagramId = dg.datagramId) ∧
      Within t c.now ∧ c.HasRoom ft
  | .gc now => Within t now

instance (dg : UdpMeta) (t : UInt64) (ft : OptTable) : ∀ e, Decidable (Passes dg t ft e)
  | .reassemble _ => inferInstanceAs (Decidable (_ ∧ _))
  | .gc _ => inferInstanceAs (Decidable (_ ∧ _))

section Wait

variable {dg : UdpMeta} {t : UInt64} {ft : OptTable} {j : Nat}

/-- The entry waits in its slot while others pass. -/
theorem entry_waits (ho : (ft.entries j).occupied = true)
    (hkey : (ft.entries j).HasKey dg.epoch dg.datagramId) (ht : (ft.entries j).timestampNs = t)
    {es : List TableEvent} (hes : Along tableStep (Passes dg t) ft es) :
    (run tableStep ft es).entries j = ft.entries j := by
  induction es generalizing ft with
  | nil => rfl
  | cons e es ih =>
      have hstep : (tableStep ft e).entries j = ft.entries j := by
        cases e with
        | reassemble c =>
            obtain ⟨hother, hwithin, hroom⟩ := hes.1
            refine c.keeps ⟨ho, hwithin.not_expired ht⟩ ?_ hroom
            rintro ⟨h1, h2⟩
            exact hother ⟨h1.symm.trans hkey.1, h2.symm.trans hkey.2⟩
        | gc now =>
            exact (swept_optFragGcTable ft now).live ⟨ho, Within.not_expired hes.1 ht⟩
      rw [run_cons, ← hstep]
      exact ih (by rw [hstep]; exact ho) (by rw [hstep]; exact hkey) (by rw [hstep]; exact ht) hes.2

/-- The other half finds the slot again. -/
theorem optPickSlot_found (hp : Placed ft) {now : UInt64} (hlive : (ft.entries j).Live now)
    (hkey : (ft.entries j).HasKey dg.epoch dg.datagramId) :
    ∃ ft', optPickSlot ft dg.epoch dg.datagramId now = (ft', j) ∧ Swept now ft ft' := by
  obtain ⟨hswept, hchoice⟩ := optPickSlot_spec ft dg.epoch dg.datagramId now
  have hsame := hswept.live hlive
  refine ⟨_, Prod.ext rfl ?_, hswept⟩
  refine (hchoice.sole (hp.swept hswept) ?_ ?_).symm
  · rw [hsame]; exact hlive.1
  · rw [hsame]; exact hkey

/-- A key without an entry gets a slot that holds no half of it. -/
theorem optPickSlot_fresh (hno : ∀ i, (ft.entries i).occupied = true →
      ¬(ft.entries i).HasKey dg.epoch dg.datagramId) (now : UInt64) :
    ∃ ft' idx, optPickSlot ft dg.epoch dg.datagramId now = (ft', idx) ∧
      ((ft'.entries idx).occupied = true → (ft'.entries idx).expired now = false) ∧
      (optPrepareEntry (ft'.entries idx) dg now).gotFirst = false ∧
      (optPrepareEntry (ft'.entries idx) dg now).gotSecond = false := by
  obtain ⟨hswept, hchoice⟩ := optPickSlot_spec ft dg.epoch dg.datagramId now
  generalize hr : optPickSlot ft dg.epoch dg.datagramId now = r at hswept hchoice
  obtain ⟨ft', idx⟩ := r
  refine ⟨ft', idx, rfl, ?_⟩
  dsimp only at hswept hchoice
  cases hchoice with
  | hit _ hlive hkey =>
      have hsame := hswept.occupied hlive.1
      rw [hsame] at hlive hkey
      exact absurd hkey (hno _ hlive.1)
  | free _ hfree _ =>
      refine ⟨fun ho => ?_, optPrepareEntry_vacant hfree⟩
      rw [hfree] at ho
      cases ho
  | full hj hslots _ =>
      have hs := hslots _ hj
      refine ⟨fun _ => hs.1.2, ?_⟩
      have hclear : ∀ e : OptEntry, ¬e.HasKey dg.epoch dg.datagramId →
          (optPrepareEntry e dg now).gotFirst = false ∧
            (optPrepareEntry e dg now).gotSecond = false := by
        intro e he
        have hcond : e.epoch ≠ dg.epoch ∨ e.datagramId ≠ dg.datagramId ∨ e.udpSeq ≠ dg.seq ∨
            (e.occupied = true ∧ e.expired now = true) := by
          by_contra hc
          simp only [not_or, not_not] at hc
          exact he ⟨hc.1, hc.2.1⟩
        rw [optPrepareEntry, if_pos hcond]
        exact ⟨rfl, rfl⟩
      exact hclear _ hs.2

/-- Once its entry is cleared, a key has none. -/
theorem gone_of_clear {ft' : OptTable} (hp : Placed ft') (ho : (ft'.entries j).occupied = true)
    (hkey : (ft'.entries j).HasKey dg.epoch dg.datagramId) (e : OptEntry) :
    ∀ i, ((ft'.set j (optClearEntry e)).entries i).occupied = true →
      ¬((ft'.set j (optClearEntry e)).entries i).HasKey dg.epoch dg.datagramId := by
  intro i hoi hki
  by_cases hi : i = j
  · subst hi
    rw [ft'.set_entries_self] at hoi
    cases hoi
  · rw [ft'.set_entries_of_ne _ hi] at hoi hki
    refine hi (hp.unique j i ho hoi ?_).symm
    rw [hkey.1, hkey.2]
    exact hki

end Wait

/-! ## a pair -/

/-- The call brings the first half `p` of the frame `macs | 0800 | p q`. -/
structure BringsFirst (c : ReasmCall) (dg : UdpMeta) (macs p : List UInt8) : Prop where
  dg : c.dg = dg
  kind : c.kind = .frag0
  ok : Frag0Ok c.data c.len
  macs : c.data.read 0 12 = macs
  half : c.data.read 14 (c.len - 14) = p

/-- The call brings the second half `q`. -/
structure BringsSecond (c : ReasmCall) (dg : UdpMeta) (q : List UInt8) : Prop where
  dg : c.dg = dg
  kind : c.kind = .frag1
  ok : FragOk c.data c.len
  half : c.data.read 14 (c.len - 14) = q

/-- The two calls bring the halves of one frame, in either order. -/
def BringHalves (c c' : ReasmCall) (dg : UdpMeta) (macs p q : List UInt8) : Prop :=
  (BringsFirst c dg macs p ∧ BringsSecond c' dg q) ∨
    (BringsSecond c dg q ∧ BringsFirst c' dg macs p)

/-- The call completes the frame, and the slot its key had is free. -/
structure CompletesFrame (c : ReasmCall) (ft : OptTable) (dg : UdpMeta) (macs p q : List UInt8) : Prop where
  emits : ∃ out, (c.apply ft).2 = .done out (14 + p.length + q.length) ∧
    out.read 0 (14 + p.length + q.length) = joined macs p q
  slot : ∃ j, (ft.entries j).occupied = true ∧ (ft.entries j).HasKey dg.epoch dg.datagramId ∧
    ((c.apply ft).1.entries j).occupied = false
  gone : ∀ i, ((c.apply ft).1.entries i).occupied = true →
    ¬((c.apply ft).1.entries i).HasKey dg.epoch dg.datagramId

section Pair

variable {ft : OptTable} {dg : UdpMeta} {macs p q : List UInt8} {c c' : ReasmCall}
  {es : List TableEvent}

theorem BringsFirst.length (h : BringsFirst c dg macs p) : c.len = 14 + p.length := by
  have := h.ok.len.1
  rw [← h.half, Mem.length_read]
  omega

theorem BringsSecond.length (h : BringsSecond c dg q) : c.len = 14 + q.length := by
  have := h.ok.len.1
  rw [← h.half, Mem.length_read]
  omega

/-- The entry a half was put into is where the other half looks, after whatever
passed in between. -/
theorem found_again {ft' : OptTable} {idx : Nat} {e : OptEntry} (hp : Placed (ft'.set idx e))
    (ho : e.occupied = true) (hdg : e.dg = dg) (ht : e.timestampNs = c.now)
    (hwithin : Within c.now c'.now)
    (hes : Along tableStep (Passes dg c.now) (ft'.set idx e) es) :
    (run tableStep (ft'.set idx e) es).entries idx = e ∧
      ∃ ft3, optPickSlot (run tableStep (ft'.set idx e) es) dg.epoch dg.datagramId c'.now =
        (ft3, idx) ∧ ft3.entries idx = e ∧ Placed ft3 := by
  have hkey : e.HasKey dg.epoch dg.datagramId :=
    ⟨congrArg UdpMeta.epoch hdg, congrArg UdpMeta.datagramId hdg⟩
  have hat : (ft'.set idx e).entries idx = e := ft'.set_entries_self idx e
  have hwait := @entry_waits dg c.now (ft'.set idx e) idx (by rw [hat]; exact ho)
    (by rw [hat]; exact hkey) (by rw [hat]; exact ht) es hes
  rw [hat] at hwait
  have hplaced := placed_run es hp
  have hlive : ((run tableStep (ft'.set idx e) es).entries idx).Live c'.now := by
    rw [hwait]
    exact ⟨ho, hwithin.not_expired ht⟩
  obtain ⟨ft3, hpick, hswept⟩ := @optPickSlot_found dg _ idx hplaced c'.now hlive
    (by rw [hwait]; exact hkey)
  exact ⟨hwait, ft3, hpick, (hswept.live hlive).trans hwait, hplaced.swept hswept⟩

/-- Joining clears the slot of the pair. -/
theorem completesFrame_of_done {ft2 ft3 : OptTable} {idx : Nat} {e e' : OptEntry} {out : Mem}
    (ho : e.occupied = true) (hdg : e.dg = dg) (hbefore : ft2.entries idx = e)
    (hp : Placed ft3) (hat : ft3.entries idx = e)
    (happly : c'.apply ft2 =
      (ft3.set idx (optClearEntry e'), .done out (14 + p.length + q.length)))
    (hread : out.read 0 (14 + p.length + q.length) = joined macs p q) :
    CompletesFrame c' ft2 dg macs p q := by
  have hkey : e.HasKey dg.epoch dg.datagramId :=
    ⟨congrArg UdpMeta.epoch hdg, congrArg UdpMeta.datagramId hdg⟩
  refine ⟨⟨out, by rw [happly], hread⟩,
    ⟨idx, by rw [hbefore]; exact ho, by rw [hbefore]; exact hkey, ?_⟩, ?_⟩
  · rw [happly, ft3.set_entries_self]
    rfl
  · rw [happly]
    exact gone_of_clear hp (by rw [hat]; exact ho) (by rw [hat]; exact hkey) e'

/-- First half, then second half. -/
theorem first_then_second (hp : Placed ft)
    (hno : ∀ i, (ft.entries i).occupied = true → ¬(ft.entries i).HasKey dg.epoch dg.datagramId)
    (hc : BringsFirst c dg macs p) (hc' : BringsSecond c' dg q)
    (hlen : 14 + p.length + q.length ≤ neJumboFrameMax) (hwithin : Within c.now c'.now)
    (hes : Along tableStep (Passes dg c.now) (c.apply ft).1 es) :
    (c.apply ft).2 = .wait ∧ CompletesFrame c' (run tableStep (c.apply ft).1 es) dg macs p q := by
  have hplaced := c.placed hp
  have hl' := hc'.length
  obtain ⟨ft', idx, hpick, -, -, hfresh⟩ := optPickSlot_fresh hno c.now
  obtain ⟨e, hrun, hkeeps⟩ :=
    @frag0_kept_of_fresh ft dg c.now c.data c.outBuf c.len ft' idx hc.ok hpick hfresh
  rw [hc.macs, hc.half] at hkeeps
  have happly : c.apply ft = (ft'.set idx e, .wait) := by
    rw [ReasmCall.apply, hc.dg, hc.kind]
    exact hrun
  rw [happly] at hes hplaced ⊢
  obtain ⟨hbefore, ft3, hpick', hat, hp3⟩ :=
    found_again hplaced hkeeps.occupied hkeeps.dg hkeeps.time hwithin hes
  obtain ⟨out, e', hdone, hread⟩ := @frag1_done _ dg c'.now c.now c'.data c'.outBuf c'.len macs p
    ft3 idx hpick' (by rw [hat]; exact hkeeps) hwithin.sub_le hc'.ok (by omega)
  have hn : p.length + c'.len = 14 + p.length + q.length := by omega
  rw [hn, hc'.half] at hread
  have happly' : c'.apply (run tableStep (ft'.set idx e) es) =
      (ft3.set idx (optClearEntry e'), .done out (14 + p.length + q.length)) := by
    rw [ReasmCall.apply, hc'.dg, hc'.kind, ← hn]
    exact hdone
  exact ⟨rfl, completesFrame_of_done hkeeps.occupied hkeeps.dg hbefore hp3 hat happly' hread⟩

/-- Second half, then first half. -/
theorem second_then_first (hp : Placed ft)
    (hno : ∀ i, (ft.entries i).occupied = true → ¬(ft.entries i).HasKey dg.epoch dg.datagramId)
    (hc : BringsSecond c dg q) (hc' : BringsFirst c' dg macs p)
    (hlen : 14 + p.length + q.length ≤ neJumboFrameMax) (hwithin : Within c.now c'.now)
    (hes : Along tableStep (Passes dg c.now) (c.apply ft).1 es) :
    (c.apply ft).2 = .wait ∧ CompletesFrame c' (run tableStep (c.apply ft).1 es) dg macs p q := by
  have hplaced := c.placed hp
  have hl' := hc'.length
  obtain ⟨ft', idx, hpick, hdead, hfresh, -⟩ := optPickSlot_fresh hno c.now
  obtain ⟨e, hrun, hkeeps⟩ :=
    @frag1_kept_of_fresh ft dg c.now c.data c.outBuf c.len ft' idx hc.ok hpick hdead hfresh
  rw [hc.half] at hkeeps
  have happly : c.apply ft = (ft'.set idx e, .wait) := by
    rw [ReasmCall.apply, hc.dg, hc.kind]
    exact hrun
  rw [happly] at hes hplaced ⊢
  obtain ⟨hbefore, ft3, hpick', hat, hp3⟩ :=
    found_again hplaced hkeeps.occupied hkeeps.dg hkeeps.time hwithin hes
  obtain ⟨out, e', hdone, hread⟩ := @frag0_done _ dg c'.now c.now c'.data c'.outBuf c'.len q
    ft3 idx hpick' (by rw [hat]; exact hkeeps) hwithin.sub_le hc'.ok (by omega)
  have hn : c'.len + q.length = 14 + p.length + q.length := by omega
  rw [hn, hc'.half, hc'.macs] at hread
  have happly' : c'.apply (run tableStep (ft'.set idx e) es) =
      (ft3.set idx (optClearEntry e'), .done out (14 + p.length + q.length)) := by
    rw [ReasmCall.apply, hc'.dg, hc'.kind, ← hn]
    exact hdone
  exact ⟨rfl, completesFrame_of_done hkeeps.occupied hkeeps.dg hbefore hp3 hat happly' hread⟩

end Pair

/-- In every table that reassembly and garbage collection can reach: no key has
two entries; a live entry of another key gives way only when the whole window is
live, and then the oldest; and two halves of a frame of at most 9014 bytes are
joined whatever passes in between, as long as it finds room and the timeout has
not passed. -/
theorem pair_joined (history : List TableEvent) :
    let ft := run tableStep OptTable.empty history
    (∀ j j', (ft.entries j).occupied = true → (ft.entries j').occupied = true →
      (ft.entries j').HasKey (ft.entries j).epoch (ft.entries j).datagramId → j = j') ∧
    (∀ c : ReasmCall, ∀ j, c.Evicts ft j →
      (∀ i < 8, (ft.entries (windowSlot (optBase c.dg.epoch c.dg.datagramId) i)).Live c.now) ∧
        ∃ i < 8, j = windowSlot (optBase c.dg.epoch c.dg.datagramId) i ∧
          ∀ i < 8, (ft.entries (windowSlot (optBase c.dg.epoch c.dg.datagramId) i)).age c.now ≤
            (ft.entries j).age c.now) ∧
    (∀ dg macs p q c c' es,
      (∀ i, (ft.entries i).occupied = true → ¬(ft.entries i).HasKey dg.epoch dg.datagramId) →
      BringHalves c c' dg macs p q → 14 + p.length + q.length ≤ 9014 → Within c.now c'.now →
      Along tableStep (Passes dg c.now) (c.apply ft).1 es →
      (c.apply ft).2 = .wait ∧ CompletesFrame c' (run tableStep (c.apply ft).1 es) dg macs p q) := by
  intro ft
  have hp : Placed ft := placed_run history placed_empty
  refine ⟨hp.unique, fun c j hev => ?_, fun dg macs p q c c' es hno hhalves hlen hwithin hes => ?_⟩
  · obtain ⟨hfull, hold⟩ := hev.oldest
    refine ⟨fun i hi => ?_, hold⟩
    by_contra hdead
    exact hfull ⟨i, hi, .inl hdead⟩
  · have hlen' : 14 + p.length + q.length ≤ neJumboFrameMax := Nat.le_trans hlen (by decide)
    rcases hhalves with ⟨hc, hc'⟩ | ⟨hc, hc'⟩
    · exact first_then_second hp hno hc hc' hlen' hwithin hes
    · exact second_then_first hp hno hc hc' hlen' hwithin hes

/-- A decoded fragment with the payload `part`. -/
def sampleFragment (part : List UInt8) : Mem :=
  Mem.ofList (List.replicate 12 0x02 ++ [0x08, 0x00] ++ part)

/-- The first 24 bytes of an IPv4 datagram of 32 bytes. -/
def sampleFirst : List UInt8 := [0x45, 0x00, 0x00, 0x20] ++ List.replicate 20 0x11

def sampleSecond : List UInt8 := List.replicate 8 0x22

/-- A first half, a sweep and a fragment of another datagram, and the second half. -/
theorem pair_joined_sample :
    let first : ReasmCall := ⟨sampleFragment sampleFirst, 38, ⟨1, 7, 3⟩, .frag0, 1000, fun _ => 0⟩
    let second : ReasmCall := ⟨sampleFragment sampleSecond, 22, ⟨1, 7, 3⟩, .frag1, 3000, fun _ => 0⟩
    let other : ReasmCall := ⟨sampleFragment sampleSecond, 22, ⟨1, 8, 4⟩, .frag1, 2000, fun _ => 0⟩
    (first.apply OptTable.empty).2 = .wait ∧
      CompletesFrame second
        (run tableStep (first.apply OptTable.empty).1 [.gc 1500, .reassemble other]) ⟨1, 7, 3⟩
        (List.replicate 12 0x02) sampleFirst sampleSecond := by
  intro first second other
  have hfirst : BringsFirst first ⟨1, 7, 3⟩ (List.replicate 12 0x02) sampleFirst :=
    ⟨rfl, rfl, ⟨⟨.inl (by decide), by decide⟩, by decide, by decide⟩, by decide, by decide⟩
  have hsecond : BringsSecond second ⟨1, 7, 3⟩ sampleSecond :=
    ⟨rfl, rfl, ⟨.inl (by decide), by decide⟩, by decide⟩
  refine (pair_joined []).2.2 ⟨1, 7, 3⟩ _ _ _ first second _ (fun _ h => ?_) (.inl ⟨hfirst, hsecond⟩)
    (by decide) (by decide) ⟨by decide, ?_, trivial⟩
  · cases h
  · exact ⟨by decide, by decide, by decide +kernel⟩

end NetworkEncryptor
