import NetworkEncryptor.Opening

/-!
# NetworkEncryptor.PairOpen

`ne_pair_open` and `ne_pair_close`, whatever the operating system answers.

`Tidy` is the invariant of everything between the two: the ledger is balanced and
every handle of the pair is where the close looks for it.  `Stage` adds how far the
opening got, and says exactly what is held there; each part of `ne_pair_open` takes
one stage to the next, or fails and leaves the pair tidy.  From `Tidy` a close
releases everything (`nePairClose_spec`), so that opening is all or nothing
(`nePairOpen_spec`).
-/

namespace NetworkEncryptor

/-! ## single steps -/

section setAt

variable {α : Type} (f : NePacketDir → Nat → α) {dir d : NePacketDir} {i j : Nat} (v : α)

theorem setAt_self : setAt f dir i v dir i = v := by simp [setAt]

/-- Other interfaces keep their field. -/
theorem setAt_of_ne (h : ¬(d = dir ∧ j = i)) : setAt f dir i v d j = f d j := by
  by_cases hd : d = dir
  · subst hd
    simp only [setAt, Function.update_self]
    exact Function.update_of_ne (fun hj => h ⟨rfl, hj⟩) _ _
  · simp only [setAt, Function.update_of_ne hd]

end setAt

namespace Host

variable (h : Host) (p : Holder) (ps : List Holder)

@[simp] theorem acquire_slot : (h.acquire p).slot = Function.update h.slot p (some h.ledger.next) := rfl

@[simp] theorem release_slot : (h.release p).slot = Function.update h.slot p none :=
  h.ledger.release_slot p

@[simp] theorem releaseAll_slot : (h.releaseAll ps).slot = fun p => if p ∈ ps then none else h.slot p :=
  Ledger.releaseAll_slot ps h.ledger

/-- Releasing what is not held does nothing. -/
theorem release_of_none {h : Host} {p : Holder} (hp : h.slot p = none) : h.release p = h := by
  have hl : h.ledger.release p = h.ledger := by
    rw [Ledger.release, show h.ledger.slot p = none from hp]
  rw [release, hl]

end Host

/-! ## XDP programs -/

/-- The interfaces of the configuration, as far as there is room. -/
def AppConfig.names (cfg : AppConfig) : List Ifname :=
  (cfg.ifaces .local).map (cfg.ifname .local) ++ (cfg.ifaces .wan).map (cfg.ifname .wan)

/-- The names `xdp_attach_detach_config` removes the program of. -/
def AppConfig.Scrubs (cfg : AppConfig) (name : Ifname) : Prop :=
  ifnameIsSafe name = true ∧ name ∈ cfg.names

instance (cfg : AppConfig) (name : Ifname) : Decidable (cfg.Scrubs name) :=
  inferInstanceAs (Decidable (_ ∧ _))

theorem AppConfig.scrubs_of_lt {cfg : AppConfig} {dir : NePacketDir} {i : Nat} (hi : i < cfg.used dir)
    (hsafe : ifnameIsSafe (cfg.ifname dir i) = true) : cfg.Scrubs (cfg.ifname dir i) := by
  have hmem := List.mem_map_of_mem (f := cfg.ifname dir) (List.mem_range.mpr hi)
  cases dir with
  | «local» => exact ⟨hsafe, List.mem_append_left _ hmem⟩
  | wan => exact ⟨hsafe, List.mem_append_right _ hmem⟩

theorem xdpAttachLinkOff_eq (name : Ifname) (h : Host) : xdpAttachLinkOff name h =
    { h with xdp := fun n => if ifnameIsSafe n = true ∧ n = name then none else h.xdp n } := by
  rw [xdpAttachLinkOff, xdpAttachIfnameSafe]
  by_cases hsafe : ifnameIsSafe name = true
  · rw [if_pos hsafe]
    congr 1
    funext n
    by_cases hn : n = name
    · simp [hn, hsafe]
    · simp [hn]
  · rw [if_neg hsafe]
    have hx : (fun n => if ifnameIsSafe n = true ∧ n = name then none else h.xdp n) = h.xdp := by
      funext n
      rw [if_neg]
      rintro ⟨hn, rfl⟩
      exact hsafe hn
    rw [hx]

/-- The check for an empty name changes nothing: it is not a safe one. -/
theorem xdpAttachDetachIfname_eq (name : Ifname) (h : Host) :
    xdpAttachDetachIfname name h = xdpAttachLinkOff name h := by
  cases name <;> rfl

theorem foldl_detach (f : Nat → Ifname) (is : List Nat) : ∀ h : Host,
    is.foldl (fun h i => xdpAttachDetachIfname (f i) h) h =
      { h with xdp := fun n => if ifnameIsSafe n = true ∧ n ∈ is.map f then none else h.xdp n } := by
  induction is with
  | nil => intro h; simp
  | cons i is ih =>
      intro h
      rw [List.foldl_cons, ih, xdpAttachDetachIfname_eq, xdpAttachLinkOff_eq]
      congr 1
      funext n
      by_cases hn : n = f i
      · subst hn
        by_cases hsafe : ifnameIsSafe (f i) = true <;> simp [hsafe]
      · simp [hn]

theorem xdpAttachDetachConfig_eq (cfg : AppConfig) (h : Host) : xdpAttachDetachConfig cfg h =
    { h with xdp := fun n => if cfg.Scrubs n then none else h.xdp n } := by
  rw [xdpAttachDetachConfig, foldl_detach, foldl_detach]
  congr 1
  funext n
  by_cases hsafe : ifnameIsSafe n = true
  · by_cases hwan : n ∈ (cfg.ifaces .wan).map (cfg.ifname .wan)
    · simp [hwan, hsafe, AppConfig.Scrubs, AppConfig.names]
    · simp [hwan, hsafe, AppConfig.Scrubs, AppConfig.names]
  · simp [hsafe, AppConfig.Scrubs]

/-! ## closing -/

/-- Between open and close: what the pair holds, `ne_pair_close` finds.  The rest of the
process is as in `h₀`, and so are the XDP programs of interfaces not in the
configuration. -/
structure Tidy (cfg : AppConfig) (h₀ h : Host) : Prop where
  balanced : h.ledger.Balanced
  outside : ∀ p, p.inPair = false → h.slot p = h₀.slot p
  count_le : ∀ dir, h.count dir ≤ maxInterfaces
  sockets : ∀ dir i q, h.slot (.xsk dir i q) ≠ none → i < h.count dir ∧ q < h.queueCount dir i
  programs : ∀ dir i, h.slot (.bpf dir i) ≠ none → i < h.count dir
  ready : h.ready = h₀.ready
  xdp : ∀ name, ¬cfg.Scrubs name → h.xdp name = h₀.xdp name

/-- Nothing of the pair is held. -/
structure Closed (cfg : AppConfig) (h₀ h : Host) : Prop where
  balanced : h.ledger.Balanced
  outside : ∀ p, p.inPair = false → h.slot p = h₀.slot p
  inside : ∀ p, p.inPair = true → h.slot p = none
  ready : h.ready = h₀.ready
  scrubbed : ∀ name, cfg.Scrubs name → h.xdp name = none
  xdp : ∀ name, ¬cfg.Scrubs name → h.xdp name = h₀.xdp name

theorem mem_xsks {dir d : NePacketDir} {i j n q : Nat} :
    .xsk d j q ∈ xsks dir i n ↔ d = dir ∧ j = i ∧ q < n := by
  simp only [xsks, List.mem_map, List.mem_range, Holder.xsk.injEq]
  constructor
  · rintro ⟨q', hq', rfl, rfl, rfl⟩
    exact ⟨rfl, rfl, hq'⟩
  · rintro ⟨rfl, rfl, hq⟩
    exact ⟨q, hq, rfl, rfl, rfl⟩

theorem notMem_xsks {p : Holder} (hp : p.isXsk = false) (dir : NePacketDir) (i n : Nat) :
    p ∉ xsks dir i n := by
  intro hmem
  obtain ⟨q, _, rfl⟩ := List.mem_map.mp hmem
  cases hp

theorem deleteXsksPass_balanced (os : Os) (shared : Bool) (ps : List Holder) :
    ∀ {l : Ledger Holder}, l.Balanced → (deleteXsksPass os shared ps l).Balanced := by
  induction ps with
  | nil => intro l hl; exact hl
  | cons p ps ih =>
      intro l hl
      rw [deleteXsksPass]
      split
      · exact ih (hl.release p)
      · exact ih hl

theorem queueHoldsUmemFd_congr (os : Os) {l l' : Ledger Holder} {p : Holder}
    (humem : l'.slot .umem = l.slot .umem) (hp : l'.slot p = l.slot p) :
    queueHoldsUmemFd os l' p = queueHoldsUmemFd os l p := by
  rw [queueHoldsUmemFd, humem, hp, queueHoldsUmemFd]

/-- One pass: of its sockets, it releases those with the UMEM's descriptor, or the others. -/
theorem deleteXsksPass_slot (os : Os) (shared : Bool) (ps : List Holder) (hps : Holder.umem ∉ ps) :
    ∀ (l : Ledger Holder) (p : Holder), (deleteXsksPass os shared ps l).slot p =
      if p ∈ ps ∧ queueHoldsUmemFd os l p = shared then none else l.slot p := by
  induction ps with
  | nil => intro l p; simp [deleteXsksPass]
  | cons p₀ ps ih =>
      intro l p
      obtain ⟨hne, hps⟩ := not_or.mp (mt List.mem_cons.mpr hps)
      rw [deleteXsksPass]
      by_cases hq : queueHoldsUmemFd os l p₀ = shared
      · rw [if_pos (beq_iff_eq.mpr hq), ih hps]
        by_cases hp : p = p₀
        · subst hp
          simp [hq]
        · have hsame : (l.release p₀).slot p = l.slot p := by
            rw [Ledger.release_slot, Function.update_of_ne hp]
          have humem : (l.release p₀).slot .umem = l.slot .umem := by
            rw [Ledger.release_slot, Function.update_of_ne hne]
          rw [queueHoldsUmemFd_congr os humem hsame, hsame]
          simp only [List.mem_cons, hp, false_or]
      · rw [if_neg (mt beq_iff_eq.mp hq), ih hps]
        by_cases hp : p = p₀
        · subst hp
          simp [hq]
        · simp [hp]

/-- Both passes together release the sockets of an interface. -/
theorem deleteIfaceXsks_slot (os : Os) (dir : NePacketDir) (i n : Nat) (h : Host) (p : Holder) :
    (deleteIfaceXsks os dir i n h).slot p = if p ∈ xsks dir i n then none else h.slot p := by
  have humem := notMem_xsks (p := .umem) rfl dir i n
  have hfirst := deleteXsksPass_slot os false (xsks dir i n) humem h.ledger
  refine (deleteXsksPass_slot os true (xsks dir i n) humem _ p).trans ?_
  by_cases hp : p ∈ xsks dir i n
  · rw [if_pos hp]
    by_cases hshared : queueHoldsUmemFd os h.ledger p = false
    · have hgone := (hfirst p).trans (if_pos ⟨hp, hshared⟩)
      split
      · rfl
      · exact hgone
    · have hsame := (hfirst p).trans (if_neg fun hc => hshared hc.2)
      have humem' := (hfirst .umem).trans (if_neg fun hc => humem hc.1)
      have htrue := (queueHoldsUmemFd_congr os humem' hsame).trans (Bool.of_not_eq_false hshared)
      exact if_pos ⟨hp, htrue⟩
  · rw [if_neg (fun hc => hp hc.1), if_neg hp, hfirst, if_neg fun hc => hp hc.1, Host.slot]

theorem deleteIfaceXsks_balanced (os : Os) (dir : NePacketDir) (i n : Nat) {h : Host}
    (hl : h.ledger.Balanced) : (deleteIfaceXsks os dir i n h).ledger.Balanced :=
  deleteXsksPass_balanced os true _ (deleteXsksPass_balanced os false _ hl)

/-- One interface of `delete_all_live_xsks`; it changes nothing but the ledger. -/
theorem deleteLiveXsks_spec (os : Os) (dir : NePacketDir) (i : Nat) {h : Host} (hl : h.ledger.Balanced) :
    ∃ l, deleteLiveXsks os dir i h = { h with ledger := l } ∧ l.Balanced ∧
      (∀ p, l.slot p = h.slot p ∨ p.isXsk = true ∧ l.slot p = none) ∧
      ∀ q, q < h.queueCount dir i → l.slot (.xsk dir i q) = none := by
  rw [deleteLiveXsks]
  by_cases hc : h.live dir i = true ∨ h.queueCount dir i > 0
  · rw [if_pos hc]
    refine ⟨_, rfl, deleteIfaceXsks_balanced os dir i _ hl, fun p => ?_, fun q hq => ?_⟩
    · have hslot := deleteIfaceXsks_slot os dir i (h.queueCount dir i) h p
      by_cases hp : p ∈ xsks dir i (h.queueCount dir i)
      · rw [if_pos hp] at hslot
        refine .inr ⟨?_, hslot⟩
        obtain ⟨q, _, rfl⟩ := List.mem_map.mp hp
        rfl
      · rw [if_neg hp] at hslot
        exact .inl hslot
    · exact (deleteIfaceXsks_slot os dir i _ h _).trans (if_pos (mem_xsks.mpr ⟨rfl, rfl, hq⟩))
  · rw [if_neg hc]
    obtain ⟨_, hq⟩ := not_or.mp hc
    exact ⟨h.ledger, rfl, hl, fun p => .inl rfl, fun q hq' => absurd hq' (by omega)⟩

/-- All sockets of the interfaces the loop went over are gone. -/
theorem foldl_deleteLiveXsks (os : Os) (is : List Nat) : ∀ {h : Host}, h.ledger.Balanced →
    ∃ l, is.foldl (fun h i => deleteLiveXsks os .wan i (deleteLiveXsks os .local i h)) h =
        { h with ledger := l } ∧ l.Balanced ∧
      (∀ p, l.slot p = h.slot p ∨ p.isXsk = true ∧ l.slot p = none) ∧
      ∀ dir, ∀ i ∈ is, ∀ q, q < h.queueCount dir i → l.slot (.xsk dir i q) = none := by
  induction is with
  | nil => exact fun {h} hl => ⟨h.ledger, rfl, hl, fun p => .inl rfl, fun _ i hi => nomatch hi⟩
  | cons i is ih =>
      intro h hl
      obtain ⟨l₁, hl₁, hb₁, hkeep₁, hgone₁⟩ := deleteLiveXsks_spec os .local i hl
      obtain ⟨l₂, hl₂, hb₂, hkeep₂, hgone₂⟩ := deleteLiveXsks_spec os .wan i (h := { h with ledger := l₁ }) hb₁
      obtain ⟨l₃, hl₃, hb₃, hkeep₃, hgone₃⟩ := ih (h := { h with ledger := l₂ }) hb₂
      have hnone₂ : ∀ p, l₁.slot p = none → l₂.slot p = none := fun p hp =>
        (hkeep₂ p).elim (fun hsame => hsame.trans hp) And.right
      have hnone₃ : ∀ p, l₂.slot p = none → l₃.slot p = none := fun p hp =>
        (hkeep₃ p).elim (fun hsame => hsame.trans hp) And.right
      refine ⟨l₃, by rw [List.foldl_cons, hl₁, hl₂, hl₃], hb₃, fun p => ?_, fun dir j hj q hq => ?_⟩
      · rcases hkeep₃ p with hsame₃ | hgone
        · rcases hkeep₂ p with hsame₂ | ⟨hx, hnone⟩
          · rcases hkeep₁ p with hsame₁ | ⟨hx, hnone⟩
            · exact .inl (hsame₃.trans (hsame₂.trans hsame₁))
            · exact .inr ⟨hx, hnone₃ p (hnone₂ p hnone)⟩
          · exact .inr ⟨hx, hnone₃ p hnone⟩
        · exact .inr hgone
      · rcases List.mem_cons.mp hj with rfl | hj
        · cases dir with
          | «local» => exact hnone₃ _ (hnone₂ _ (hgone₁ q hq))
          | wan => exact hnone₃ _ (hgone₂ q hq)
        · exact hgone₃ dir j hj q hq

theorem mem_bpfs {dir d : NePacketDir} {i n : Nat} :
    Holder.bpf d i ∈ (List.range n).map (.bpf dir) ↔ d = dir ∧ i < n := by
  simp only [List.mem_map, List.mem_range, Holder.bpf.injEq]
  constructor
  · rintro ⟨j, hj, rfl, rfl⟩
    exact ⟨rfl, hj⟩
  · rintro ⟨rfl, hi⟩
    exact ⟨i, hi, rfl, rfl⟩

/-- `ne_pair_close` releases what a tidy pair holds. -/
theorem nePairClose_spec (os : Os) {cfg : AppConfig} {h₀ h : Host} (ht : Tidy cfg h₀ h) :
    Closed cfg h₀ (nePairClose os cfg h) := by
  obtain ⟨l, hl, hb, hkeep, hgone⟩ := foldl_deleteLiveXsks os (List.range maxInterfaces) ht.balanced
  have hxsk : ∀ dir i q, l.slot (.xsk dir i q) = none := by
    intro dir i q
    rcases hkeep (.xsk dir i q) with hsame | ⟨_, hnone⟩
    · by_contra hheld
      rw [hsame] at hheld
      obtain ⟨hi, hq⟩ := ht.sockets dir i q hheld
      have hi := List.mem_range.mpr (Nat.lt_of_lt_of_le hi (ht.count_le dir))
      exact hheld (hsame.symm.trans (hgone dir i hi q hq))
    · exact hnone
  have hother : ∀ p, p.isXsk = false → l.slot p = h.slot p := fun p hp =>
    (hkeep p).resolve_right fun hc => Bool.false_ne_true (hp.symm.trans hc.1)
  -- the BPF objects, and then the UMEM, which no socket uses any more
  let l₂ := (l.releaseAll ((List.range (h.count .local)).map (.bpf .local))).releaseAll
    ((List.range (h.count .wan)).map (.bpf .wan))
  have hb₂ : l₂.Balanced := Ledger.Balanced.releaseAll _ (Ledger.Balanced.releaseAll _ hb)
  have hslot₂ : ∀ p, (∀ dir i, p ≠ .bpf dir i) → l₂.slot p = l.slot p := by
    intro p hp
    have hnot : ∀ dir n, p ∉ (List.range n).map (Holder.bpf dir) := by
      intro dir n hmem
      obtain ⟨i, _, rfl⟩ := List.mem_map.mp hmem
      exact hp dir i rfl
    simp only [l₂, Ledger.releaseAll_slot, if_neg (hnot _ _)]
  have hbpf : ∀ dir i, l₂.slot (.bpf dir i) = none := by
    intro dir i
    simp only [l₂, Ledger.releaseAll_slot, mem_bpfs]
    by_cases hi : i < h.count dir
    · cases dir <;> simp [hi]
    · have hnone : l.slot (.bpf dir i) = none :=
        (hother _ rfl).trans (by_contra fun hheld => hi (ht.programs dir i hheld))
      simp [hnone]
  have hbusy : ∀ q, Holder.isXsk q = true → l₂.slot q = none := by
    intro q hq
    cases q with
    | xsk dir i n => exact (hslot₂ _ (by simp)).trans (hxsk ..)
    | _ => cases hq
  have hb₃ := (hb₂.releaseIdle .umem hbusy).release .pool |>.release .bufs
  have hinside : ∀ p, p.inPair = true →
      (((l₂.releaseIdle Holder.isXsk .umem).release .pool).release .bufs).slot p = none := by
    intro p hp
    simp only [Ledger.release_slot, Ledger.releaseIdle_slot, Function.update_apply]
    cases p with
    | bufs | pool | umem => simp
    | xsk dir i q => simpa using (hslot₂ _ (by simp)).trans (hxsk dir i q)
    | bpf dir i => simpa using hbpf dir i
    | _ => cases hp
  have hclose : nePairClose os cfg h =
      { h with ledger := ((l₂.releaseIdle Holder.isXsk .umem).release .pool).release .bufs
               xdp := fun n => if cfg.Scrubs n then none else h.xdp n
               count := fun _ => 0, queueCount := fun _ _ => 0, ifname := fun _ _ => []
               xdpSgEnabled := fun _ _ => false, live := fun _ _ => false } := by
    rw [nePairClose, deleteAllLiveXsks, hl, xdpAttachDetachConfig_eq]
    rw [← Ledger.clear_eq hinside]
    rfl
  rw [hclose]
  refine ⟨hb₃, fun p hp => ?_, hinside, ht.ready, fun name hname => if_pos hname, fun name hname => ?_⟩
  · have hout := (hother p (by cases p <;> first | rfl | cases hp)).trans (ht.outside p hp)
    have hslot := (hslot₂ p (by rintro dir i rfl; cases hp)).trans hout
    rw [← hslot]
    simp only [Host.slot, Ledger.release_slot, Ledger.releaseIdle_slot, Function.update_apply]
    cases p <;> first | rfl | cases hp
  · exact (if_neg hname).trans (ht.xdp name hname)

/-! ## opening an interface -/

/-- The sockets `open_iface_queues` makes before one fails. -/
theorem createQueues_spec (os : Os) (attempt : Nat) (dir : NePacketDir) (i k : Nat) :
    ∀ {q : Nat} {l : Ledger Holder}, l.Balanced → l.slot .umem ≠ none →
      (∀ j, q ≤ j → l.slot (.xsk dir i j) = none) →
      ∃ e l', createQueues os attempt dir i k q l = (e, l') ∧ l'.Balanced ∧ q ≤ e ∧
        (∀ j, q ≤ j → (l'.slot (.xsk dir i j) ≠ none ↔ j < e)) ∧
        ∀ p, (∀ j, q ≤ j → p ≠ .xsk dir i j) → l'.slot p = l.slot p := by
  induction k with
  | zero =>
      intro q l hl _ hfree
      refine ⟨q, l, rfl, hl, Nat.le_refl q, fun j hj => ?_, fun p _ => rfl⟩
      simp [hfree j hj, Nat.not_lt.mpr hj]
  | succ k ih =>
      intro q l hl humem hfree
      rw [createQueues]
      split
      · rw [hl.use_eq humem]
        have hacq := hl.acquire (hfree q (Nat.le_refl q))
        obtain ⟨e, l', hrun, hl', he, hsock, hkeep⟩ := ih (q := q + 1) hacq
          (by simpa [Function.update_apply] using humem)
          (fun j hj => by
            rw [Ledger.acquire_slot, Function.update_of_ne (by simp; omega)]
            exact hfree j (by omega))
        have hat : ∀ p, (∀ j, q + 1 ≤ j → p ≠ .xsk dir i j) → p ≠ .xsk dir i q → l'.slot p = l.slot p := by
          intro p hp hne
          rw [hkeep p hp, Ledger.acquire_slot, Function.update_of_ne hne]
        refine ⟨e, l', hrun, hl', by omega, fun j hj => ?_, fun p hp =>
          hat p (fun j hj => hp j (by omega)) (hp q (Nat.le_refl q))⟩
        rcases Nat.eq_or_lt_of_le hj with rfl | hj
        · have hslot := hkeep (.xsk dir i q) fun j hj => by simp; omega
          rw [Ledger.acquire_slot, Function.update_self] at hslot
          simp [hslot, Nat.lt_of_succ_le he]
        · exact hsock j hj
      · refine ⟨q, l, rfl, hl, Nat.le_refl q, fun j hj => ?_, fun p _ => rfl⟩
        simp [hfree j hj, Nat.not_lt.mpr hj]

/-- Between `h` and `h'` only an interface was worked on, and it has `n` sockets. -/
structure Touched (dir : NePacketDir) (i : Nat) (name : Ifname) (n : Nat) (h h' : Host) : Prop where
  balanced : h'.ledger.Balanced
  sockets : ∀ q, h'.slot (.xsk dir i q) ≠ none ↔ q < n
  slot : ∀ p, (∀ q, p ≠ .xsk dir i q) → h'.slot p = h.slot p
  count : h'.count = h.count
  ready : h'.ready = h.ready
  xdp : ∀ m, m ≠ name → h'.xdp m = h.xdp m
  queueCount : ∀ d j, ¬(d = dir ∧ j = i) → h'.queueCount d j = h.queueCount d j
  ifname : ∀ d j, ¬(d = dir ∧ j = i) → h'.ifname d j = h.ifname d j
  xdpSgEnabled : ∀ d j, ¬(d = dir ∧ j = i) → h'.xdpSgEnabled d j = h.xdpSgEnabled d j

/-- The fields of an interface that is open. -/
structure IsOpen (dir : NePacketDir) (i : Nat) (name : Ifname) (n : Nat) (h : Host) : Prop where
  queueCount : h.queueCount dir i = n
  ifname : h.ifname dir i = name
  xdpSgEnabled : h.xdpSgEnabled dir i = true

theorem Touched.trans {dir : NePacketDir} {i n : Nat} {name : Ifname} {h h₁ h₂ : Host}
    (h₀₁ : Touched dir i name 0 h h₁) (h₁₂ : Touched dir i name n h₁ h₂) : Touched dir i name n h h₂ where
  balanced := h₁₂.balanced
  sockets := h₁₂.sockets
  slot p hp := (h₁₂.slot p hp).trans (h₀₁.slot p hp)
  count := h₁₂.count.trans h₀₁.count
  ready := h₁₂.ready.trans h₀₁.ready
  xdp m hm := (h₁₂.xdp m hm).trans (h₀₁.xdp m hm)
  queueCount d j hd := (h₁₂.queueCount d j hd).trans (h₀₁.queueCount d j hd)
  ifname d j hd := (h₁₂.ifname d j hd).trans (h₀₁.ifname d j hd)
  xdpSgEnabled d j hd := (h₁₂.xdpSgEnabled d j hd).trans (h₀₁.xdpSgEnabled d j hd)

/-- Nothing happened yet. -/
theorem Touched.refl {dir : NePacketDir} {i : Nat} (name : Ifname) {h : Host} (hl : h.ledger.Balanced)
    (hfree : ∀ q, h.slot (.xsk dir i q) = none) : Touched dir i name 0 h h where
  balanced := hl
  sockets q := by simp [hfree q]
  slot _ _ := rfl
  count := rfl
  ready := rfl
  xdp _ _ := rfl
  queueCount _ _ _ := rfl
  ifname _ _ _ := rfl
  xdpSgEnabled _ _ _ := rfl

/-- `open_iface_queues` opens all queues, or releases those it opened. -/
theorem openIfaceQueues_spec (os : Os) (attempt : Nat) (dir : NePacketDir) (i : Nat) (name : Ifname)
    (n : Nat) {h : Host} (hl : h.ledger.Balanced) (humem : h.slot .umem ≠ none)
    (hfree : ∀ q, h.slot (.xsk dir i q) = none) :
    (∃ h', openIfaceQueues os attempt dir i name n h = (some (), h') ∧ Touched dir i name n h h' ∧
      IsOpen dir i name n h') ∨
    ∃ h', openIfaceQueues os attempt dir i name n h = (none, h') ∧ Touched dir i name 0 h h' := by
  rw [openIfaceQueues]
  split
  · exact .inr ⟨h, rfl, .refl name hl hfree⟩
  split
  · exact .inr ⟨h, rfl, .refl name hl hfree⟩
  obtain ⟨e, l, hrun, hb, -, hsock, hkeep⟩ :=
    createQueues_spec os attempt dir i n (q := 0) hl humem fun j _ => hfree j
  have hother : ∀ p, (∀ q, p ≠ .xsk dir i q) → l.slot p = h.ledger.slot p := fun p hp =>
    hkeep p fun q _ => hp q
  simp only [hrun]
  split
  · rename_i he
    exact .inl ⟨_, rfl, ⟨hb, fun q => he ▸ hsock q (Nat.zero_le q), hother, rfl, rfl, fun _ _ => rfl,
      fun d j hd => setAt_of_ne _ _ hd, fun d j hd => setAt_of_ne _ _ hd,
      fun d j hd => (setAt_of_ne _ _ hd).trans (setAt_of_ne _ _ hd)⟩,
      ⟨setAt_self .., setAt_self .., setAt_self ..⟩⟩
  · refine .inr ⟨_, rfl, ⟨hb.releaseAll _, fun q => ?_, fun p hp => ?_, rfl, rfl, fun _ _ => rfl,
      fun d j hd => (setAt_of_ne _ _ hd).trans (setAt_of_ne _ _ hd),
      fun d j hd => (setAt_of_ne _ _ hd).trans (setAt_of_ne _ _ hd),
      fun d j hd => (setAt_of_ne _ _ hd).trans (setAt_of_ne _ _ hd)⟩⟩
    · simp only [openIfaceQueuesRollback, Host.slot, Host.releaseAll, Ledger.releaseAll_slot, mem_xsks]
      have hq := hsock q (Nat.zero_le q)
      by_cases hlt : q < e
      · simp [hlt]
      · simpa [hlt] using hq
    · have hnot : p ∉ xsks dir i e := by
        intro hmem
        obtain ⟨q, _, rfl⟩ := List.mem_map.mp hmem
        exact hp q rfl
      simp only [openIfaceQueuesRollback, Host.slot, Host.releaseAll, Ledger.releaseAll_slot, if_neg hnot]
      exact hother p hp

/-- The second attempt starts where the first did. -/
theorem openIface_spec (os : Os) (cfg : AppConfig) (dir : NePacketDir) (i : Nat) {h : Host}
    (hl : h.ledger.Balanced) (humem : h.slot .umem ≠ none) (hfree : ∀ q, h.slot (.xsk dir i q) = none) :
    (∃ h', openIface os cfg dir i h = (some (), h') ∧
      Touched dir i (cfg.ifname dir i) (h.queueCount dir i) h h' ∧
      IsOpen dir i (cfg.ifname dir i) (h.queueCount dir i) h') ∨
    ∃ h', openIface os cfg dir i h = (none, h') ∧ Touched dir i (cfg.ifname dir i) 0 h h' := by
  have hfirst := openIfaceQueues_spec os 0 dir i (cfg.ifname dir i) (h.queueCount dir i) hl humem hfree
  rw [openIface]
  rcases hfirst with ⟨h₁, hrun, ht, ho⟩ | ⟨h₁, hrun, ht⟩
  · simp only [hrun]
    exact .inl ⟨h₁, rfl, ht, ho⟩
  simp only [hrun]
  rw [xdpAttachDetachIfname_eq, xdpAttachLinkOff_eq]
  have hfree₁ : ∀ q, h₁.slot (.xsk dir i q) = none := fun q => by simpa using ht.sockets q
  have humem₁ : h₁.slot .umem ≠ none := by rwa [ht.slot .umem (by simp)]
  let h₂ : Host := { h₁ with
    xdp := fun m => if ifnameIsSafe m = true ∧ m = cfg.ifname dir i then none else h₁.xdp m }
  have ht₂ : Touched dir i (cfg.ifname dir i) 0 h₁ h₂ :=
    { Touched.refl (cfg.ifname dir i) ht.balanced hfree₁ with
      xdp := fun m hm => if_neg fun hc => hm hc.2 }
  rcases openIfaceQueues_spec os 1 dir i (cfg.ifname dir i) (h.queueCount dir i) (h := h₂) ht.balanced humem₁
    hfree₁ with ⟨h₃, hrun₃, ht₃, ho₃⟩ | ⟨h₃, hrun₃, ht₃⟩
  · exact .inl ⟨h₃, hrun₃, (ht.trans ht₂).trans ht₃, ho₃⟩
  · exact .inr ⟨h₃, hrun₃, (ht.trans ht₂).trans ht₃⟩

/-! ## the stages of opening -/

/-- The queues of an interface. -/
def AppConfig.queues (os : Os) (cfg : AppConfig) (dir : NePacketDir) (i : Nat) : Nat :=
  resolveIfaceQueueCount os dir i (cfg.ifname dir i)

/-- At least one, and no more than the pair has room for. -/
theorem AppConfig.queues_bounds (os : Os) (cfg : AppConfig) (dir : NePacketDir) (i : Nat) :
    0 < cfg.queues os dir i ∧ cfg.queues os dir i ≤ maxQueues := by
  have hmax : 0 < maxQueues := by decide
  simp only [queues, resolveIfaceQueueCount]
  split_ifs <;> omega

/-- How far the opening got: the interfaces of each side that are checked and counted,
open, and bound, and what the whole pair has. -/
structure Progress where
  counted : NePacketDir → Nat
  bufs : Bool
  pool : Bool
  umem : Bool
  opened : NePacketDir → Nat
  bound : NePacketDir → Nat

namespace Progress

def start : Progress := ⟨fun _ => 0, false, false, false, fun _ => 0, fun _ => 0⟩

/-- What the pair holds by then. -/
def Holds (pr : Progress) (os : Os) (cfg : AppConfig) : Holder → Prop
  | .bufs => pr.bufs = true
  | .pool => pr.pool = true
  | .umem => pr.umem = true
  | .xsk dir i q => i < pr.opened dir ∧ q < cfg.queues os dir i
  | .bpf dir i => i < pr.bound dir
  | _ => False

def counting (pr : Progress) (dir : NePacketDir) (i : Nat) : Progress :=
  { pr with counted := Function.update pr.counted dir i }

def opening (pr : Progress) (dir : NePacketDir) (i : Nat) : Progress :=
  { pr with opened := Function.update pr.opened dir i }

def binding (pr : Progress) (dir : NePacketDir) (i : Nat) : Progress :=
  { pr with bound := Function.update pr.bound dir i }

end Progress

/-- The pair in the middle of its opening. -/
structure Stage (os : Os) (cfg : AppConfig) (h₀ : Host) (pr : Progress) (h : Host) : Prop where
  balanced : h.ledger.Balanced
  outside : ∀ p, p.inPair = false → h.slot p = h₀.slot p
  held : ∀ p, p.inPair = true → (h.slot p ≠ none ↔ pr.Holds os cfg p)
  count : h.count = cfg.used
  counted : ∀ dir i, i < pr.counted dir →
    h.queueCount dir i = cfg.queues os dir i ∧ ifnameIsSafe (cfg.ifname dir i) = true
  opened : ∀ dir i, i < pr.opened dir →
    h.ifname dir i = cfg.ifname dir i ∧ h.xdpSgEnabled dir i = true
  counted_le : ∀ dir, pr.counted dir ≤ cfg.used dir
  opened_le : ∀ dir, pr.opened dir ≤ pr.counted dir
  bound_le : ∀ dir, pr.bound dir ≤ pr.opened dir
  ready : h.ready = h₀.ready
  xdp : ∀ name, ¬cfg.Scrubs name → h.xdp name = h₀.xdp name

variable {os : Os} {cfg : AppConfig} {h₀ h : Host} {pr pr' : Progress}

namespace Stage

theorem tidy (hs : Stage os cfg h₀ pr h) : Tidy cfg h₀ h where
  balanced := hs.balanced
  outside := hs.outside
  count_le dir := by rw [hs.count]; exact Nat.min_le_right ..
  sockets dir i q hheld := by
    obtain ⟨hi, hq⟩ := (hs.held (.xsk dir i q) rfl).mp hheld
    have hcount := Nat.lt_of_lt_of_le hi (hs.opened_le dir)
    rw [hs.count, (hs.counted dir i hcount).1]
    exact ⟨Nat.lt_of_lt_of_le hcount (hs.counted_le dir), hq⟩
  programs dir i hheld := by
    have hi : i < pr.bound dir := (hs.held (.bpf dir i) rfl).mp hheld
    have := hs.bound_le dir
    have := hs.opened_le dir
    have := hs.counted_le dir
    rw [hs.count]
    omega
  ready := hs.ready
  xdp := hs.xdp

/-- The pair takes a new handle. -/
theorem acquire (hs : Stage os cfg h₀ pr h) {p : Holder} (hp : p.inPair = true)
    (hfree : ¬pr.Holds os cfg p) (hholds : ∀ q, pr'.Holds os cfg q ↔ q = p ∨ pr.Holds os cfg q)
    (hcounted : pr'.counted = pr.counted) (hopened : pr'.opened = pr.opened)
    (hbound : ∀ dir, pr'.bound dir ≤ pr'.opened dir) : Stage os cfg h₀ pr' (h.acquire p) where
  balanced := hs.balanced.acquire (by_contra fun hheld => hfree ((hs.held p hp).mp hheld))
  outside q hq := by
    have hne : q ≠ p := fun he => Bool.false_ne_true (hq.symm.trans (he ▸ hp))
    rw [Host.acquire_slot, Function.update_of_ne hne]
    exact hs.outside q hq
  held q hq := by
    rw [Host.acquire_slot, hholds]
    by_cases hqp : q = p
    · subst hqp
      simp
    · rw [Function.update_of_ne hqp, hs.held q hq]
      simp [hqp]
  count := hs.count
  counted := hcounted ▸ hs.counted
  opened := hopened ▸ hs.opened
  counted_le := hcounted ▸ hs.counted_le
  opened_le := hcounted ▸ hopened ▸ hs.opened_le
  bound_le := hbound
  ready := hs.ready
  xdp := hs.xdp

/-- A stage is about the ledger, the counts and names of the interfaces, and the programs
of the interfaces that are not configured. -/
theorem congr (hs : Stage os cfg h₀ pr h) {h' : Host} (hledger : h'.ledger = h.ledger)
    (hcount : h'.count = h.count) (hqueues : h'.queueCount = h.queueCount) (hifname : h'.ifname = h.ifname)
    (hsg : h'.xdpSgEnabled = h.xdpSgEnabled) (hready : h'.ready = h.ready)
    (hxdp : ∀ name, ¬cfg.Scrubs name → h'.xdp name = h.xdp name) : Stage os cfg h₀ pr h' where
  balanced := hledger ▸ hs.balanced
  outside p hp := (congrArg (Ledger.slot · p) hledger).trans (hs.outside p hp)
  held p hp := by rw [Host.slot, hledger]; exact hs.held p hp
  count := hcount.trans hs.count
  counted := hqueues ▸ hs.counted
  opened := hifname ▸ hsg ▸ hs.opened
  counted_le := hs.counted_le
  opened_le := hs.opened_le
  bound_le := hs.bound_le
  ready := hready.trans hs.ready
  xdp name hname := (hxdp name hname).trans (hs.xdp name hname)

end Stage

/-- Removing the program of a configured interface keeps the pair tidy. -/
theorem Tidy.detachConfig (ht : Tidy cfg h₀ h) : Tidy cfg h₀ (xdpAttachDetachConfig cfg h) := by
  rw [xdpAttachDetachConfig_eq]
  exact ⟨ht.balanced, ht.outside, ht.count_le, ht.sockets, ht.programs, ht.ready,
    fun name hname => (if_neg hname).trans (ht.xdp name hname)⟩

/-- Releasing what the pair holds keeps it tidy. -/
theorem Tidy.release (ht : Tidy cfg h₀ h) {p : Holder} (hp : p.inPair = true) :
    Tidy cfg h₀ (h.release p) where
  balanced := ht.balanced.release p
  outside q hq := by
    have hne : q ≠ p := fun he => Bool.false_ne_true (hq.symm.trans (he ▸ hp))
    rw [Host.release_slot, Function.update_of_ne hne]
    exact ht.outside q hq
  count_le := ht.count_le
  sockets dir i q hheld := ht.sockets dir i q fun hnone => hheld (by simp [Function.update_apply, hnone])
  programs dir i hheld := ht.programs dir i fun hnone => hheld (by simp [Function.update_apply, hnone])
  ready := ht.ready
  xdp := ht.xdp

/-- Nothing of the pair is held when it is opened. -/
theorem pairReset_stage (hl : h₀.ledger.Balanced) (hfree : ∀ p, p.inPair = true → h₀.slot p = none) :
    Stage os cfg h₀ .start (pairReset cfg h₀) := by
  have hclear : h₀.ledger.clear Holder.inPair = h₀.ledger := Ledger.clear_eq hfree
  have hslot : (pairReset cfg h₀).slot = h₀.slot := congrArg Ledger.slot hclear
  refine ⟨?_, fun p _ => congrFun hslot p, fun p hp => ?_, rfl, fun _ _ hi => absurd hi (Nat.not_lt_zero _),
    fun _ _ hi => absurd hi (Nat.not_lt_zero _), fun _ => Nat.zero_le _, fun _ => Nat.le_refl _,
    fun _ => Nat.le_refl _, rfl, fun _ _ => rfl⟩
  · rw [pairReset, hclear]
    exact hl
  · rw [hslot, hfree p hp]
    cases p <;> simp [Progress.Holds, Progress.start]

theorem preflightIface_ensures {dir : NePacketDir} {i : Nat} (hi : i < cfg.used dir)
    (hopened : ∀ d, pr.opened d = 0) :
    Attempt.Ensures (Stage os cfg h₀ (pr.counting dir i)) (preflightIface os cfg dir i)
      (fun _ => Stage os cfg h₀ (pr.counting dir (i + 1))) (Tidy cfg h₀) := by
  refine .bind (Q := fun _ h => Stage os cfg h₀ (pr.counting dir i) h ∧
    ifnameIsSafe (cfg.ifname dir i) = true) (.check (fun h hs hc => ⟨hs, ?_⟩) fun h hs _ => hs.tidy)
    fun _ => .modify fun h ⟨hs, hsafe⟩ => ?_
  · exact (Bool.and_eq_true_iff.mp (Bool.and_eq_true_iff.mp hc).1).1
  · refine ⟨hs.balanced, hs.outside, hs.held, hs.count, fun d j hj => ?_, hs.opened, fun d => ?_,
      fun d => by simp [Progress.counting, hopened d], hs.bound_le, hs.ready, hs.xdp⟩
    · by_cases hd : d = dir ∧ j = i
      · obtain ⟨rfl, rfl⟩ := hd
        exact ⟨setAt_self .., hsafe⟩
      · have hj' : j < (pr.counting dir i).counted d := by
          by_cases hdir : d = dir
          · subst hdir
            simp only [Progress.counting, Function.update_self] at hj ⊢
            have : j ≠ i := fun hji => hd ⟨rfl, hji⟩
            omega
          · simpa [Progress.counting, hdir] using hj
        obtain ⟨hqueues, hsafe'⟩ := hs.counted d j hj'
        exact ⟨(setAt_of_ne _ _ hd).trans hqueues, hsafe'⟩
    · by_cases hdir : d = dir
      · subst hdir
        simpa [Progress.counting] using Nat.succ_le_of_lt hi
      · simpa [Progress.counting, hdir] using hs.counted_le d

theorem poolInit_ensures (hs : pr.pool = false) :
    Attempt.Ensures (Stage os cfg h₀ pr) (poolInit os) (fun _ => Stage os cfg h₀ { pr with pool := true })
      (Tidy cfg h₀) := by
  refine .bind (Q := fun _ => Stage os cfg h₀ pr) (.check (fun h hs _ => hs) fun h hs _ => hs.tidy)
    fun _ => .bind (Q := fun _ => Stage os cfg h₀ { pr with pool := true }) (.modify fun h hstage =>
      hstage.acquire (p := .pool) rfl (by simp [Progress.Holds, hs])
        (fun q => by cases q <;> simp [Progress.Holds]) rfl rfl hstage.bound_le) fun _ => ?_
  split
  · exact .bind (Q := fun _ => Tidy cfg h₀) (.modify fun h hstage => hstage.tidy.release rfl)
      fun _ => .fail fun h ht => ht
  · exact .pure fun h hstage => hstage

/-- An interface that is to be opened. -/
theorem openIface_ensures {dir : NePacketDir} {i : Nat} (hi : i < pr.counted dir) (hum : pr.umem = true)
    (hbound : ∀ d, pr.bound d = 0) :
    Attempt.Ensures (Stage os cfg h₀ (pr.opening dir i)) (openIface os cfg dir i)
      (fun _ => Stage os cfg h₀ (pr.opening dir (i + 1))) (Tidy cfg h₀) := by
  intro h hs
  obtain ⟨hqueues, hsafe⟩ := hs.counted dir i hi
  have hfree : ∀ q, h.slot (.xsk dir i q) = none := fun q => by
    simpa [Progress.Holds, Progress.opening] using hs.held (.xsk dir i q) rfl
  have humem : h.slot .umem ≠ none := (hs.held .umem rfl).mpr hum
  have hscrub := AppConfig.scrubs_of_lt (Nat.lt_of_lt_of_le hi (hs.counted_le dir)) hsafe
  have hxdp : ∀ {m h'}, Touched dir i (cfg.ifname dir i) m h h' →
      ∀ name, ¬cfg.Scrubs name → h'.xdp name = h₀.xdp name := fun ht name hname =>
    (ht.xdp name fun he => hname (he ▸ hscrub)).trans (hs.xdp name hname)
  have hout : ∀ {m h'}, Touched dir i (cfg.ifname dir i) m h h' →
      ∀ p, p.inPair = false → h'.slot p = h₀.slot p := fun ht p hp =>
    (ht.slot p (by rintro q rfl; cases hp)).trans (hs.outside p hp)
  rcases openIface_spec os cfg dir i hs.balanced humem hfree with ⟨h₁, hrun, ht, ho⟩ | ⟨h₁, hrun, ht⟩
  · refine ⟨fun a h' hrun' => ?_, fun h' hrun' => nomatch hrun.symm.trans hrun'⟩
    cases hrun.symm.trans hrun'
    have hold : ∀ {d j}, ¬(d = dir ∧ j = i) →
        (j < (pr.opening dir (i + 1)).opened d ↔ j < (pr.opening dir i).opened d) := by
      intro d j hd
      by_cases hdir : d = dir
      · subst hdir
        have : j ≠ i := fun hj => hd ⟨rfl, hj⟩
        simp only [Progress.opening, Function.update_self]
        omega
      · simp [Progress.opening, hdir]
    refine ⟨ht.balanced, hout ht, fun p hp => ?_, ht.count.trans hs.count, fun d j hj => ?_, fun d j hj => ?_,
      hs.counted_le, fun d => ?_, fun d => by simp [Progress.opening, hbound d], ht.ready.trans hs.ready, hxdp ht⟩
    · by_cases hx : ∃ q, p = .xsk dir i q
      · obtain ⟨q, rfl⟩ := hx
        rw [ht.sockets, hqueues]
        simp [Progress.Holds, Progress.opening]
      · have hx := not_exists.mp hx
        rw [ht.slot p hx, hs.held p hp]
        cases p with
        | xsk d j q =>
            have hd : ¬(d = dir ∧ j = i) := fun hc => hx q (by rw [hc.1, hc.2])
            exact and_congr_left' (hold hd).symm
        | _ => rfl
    · by_cases hd : d = dir ∧ j = i
      · obtain ⟨rfl, rfl⟩ := hd
        exact ⟨ho.queueCount.trans hqueues, hsafe⟩
      · obtain ⟨hqueues', hsafe'⟩ := hs.counted d j hj
        exact ⟨(ht.queueCount d j hd).trans hqueues', hsafe'⟩
    · by_cases hd : d = dir ∧ j = i
      · obtain ⟨rfl, rfl⟩ := hd
        exact ⟨ho.ifname, ho.xdpSgEnabled⟩
      · obtain ⟨hname, hsg⟩ := hs.opened d j ((hold hd).mp hj)
        exact ⟨(ht.ifname d j hd).trans hname, (ht.xdpSgEnabled d j hd).trans hsg⟩
    · have hle := hs.opened_le d
      by_cases hdir : d = dir
      · subst hdir
        simpa [Progress.opening] using Nat.succ_le_of_lt hi
      · simpa [Progress.opening, hdir] using hle
  · refine ⟨fun a h' hrun' => (nomatch hrun.symm.trans hrun'), fun h' hrun' => ?_⟩
    cases hrun.symm.trans hrun'
    have hslot : ∀ p, h₁.slot p = h.slot p := by
      intro p
      by_cases hx : ∃ q, p = .xsk dir i q
      · obtain ⟨q, rfl⟩ := hx
        rw [hfree q]
        simpa using ht.sockets q
      · exact ht.slot p (not_exists.mp hx)
    have htidy := hs.tidy
    refine ⟨ht.balanced, hout ht, fun d => ht.count ▸ htidy.count_le d, fun d j q hheld => ?_,
      fun d j hheld => ?_, ht.ready.trans hs.ready, hxdp ht⟩
    · rw [hslot] at hheld
      have hd : ¬(d = dir ∧ j = i) := by
        rintro ⟨rfl, rfl⟩
        exact hheld (hfree q)
      rw [ht.count, ht.queueCount d j hd]
      exact htidy.sockets d j q hheld
    · rw [hslot] at hheld
      rw [ht.count]
      exact htidy.programs d j hheld

namespace Progress

/-- Everything is open, nothing is bound. -/
def full (cfg : AppConfig) : Progress := ⟨cfg.used, true, true, true, cfg.used, fun _ => 0⟩

theorem counting_self {dir : NePacketDir} {i : Nat} (h : pr.counted dir = i) : pr.counting dir i = pr := by
  rw [counting, ← h, Function.update_eq_self]

theorem opening_self {dir : NePacketDir} {i : Nat} (h : pr.opened dir = i) : pr.opening dir i = pr := by
  rw [opening, ← h, Function.update_eq_self]

theorem binding_self {dir : NePacketDir} {i : Nat} (h : pr.bound dir = i) : pr.binding dir i = pr := by
  rw [binding, ← h, Function.update_eq_self]

/-- One side after the other is both sides. -/
theorem update_sides {α : Type} (f g : NePacketDir → α) :
    Function.update (Function.update f .local (g .local)) .wan (g .wan) = g := by
  funext dir
  cases dir <;> simp

end Progress

theorem preflight_ensures {dir : NePacketDir} (hcounted : pr.counted dir = 0)
    (hopened : ∀ d, pr.opened d = 0) :
    Attempt.Ensures (Stage os cfg h₀ pr) (Attempt.forEach (preflightIface os cfg dir) (cfg.ifaces dir))
      (fun _ => Stage os cfg h₀ (pr.counting dir (cfg.used dir))) (Tidy cfg h₀) := by
  have hrun := Attempt.Ensures.forRange (I := fun i => Stage os cfg h₀ (pr.counting dir i))
    (n := cfg.used dir) fun i hi => preflightIface_ensures hi hopened
  rwa [Progress.counting_self hcounted] at hrun

theorem promisc_ensures (dir : NePacketDir) :
    Attempt.Ensures (Stage os cfg h₀ pr) (Attempt.forEach (promiscIface os cfg dir) (cfg.ifaces dir))
      (fun _ => Stage os cfg h₀ pr) (Tidy cfg h₀) :=
  Attempt.Ensures.forRange (I := fun _ => Stage os cfg h₀ pr) fun _ _ =>
    .check (fun _ hs _ => hs) fun _ hs _ => hs.tidy

theorem openIfaces_ensures {dir : NePacketDir} (hopened : pr.opened dir = 0)
    (hcounted : pr.counted dir = cfg.used dir) (humem : pr.umem = true) (hbound : ∀ d, pr.bound d = 0) :
    Attempt.Ensures (Stage os cfg h₀ pr) (Attempt.forEach (openIface os cfg dir) (cfg.ifaces dir))
      (fun _ => Stage os cfg h₀ (pr.opening dir (cfg.used dir))) (Tidy cfg h₀) := by
  have hrun := Attempt.Ensures.forRange (I := fun i => Stage os cfg h₀ (pr.opening dir i))
    (n := cfg.used dir) fun i hi => openIface_ensures (hcounted ▸ hi) humem hbound
  rwa [Progress.opening_self hopened] at hrun

/-- `ne_pair_open` up to its label `fail`. -/
theorem openStages_ensures (hl : h₀.ledger.Balanced) (hfree : ∀ p, p.inPair = true → h₀.slot p = none) :
    Attempt.Ensures (· = h₀) (openStages os cfg) (fun _ => Stage os cfg h₀ (.full cfg)) (Tidy cfg h₀) := by
  let counted : Progress := (Progress.start.counting .local (cfg.used .local)).counting .wan (cfg.used .wan)
  have hcounted : counted.counted = cfg.used := Progress.update_sides _ _
  let pooled : Progress := { counted with bufs := true, pool := true, umem := true }
  have hfull : (pooled.opening .local (cfg.used .local)).opening .wan (cfg.used .wan) = .full cfg := by
    rw [Progress.opening, Progress.opening, Progress.full]
    congr 1
  refine .bind (Q := fun _ => Stage os cfg h₀ .start)
    (.modify fun h hh => hh.symm ▸ pairReset_stage hl hfree) fun _ => ?_
  refine .bind (preflight_ensures rfl fun _ => rfl) fun _ => ?_
  refine .bind (preflight_ensures rfl fun _ => rfl) fun _ => ?_
  refine .bind (Q := fun _ => Stage os cfg h₀ counted) (.check (fun h hs _ => hs) fun h hs _ => hs.tidy)
    fun _ => ?_
  refine .bind (Q := fun _ => Stage os cfg h₀ { counted with bufs := true })
    (.modify fun h hs => hs.acquire (p := .bufs) rfl Bool.false_ne_true
      (fun q => by cases q <;> simp [Progress.Holds]) rfl rfl hs.bound_le) fun _ => ?_
  refine .bind (poolInit_ensures rfl) fun _ => ?_
  refine .bind (promisc_ensures .local) fun _ => .bind (promisc_ensures .wan) fun _ => ?_
  refine .bind (.modify fun h hs => ?_) fun _ => .bind (Q := fun _ => Stage os cfg h₀
    { counted with bufs := true, pool := true }) (.check (fun h hs _ => hs) fun h hs _ => hs.tidy) fun _ => ?_
  · rw [xdpAttachDetachConfig_eq]
    exact hs.congr rfl rfl rfl rfl rfl rfl fun name hname => if_neg hname
  refine .bind (Q := fun _ => Stage os cfg h₀ pooled) (.modify fun h hs => ?_) fun _ => ?_
  · rw [hs.balanced.use_eq ((hs.held .bufs rfl).mpr rfl)]
    exact hs.acquire (p := .umem) rfl Bool.false_ne_true
      (fun q => by cases q <;> simp [Progress.Holds, pooled]) rfl rfl hs.bound_le
  refine .bind (openIfaces_ensures rfl (congrFun hcounted .local) rfl fun _ => rfl) fun _ =>
    .bind (openIfaces_ensures rfl (congrFun hcounted .wan) rfl fun _ => rfl) fun _ => ?_
  rw [hfull]
  exact .modify fun h hs => hs.congr rfl rfl rfl rfl rfl rfl fun _ _ => rfl

/-- Opening is all or nothing. -/
theorem nePairOpen_spec (os : Os) (cfg : AppConfig) (hl : h₀.ledger.Balanced) (hfree : ∀ p, p.inPair = true → h₀.slot p = none)
    (hcount : cfg.count .local ≠ 0) :
    (∃ h, nePairOpen os cfg h₀ = (true, h) ∧ Stage os cfg h₀ (.full cfg) h) ∨
      ∃ h, nePairOpen os cfg h₀ = (false, h) ∧ Closed cfg h₀ h := by
  have hrun : Attempt.Ensures _ (openStages os cfg) _ _ := openStages_ensures hl hfree
  have hrun := hrun h₀ rfl
  rw [nePairOpen, if_neg hcount]
  cases hres : openStages os cfg h₀ with
  | mk r h =>
      cases r with
      | some u => exact .inl ⟨h, rfl, hrun.1 u h hres⟩
      | none => exact .inr ⟨_, rfl, nePairClose_spec os (hrun.2 h hres).detachConfig⟩

end NetworkEncryptor
