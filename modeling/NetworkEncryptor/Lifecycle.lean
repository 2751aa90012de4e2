import NetworkEncryptor.PairOpen

/-!
# NetworkEncryptor.Lifecycle

Bringing the process up and down: `xdp_attach_all`, `forwarder_init`,
`forwarder_cleanup` and `main`, whatever the operating system answers.

Binding an interface is one more stage of the opening.  `Redirects` says what it is
for: the program of an interface hands its frames to the sockets of the pair.  After
any failure the pair is tidy, so that `forwarder_cleanup` restores the host
(`forwarderInit_spec`).
-/

namespace NetworkEncryptor

variable {os : Os} {cfg : AppConfig} {h₀ h : Host} {pr : Progress}

/-! ## binding -/

/-- The interface `i` of a side has a BPF object, with program and maps on the way. -/
structure Loaded (dir : NePacketDir) (i : Nat) (name : Ifname) (w : Nat → Nat) (h h' : Host) : Prop where
  ledger : h'.ledger = h.ledger.acquire (.bpf dir i)
  count : h'.count = h.count
  queueCount : h'.queueCount = h.queueCount
  ifname : h'.ifname = h.ifname
  xdpSgEnabled : h'.xdpSgEnabled = h.xdpSgEnabled
  ready : h'.ready = h.ready
  xdp : ∀ m, m ≠ name → h'.xdp m = h.xdp m
  xsksMap : ∀ n, n ≠ h.ledger.next → h'.xsksMap n = h.xsksMap n
  wanConfigMap : h'.wanConfigMap = w

namespace Loaded

variable {dir : NePacketDir} {i : Nat} {name : Ifname} {w : Nat → Nat} {h' : Host}

theorem slot (hld : Loaded dir i name w h h') :
    h'.slot = Function.update h.slot (.bpf dir i) (some h.ledger.next) :=
  congrArg Ledger.slot hld.ledger

/-- One more interface is bound. -/
theorem stage (hld : Loaded dir i name w h h') (hs : Stage os cfg h₀ pr h) (hi : pr.bound dir = i)
    (hopen : i < pr.opened dir) (hscrub : cfg.Scrubs name) : Stage os cfg h₀ (pr.binding dir (i + 1)) h' := by
  have hacq : Stage os cfg h₀ (pr.binding dir (i + 1)) (h.acquire (.bpf dir i)) := by
    refine hs.acquire rfl (by simp [Progress.Holds, hi]) (fun q => ?_) rfl rfl fun d => ?_
    · cases q with
      | bpf d j =>
          by_cases hd : d = dir
          · subst hd
            simp [Progress.Holds, Progress.binding, hi]
            omega
          · simp [Progress.Holds, Progress.binding, hd]
      | _ => simp [Progress.Holds, Progress.binding]
    · by_cases hd : d = dir
      · subst hd
        simpa [Progress.binding] using Nat.succ_le_of_lt hopen
      · simpa [Progress.binding, hd] using hs.bound_le d
  exact hacq.congr hld.ledger hld.count hld.queueCount hld.ifname hld.xdpSgEnabled hld.ready
    fun m hm => hld.xdp m fun he => hm (he ▸ hscrub)

end Loaded

theorem openBpfObject_ensures {dir : NePacketDir} {i : Nat} (name : Ifname) (frags : Bool)
    (hl : h.ledger.Balanced) (hobj : h.slot .obj = none) :
    Attempt.Ensures (· = h) (openBpfObject os dir i frags)
      (fun _ => Loaded dir i name h.wanConfigMap h)
      (fun h' => ∃ l, h' = { h with ledger := l } ∧ l.Balanced ∧ l.slot = h.ledger.slot) := by
  refine .bind (Q := fun _ => (· = h)) (.check (fun s hs _ => hs)
    fun s hs _ => ⟨h.ledger, hs, hl, rfl⟩) fun _ => ?_
  split
  · refine .bind (.modify (Q := fun _ h' => ∃ l, h' = { h with ledger := l } ∧ l.Balanced ∧
      l.slot = h.ledger.slot) fun s hs => ?_) fun _ => .fail fun s hs => hs
    refine ⟨_, by rw [hs]; rfl, (hl.acquire hobj).release .obj, ?_⟩
    rw [Ledger.release_slot, Ledger.acquire_slot, Function.update_idem]
    exact Function.update_eq_self_iff.mpr hobj.symm
  · refine .modify fun s hs => ?_
    subst hs
    exact ⟨rfl, rfl, rfl, rfl, rfl, rfl, fun _ _ => rfl, fun _ _ => rfl, rfl⟩

/-- The object is the interface's, and the program too. -/
structure LoadedOn (dir : NePacketDir) (i : Nat) (w : Nat → Nat) (h h' : Host) : Prop
    extends Loaded dir i (h.ifname dir i) w h h' where
  attached : h'.xdp (h.ifname dir i) = some h.ledger.next

section Attach

variable {dir : NePacketDir} {i : Nat} {w : Nat → Nat} {h' : Host}

/-- An open interface has a configured name. -/
theorem Stage.scrubs (hs : Stage os cfg h₀ pr h) (hopen : i < pr.opened dir) :
    cfg.Scrubs (h.ifname dir i) := by
  have hcount := Nat.lt_of_lt_of_le hopen (hs.opened_le dir)
  rw [(hs.opened dir i hopen).1]
  exact AppConfig.scrubs_of_lt (Nat.lt_of_lt_of_le hcount (hs.counted_le dir)) (hs.counted dir i hcount).2

/-- The new object can be used. -/
theorem Loaded.slot_ne (hld : Loaded dir i (h.ifname dir i) w h h') : h'.ledger.slot (.bpf dir i) ≠ none := by
  rw [show h'.ledger.slot = _ from hld.slot, Function.update_self]
  exact Option.some_ne_none _

theorem xdpAttachProg_ensures (hs : Stage os cfg h₀ pr h) (hi : pr.bound dir = i)
    (hopen : i < pr.opened dir) :
    Attempt.Ensures (Loaded dir i (h.ifname dir i) w h) (xdpAttachProg os dir i)
      (fun _ => LoadedOn dir i w h) (Tidy cfg h₀) := by
  intro h₁ hld
  have hstage := hld.stage hs hi hopen (hs.scrubs hopen)
  rw [xdpAttachProg, hstage.balanced.use_eq hld.slot_ne]
  by_cases hatt : os.attach dir i = true
  · rw [if_pos hatt]
    refine ⟨fun _ h' hrun => ?_, fun _ hrun => nomatch hrun⟩
    cases hrun
    refine ⟨{ hld with xdp := fun m hm => ?_ }, ?_⟩
    · rw [hld.ifname]
      exact (Function.update_of_ne hm _ _).trans (hld.xdp m hm)
    · change Function.update h₁.xdp (h₁.ifname dir i) (h₁.slot (.bpf dir i)) (h.ifname dir i) = _
      rw [hld.slot, hld.ifname, Function.update_self, Function.update_self]
  · rw [if_neg hatt]
    refine ⟨fun _ h' hrun => (nomatch hrun), fun h' hrun => ?_⟩
    cases hrun
    exact hstage.tidy.release rfl

/-- The first `k` queues are in the map. -/
def MappedTo (dir : NePacketDir) (i k : Nat) (h h' : Host) : Prop :=
  ∀ q, q < k → h'.xsksMap h.ledger.next q = h.slot (.xsk dir i q)

theorem updateXskMapQueue_ensures (os : Os) (hs : Stage os cfg h₀ pr h) (hi : pr.bound dir = i)
    (hopen : i < pr.opened dir) {k : Nat} (hk : k < h.queueCount dir i) :
    Attempt.Ensures (fun h' => LoadedOn dir i w h h' ∧ MappedTo dir i k h h') (updateXskMapQueue os dir i k)
      (fun _ h' => LoadedOn dir i w h h' ∧ MappedTo dir i (k + 1) h h') (Tidy cfg h₀) := by
  intro h₁ ⟨hld, hmap⟩
  have hstage := hld.toLoaded.stage hs hi hopen (hs.scrubs hopen)
  have hqueues := (hs.counted dir i (Nat.lt_of_lt_of_le hopen (hs.opened_le dir))).1
  have hsock : h.slot (.xsk dir i k) ≠ none := (hs.held (.xsk dir i k) rfl).mpr ⟨hopen, hqueues ▸ hk⟩
  obtain ⟨x, hx⟩ := Option.ne_none_iff_exists'.mp hsock
  have hobj : h₁.slot (.bpf dir i) = some h.ledger.next := by rw [hld.slot, Function.update_self]
  have hx₁ : h₁.slot (.xsk dir i k) = some x := by rw [hld.slot, Function.update_of_ne (by simp), hx]
  have huse : (h₁.ledger.use (.bpf dir i)).use (.xsk dir i k) = h₁.ledger := by
    rw [hstage.balanced.use_eq hld.slot_ne]
    exact hstage.balanced.use_eq fun hnone => Option.some_ne_none x (hx₁.symm.trans hnone)
  rw [updateXskMapQueue, hobj, hx₁]
  simp only [huse]
  by_cases hmapped : os.xskmap dir i k = true
  · rw [if_pos hmapped]
    refine ⟨fun _ h' hrun => ?_, fun _ hrun => nomatch hrun⟩
    cases hrun
    refine ⟨{ hld with xsksMap := fun n hn => ?_ }, fun q hq => ?_⟩
    · exact (Function.update_of_ne hn _ _).trans (hld.xsksMap n hn)
    · simp only [Function.update_self]
      by_cases hqk : q = k
      · subst hqk
        rw [Function.update_self, hx]
      · rw [Function.update_of_ne hqk]
        exact hmap q (by omega)
  · rw [if_neg hmapped]
    refine ⟨fun _ h' hrun => (nomatch hrun), fun h' hrun => ?_⟩
    cases hrun
    exact hstage.tidy

theorem updateXskMapIface_ensures (hs : Stage os cfg h₀ pr h) (hi : pr.bound dir = i)
    (hopen : i < pr.opened dir) :
    Attempt.Ensures (LoadedOn dir i w h) (updateXskMapIface os dir i)
      (fun _ h' => LoadedOn dir i w h h' ∧ MappedTo dir i (h.queueCount dir i) h h') (Tidy cfg h₀) := by
  intro h₁ hld
  have hrun := Attempt.Ensures.forRange (n := h.queueCount dir i)
    (I := fun k h' => LoadedOn dir i w h h' ∧ MappedTo dir i k h h')
    fun k hk => updateXskMapQueue_ensures os hs hi hopen hk
  rw [updateXskMapIface, hld.queueCount]
  exact hrun h₁ ⟨hld, fun q hq => absurd hq (Nat.not_lt_zero q)⟩

/-- The tail of both binds: the program replaces whatever the interface had, and the map
gets the sockets. -/
theorem attach_ensures (hs : Stage os cfg h₀ pr h) (hi : pr.bound dir = i) (hopen : i < pr.opened dir) :
    Attempt.Ensures (Loaded dir i (h.ifname dir i) w h)
      (do
        Attempt.modify (xdpAttachLinkOff (h.ifname dir i))
        xdpAttachProg os dir i
        updateXskMapIface os dir i)
      (fun _ h' => LoadedOn dir i w h h' ∧ MappedTo dir i (h.queueCount dir i) h h') (Tidy cfg h₀) := by
  refine .bind (Q := fun _ => Loaded dir i (h.ifname dir i) w h) (.modify fun h₁ hld => ?_) fun _ =>
    .bind (xdpAttachProg_ensures hs hi hopen) fun _ => updateXskMapIface_ensures hs hi hopen
  rw [xdpAttachLinkOff_eq]
  exact { hld with xdp := fun m hm => (if_neg fun hc => hm hc.2).trans (hld.xdp m hm) }

end Attach

/-- Failing to open an object leaves what was there. -/
theorem Stage.tidy_of_ledger (hs : Stage os cfg h₀ pr h) {h' : Host}
    (hl : ∃ l, h' = { h with ledger := l } ∧ l.Balanced ∧ l.slot = h.ledger.slot) : Tidy cfg h₀ h' := by
  obtain ⟨l, rfl, hb, hslot⟩ := hl
  have ht := hs.tidy
  refine ⟨hb, fun p hp => ?_, ht.count_le, fun d j q hheld => ht.sockets d j q ?_,
    fun d j hheld => ht.programs d j ?_, ht.ready, ht.xdp⟩
  · exact (congrFun hslot p).trans (ht.outside p hp)
  · exact fun hnone => hheld ((congrFun hslot _).trans hnone)
  · exact fun hnone => hheld ((congrFun hslot _).trans hnone)

theorem xdpAttachBindLocal_ensures {i : Nat} (hs : Stage os cfg h₀ pr h) (hobj : h₀.slot .obj = none)
    (hi : pr.bound .local = i) (hopen : i < pr.opened .local) :
    Attempt.Ensures (· = h) (xdpAttachBindLocal os i)
      (fun _ h' => LoadedOn .local i h.wanConfigMap h h' ∧ MappedTo .local i (h.queueCount .local i) h h')
      (Tidy cfg h₀) := by
  have hnone : h.slot (.bpf .local i) = none := by
    simpa [Progress.Holds, hi] using hs.held (.bpf .local i) rfl
  refine .read_bind (.read_bind (.bind (Q := fun _ => (· = h))
    (.check (fun s hh _ => hh) fun s hh _ => hh.symm ▸ hs.tidy) fun _ => .bind (Q := fun _ => (· = h))
    (.modify fun s hh => hh.symm ▸ Host.release_of_none hnone) fun _ => .bind
    ((openBpfObject_ensures _ _ hs.balanced ((hs.outside .obj rfl).trans hobj)).mono (fun _ hh => hh)
      (fun _ _ hld => hld) fun s hl => hs.tidy_of_ledger hl) fun _ => attach_ensures hs hi hopen))

/-- The EtherType map of the new object of a WAN interface. -/
def wanMap (os : Os) (i : Nat) (h : Host) : Nat → Nat :=
  if os.wanConfig i then Function.update h.wanConfigMap h.ledger.next neL2FakeEthertype else h.wanConfigMap

theorem xdpAttachBindWan_ensures {i : Nat} (hs : Stage os cfg h₀ pr h) (hobj : h₀.slot .obj = none)
    (hi : pr.bound .wan = i) (hopen : i < pr.opened .wan) :
    Attempt.Ensures (· = h) (xdpAttachBindWan os i)
      (fun _ h' => LoadedOn .wan i (wanMap os i h) h h' ∧ MappedTo .wan i (h.queueCount .wan i) h h')
      (Tidy cfg h₀) := by
  refine .read_bind (.read_bind (.bind (Q := fun _ => (· = h))
    (.check (fun s hh _ => hh) fun s hh _ => hh.symm ▸ hs.tidy) fun _ => .bind
    ((openBpfObject_ensures (h.ifname .wan i) _ hs.balanced ((hs.outside .obj rfl).trans hobj)).mono
      (fun _ hh => hh) (fun _ _ hld => hld) fun s hl => hs.tidy_of_ledger hl) fun _ => .bind
    (Q := fun _ => Loaded .wan i (h.ifname .wan i) (wanMap os i h) h)
    (.modify fun h₁ hld => ?_) fun _ => attach_ensures hs hi hopen))
  have hobj₁ : h₁.slot (.bpf .wan i) = some h.ledger.next := by rw [hld.slot, Function.update_self]
  rw [updateWanFakeEthertype, hobj₁, wanMap]
  by_cases hconf : os.wanConfig i = true
  · simp only [if_pos hconf]
    exact { hld with wanConfigMap := by rw [hld.wanConfigMap] }
  · simp only [if_neg hconf]
    exact hld

/-- The bound interfaces hand their frames to their sockets: the program of an interface
is that of the last one bound with its name, every object's XSKMAP has the sockets of its
interface, and a WAN object has the EtherType, if the map took it. -/
structure Redirects (os : Os) (cfg : AppConfig) (bound : NePacketDir → Nat) (h : Host) : Prop where
  mapped : ∀ d j n q, j < bound d → h.slot (.bpf d j) = some n → q < h.queueCount d j →
    h.xsksMap n q = h.slot (.xsk d j q)
  attached : ∀ d j, j < bound d → ∃ d' j', j' < bound d' ∧ cfg.ifname d' j' = cfg.ifname d j ∧
    h.xdp (cfg.ifname d j) = h.slot (.bpf d' j')
  tagged : ∀ j n, j < bound .wan → os.wanConfig j = true → h.slot (.bpf .wan j) = some n →
    h.wanConfigMap n = neL2FakeEthertype

/-- Binding one more interface. -/
theorem Redirects.step {dir : NePacketDir} {i : Nat} {w : Nat → Nat} {h' : Host}
    (hr : Redirects os cfg pr.bound h) (hs : Stage os cfg h₀ pr h) (hi : pr.bound dir = i)
    (hopen : i < pr.opened dir) (hld : LoadedOn dir i w h h')
    (hmap : MappedTo dir i (h.queueCount dir i) h h')
    (hnew : dir = .wan → os.wanConfig i = true → w h.ledger.next = neL2FakeEthertype)
    (hold : ∀ n, n ≠ h.ledger.next → w n = h.wanConfigMap n) :
    Redirects os cfg (pr.binding dir (i + 1)).bound h' := by
  have hbound : ∀ {d j}, j < (pr.binding dir (i + 1)).bound d → (d = dir ∧ j = i) ∨
      (¬(d = dir ∧ j = i) ∧ j < pr.bound d) := by
    intro d j hj
    by_cases hd : d = dir
    · subst hd
      simp only [Progress.binding, Function.update_self] at hj
      rcases Nat.lt_succ_iff_lt_or_eq.mp hj with hlt | heq
      · exact .inr ⟨fun hc => absurd hc.2 (Nat.ne_of_lt hlt), hi.symm ▸ hlt⟩
      · exact .inl ⟨rfl, heq⟩
    · simp only [Progress.binding, Function.update_of_ne hd] at hj
      exact .inr ⟨fun hc => hd hc.1, hj⟩
  have hmono : ∀ {d j}, j < pr.bound d → j < (pr.binding dir (i + 1)).bound d := by
    intro d j hj
    by_cases hd : d = dir
    · subst hd
      simp only [Progress.binding, Function.update_self]
      omega
    · simpa only [Progress.binding, Function.update_of_ne hd] using hj
  have hself : h'.slot (.bpf dir i) = some h.ledger.next := by rw [hld.slot, Function.update_self]
  have hkeep : ∀ p, p ≠ .bpf dir i → h'.slot p = h.slot p := fun p hp => by
    rw [hld.slot, Function.update_of_ne hp]
  have hother : ∀ {d j}, ¬(d = dir ∧ j = i) → h'.slot (.bpf d j) = h.slot (.bpf d j) := fun hd =>
    hkeep _ fun hc => by cases hc; exact hd ⟨rfl, rfl⟩
  have hfresh : ∀ {p n}, h.slot p = some n → n ≠ h.ledger.next := fun hp hn => by
    have hlt := hs.balanced.old _ ((hs.balanced.held _ _).mpr hp)
    exact absurd hlt (by simp [hn])
  refine ⟨fun d j n q hj hn hq => ?_, fun d j hj => ?_, fun j n hj hconf hn => ?_⟩
  · rw [hld.queueCount] at hq
    rw [hkeep _ (by simp)]
    rcases hbound hj with ⟨rfl, rfl⟩ | ⟨hne, hj⟩
    · rw [hself] at hn
      cases hn
      exact hmap q hq
    · rw [hother hne] at hn
      rw [hld.xsksMap n (hfresh hn)]
      exact hr.mapped d j n q hj hn hq
  · have hname := (hs.opened dir i hopen).1
    by_cases hsame : cfg.ifname d j = h.ifname dir i
    · refine ⟨dir, i, ?_, by rw [hsame, hname], by rw [hsame, hld.attached, hself]⟩
      simp [Progress.binding]
    · rcases hbound hj with ⟨rfl, rfl⟩ | ⟨_, hj⟩
      · exact absurd hname.symm hsame
      · obtain ⟨d', j', hj', heq, hxdp⟩ := hr.attached d j hj
        have hne : ¬(d' = dir ∧ j' = i) := by
          rintro ⟨rfl, rfl⟩
          exact hsame (heq.symm.trans hname.symm)
        exact ⟨d', j', hmono hj', heq, by rw [hld.xdp _ hsame, hxdp, hother hne]⟩
  · rw [hld.wanConfigMap]
    rcases hbound hj with ⟨rfl, rfl⟩ | ⟨hne, hj⟩
    · rw [hself] at hn
      cases hn
      exact hnew rfl hconf
    · rw [hother hne] at hn
      rw [hold n (hfresh hn)]
      exact hr.tagged j n hj hconf hn

/-- A pair with its first interfaces bound. -/
def BoundTo (os : Os) (cfg : AppConfig) (h₀ : Host) (pr : Progress) (h : Host) : Prop :=
  Stage os cfg h₀ pr h ∧ Redirects os cfg pr.bound h

/-- The loop over one side: `bind` is `xdp_attach_bind_local` or `xdp_attach_bind_wan`. -/
theorem bindIfaces_ensures {dir : NePacketDir} {bind : Nat → Attempt Host Unit} {w : Nat → Host → Nat → Nat}
    (hbind : ∀ {pr h i}, Stage os cfg h₀ pr h → pr.bound dir = i → i < pr.opened dir →
      Attempt.Ensures (· = h) (bind i)
        (fun _ h' => LoadedOn dir i (w i h) h h' ∧ MappedTo dir i (h.queueCount dir i) h h') (Tidy cfg h₀))
    (hnew : ∀ i h, dir = .wan → os.wanConfig i = true → w i h h.ledger.next = neL2FakeEthertype)
    (hold : ∀ i h n, n ≠ h.ledger.next → w i h n = h.wanConfigMap n) (hbound : pr.bound dir = 0) :
    Attempt.Ensures (BoundTo os cfg h₀ pr) (Attempt.forEach bind (List.range (pr.opened dir)))
      (fun _ => BoundTo os cfg h₀ (pr.binding dir (pr.opened dir))) (Tidy cfg h₀) := by
  have hrun := Attempt.Ensures.forRange (n := pr.opened dir) (E := Tidy cfg h₀)
    (f := bind) (I := fun i => BoundTo os cfg h₀ (pr.binding dir i)) fun i hi => ?_
  · rwa [Progress.binding_self hbound] at hrun
  intro h ⟨hs, hr⟩
  have hat : (pr.binding dir i).bound dir = i := by simp [Progress.binding]
  have hstep := hbind hs hat hi h rfl
  have hnext : (pr.binding dir i).binding dir (i + 1) = pr.binding dir (i + 1) := by
    simp [Progress.binding]
  refine ⟨fun _ h' hrun => ?_, hstep.2⟩
  obtain ⟨hld, hmap⟩ := hstep.1 _ h' hrun
  rw [← hnext]
  exact ⟨hld.toLoaded.stage hs hat hi (hs.scrubs hi),
    hr.step hs hat hi hld hmap (hnew i h) (hold i h)⟩

theorem bindLocals_ensures (hobj : h₀.slot .obj = none) (hbound : pr.bound .local = 0) :
    Attempt.Ensures (BoundTo os cfg h₀ pr)
      (Attempt.forEach (xdpAttachBindLocal os) (List.range (pr.opened .local)))
      (fun _ => BoundTo os cfg h₀ (pr.binding .local (pr.opened .local))) (Tidy cfg h₀) :=
  bindIfaces_ensures (w := fun _ h => h.wanConfigMap)
    (fun hs hi hopen => xdpAttachBindLocal_ensures hs hobj hi hopen)
    (fun _ _ hd => nomatch hd) (fun _ _ _ _ => rfl) hbound

theorem bindWans_ensures (hobj : h₀.slot .obj = none) (hbound : pr.bound .wan = 0) :
    Attempt.Ensures (BoundTo os cfg h₀ pr)
      (Attempt.forEach (xdpAttachBindWan os) (List.range (pr.opened .wan)))
      (fun _ => BoundTo os cfg h₀ (pr.binding .wan (pr.opened .wan))) (Tidy cfg h₀) := by
  refine bindIfaces_ensures (w := wanMap os)
    (fun hs hi hopen => xdpAttachBindWan_ensures hs hobj hi hopen) (fun i h _ hconf => ?_)
    (fun i h n hn => ?_) hbound
  · rw [wanMap, if_pos hconf, Function.update_self]
  · rw [wanMap]
    split
    · exact Function.update_of_ne hn _ _
    · rfl

/-- Everything is open and bound. -/
def Progress.done (cfg : AppConfig) : Progress := { Progress.full cfg with bound := cfg.used }

theorem xdpAttachAll_ensures (os : Os) (cfg : AppConfig) (hobj : h₀.slot .obj = none) :
    Attempt.Ensures (Stage os cfg h₀ (.full cfg)) (xdpAttachAll os)
      (fun _ => BoundTo os cfg h₀ (.done cfg)) (Tidy cfg h₀) := by
  intro h hs
  have hnone : Redirects os cfg (Progress.full cfg).bound h :=
    ⟨fun _ _ _ _ hj => absurd hj (Nat.not_lt_zero _), fun _ _ hj => absurd hj (Nat.not_lt_zero _),
      fun _ _ hj => absurd hj (Nat.not_lt_zero _)⟩
  have hdone : ((Progress.full cfg).binding .local (cfg.used .local)).binding .wan (cfg.used .wan) =
      .done cfg := by
    rw [Progress.binding, Progress.binding, Progress.done]
    congr 1
    exact Progress.update_sides _ _
  rw [xdpAttachAll, hs.count, ← hdone]
  exact Attempt.Ensures.bind (bindLocals_ensures hobj rfl) (fun _ => bindWans_ensures hobj rfl) h ⟨hs, hnone⟩

/-! ## rings -/

/-- After `h` the rings `rs` were made. -/
structure RingsMade (rs : List RingId) (h h' : Host) : Prop where
  balanced : h'.ledger.Balanced
  rings : ∀ r, h'.slot (.ring r) ≠ none ↔ r ∈ rs
  other : ∀ p, (∀ r, p ≠ .ring r) → h'.slot p = h.slot p
  host : { h' with ledger := h.ledger } = h

section sideRings

variable {f : Nat → Fin neCryptoWorkers → RingId} {n : Nat}

/-- The rings of the interfaces of a side. -/
def sideRings (f : Nat → Fin neCryptoWorkers → RingId) (n : Nat) : List RingId :=
  (List.range n).flatMap fun i => (List.finRange neCryptoWorkers).map (f i)

theorem mem_sideRings {r : RingId} : r ∈ sideRings f n ↔ ∃ i, i < n ∧ ∃ w, f i w = r := by
  simp [sideRings]

theorem sideRings_nodup (hf : ∀ i j w v, f i w = f j v → i = j ∧ w = v) : (sideRings f n).Nodup := by
  rw [sideRings, List.nodup_flatMap]
  refine ⟨fun i _ => (List.nodup_finRange _).map fun w v hwv => (hf i i w v hwv).2, ?_⟩
  refine List.nodup_range.imp fun {i j} hij => ?_
  intro r hr hr'
  obtain ⟨w, _, rfl⟩ := List.mem_map.mp hr
  obtain ⟨v, _, hv⟩ := List.mem_map.mp hr'
  exact hij (hf j i v w hv).1.symm

end sideRings

theorem mem_forwarderRings {localCount wanCount : Nat} {r : RingId} :
    r ∈ forwarderRings localCount wanCount ↔ match r with
      | .localToMid _ | .wanToMid _ => True
      | .midToLocal i _ => i < localCount
      | .midToWan i _ => i < wanCount := by
  change r ∈ _ ++ (sideRings .midToLocal localCount ++ sideRings .midToWan wanCount) ↔ _
  rw [List.mem_append, List.mem_append, mem_sideRings, mem_sideRings]
  cases r <;> simp

/-- `forwarder_cleanup` looks at every ring there can be. -/
theorem mem_cleanupRings {r : RingId} : r ∈ cleanupRings ↔ match r with
    | .localToMid _ | .wanToMid _ => True
    | .midToLocal i _ => i < maxInterfaces
    | .midToWan i _ => i < maxInterfaces := by
  change r ∈ _ ++ (sideRings .midToWan maxInterfaces ++ sideRings .midToLocal maxInterfaces) ↔ _
  rw [List.mem_append, List.mem_append, mem_sideRings, mem_sideRings]
  cases r <;> simp

theorem forwarderRings_nodup (localCount wanCount : Nat) : (forwarderRings localCount wanCount).Nodup := by
  have hworkers : ((List.finRange neCryptoWorkers).flatMap fun w =>
      [RingId.localToMid w, .wanToMid w]).Nodup := by decide
  have hlocal : (sideRings .midToLocal localCount).Nodup :=
    sideRings_nodup fun i j w v hwv => by cases hwv; exact ⟨rfl, rfl⟩
  have hwan : (sideRings .midToWan wanCount).Nodup :=
    sideRings_nodup fun i j w v hwv => by cases hwv; exact ⟨rfl, rfl⟩
  refine List.nodup_append.mpr ⟨hworkers, List.nodup_append.mpr ⟨hlocal, hwan, ?_⟩, ?_⟩
  · rintro r hr _ hr' rfl
    obtain ⟨i, _, w, rfl⟩ := mem_sideRings.mp hr
    obtain ⟨j, _, v, hv⟩ := mem_sideRings.mp hr'
    cases hv
  · rintro r hr _ hr' rfl
    obtain ⟨w, _, hw⟩ := List.mem_flatMap.mp hr
    rcases List.mem_append.mp hr' with hr' | hr' <;>
      obtain ⟨j, _, v, rfl⟩ := mem_sideRings.mp hr' <;> simp at hw

/-- `ne_ring_init` of a ring that was not made yet. -/
theorem neRingInit_ensures {done : List RingId} {r : RingId} {h₁ : Host} (hr : r ∉ done) :
    Attempt.Ensures (RingsMade done h₁) (neRingInit os r) (fun _ => RingsMade (done ++ [r]) h₁)
      (RingsMade done h₁) := by
  have hclear : ∀ h, RingsMade done h₁ h → { h with ledger := h.ledger.clear fun p => p == .ring r } = h := by
    intro h hm
    have hnone : h.slot (.ring r) = none := by simpa [hr] using hm.rings r
    rw [Ledger.clear_eq fun p hp => by rwa [beq_iff_eq.mp hp]]
  have hacquire : ∀ h, RingsMade done h₁ h → RingsMade (done ++ [r]) h₁ (h.acquire (.ring r)) := by
    intro h hm
    have hnone : h.slot (.ring r) = none := by simpa [hr] using hm.rings r
    refine ⟨hm.balanced.acquire hnone, fun r' => ?_, fun p hp => ?_, hm.host⟩
    · rw [Host.acquire_slot, List.mem_append, List.mem_singleton, Function.update_apply]
      by_cases hr' : r' = r
      · simp [hr']
      · simpa [hr'] using hm.rings r'
    · rw [Host.acquire_slot, Function.update_of_ne (hp r)]
      exact hm.other p hp
  have hrelease : ∀ h, RingsMade (done ++ [r]) h₁ h → RingsMade done h₁ (h.release (.ring r)) := by
    intro h hm
    refine ⟨hm.balanced.release _, fun r' => ?_, fun p hp => ?_, hm.host⟩
    · rw [Host.release_slot, Function.update_apply]
      by_cases hr' : r' = r
      · simp [hr', hr]
      · simpa [hr'] using hm.rings r'
    · rw [Host.release_slot, Function.update_of_ne (hp r)]
      exact hm.other p hp
  refine .bind (Q := fun _ => RingsMade done h₁) (.modify fun h hm => (hclear h hm).symm ▸ hm) fun _ =>
    .bind (Q := fun _ => RingsMade done h₁) (.check (fun h hm _ => hm) fun h hm _ => hm) fun _ =>
    .bind (Q := fun _ => RingsMade (done ++ [r]) h₁) (.modify hacquire) fun _ => ?_
  split
  · exact .bind (Q := fun _ => RingsMade done h₁) (.modify hrelease) fun _ => .fail fun h hm => hm
  · exact .pure fun h hm => hm

/-- Some of the rings were made when one fails. -/
theorem initRings_ensures (os : Os) {rs : List RingId} (hrs : rs.Nodup) {h₁ : Host} :
    Attempt.Ensures (RingsMade [] h₁) (initRings os rs) (fun _ => RingsMade rs h₁)
      (fun h => ∃ done, (∀ r ∈ done, r ∈ rs) ∧ RingsMade done h₁ h) := by
  refine Attempt.Ensures.forEach (I := fun done => RingsMade done h₁) fun done r rest hdone => ?_
  have hr : r ∉ done := by
    rw [← hdone, List.nodup_append] at hrs
    exact fun hmem => hrs.2.2 r hmem r (List.mem_cons_self ..) rfl
  refine (neRingInit_ensures hr).mono (fun _ hm => hm) (fun _ _ hm => hm) fun h hm => ⟨done, fun r' hr' => ?_, hm⟩
  rw [← hdone]
  exact List.mem_append_left _ hr'

/-! ## eventfds -/

/-- What `forwarder_init` and `main` rely on: nothing of the forwarder is held. -/
structure Fresh (h : Host) : Prop where
  balanced : h.ledger.Balanced
  fwd : ∀ p, p.inFwd = true → h.slot p = none
  efd : ∀ p, p.isEfd = true → h.slot p = none
  obj : h.slot .obj = none
  ready : h.ready = false

/-- The eventfds that could be made are held, and nothing else changed. -/
structure Woken (os : Os) (s h : Host) : Prop where
  balanced : h.ledger.Balanced
  efd : ∀ id, h.slot (.efd id) ≠ none ↔ id < neDpWakeN ∧ os.eventfd id = true
  other : ∀ p, p.isEfd = false → h.slot p = s.slot p
  ready : h.ready = true

theorem neDpIdleInit_spec (os : Os) {s : Host} (hs : Fresh s) :
    Woken os s (neDpIdleInit os s) ∧ (neDpIdleInit os s).xdp = s.xdp := by
  let ids := (List.range neDpWakeN).filter fun id => os.eventfd id
  have hefds : (ids.map Holder.efd).Nodup :=
    (List.nodup_range.filter _).map fun a b hab => by cases hab; rfl
  have hinit : neDpIdleInit os s =
      { s with ledger := s.ledger.acquireAll (ids.map .efd), ready := true } := by
    rw [neDpIdleInit, if_neg (by rw [hs.ready]; exact Bool.false_ne_true), Ledger.clear_eq hs.efd]
  have hnone : ∀ p ∈ ids.map Holder.efd, s.ledger.slot p = none := by
    intro p hp
    obtain ⟨id, _, rfl⟩ := List.mem_map.mp hp
    exact hs.efd _ rfl
  have hother : ∀ p, p ∉ ids.map Holder.efd → (s.ledger.acquireAll (ids.map .efd)).slot p = s.slot p :=
    fun p hp => Ledger.acquireAll_slot_of_notMem hp
  rw [hinit]
  refine ⟨⟨hs.balanced.acquireAll hefds hnone, fun id => ?_,
    fun p hp => hother p ?_, rfl⟩, rfl⟩
  · by_cases hid : id ∈ ids
    · refine ⟨fun _ => ?_, fun _ => Ledger.acquireAll_slot_ne_none hefds (List.mem_map_of_mem hid)⟩
      obtain ⟨hlt, hok⟩ := List.mem_filter.mp hid
      exact ⟨List.mem_range.mp hlt, hok⟩
    · have hslot := hother (.efd id) (by simpa using hid)
      rw [Host.slot, hslot, hs.efd _ rfl]
      refine ⟨fun hne => absurd rfl hne, fun hok => ?_⟩
      exact absurd (List.mem_filter.mpr ⟨List.mem_range.mpr hok.1, hok.2⟩) hid
  · intro hmem
    obtain ⟨id, _, rfl⟩ := List.mem_map.mp hmem
    cases hp

/-- The host is as before `forwarder_init`, but for the XDP programs of the configured
interfaces: they have none. -/
structure Undone (cfg : AppConfig) (s h : Host) : Prop where
  balanced : h.ledger.Balanced
  slot : h.slot = s.slot
  ready : h.ready = false
  scrubbed : ∀ name, cfg.Scrubs name → h.xdp name = none
  xdp : ∀ name, ¬cfg.Scrubs name → h.xdp name = s.xdp name

/-- A restored host can be initialized again. -/
theorem Undone.fresh {s h : Host} (hr : Undone cfg s h) (hs : Fresh s) : Fresh h where
  balanced := hr.balanced
  fwd p hp := by rw [hr.slot]; exact hs.fwd p hp
  efd p hp := by rw [hr.slot]; exact hs.efd p hp
  obj := by rw [hr.slot]; exact hs.obj
  ready := hr.ready

/-- The eventfds go after the pair. -/
theorem neDpIdleShutdown_spec {s h₁ h₂ : Host} (hs : Fresh s) (hw : Woken os s h₁)
    (hxdp : ∀ name, ¬cfg.Scrubs name → h₁.xdp name = s.xdp name) (hc : Closed cfg h₁ h₂) :
    Undone cfg s (neDpIdleShutdown h₂) := by
  have hready : h₂.ready = true := hc.ready.trans hw.ready
  rw [neDpIdleShutdown, if_neg (by rw [hready]; exact Bool.false_ne_true)]
  refine ⟨hc.balanced.releaseAll _, funext fun p => ?_, rfl, hc.scrubbed,
    fun name hname => (hc.xdp name hname).trans (hxdp name hname)⟩
  change (h₂.releaseAll _).slot p = s.slot p
  rw [Host.releaseAll_slot]
  by_cases hp : p ∈ (List.range neDpWakeN).map Holder.efd
  · obtain ⟨id, _, rfl⟩ := List.mem_map.mp hp
    rw [hs.efd _ rfl]
    exact if_pos hp
  · refine (if_neg hp).trans ?_
    by_cases hin : p.inPair = true
    · rw [hc.inside p hin, hs.fwd p]
      cases p <;> first | rfl | cases hin
    · rw [hc.outside p (Bool.not_eq_true _ ▸ hin)]
      by_cases hefd : p.isEfd = true
      · rw [hs.efd p hefd]
        by_contra hne
        cases p with
        | efd id => exact hp (List.mem_map_of_mem (List.mem_range.mpr ((hw.efd id).mp hne).1))
        | _ => cases hefd
      · exact hw.other p (Bool.not_eq_true _ ▸ hefd)

/-! ## `forwarder_init` and `forwarder_cleanup` -/

/-- Destroying rings: what is made of them is released. -/
theorem releaseRings_slot {h₂ h : Host} {made rs : List RingId} (hm : RingsMade made h₂ h)
    (hrs : ∀ r ∈ made, r ∈ rs) (hring : ∀ r, h₂.slot (.ring r) = none) (p : Holder) :
    (h.releaseAll (rs.map .ring)).slot p = h₂.slot p := by
  rw [Host.releaseAll_slot]
  by_cases hp : ∃ r, p = .ring r
  · obtain ⟨r, rfl⟩ := hp
    rw [hring r]
    by_cases hr : r ∈ rs
    · simp [hr]
    · have hnone : h.slot (.ring r) = none := by
        by_contra hne
        exact hr (hrs r ((hm.rings r).mp hne))
      simp [hnone]
  · have hp := not_exists.mp hp
    rw [← hm.other p hp]
    refine if_neg fun hmem => ?_
    obtain ⟨r, _, rfl⟩ := List.mem_map.mp hmem
    exact hp r rfl

theorem Tidy.releaseRings {h₁ h₂ : Host} {made rs : List RingId} (ht : Tidy cfg h₁ h₂)
    (hm : RingsMade made h₂ h) (hrs : ∀ r ∈ made, r ∈ rs) (hring : ∀ r, h₂.slot (.ring r) = none) :
    Tidy cfg h₁ (h.releaseAll (rs.map .ring)) := by
  have hslot := releaseRings_slot hm hrs hring
  have hcount := congrArg Host.count hm.host
  have hqueues := congrArg Host.queueCount hm.host
  refine ⟨hm.balanced.releaseAll _, fun p hp => (hslot p).trans (ht.outside p hp),
    fun d => hcount.symm ▸ ht.count_le d, fun d i q hheld => ?_, fun d i hheld => ?_,
    (congrArg Host.ready hm.host).trans ht.ready,
    fun name hname => (congrFun (congrArg Host.xdp hm.host) name).trans (ht.xdp name hname)⟩
  · rw [hslot] at hheld
    have hsock := ht.sockets d i q hheld
    rw [← hcount, ← hqueues] at hsock
    exact hsock
  · rw [hslot] at hheld
    have hprog := ht.programs d i hheld
    rw [← hcount] at hprog
    exact hprog

/-- `forwarder_cleanup` after an init that got at least as far as the pair. -/
theorem forwarderCleanup_spec {s h₁ h₂ : Host} {rs : List RingId} (hs : Fresh s) (hw : Woken os s h₁)
    (hxdp : ∀ name, ¬cfg.Scrubs name → h₁.xdp name = s.xdp name) (ht : Tidy cfg h₁ h₂)
    (hm : RingsMade rs h₂ h) (hrs : ∀ r ∈ rs, r ∈ cleanupRings) :
    Undone cfg s (forwarderCleanup os cfg h) := by
  -- before the rings, their variables were empty
  have hring : ∀ r, h₂.slot (.ring r) = none := fun r =>
    (ht.outside _ rfl).trans ((hw.other _ rfl).trans (hs.fwd _ rfl))
  exact neDpIdleShutdown_spec hs hw hxdp (nePairClose_spec os (ht.releaseRings hm hrs hring))

/-- After a `forwarder_init` that succeeds. -/
structure Running (os : Os) (cfg : AppConfig) (s h : Host) : Prop where
  balanced : h.ledger.Balanced
  woken : ∀ id, h.slot (.efd id) ≠ none ↔ id < neDpWakeN ∧ os.eventfd id = true
  rings : ∀ r, h.slot (.ring r) ≠ none ↔ r ∈ forwarderRings (cfg.used .local) (cfg.used .wan)
  held : ∀ p, p.inPair = true → (h.slot p ≠ none ↔ (Progress.done cfg).Holds os cfg p)
  interfaces : ∀ dir i, i < cfg.used dir → h.queueCount dir i = cfg.queues os dir i ∧
    h.ifname dir i = cfg.ifname dir i ∧ ifnameIsSafe (cfg.ifname dir i) = true
  redirects : Redirects os cfg cfg.used h
  restored : Undone cfg s (forwarderCleanup os cfg h)

/-- When the second check for a stop ends `forwarder_init`, the eventfds stay. -/
structure Stopped (os : Os) (cfg : AppConfig) (s h : Host) : Prop extends Woken os s h where
  scrubbed : ∀ name, cfg.Scrubs name → h.xdp name = none
  xdp : ∀ name, ¬cfg.Scrubs name → h.xdp name = s.xdp name

theorem forwarderReset_fresh {s : Host} (hs : Fresh s) :
    Fresh (forwarderReset s) ∧ (forwarderReset s).slot = s.slot := by
  have hreset : (forwarderReset s).ledger = s.ledger := Ledger.clear_eq hs.fwd
  have hslot : (forwarderReset s).slot = s.slot := congrArg Ledger.slot hreset
  refine ⟨⟨by rw [hreset]; exact hs.balanced, fun p hp => ?_, fun p hp => ?_, ?_, hs.ready⟩, hslot⟩
  · rw [hslot]; exact hs.fwd p hp
  · rw [hslot]; exact hs.efd p hp
  · rw [hslot]; exact hs.obj

/-- The state in which `forwarder_init` opens the pair. -/
theorem prepared_spec (os : Os) (cfg : AppConfig) {s : Host} (hs : Fresh s) :
    Stopped os cfg s (xdpAttachPrepareInit cfg (neDpIdleInit os (forwarderReset s))) := by
  obtain ⟨hs', hslot⟩ := forwarderReset_fresh hs
  obtain ⟨hw, hx⟩ := neDpIdleInit_spec os hs'
  rw [xdpAttachPrepareInit, xdpAttachDetachConfig_eq, xdpAttachDetachConfig_eq]
  refine ⟨⟨hw.balanced, hw.efd, fun p hp => (hw.other p hp).trans (congrFun hslot p), hw.ready⟩,
    fun name hname => if_pos hname, fun name hname => ?_⟩
  exact (if_neg hname).trans ((if_neg hname).trans (congrFun hx name))

/-- Rings do not disturb what is bound. -/
theorem Redirects.rings {h' : Host} {rs : List RingId} {bound : NePacketDir → Nat}
    (hr : Redirects os cfg bound h) (hm : RingsMade rs h h') : Redirects os cfg bound h' := by
  have hslot : ∀ p, p.inPair = true → h'.slot p = h.slot p := fun p hp =>
    hm.other p (by rintro r rfl; cases hp)
  have hqueues := congrArg Host.queueCount hm.host
  have hmaps := congrArg Host.xsksMap hm.host
  have hconfs := congrArg Host.wanConfigMap hm.host
  refine ⟨fun d j n q hj hn hq => ?_, fun d j hj => ?_, fun j n hj hconf hn => ?_⟩
  · rw [hslot _ rfl] at hn ⊢
    rw [show h'.queueCount = h.queueCount from hqueues] at hq
    rw [show h'.xsksMap = h.xsksMap from hmaps]
    exact hr.mapped d j n q hj hn hq
  · obtain ⟨d', j', hj', hname, hxdp⟩ := hr.attached d j hj
    refine ⟨d', j', hj', hname, ?_⟩
    rw [hslot _ rfl, ← hxdp]
    exact congrFun (congrArg Host.xdp hm.host) _
  · rw [hslot _ rfl] at hn
    rw [show h'.wanConfigMap = h.wanConfigMap from hconfs]
    exact hr.tagged j n hj hconf hn

/-- After the pair is open. -/
theorem forwarderInit_bind (os : Os) (cfg : AppConfig) {s h₁ h₂ : Host} (hs : Fresh s)
    (hw : Stopped os cfg s h₁) (hst : Stage os cfg h₁ (.full cfg) h₂) :
    (∃ h, xdpAttachAll os h₂ = (none, h) ∧ Undone cfg s (forwarderCleanup os cfg h)) ∨
    ∃ h, xdpAttachAll os h₂ = (some (), h) ∧ Undone cfg s (forwarderCleanup os cfg h) ∧
      ((∃ h', initRings os (forwarderRings (cfg.used .local) (cfg.used .wan)) h = (none, h') ∧
          Undone cfg s (forwarderCleanup os cfg h')) ∨
        ∃ h', initRings os (forwarderRings (cfg.used .local) (cfg.used .wan)) h = (some (), h') ∧
          Running os cfg s h') := by
  have hother : ∀ {p}, p.inFwd = true → p.isEfd = false → h₁.slot p = none := fun hp hefd =>
    (hw.other _ hefd).trans (hs.fwd _ hp)
  have hobj : h₁.slot .obj = none := (hw.other _ rfl).trans hs.obj
  have hnil : ∀ {h}, Tidy cfg h₁ h → RingsMade [] h h := fun ht =>
    ⟨ht.balanced, fun r => by simp [ht.outside (.ring r) rfl, hother (p := .ring r) rfl rfl],
      fun _ _ => rfl, rfl⟩
  have hclean : ∀ {rs h h'}, Tidy cfg h₁ h → RingsMade rs h h' → (∀ r ∈ rs, r ∈ cleanupRings) →
      Undone cfg s (forwarderCleanup os cfg h') := fun ht hm hrs =>
    forwarderCleanup_spec hs hw.toWoken hw.xdp ht hm hrs
  have hbind := xdpAttachAll_ensures os cfg hobj h₂ hst
  cases hres : xdpAttachAll os h₂ with
  | mk r h =>
      cases r with
      | none =>
          have ht := hbind.2 h hres
          exact .inl ⟨h, rfl, hclean ht (hnil ht) (by simp)⟩
      | some u =>
          obtain ⟨hst', hr⟩ := hbind.1 u h hres
          have ht := hst'.tidy
          refine .inr ⟨h, rfl, hclean ht (hnil ht) (by simp), ?_⟩
          have hsub : ∀ r ∈ forwarderRings (cfg.used .local) (cfg.used .wan), r ∈ cleanupRings := by
            intro r hr
            have hr := mem_forwarderRings.mp hr
            refine mem_cleanupRings.mpr ?_
            cases r with
            | localToMid | wanToMid => trivial
            | midToLocal | midToWan => exact Nat.lt_of_lt_of_le hr (Nat.min_le_right ..)
          have hrings := initRings_ensures os (forwarderRings_nodup (cfg.used .local) (cfg.used .wan))
            h (hnil ht)
          cases hinit : initRings os (forwarderRings (cfg.used .local) (cfg.used .wan)) h with
          | mk r h' =>
              cases r with
              | none =>
                  obtain ⟨made, hmade, hm⟩ := hrings.2 h' hinit
                  exact .inl ⟨h', rfl, hclean ht hm fun r hr => hsub r (hmade r hr)⟩
              | some u =>
                  have hm := hrings.1 u h' hinit
                  have hslot : ∀ p, (∀ r, p ≠ .ring r) → h'.slot p = h.slot p := hm.other
                  refine .inr ⟨h', rfl, ⟨hm.balanced, fun id => ?_, hm.rings, fun p hp => ?_, fun d i hi => ?_,
                    hr.rings hm, hclean ht hm hsub⟩⟩
                  · rw [hslot _ (by simp), ht.outside _ rfl, hw.efd]
                  · rw [hslot p (by rintro r rfl; cases hp), hst'.held p hp]
                  · obtain ⟨hq, hsafe⟩ := hst'.counted d i hi
                    refine ⟨?_, ?_, hsafe⟩
                    · exact (congrFun (congrFun (congrArg Host.queueCount hm.host) d) i).trans hq
                    · exact (congrFun (congrFun (congrArg Host.ifname hm.host) d) i).trans
                        (hst'.opened d i hi).1

/-- The four ends of `forwarder_init`. -/
theorem forwarderInit_spec (os : Os) (cfg : AppConfig) {s : Host} (hs : Fresh s) :
    ((cfg.count .local = 0 ∨ os.stop 0 = true) ∧ forwarderInit os cfg s = (false, s)) ∨
    ((cfg.count .local ≠ 0 ∧ os.stop 0 = false ∧ os.stop 1 = true) ∧
      ∃ h, forwarderInit os cfg s = (false, h) ∧ Stopped os cfg s h) ∨
    (os.stop 1 = false ∧ ∃ h, forwarderInit os cfg s = (false, h) ∧ Undone cfg s h) ∨
    (os.stop 1 = false ∧ ∃ h, forwarderInit os cfg s = (true, h) ∧ Running os cfg s h) := by
  rw [forwarderInit]
  by_cases hcount : cfg.count .local = 0
  · exact .inl ⟨.inl hcount, if_pos hcount⟩
  rw [if_neg hcount]
  by_cases hstop : os.stop 0 = true
  · exact .inl ⟨.inr hstop, if_pos hstop⟩
  rw [if_neg hstop]
  have hw := prepared_spec os cfg hs
  simp only []
  by_cases hstop₁ : os.stop 1 = true
  · rw [if_pos hstop₁]
    exact .inr (.inl ⟨⟨hcount, Bool.not_eq_true _ ▸ hstop, hstop₁⟩, _, rfl, hw⟩)
  rw [if_neg hstop₁]
  have hstop₁ : os.stop 1 = false := Bool.not_eq_true _ ▸ hstop₁
  have hfree : ∀ p, p.inPair = true → Host.slot _ p = none := fun p hp =>
    (hw.other p (by cases p <;> first | rfl | cases hp)).trans
      (hs.fwd p (by cases p <;> first | rfl | cases hp))
  rcases nePairOpen_spec os cfg hw.balanced hfree hcount with
    ⟨h₂, hopen, hst⟩ | ⟨h₂, hopen, hc⟩
  · simp only [hopen]
    rcases forwarderInit_bind os cfg hs hw hst with
      ⟨h, hbind, hr⟩ | ⟨h, hbind, hr, ⟨h', hinit, hr'⟩ | ⟨h', hinit, hr'⟩⟩
    · simp only [hbind]
      exact .inr (.inr (.inl ⟨hstop₁, _, rfl, hr⟩))
    · simp only [hbind, hinit]
      refine .inr (.inr (.inl ⟨hstop₁, ?_⟩))
      split
      · exact ⟨_, rfl, hr⟩
      · exact ⟨_, rfl, hr'⟩
    · simp only [hbind, hinit]
      split
      · exact .inr (.inr (.inl ⟨hstop₁, _, rfl, hr⟩))
      · exact .inr (.inr (.inr ⟨hstop₁, _, rfl, hr'⟩))
  · simp only [hopen]
    exact .inr (.inr (.inl ⟨hstop₁, _, rfl, neDpIdleShutdown_spec hs hw.toWoken hw.xdp hc⟩))

/-! ## whole runs -/

/-- A process that has nothing yet. -/
def Host.start : Host where
  ledger := .empty
  count _ := 0
  queueCount _ _ := 0
  ifname _ _ := []
  xdpSgEnabled _ _ := false
  live _ _ := false
  ready := false
  xdp _ := none
  xsksMap _ _ := none
  wanConfigMap _ := 0

theorem Host.start_fresh : Fresh Host.start :=
  ⟨Ledger.balanced_empty, fun _ _ => rfl, fun _ _ => rfl, rfl, rfl⟩

/-- Two queues an interface, and every call succeeds. -/
def Os.willing : Os where
  allocCfg := true
  allocFwd := true
  mtu9000 _ _ := true
  scryptInit := true
  stop _ := false
  eventfd _ := true
  rxQueues _ _ := 2
  found _ _ := true
  up _ _ := true
  mmap := true
  poolAlloc := true
  poolLock := true
  promisc _ _ := true
  umemCreate := true
  index _ _ _ := true
  xskCreate _ _ _ _ := true
  umemFd _ := false
  bindIndex _ _ := true
  bpfOpen _ _ := true
  bpfFind _ _ := true
  bpfFlags _ _ := true
  bpfLoad _ _ := true
  attach _ _ := true
  wanConfig _ := true
  xskmap _ _ _ := true
  ringAlloc _ := true
  ringLock _ := true

/-- One LAN and one WAN interface. -/
def AppConfig.pair : AppConfig := ⟨fun dir _ => staticIfname dir, fun _ => 1⟩

/-- When `forwarder_init` succeeds, every configured interface delivers: its object is live,
the XSKMAP of the object has a live socket of the pair for every queue, and the program
on the interface is that of the last configured interface with the same name, so its
own when the names differ.  All rings are made. -/
theorem forwarderInit_redirects {s : Host} (hs : Fresh s) (hok : (forwarderInit os cfg s).1 = true) :
    let h := (forwarderInit os cfg s).2
    (∀ dir i, i < cfg.used dir → ∃ n, (.bpf dir i, n) ∈ h.ledger.live ∧
      (0 < h.queueCount dir i ∧ h.queueCount dir i ≤ maxQueues) ∧
      (∀ q, q < h.queueCount dir i → ∃ x, (.xsk dir i q, x) ∈ h.ledger.live ∧ h.xsksMap n q = some x) ∧
      (dir = .wan → os.wanConfig i = true → h.wanConfigMap n = neL2FakeEthertype) ∧
      ∃ d j m, j < cfg.used d ∧ cfg.ifname d j = cfg.ifname dir i ∧ (.bpf d j, m) ∈ h.ledger.live ∧
        h.xdp (cfg.ifname dir i) = some m) ∧
    ∀ r ∈ forwarderRings (cfg.used .local) (cfg.used .wan), ∃ n, (.ring r, n) ∈ h.ledger.live := by
  intro h
  have hrun : Running os cfg s h := by
    rcases forwarderInit_spec os cfg hs with ⟨_, hend⟩ | ⟨_, h', hend, _⟩ | ⟨_, h', hend, _⟩ |
      ⟨_, h', hend, hr⟩
    · rw [hend] at hok; cases hok
    · rw [hend] at hok; cases hok
    · rw [hend] at hok; cases hok
    · rw [show h = h' from congrArg Prod.snd hend]
      exact hr
  have hlive : ∀ {p}, h.slot p ≠ none → ∃ n, h.slot p = some n ∧ (p, n) ∈ h.ledger.live := by
    intro p hp
    obtain ⟨n, hn⟩ := Option.ne_none_iff_exists'.mp hp
    exact ⟨n, hn, (hrun.balanced.held p n).mpr hn⟩
  have hbpf : ∀ dir i, i < cfg.used dir → h.slot (.bpf dir i) ≠ none := fun dir i hi =>
    (hrun.held (.bpf dir i) rfl).mpr hi
  refine ⟨fun dir i hi => ?_, fun r hr => ?_⟩
  · obtain ⟨n, hn, hmem⟩ := hlive (hbpf dir i hi)
    obtain ⟨hqueues, hname, _⟩ := hrun.interfaces dir i hi
    refine ⟨n, hmem, ?_, fun q hq => ?_, fun hdir hconf => ?_, ?_⟩
    · rw [hqueues]
      exact AppConfig.queues_bounds os cfg dir i
    · have hsock : h.slot (.xsk dir i q) ≠ none :=
        (hrun.held (.xsk dir i q) rfl).mpr ⟨hi, hqueues ▸ hq⟩
      obtain ⟨x, hx, hxmem⟩ := hlive hsock
      exact ⟨x, hxmem, (hrun.redirects.mapped dir i n q hi hn hq).trans hx⟩
    · subst hdir
      exact hrun.redirects.tagged i n hi hconf hn
    · obtain ⟨d, j, hj, hsame, hxdp⟩ := hrun.redirects.attached dir i hi
      obtain ⟨m, hm, hmmem⟩ := hlive (hbpf d j hj)
      exact ⟨d, j, m, hj, hsame, hmmem, hxdp.trans hm⟩
  · obtain ⟨n, _, hmem⟩ := hlive ((hrun.rings r).mpr hr)
    exact ⟨n, hmem⟩

/-- The program of the WAN interface is there, and live. -/
theorem forwarderInit_redirects_pair :
    ∃ n, (.bpf .wan 0, n) ∈ (forwarderInit .willing .pair Host.start).2.ledger.live :=
  have hok : (forwarderInit .willing .pair Host.start).1 = true := by decide +kernel
  ((forwarderInit_redirects Host.start_fresh hok).1 .wan 0 (by decide)).imp fun _ hn => hn.1

theorem Fresh.acquire {s : Host} (hs : Fresh s) {p : Holder} (hfwd : p.inFwd = false)
    (hefd : p.isEfd = false) (hobj : p ≠ .obj) (hnone : s.slot p = none) : Fresh (s.acquire p) where
  balanced := hs.balanced.acquire hnone
  fwd q hq := by
    rw [Host.acquire_slot, Function.update_of_ne (by rintro rfl; simp [hfwd] at hq)]
    exact hs.fwd q hq
  efd q hq := by
    rw [Host.acquire_slot, Function.update_of_ne (by rintro rfl; simp [hefd] at hq)]
    exact hs.efd q hq
  obj := by
    rw [Host.acquire_slot, Function.update_of_ne hobj.symm]
    exact hs.obj
  ready := hs.ready

end NetworkEncryptor
