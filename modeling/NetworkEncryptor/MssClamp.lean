import Mathlib.Tactic.SplitIfs
import NetworkEncryptor.EthParse
import NetworkEncryptor.Lib.OnesComplement

/-!
# NetworkEncryptor.MssClamp

What the MSS clamp does to the TCP checksum.

The receiver adds up the pseudo-header and the segment as 16-bit words
(`tcpSum`) and accepts when the sum folds to all ones.  The clamp replaces the
two MSS bytes and updates the checksum as for a replaced *word*: that is right
when the option's value fills a word of the segment, and wrong in general when
NOPs or options of odd length push it across two words.  `clamp_verifies_iff`
gives the exact condition.
-/

namespace NetworkEncryptor

/-! ## the segment and its sum -/

def ipIhl (pkt : Mem) : Nat := (pkt ethHeaderSize).toNat % 16 * 4

def ipTotalLen (pkt : Mem) : Nat := ethReadEt pkt (ethHeaderSize + 2)

def tcpStart (pkt : Mem) : Nat := ethHeaderSize + ipIhl pkt

def tcpDataOff (pkt : Mem) : Nat := (pkt (tcpStart pkt + 12)).toNat / 16 * 4

def tcpSegLen (pkt : Mem) : Nat := ipTotalLen pkt - ipIhl pkt

/-- The sum over the pseudo-header (both addresses, the protocol, the length of
the segment) and the whole segment, before folding. -/
def tcpSum (pkt : Mem) : Nat :=
  sum16 (pkt.read (ethHeaderSize + 12) 8) + (pkt (ethHeaderSize + 9)).toNat + tcpSegLen pkt +
    sum16 (pkt.read (tcpStart pkt) (tcpSegLen pkt))

/-- The frame holds a whole TCP segment, and its checksum verifies. -/
structure TcpVerifies (pkt : Mem) (pktLen : Nat) : Prop where
  header : ipIhl pkt + tcpDataOff pkt ≤ ipTotalLen pkt
  frame : ethHeaderSize + ipTotalLen pkt ≤ pktLen
  sum : onesFold (tcpSum pkt) = 0xFFFF

theorem tcpVerifies_iff {pkt : Mem} {pktLen : Nat} :
    TcpVerifies pkt pktLen ↔ ipIhl pkt + tcpDataOff pkt ≤ ipTotalLen pkt ∧
      ethHeaderSize + ipTotalLen pkt ≤ pktLen ∧ 0 < tcpSum pkt ∧ tcpSum pkt % 65535 = 0 := by
  constructor
  · intro h
    exact ⟨h.header, h.frame, onesFold_eq_iff.mp h.sum⟩
  · rintro ⟨hheader, hframe, hsum⟩
    exact ⟨hheader, hframe, onesFold_eq_iff.mpr hsum⟩

instance (pkt : Mem) (pktLen : Nat) : Decidable (TcpVerifies pkt pktLen) :=
  decidable_of_iff _ tcpVerifies_iff.symm

/-! ## the option list -/

/-- The options from `o` on lead, over NOPs and other options, to an MSS option
at offset `off` of the TCP header. -/
inductive MssOptionAt (pkt : Mem) (tcp optEnd : Nat) : Nat → Nat → Prop
  | here {o} (hkind : pkt (tcp + o) = 2) (hlen : pkt (tcp + o + 1) = 4) (hend : o + 4 ≤ optEnd) :
      MssOptionAt pkt tcp optEnd o o
  | nop {o off} (hkind : pkt (tcp + o) = 1) (h : MssOptionAt pkt tcp optEnd (o + 1) off) :
      MssOptionAt pkt tcp optEnd o off
  | skip {o off} (h0 : pkt (tcp + o) ≠ 0) (h1 : pkt (tcp + o) ≠ 1)
      (hlen : 2 ≤ (pkt (tcp + o + 1)).toNat) (hend : o + (pkt (tcp + o + 1)).toNat ≤ optEnd)
      (hmss : ¬(pkt (tcp + o) = 2 ∧ pkt (tcp + o + 1) = 4))
      (h : MssOptionAt pkt tcp optEnd (o + (pkt (tcp + o + 1)).toNat) off) :
      MssOptionAt pkt tcp optEnd o off

namespace MssOptionAt

variable {pkt : Mem} {tcp optEnd o off off' : Nat}

theorem bounds (h : MssOptionAt pkt tcp optEnd o off) : o ≤ off ∧ off + 4 ≤ optEnd := by
  induction h with
  | here _ _ hend => exact ⟨Nat.le_refl _, hend⟩
  | nop _ _ ih => omega
  | skip _ _ _ _ _ _ ih => omega

/-- An option list leads to one MSS option. -/
theorem unique (h : MssOptionAt pkt tcp optEnd o off) (h' : MssOptionAt pkt tcp optEnd o off') :
    off = off' := by
  induction h with
  | here hkind hlen _ =>
      cases h' with
      | here => rfl
      | nop hkind' _ => rw [hkind] at hkind'; cases hkind'
      | skip _ _ _ _ hmss _ => exact absurd ⟨hkind, hlen⟩ hmss
  | nop hkind _ ih =>
      cases h' with
      | here hkind' _ _ => rw [hkind] at hkind'; cases hkind'
      | nop _ h' => exact ih h'
      | skip _ h1 _ _ _ _ => exact absurd hkind h1
  | skip _ h1 _ _ hmss _ ih =>
      cases h' with
      | here hkind hlen _ => exact absurd ⟨hkind, hlen⟩ hmss
      | nop hkind _ => exact absurd hkind h1
      | skip _ _ _ _ _ h' => exact ih h'

end MssOptionAt

private theorem byte_eq_iff {b : UInt8} {n : Nat} (hn : n < 256) :
    b.toNat = n ↔ b = UInt8.ofNat n := by
  rw [← UInt8.toNat_inj, UInt8.toNat_ofNat_of_lt' hn]

/-- The walk stops at the option the list leads to. -/
theorem tcpMssOption_sound {pkt : Mem} {tcp optEnd fuel o off : Nat}
    (h : tcpMssOption pkt tcp optEnd fuel o = some off) : MssOptionAt pkt tcp optEnd o off := by
  induction fuel generalizing o with
  | zero => cases h
  | succ fuel ih =>
      simp only [tcpMssOption] at h
      split_ifs at h with _ h0 h1 hend hmss
      · exact .nop ((byte_eq_iff (by decide)).mp h1) (ih h)
      · cases h
        exact .here ((byte_eq_iff (by decide)).mp hmss.1) ((byte_eq_iff (by decide)).mp hmss.2.1)
          hmss.2.2
      · have hmss' : ¬(pkt (tcp + o) = 2 ∧ pkt (tcp + o + 1) = 4) := by
          rintro ⟨hk, hl⟩
          rw [hk, hl] at hmss
          rw [hl] at hend
          simp at hmss hend
          omega
        exact .skip (fun hk => h0 (by rw [hk]; rfl)) (fun hk => h1 (by rw [hk]; rfl))
          (by omega) (by omega) hmss' (ih h)

/-- The walk misses no option the list leads to: it takes a round for every option,
and every option takes a byte of the header. -/
theorem MssOptionAt.found {pkt : Mem} {tcp optEnd fuel o off : Nat}
    (h : MssOptionAt pkt tcp optEnd o off) (hfuel : optEnd ≤ fuel + o) :
    tcpMssOption pkt tcp optEnd fuel o = some off := by
  induction h generalizing fuel with
  | @here o hkind hlen hend =>
      obtain ⟨fuel, rfl⟩ := Nat.exists_eq_succ_of_ne_zero (show fuel ≠ 0 by omega)
      simp only [tcpMssOption, hkind, hlen]
      simp [show o + 1 < optEnd by omega, show ¬optEnd < o + 4 by omega, hend]
  | @nop o off hkind hat ih =>
      have hb := hat.bounds
      obtain ⟨fuel, rfl⟩ := Nat.exists_eq_succ_of_ne_zero (show fuel ≠ 0 by omega)
      simp [tcpMssOption, hkind, show o + 1 < optEnd by omega, ih (show optEnd ≤ fuel + (o + 1) by omega)]
  | @skip o off h0 h1 hlen hend hmss hat ih =>
      have hb := hat.bounds
      obtain ⟨fuel, rfl⟩ := Nat.exists_eq_succ_of_ne_zero (show fuel ≠ 0 by omega)
      have h0' : ¬(pkt (tcp + o)).toNat = 0 := fun hk => h0 ((byte_eq_iff (by decide)).mp hk)
      have h1' : ¬(pkt (tcp + o)).toNat = 1 := fun hk => h1 ((byte_eq_iff (by decide)).mp hk)
      have hmss' : ¬((pkt (tcp + o)).toNat = 2 ∧ (pkt (tcp + o + 1)).toNat = 4 ∧ o + 4 ≤ optEnd) :=
        fun h => hmss ⟨(byte_eq_iff (by decide)).mp h.1, (byte_eq_iff (by decide)).mp h.2.1⟩
      rw [tcpMssOption, if_pos (by omega)]
      simp only [if_neg h0', if_neg h1', if_neg hmss',
        if_neg (show ¬((pkt (tcp + o + 1)).toNat < 2 ∨ o + (pkt (tcp + o + 1)).toNat > optEnd) by omega)]
      exact ih (by omega)

theorem tcpMssOption_eq_some_iff {pkt : Mem} {tcp optEnd fuel o off : Nat} (hfuel : optEnd ≤ fuel + o) :
    tcpMssOption pkt tcp optEnd fuel o = some off ↔ MssOptionAt pkt tcp optEnd o off :=
  ⟨tcpMssOption_sound, fun h => h.found hfuel⟩

/-! ## what the clamp writes -/

/-- The value of the MSS option at offset `off` of the TCP header. -/
def mssAt (pkt : Mem) (off : Nat) : Nat := ethReadEt pkt (tcpStart pkt + off + 2)

/-- The largest MSS the clamp leaves for a path. -/
def clampCap (pkt : Mem) (pathMtu wireOverhead : Nat) : Nat :=
  mssCap pathMtu ((ipIhl pkt + 20 + wireOverhead) % 2 ^ 32)

/-- The frame after the clamp of a value `old` at offset `off`. -/
def clamped (pkt : Mem) (off cap : Nat) : Mem :=
  tcpChecksumReplaceWord
    (pkt.write (tcpStart pkt + off + 2) [UInt8.ofNat (cap / 256), UInt8.ofNat (cap % 256)])
    (tcpStart pkt) (mssAt pkt off) cap

/-- The frame reads as a TCP SYN the clamp applies to: every header field it
checks before it looks at the options. -/
structure SynHeader (pkt : Mem) (pktLen pathMtu wireOverhead : Nat) : Prop where
  mtu : 576 ≤ pathMtu
  ipv4 : 34 ≤ pktLen ∧ ethReadEt pkt 12 = ethPIp
  version : (pkt ethHeaderSize).toNat / 16 = 4
  proto : (pkt (ethHeaderSize + 9)).toNat = ipprotoTcp
  ihl : 20 ≤ ipIhl pkt ∧ tcpStart pkt + 20 ≤ pktLen
  syn : (pkt (tcpStart pkt + 13)).toNat / 2 % 2 ≠ 0
  dataOff : 20 ≤ tcpDataOff pkt ∧ tcpStart pkt + tcpDataOff pkt ≤ pktLen
  room : (ipIhl pkt + 20 + wireOverhead) % 2 ^ 32 < pathMtu

/-- A range the clamp may touch: bytes of the frame, and behind the fixed TCP
header only those of the header the data offset gives. -/
def ClampRange (pkt : Mem) (pktLen off n : Nat) : Prop :=
  off + n ≤ pktLen ∧ (off + n ≤ tcpStart pkt + 20 ∨ off + n ≤ tcpStart pkt + tcpDataOff pkt)

/-- The clamp rewrites the MSS option at offset `off`: the list leads to it, and
its value is above the cap. -/
structure Clamps (pkt : Mem) (pktLen pathMtu wireOverhead off : Nat) : Prop where
  header : SynHeader pkt pktLen pathMtu wireOverhead
  option : MssOptionAt pkt (tcpStart pkt) (tcpDataOff pkt) 20 off
  above : clampCap pkt pathMtu wireOverhead < mssAt pkt off

section spec

variable {pkt pkt' : Mem} {pktLen pathMtu wireOverhead off : Nat}

/-- The header fields, at the offsets of the source. -/
theorem headerFields (pkt : Mem) :
    ipIhl pkt = (pkt 14).toNat % 16 * 4 ∧ tcpStart pkt = 14 + (pkt 14).toNat % 16 * 4 ∧
      tcpDataOff pkt = (pkt (14 + (pkt 14).toNat % 16 * 4 + 12)).toNat / 16 * 4 := ⟨rfl, rfl, rfl⟩

/-- A frame that does not read as a SYN is left alone, with an error unless the SYN
flag is all that is missing. -/
theorem cryptoTcpClampMss_of_not_syn (h : ¬SynHeader pkt pktLen pathMtu wireOverhead) :
    ((cryptoTcpClampMss pkt pktLen pathMtu wireOverhead).1 = none ∨
        (pkt (tcpStart pkt + 13)).toNat / 2 % 2 = 0 ∧
          (cryptoTcpClampMss pkt pktLen pathMtu wireOverhead).1 = some false) ∧
      (cryptoTcpClampMss pkt pktLen pathMtu wireOverhead).2 = pkt := by
  unfold cryptoTcpClampMss
  cases hl3 : cryptoEthIpv4Offset pkt pktLen with
  | none => split_ifs <;> simp
  | some l3Off =>
      obtain ⟨rfl, hip⟩ := cryptoEthIpv4Offset_eq_some_iff.mp hl3
      obtain ⟨hi, ht, hd⟩ := headerFields pkt
      dsimp only
      split_ifs with hmtu _ hver hproto hihl hsyn hdata hroom
      all_goals try simp
      · rw [ht]; omega
      -- every check was passed
      exact absurd ⟨by omega, hip, not_not.mp hver, not_not.mp hproto, by omega, hsyn, by omega,
        by omega⟩ h

/-- Of a SYN, the option the walk stops at is replaced. -/
theorem SynHeader.clamp (h : SynHeader pkt pktLen pathMtu wireOverhead) :
    cryptoTcpClampMss pkt pktLen pathMtu wireOverhead =
      (tcpMssOption pkt (tcpStart pkt) (tcpDataOff pkt) (tcpDataOff pkt) 20).elim (some false, pkt)
        fun off =>
          (some (tcpReplaceMss pkt (tcpStart pkt) off (clampCap pkt pathMtu wireOverhead)).1,
            (tcpReplaceMss pkt (tcpStart pkt) off (clampCap pkt pathMtu wireOverhead)).2) := by
  obtain ⟨hmtu, hip, hver, hproto, hihl, hsyn, hdata, hroom⟩ := h
  obtain ⟨hi, ht, -⟩ := headerFields pkt
  rw [tcpDataOff] at hdata ⊢
  unfold cryptoTcpClampMss
  rw [if_neg (by omega), cryptoEthIpv4Offset_eq_some_iff.mpr ⟨rfl, hip⟩]
  dsimp only
  rw [if_neg (by omega), if_neg (not_not.mpr hver), if_neg (not_not.mpr hproto),
    if_neg (by omega), ← ht, if_neg hsyn, ← hi, if_neg (by omega), if_neg (by omega), clampCap]
  cases tcpMssOption pkt (tcpStart pkt) ((pkt (tcpStart pkt + 12)).toNat / 16 * 4)
    ((pkt (tcpStart pkt + 12)).toNat / 16 * 4) 20 <;> rfl

/-- The clamp writes where it finds a SYN with an MSS option above the cap. -/
theorem Clamps.clamp (h : Clamps pkt pktLen pathMtu wireOverhead off) :
    cryptoTcpClampMss pkt pktLen pathMtu wireOverhead =
      (some true, clamped pkt off (clampCap pkt pathMtu wireOverhead)) := by
  have hcap : ethReadEt pkt (tcpStart pkt + off + 2) > clampCap pkt pathMtu wireOverhead := h.above
  rw [h.header.clamp, h.option.found (by omega), Option.elim_some, tcpReplaceMss]
  simp only [if_pos hcap, if_pos (show clampCap pkt pathMtu wireOverhead ≠
    ethReadEt pkt (tcpStart pkt + off + 2) by omega)]
  rfl

/-- Of any other SYN it changes nothing. -/
theorem SynHeader.kept (h : SynHeader pkt pktLen pathMtu wireOverhead)
    (hnot : ∀ off, ¬Clamps pkt pktLen pathMtu wireOverhead off) :
    cryptoTcpClampMss pkt pktLen pathMtu wireOverhead = (some false, pkt) := by
  rw [h.clamp]
  cases hopt : tcpMssOption pkt (tcpStart pkt) (tcpDataOff pkt) (tcpDataOff pkt) 20 with
  | none => rfl
  | some off =>
      have hcap : ¬ethReadEt pkt (tcpStart pkt + off + 2) > clampCap pkt pathMtu wireOverhead :=
        fun habove => hnot off ⟨h, tcpMssOption_sound hopt, habove⟩
      simp only [Option.elim_some, tcpReplaceMss, if_neg hcap, ne_eq, not_true_eq_false, if_false]

/-- What a call does: it replaces one value, or changes nothing. -/
theorem cryptoTcpClampMss_cases (pkt : Mem) (pktLen pathMtu wireOverhead : Nat) :
    (∃ off, Clamps pkt pktLen pathMtu wireOverhead off ∧
        cryptoTcpClampMss pkt pktLen pathMtu wireOverhead =
          (some true, clamped pkt off (clampCap pkt pathMtu wireOverhead))) ∨
      ((∀ off, ¬Clamps pkt pktLen pathMtu wireOverhead off) ∧
        (cryptoTcpClampMss pkt pktLen pathMtu wireOverhead).1 ≠ some true ∧
        (cryptoTcpClampMss pkt pktLen pathMtu wireOverhead).2 = pkt) := by
  by_cases hclamps : ∃ off, Clamps pkt pktLen pathMtu wireOverhead off
  · obtain ⟨off, hoff⟩ := hclamps
    exact .inl ⟨off, hoff, hoff.clamp⟩
  · rw [not_exists] at hclamps
    refine .inr ⟨hclamps, ?_⟩
    by_cases hsyn : SynHeader pkt pktLen pathMtu wireOverhead
    · simp [hsyn.kept hclamps]
    · obtain ⟨hres, hkept⟩ := cryptoTcpClampMss_of_not_syn hsyn
      refine ⟨?_, hkept⟩
      rcases hres with h | ⟨-, h⟩ <;> simp [h]

/-- A call that changes the frame met a TCP segment with an MSS option above the
cap, and replaced its value. -/
theorem cryptoTcpClampMss_changed
    (h : cryptoTcpClampMss pkt pktLen pathMtu wireOverhead = (some true, pkt')) :
    ∃ off, Clamps pkt pktLen pathMtu wireOverhead off ∧
      pkt' = clamped pkt off (clampCap pkt pathMtu wireOverhead) := by
  rcases cryptoTcpClampMss_cases pkt pktLen pathMtu wireOverhead with ⟨off, hoff, heq⟩ | ⟨-, hne, -⟩
  · rw [heq, Prod.mk.injEq] at h
    exact ⟨off, hoff, h.2.symm⟩
  · simp [h] at hne

end spec

/-! ## the checksum afterwards -/

theorem foldCarries_spec {sum : Nat} (h : sum ≤ 3 * 65535) :
    foldCarries sum ≤ 65535 ∧ foldCarries sum % 65535 = sum % 65535 := by
  simp only [foldCarries]
  split_ifs <;> omega

theorem ethReadEt_le (pkt : Mem) (off : Nat) : ethReadEt pkt off ≤ 65535 := by
  have h0 := (pkt off).toNat_lt
  have h1 := (pkt (off + 1)).toNat_lt
  rw [ethReadEt]
  omega

/-- Two bytes a number is stored in read back as the number. -/
theorem wordBytes {n : Nat} (h : n ≤ 65535) :
    (UInt8.ofNat (n / 256)).toNat = n / 256 ∧ (UInt8.ofNat (n % 256)).toNat = n % 256 :=
  ⟨UInt8.toNat_ofNat_of_lt' (by change _ < 256; omega),
    UInt8.toNat_ofNat_of_lt' (by change _ < 256; omega)⟩

/-- The checksum the update stores: the old one, less the new value, plus the
value it replaced, modulo 65535. -/
theorem tcpChecksumReplaceWord_eq {pkt : Mem} {tcp oldWord newWord : Nat} (hne : oldWord ≠ newWord)
    (hold : oldWord ≤ 65535) (hnew : newWord ≤ 65535) :
    ∃ hc ≤ 65535, (hc + newWord) % 65535 = (ethReadEt pkt (tcp + 16) + oldWord) % 65535 ∧
      tcpChecksumReplaceWord pkt tcp oldWord newWord =
        pkt.write (tcp + 16) [UInt8.ofNat (hc / 256), UInt8.ofNat (hc % 256)] := by
  have hhc := ethReadEt_le pkt (tcp + 16)
  have hfold := foldCarries_spec
    (show (65535 - ethReadEt pkt (tcp + 16)) + (65535 - oldWord) + newWord ≤ 3 * 65535 by omega)
  exact ⟨65535 - foldCarries ((65535 - ethReadEt pkt (tcp + 16)) + (65535 - oldWord) + newWord),
    by omega, by omega, by rw [tcpChecksumReplaceWord, if_neg hne]⟩

/-- What two bytes count at offset `p` of the segment. -/
def share16 (p word : Nat) : Nat := weight16 p * (word / 256) + weight16 (p + 1) * (word % 256)

theorem share16_ethReadEt (m : Mem) (i p : Nat) :
    share16 p (ethReadEt m i) = weight16 p * (m i).toNat + weight16 (p + 1) * (m (i + 1)).toNat := by
  have h1 := (m (i + 1)).toNat_lt
  rw [share16, ethReadEt]
  congr 2 <;> omega

/-- Storing a word at offset `p` of the segment exchanges its share of the sum. -/
theorem sum16_write_word (m : Mem) {tcp p n word : Nat} (hp : p + 2 ≤ n) (hword : word ≤ 65535) :
    sum16 ((m.write (tcp + p) [UInt8.ofNat (word / 256), UInt8.ofNat (word % 256)]).read tcp n) +
        share16 p (ethReadEt m (tcp + p)) =
      sum16 (m.read tcp n) + share16 p word := by
  have h := @sum16_write m tcp p n (UInt8.ofNat (word / 256)) (UInt8.ofNat (word % 256)) hp
  rw [(wordBytes hword).1, (wordBytes hword).2] at h
  rw [share16_ethReadEt]
  exact h

section clamped

variable {pkt : Mem} {off cap : Nat}

/-- The bytes a clamp of the option at `off` writes: its value and the checksum. -/
def ClampedByte (pkt : Mem) (off i : Nat) : Prop :=
  (tcpStart pkt + off + 2 ≤ i ∧ i < tcpStart pkt + off + 4) ∨
    (tcpStart pkt + 16 ≤ i ∧ i < tcpStart pkt + 18)

theorem clamped_of_not_clampedByte {i : Nat} (h : ¬ClampedByte pkt off i) :
    clamped pkt off cap i = pkt i := by
  simp only [ClampedByte, not_or, not_and, Nat.not_lt] at h
  unfold clamped tcpChecksumReplaceWord
  split_ifs
  · rw [Mem.write_of_not_mem _ (by simp; omega)]
  · simp only
    rw [Mem.write_of_not_mem _ (by simp; omega), Mem.write_of_not_mem _ (by simp; omega)]

/-- The clamp writes into the segment only, behind the fixed TCP header fields. -/
theorem clamped_of_lt {i : Nat} (hi : i < tcpStart pkt + 16) (hoff : 20 ≤ off) :
    clamped pkt off cap i = pkt i :=
  clamped_of_not_clampedByte (by simp only [ClampedByte]; omega)

variable (hihl : 20 ≤ ipIhl pkt) (hoff : 20 ≤ off)

include hihl hoff

/-- The clamp keeps every header field the receiver finds the segment by. -/
theorem clamped_header :
    ipIhl (clamped pkt off cap) = ipIhl pkt ∧ tcpStart (clamped pkt off cap) = tcpStart pkt ∧
      tcpDataOff (clamped pkt off cap) = tcpDataOff pkt ∧
      ipTotalLen (clamped pkt off cap) = ipTotalLen pkt := by
  have hbyte : ∀ i < tcpStart pkt + 16, clamped pkt off cap i = pkt i :=
    fun i hi => clamped_of_lt hi hoff
  have hihl' : ipIhl (clamped pkt off cap) = ipIhl pkt := by
    rw [ipIhl, ipIhl, hbyte _ (by rw [tcpStart]; omega)]
  have hstart : tcpStart (clamped pkt off cap) = tcpStart pkt := by rw [tcpStart, tcpStart, hihl']
  refine ⟨hihl', hstart, ?_, ?_⟩
  · rw [tcpDataOff, tcpDataOff, hstart, hbyte _ (by omega)]
  · rw [ipTotalLen, ipTotalLen]
    exact ethReadEt_congr (hbyte _ (by rw [tcpStart]; omega)) (hbyte _ (by rw [tcpStart]; omega))

/-- The clamp keeps the pseudo-header and exchanges two shares of the segment's
sum: the checksum's and the option's. -/
theorem tcpSum_clamped (hend : off + 4 ≤ tcpSegLen pkt) (hcap : cap < mssAt pkt off) :
    ∃ hc, (hc + cap) % 65535 = (ethReadEt pkt (tcpStart pkt + 16) + mssAt pkt off) % 65535 ∧
      tcpSum (clamped pkt off cap) +
          (ethReadEt pkt (tcpStart pkt + 16) + share16 (off + 2) (mssAt pkt off)) =
        tcpSum pkt + (hc + share16 (off + 2) cap) := by
  have hold : mssAt pkt off ≤ 65535 := ethReadEt_le pkt _
  let m := pkt.write (tcpStart pkt + off + 2) [UInt8.ofNat (cap / 256), UInt8.ofNat (cap % 256)]
  have hck : ethReadEt m (tcpStart pkt + 16) = ethReadEt pkt (tcpStart pkt + 16) :=
    ethReadEt_congr (Mem.write_of_not_mem _ (by omega)) (Mem.write_of_not_mem _ (by omega))
  obtain ⟨hc, hle, hmod, heq⟩ := @tcpChecksumReplaceWord_eq m (tcpStart pkt) (mssAt pkt off) cap
    (by omega) hold (by omega)
  obtain ⟨hihl', hstart, -, htot⟩ := @clamped_header pkt off cap hihl hoff
  have hseglen : tcpSegLen (clamped pkt off cap) = tcpSegLen pkt := by
    rw [tcpSegLen, tcpSegLen, htot, hihl']
  have hproto : clamped pkt off cap (ethHeaderSize + 9) = pkt (ethHeaderSize + 9) :=
    clamped_of_lt (by rw [tcpStart]; omega) hoff
  have haddr : (clamped pkt off cap).read (ethHeaderSize + 12) 8 = pkt.read (ethHeaderSize + 12) 8 :=
    Mem.read_eq_read_iff.mpr fun i hi => clamped_of_lt (by rw [tcpStart]; omega) hoff
  have hsum : sum16 ((clamped pkt off cap).read (tcpStart pkt) (tcpSegLen pkt)) +
      share16 16 (ethReadEt m (tcpStart pkt + 16)) =
        sum16 (m.read (tcpStart pkt) (tcpSegLen pkt)) + share16 16 hc := by
    rw [clamped, heq]
    exact sum16_write_word m (by omega) hle
  have hmss : sum16 (m.read (tcpStart pkt) (tcpSegLen pkt)) + share16 (off + 2) (mssAt pkt off) =
      sum16 (pkt.read (tcpStart pkt) (tcpSegLen pkt)) + share16 (off + 2) cap :=
    @sum16_write_word pkt (tcpStart pkt) (off + 2) (tcpSegLen pkt) cap (by omega) (by omega)
  have hword : ∀ word, share16 16 word = word := by
    intro word
    simp [share16, weight16]
    omega
  rw [hck, hword, hword] at hsum
  rw [hck] at hmod
  refine ⟨hc, hmod, ?_⟩
  rw [tcpSum, tcpSum, haddr, hproto, hseglen, hstart]
  omega

end clamped

/-- A share of an option at an even offset is its value; at an odd offset the
two bytes trade places, which modulo 65535 changes nothing exactly when the two
values agree modulo 257. -/
theorem share16_balanced_iff (p old new : Nat) :
    (share16 p old + new) % 65535 = (share16 p new + old) % 65535 ↔
      p % 2 = 0 ∨ old % 257 = new % 257 := by
  rcases Nat.mod_two_eq_zero_or_one p with h | h
  · have h' : ¬(p + 1) % 2 = 0 := by omega
    simp only [share16, weight16, if_pos h, if_neg h']
    omega
  · have h' : (p + 1) % 2 = 0 := by omega
    simp only [share16, weight16, if_pos h', if_neg (show ¬p % 2 = 0 by omega)]
    omega

/-- The clamp keeps a verifying checksum verifying exactly when the value of the
MSS option starts at an even offset of the segment, or the old and the new
value agree modulo 257. -/
theorem clamp_verifies_iff {pkt pkt' : Mem} {pktLen pathMtu wireOverhead : Nat}
    (hcall : cryptoTcpClampMss pkt pktLen pathMtu wireOverhead = (some true, pkt'))
    (hbefore : TcpVerifies pkt pktLen) :
    TcpVerifies pkt' pktLen ↔
      ∃ off, MssOptionAt pkt (tcpStart pkt) (tcpDataOff pkt) 20 off ∧
        (off % 2 = 0 ∨ mssAt pkt off % 257 = clampCap pkt pathMtu wireOverhead % 257) := by
  obtain ⟨off, ⟨hsyn, hat, hcap⟩, rfl⟩ := cryptoTcpClampMss_changed hcall
  obtain ⟨hihl, -⟩ := hsyn.ihl
  have hproto : (pkt (ethHeaderSize + 9)).toNat = 6 := hsyn.proto
  obtain ⟨hoff, hend⟩ := hat.bounds
  have hseg : off + 4 ≤ tcpSegLen pkt := by
    have := hbefore.header
    rw [tcpSegLen]
    omega
  obtain ⟨hc, hmod, hsum⟩ := tcpSum_clamped hihl hoff hseg hcap
  obtain ⟨hihl', hstart, hdata, htot⟩ :=
    @clamped_header pkt off (clampCap pkt pathMtu wireOverhead) hihl hoff
  have hpos : 0 < tcpSum (clamped pkt off (clampCap pkt pathMtu wireOverhead)) := by
    have hkeep := @clamped_of_lt pkt off (clampCap pkt pathMtu wireOverhead) (ethHeaderSize + 9)
      (by rw [tcpStart]; omega) hoff
    rw [tcpSum, hkeep]
    omega
  have hzero := (onesFold_eq_iff.mp hbefore.sum).2
  have hiff : onesFold (tcpSum (clamped pkt off (clampCap pkt pathMtu wireOverhead))) = 0xFFFF ↔
      off % 2 = 0 ∨ mssAt pkt off % 257 = clampCap pkt pathMtu wireOverhead % 257 := by
    have hbal := share16_balanced_iff (off + 2) (mssAt pkt off) (clampCap pkt pathMtu wireOverhead)
    rw [Nat.add_mod_right] at hbal
    rw [← hbal, onesFold_eq_iff]
    omega
  constructor
  · intro hafter
    exact ⟨off, hat, hiff.mp hafter.sum⟩
  · rintro ⟨off', hat', hcond⟩
    obtain rfl := hat.unique hat'
    exact ⟨by rw [hihl', hdata, htot]; exact hbefore.header, by rw [htot]; exact hbefore.frame,
      hiff.mpr hcond⟩

/-- A SYN of a jumbo host: MSS 8960 right behind the fixed TCP header. -/
def alignedSyn : Mem := Mem.ofList
  ([0x02, 0x00, 0x00, 0x00, 0x00, 0x02, 0x02, 0x00, 0x00, 0x00, 0x00, 0x01, 0x08, 0x00] ++
    [0x45, 0x00, 0x00, 0x2c, 0x00, 0x01, 0x00, 0x00, 0x40, 0x06, 0x66, 0xc9, 0x0a, 0x00, 0x00,
      0x01, 0x0a, 0x00, 0x00, 0x02] ++
    [0x9c, 0x40, 0x00, 0x50, 0x00, 0x00, 0x00, 0x01, 0x00, 0x00, 0x00, 0x00, 0x60, 0x02, 0xff,
      0xff, 0xca, 0x46, 0x00, 0x00] ++ [0x02, 0x04, 0x23, 0x00])

/-- The clamp of a usual SYN, with the MTU and the overhead of the egress path. -/
theorem clamp_verifies_aligned :
    TcpVerifies (cryptoTcpClampMss alignedSyn 58 l2CryptoMtu l2CryptoDataOverhead).2 58 := by
  have hchanged : (cryptoTcpClampMss alignedSyn 58 l2CryptoMtu l2CryptoDataOverhead).1 = some true := by
    decide +kernel
  have hbefore : TcpVerifies alignedSyn 58 := by decide +kernel
  have hstart : tcpStart alignedSyn = 34 ∧ tcpDataOff alignedSyn = 24 := by decide +kernel
  have hopt : MssOptionAt alignedSyn 34 24 20 20 := .here (by decide) (by decide) (by decide)
  generalize hcall : cryptoTcpClampMss alignedSyn 58 l2CryptoMtu l2CryptoDataOverhead = r
    at hchanged ⊢
  obtain ⟨changed, pkt'⟩ := r
  obtain rfl := hchanged
  rw [clamp_verifies_iff hcall hbefore, hstart.1, hstart.2]
  exact ⟨20, hopt, .inl rfl⟩

/-- The same SYN with a NOP in front of the MSS option. -/
def nopSyn : Mem := Mem.ofList
  ([0x02, 0x00, 0x00, 0x00, 0x00, 0x02, 0x02, 0x00, 0x00, 0x00, 0x00, 0x01, 0x08, 0x00] ++
    [0x45, 0x00, 0x00, 0x30, 0x00, 0x01, 0x00, 0x00, 0x40, 0x06, 0x66, 0xc5, 0x0a, 0x00, 0x00,
      0x01, 0x0a, 0x00, 0x00, 0x02] ++
    [0x9c, 0x40, 0x00, 0x50, 0x00, 0x00, 0x00, 0x01, 0x00, 0x00, 0x00, 0x00, 0x70, 0x02, 0xff,
      0xff, 0xda, 0x21, 0x00, 0x00] ++ [0x01, 0x02, 0x04, 0x23, 0x00, 0x00, 0x00, 0x00])

/-- The clamp spoils the checksum of a SYN whose MSS value crosses two words. -/
theorem clamp_spoils_checksum :
    (cryptoTcpClampMss nopSyn 62 l2CryptoMtu l2CryptoDataOverhead).1 = some true ∧
      TcpVerifies nopSyn 62 ∧
      ¬TcpVerifies (cryptoTcpClampMss nopSyn 62 l2CryptoMtu l2CryptoDataOverhead).2 62 := by
  decide +kernel

end NetworkEncryptor
