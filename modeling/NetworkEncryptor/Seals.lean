import NetworkEncryptor.Egress

/-!
# NetworkEncryptor.Seals

What `dataplane_process_local` encrypts, on every path, also on those that give
up after an encryption: the parts of the frame it was given, in the four forms
of `PlainOf`, and nothing else.
-/

namespace NetworkEncryptor

open Attempt

/-- What a frame is encrypted as. -/
inductive PlainOf (frame : List UInt8) : List UInt8 → Prop
  | data : PlainOf frame ((clampedFrame frame).drop 12)
  | full (dg) : frameProto frame = .udp → PlainOf frame (l2UdpShim .full dg ++ frame.drop 14)
  | frag0 (dg) : frameProto frame = .udp →
      PlainOf frame (l2UdpShim .frag0 dg ++ (frame.drop 14).take 8954)
  | frag1 (dg) : frameProto frame = .udp →
      PlainOf frame (l2UdpShim .frag1 dg ++ frame.drop 8968)

/-- Every encryption recorded between two states of a thread satisfies `Φ`. -/
def SealsOnly (Φ : Sealed → Prop) (s s' : L2State) : Prop :=
  ∃ new, s'.sealed = s.sealed ++ new ∧ ∀ e ∈ new, Φ e

section SealsOnly

variable {Φ : Sealed → Prop} {s s' s'' : L2State}

theorem SealsOnly.of_eq (h : s'.sealed = s.sealed) : SealsOnly Φ s s' :=
  ⟨[], by rw [h, List.append_nil], fun e he => by cases he⟩

theorem SealsOnly.trans (h : SealsOnly Φ s s') (h' : SealsOnly Φ s' s'') : SealsOnly Φ s s'' := by
  obtain ⟨new, hs, hall⟩ := h
  obtain ⟨new', hs', hall'⟩ := h'
  refine ⟨new ++ new', by rw [hs', hs, List.append_assoc], fun e he => ?_⟩
  rcases List.mem_append.mp he with hm | hm
  · exact hall e hm
  · exact hall' e hm

end SealsOnly

section Encoders

variable {env : Env} {ctx : PacketCryptoCtx} {packet : Mem} {pktLen fake plainLen : Nat}
  {mk : List UInt8} {s s' : L2State} {Φ : Sealed → Prop}

/-- A tail that failed has recorded nothing. -/
theorem sealed_of_sealTail_none (h : sealTail env ctx packet fake mk plainLen s = (none, s')) :
    s'.sealed = s.sealed := by
  rw [sealTail] at h
  rcases bind_eq_none_iff.mp h with h0 | ⟨key, s1, hload, h1⟩
  · rw [(ofOption_eq_none_iff.mp h0).2]
  · obtain ⟨-, rfl⟩ := ofOption_eq_some_iff.mp hload
    rcases bind_eq_none_iff.mp h1 with h1 | ⟨nonce, s2, hgen, h2⟩
    · have hs : (cryptoPqcGenerateNonce env s1).2 = s' := congrArg Prod.snd h1
      rw [← hs]; rfl
    · have hs2 : s2.sealed = s1.sealed := by
        have hs : (cryptoPqcGenerateNonce env s1).2 = s2 := congrArg Prod.snd hgen
        rw [← hs]; rfl
      rcases bind_eq_none_iff.mp h2 with h2 | ⟨pk, s3, hhdr, h3⟩
      · cases h2
      · obtain ⟨-, rfl⟩ := read_eq_some_iff.mp hhdr
        rw [← hs2]
        rcases bind_eq_none_iff.mp h3 with h3 | ⟨r, s4, hcall, h4⟩
        · rcases bind_eq_none_iff.mp h3 with h3 | ⟨r, s4, -, h4⟩
          · rw [(ofOption_eq_none_iff.mp h3).2]
          · cases h4
        · cases h4

/-- The tail records the encryption of the plaintext it was given, or nothing. -/
theorem sealsOnly_sealTail
    (hΦ : ∀ nonce c t, Φ ⟨ctx.key, nonce, packet.read (27 + mk.length) plainLen, c, t⟩) :
    Attempt.Within (SealsOnly Φ) (sealTail env ctx packet fake mk plainLen) := by
  intro s
  cases h : sealTail env ctx packet fake mk plainLen s with
  | mk r s' =>
      cases r with
      | none => exact .of_eq (sealed_of_sealTail_none h)
      | some r =>
          obtain ⟨nonce, c, t, hs, -, -⟩ := sealTail_eq_some h
          refine ⟨[⟨ctx.key, nonce, packet.read (27 + mk.length) plainLen, c, t⟩], ?_, fun e he => ?_⟩
          · dsimp only; rw [hs.state]
          · rw [List.mem_singleton] at he
            rw [he]
            exact hΦ nonce c t

theorem sealsOnly_check (c : Prop) [Decidable c] :
    Attempt.Within (SealsOnly Φ) (Attempt.check c : Attempt L2State Unit) :=
  Attempt.Within.check (fun _ => .of_eq rfl) c

theorem sealsOnly_txMeta (env : Env) : Attempt.Within (SealsOnly Φ) (l2CryptoUdpTxMeta env) := by
  intro s
  rw [l2CryptoUdpTxMeta_apply]
  by_cases hv : s.udpTxValid = true
  · rw [if_pos hv]; exact .of_eq rfl
  · rw [if_neg hv]; exact .of_eq rfl

/-- Chaining for encoders. -/
theorem sealsOnly_bind {α β : Type} {x : Attempt L2State α} {f : α → Attempt L2State β}
    (hx : Attempt.Within (SealsOnly Φ) x) (hf : ∀ a, Attempt.Within (SealsOnly Φ) (f a)) :
    Attempt.Within (SealsOnly Φ) (x >>= f) := Attempt.Within.bind (fun _ _ _ h h' => h.trans h') hx hf

/-- The DATA encoder. -/
theorem sealsOnly_l2TcpEncrypt (het : cryptoEthL2PrefixLen packet pktLen = some 12)
    (hlen : 27 ≤ pktLen)
    (hΦ : ∀ nonce c t, Φ ⟨ctx.key, nonce, packet.read 12 (pktLen - 12), c, t⟩) :
    Attempt.Within (SealsOnly Φ) (l2TcpEncrypt env ctx packet pktLen) := by
  rw [l2TcpEncrypt, ofOption_some_bind het, l2DoEncrypt_eq_sealTail het hlen]
  refine sealsOnly_bind (sealsOnly_check _) fun _ => sealsOnly_sealTail fun nonce c t => ?_
  rw [List.length_nil, Nat.add_zero, Mem.move, Mem.read_write_self _ (by simp)]
  exact hΦ nonce c t

/-- The FULL encoder. -/
theorem sealsOnly_l2UdpEncrypt (hip : cryptoPktIsIpv4 packet pktLen = true)
    (hlen : pktLen + 46 ≤ neJumboFrameMax)
    (hΦ : ∀ dg nonce c t,
      Φ ⟨ctx.key, nonce, l2UdpShim .full dg ++ packet.read 14 (pktLen - 14), c, t⟩) :
    Attempt.Within (SealsOnly Φ) (l2UdpEncrypt env ctx packet pktLen) := by
  obtain ⟨h34, het⟩ := cryptoPktIsIpv4_iff.mp hip
  have hoff : cryptoEthIpv4Offset packet pktLen = some 14 :=
    cryptoEthIpv4Offset_eq_some_iff.mpr ⟨rfl, h34, het⟩
  have hetOff : cryptoEthL2PrefixLen packet pktLen = some 12 :=
    cryptoEthInnerEtOff_eq_some_iff.mpr ⟨rfl, by omega, .inl het⟩
  rw [l2UdpEncrypt, hip, if_neg (by simp), ofOption_some_bind hoff, ofOption_some_bind hetOff,
    l2DoEncryptUdp_eq_sealTail hip hlen]
  refine sealsOnly_bind (sealsOnly_check _) fun _ => sealsOnly_bind (sealsOnly_txMeta env) fun dg => ?_
  refine sealsOnly_sealTail fun nonce c t => ?_
  rw [length_l2UdpMarker, Mem.move, (read_shimmed packet .full dg (Mem.length_read ..)).1]
  exact hΦ dg nonce c t

/-- A datagram that cannot be split is refused before anything is encrypted. -/
theorem sealed_of_not_splittable {frag0Max frag1Max : Nat} {frag1 : Mem}
    (hno : ¬ Splittable packet pktLen) :
    (l2Split env ctx packet pktLen frag0Max frag1 frag1Max s).2.sealed = s.sealed := by
  cases h : l2Split env ctx packet pktLen frag0Max frag1 frag1Max s with
  | mk r s' =>
      cases r with
      | some r => exact absurd (splittable_of_l2Split h) hno
      | none =>
          rw [l2Split] at h
          rcases bind_eq_none_iff.mp h with h0 | ⟨l3Off, s1, ho, h1⟩
          · rw [(ofOption_eq_none_iff.mp h0).2]
          obtain ⟨hoff, rfl⟩ := ofOption_eq_some_iff.mp ho
          obtain ⟨rfl, h34, het⟩ := cryptoEthIpv4Offset_eq_some_iff.mp hoff
          rcases bind_eq_none_iff.mp h1 with h1 | ⟨_, s2, hc2, h2⟩
          · rw [(check_eq_none_iff.mp h1).2]
          obtain ⟨⟨hver, hihl, hroom⟩, rfl⟩ := check_eq_some_iff.mp hc2
          rcases bind_eq_none_iff.mp h2 with h2 | ⟨_, s3, hc3, h3⟩
          · rw [(check_eq_none_iff.mp h2).2]
          obtain ⟨hproto, rfl⟩ := check_eq_some_iff.mp hc3
          rcases bind_eq_none_iff.mp h3 with h3 | ⟨_, s4, hc4, h4⟩
          · rw [(check_eq_none_iff.mp h3).2]
          obtain ⟨hlen8, rfl⟩ := check_eq_some_iff.mp hc4
          rcases bind_eq_none_iff.mp h4 with h4 | ⟨_, s5, hc5, -⟩
          · rw [(check_eq_none_iff.mp h4).2]
          obtain ⟨happ, -⟩ := check_eq_some_iff.mp hc5
          exact absurd ⟨cryptoPktIsIpv4_iff.mpr ⟨h34, het⟩, hver, by omega, hproto, by omega⟩ hno

/-- The split: the second fragment, then the first. -/
theorem sealsOnly_l2Split {frag0Max frag1Max : Nat} {frag1 : Mem}
    (hmax0 : 60 + splitPoint pktLen ≤ frag0Max)
    (hmax1 : 60 + (pktLen - 14 - splitPoint pktLen) ≤ frag1Max)
    (hΦ1 : ∀ dg nonce c t, Φ ⟨ctx.key, nonce, l2UdpShim .frag1 dg ++
      packet.read (14 + splitPoint pktLen) (pktLen - 14 - splitPoint pktLen), c, t⟩)
    (hΦ0 : ∀ dg nonce c t, Φ ⟨ctx.key, nonce, l2UdpShim .frag0 dg ++
      packet.read 14 (splitPoint pktLen), c, t⟩) :
    Attempt.Within (SealsOnly Φ) (l2Split env ctx packet pktLen frag0Max frag1 frag1Max) := by
  by_cases hsp : Splittable packet pktLen
  · rw [l2Split_eq hsp]
    refine sealsOnly_bind (sealsOnly_txMeta env) fun dg => sealsOnly_bind ?_ fun _ =>
      sealsOnly_bind ?_ fun _ => Attempt.Within.pure (fun _ => .of_eq rfl) _
    · rw [l2EncryptFragmentSingle_eq_sealTail hmax1]
      refine sealsOnly_sealTail fun nonce c t => ?_
      rw [length_l2UdpMarker, (read_shimmed _ .frag1 dg (Mem.length_read ..)).1]
      exact hΦ1 dg nonce c t
    · rw [l2EncryptFragment0Inplace_eq_sealTail hmax0]
      refine sealsOnly_sealTail fun nonce c t => ?_
      rw [length_l2UdpMarker, Mem.move, (read_shimmed packet .frag0 dg (Mem.length_read ..)).1]
      exact hΦ0 dg nonce c t
  · intro s
    exact .of_eq (sealed_of_not_splittable hsp)

end Encoders

/-! ## a whole packet -/

section Packet

variable {env : Env} {j j' : Job} {frame : List UInt8}

/-- An encryption of (a part of) the frame, under the key of the process. -/
def SealOf (key : Key) (frame : List UInt8) (e : Sealed) : Prop := e.key = key ∧ PlainOf frame e.plain

/-- The encoders leave their thread state behind. -/
theorem l2_encryptSingle (env : Env) (j : Job) (proto : L2CryptoProto) (len : Nat) :
    (encryptSingle env j proto len).2.self.l2 =
      (l2CryptoEncrypt env proto j.fwd.crypto j.self.cryptoBuf len j.l2).2 := by
  rw [encryptSingle]
  cases l2CryptoEncrypt env proto j.fwd.crypto j.self.cryptoBuf len j.l2 with
  | mk r s =>
      cases r with
      | none => rfl
      | some r =>
          dsimp only
          split <;> rfl

theorem l2_pushSplitToWan (j : Job) (l1 : Nat) (tail : NePacket) (l2 wanDp : Nat) :
    (pushSplitToWan j l1 tail l2 wanDp).2.self.l2 = j.self.l2 := by
  rw [pushSplitToWan]
  dsimp only
  split
  · rfl
  · split
    · rfl
    · split <;> rfl

theorem l2_encryptSplit (env : Env) (j : Job) (len wanDp : Nat) :
    (encryptSplit env j len wanDp).2.self.l2 =
      (l2CryptoSplitUdp env j.fwd.crypto j.self.cryptoBuf len neJumboFrameMax j.self.cryptoAux
        neJumboFrameMax j.l2).2 := by
  rw [encryptSplit]
  cases l2CryptoSplitUdp env j.fwd.crypto j.self.cryptoBuf len neJumboFrameMax j.self.cryptoAux
      neJumboFrameMax j.l2 with
  | mk r s =>
      cases r with
      | none => rfl
      | some r =>
          dsimp only
          split
          · split
            · rw [l2_pushSplitToWan]; rfl
            · rfl
          · rfl

/-- The end of `dataplane_process_local` encrypts nothing. -/
theorem l2_egressEnd (r : EncResult × Job) : (egressEnd r).self.l2 = r.2.self.l2 := by
  obtain ⟨res, j⟩ := r
  cases res with
  | fail => rfl
  | pushed => rfl
  | inPlace =>
      rw [egressEnd, pushToWan]
      dsimp only
      rcases dpRingPush_cases { j with pkt := { j.pkt with dir := .wan, wanIdx := 0 % 256 } }
        (j.fwd.midToWan 0 j.self.tls.outRingIdx)
        (fun ring fwd => fwd.setMidToWan 0 j.self.tls.outRingIdx ring) with h | h
      · rw [h]; rfl
      · rw [h]

/-- Setting a sequence number records nothing. -/
theorem sealed_txSeqStep (j : Job) (buf : Mem) (len : Nat) (flowOk : Bool) :
    (txSeqStep j buf len flowOk).2.self.l2.sealed = j.self.l2.sealed := by
  rw [txSeqStep]
  cases flowOk with
  | false => rfl
  | true =>
      simp only [Bool.not_true, Bool.false_eq_true, if_false]
      cases (dpUdpNextTxSeq j.fwd.route j.self.tls buf len).1 with
      | none => rfl
      | some seq => rfl

theorem sealed_txStart (j : Job) (proto : L2CryptoProto) (flowOk : Bool) :
    (txStart j proto flowOk).2.self.l2.sealed = j.self.l2.sealed := by
  rw [txStart]
  split
  · rw [sealed_txSeqStep]; rfl
  · rfl

/-- `encrypt_to_wan` encrypts parts of its frame only. -/
theorem sealsOnly_encryptToWan (hr : Received j.fwd.pair j.pkt frame) (hadm : Admitted frame)
    (hbuf : j.self.cryptoBuf.read 0 frame.length = frame) (flowOk : Bool) :
    SealsOnly (SealOf j.fwd.crypto.key frame) j.self.l2
      (encryptToWan env j 0 (frameProto frame) flowOk).2.self.l2 := by
  obtain ⟨h34, hmax, -⟩ := hadm.spec
  have hlen : j.pkt.len = frame.length := hr.holds.len
  have hsealed := sealed_txStart j (frameProto frame) flowOk
  rw [encryptToWan_eq, hlen]
  cases hstart : txStart j (frameProto frame) flowOk with
  | mk ok q =>
      rw [hstart] at hsealed
      cases ok with
      | false => rw [if_pos (by simp)]; exact .of_eq hsealed
      | true =>
          have hq := txStart_ready hr hbuf hstart
          have hread := read_egressBuf hbuf
          have hip := ipv4_egressBuf hadm hbuf
          rw [← hq.buf] at hread hip
          -- the encoder starts from the encryptions recorded before
          have hfrom {x : L2State} (hx : SealsOnly (SealOf j.fwd.crypto.key frame) q.l2 x) :
              SealsOnly (SealOf j.fwd.crypto.key frame) j.self.l2 x := by
            obtain ⟨new, hnew, hall⟩ := hx
            have hql : q.l2.sealed = j.self.l2.sealed := hsealed
            exact ⟨new, by rw [hnew, hql], hall⟩
          rw [if_neg (by simp)]
          by_cases hneed : l2CryptoNeedSplit (frameProto frame) frame.length = true
          · rw [if_pos hneed]
            dsimp only
            rw [l2_encryptSplit]
            have hudp := hq.split hneed
            rw [hudp] at hneed
            simp only [l2CryptoNeedSplit, l2CryptoNeedUdpSplit, decide_eq_true_eq, ethHeaderSize,
              l2CryptoMtu, optFragMetaLen] at hneed
            rw [if_neg (by simp [hudp])] at hread
            have hpt : splitPoint frame.length = 8954 := by rw [splitPoint]; omega
            have hrest : q.self.cryptoBuf.read (14 + 8954) (frame.length - 14 - 8954) =
                frame.drop 8968 := by
              have hl : frame.length - 14 - 8954 = frame.length - 8968 := by omega
              rw [hl]
              exact read_drop hread (by omega)
            have hfirst : q.self.cryptoBuf.read 14 8954 = (frame.drop 14).take 8954 := by
              rw [← @read_drop frame q.self.cryptoBuf 14 hread (by omega), Mem.take_read _ (by omega)]
            refine hfrom (sealsOnly_l2Split (by rw [hpt]; simp) (by rw [hpt]; simp; omega) ?_ ?_ _)
            · intro dg nonce c t
              rw [hpt, hrest]
              exact ⟨by rw [hq.crypto], .frag1 dg hudp⟩
            · intro dg nonce c t
              rw [hpt, hfirst]
              exact ⟨by rw [hq.crypto], .frag0 dg hudp⟩
          · rw [if_neg hneed]
            dsimp only
            rw [l2_encryptSingle, l2CryptoEncrypt]
            by_cases hudp : frameProto frame = .udp
            · rw [if_pos hudp]
              rw [if_neg (by simp [hudp])] at hread
              refine hfrom (sealsOnly_l2UdpEncrypt hip (by simp; omega) (fun dg nonce c t => ?_) _)
              rw [read_drop hread (by omega)]
              exact ⟨by rw [hq.crypto], .full dg hudp⟩
            · rw [if_neg hudp]
              rw [if_pos hudp, ← length_clampedFrame frame] at hread
              have het : cryptoEthL2PrefixLen q.self.cryptoBuf frame.length = some 12 :=
                cryptoEthInnerEtOff_eq_some_iff.mpr
                  ⟨rfl, by omega, .inl (cryptoPktIsIpv4_iff.mp hip).2⟩
              refine hfrom (sealsOnly_l2TcpEncrypt het (by omega) (fun nonce c t => ?_) _)
              rw [← length_clampedFrame frame, read_drop hread (by simp; omega)]
              exact ⟨by rw [hq.crypto], .data⟩

/-- `dataplane_process_local` encrypts parts of its frame only. -/
theorem sealsOnly_dataplaneProcessLocal (hr : Received j.fwd.pair j.pkt frame)
    (hadm : Admitted frame) :
    SealsOnly (SealOf j.fwd.crypto.key frame) j.self.l2 (dataplaneProcessLocal env j).self.l2 := by
  obtain ⟨-, hmax, -⟩ := hadm.spec
  have hlen : j.pkt.len = frame.length := hr.holds.len
  obtain ⟨buf, hlin, hbuf⟩ := nePacketLinearize_of_holds hr.holds j.self.cryptoBuf
    (show frame.length ≤ neJumboFrameMax by simp; omega)
  have hclass : l2CryptoClassify (dpParseFlow buf j.pkt.len).2.toNat = frameProto frame := by
    rw [hlen]; exact classify_dpParseFlow hbuf
  rw [dataplaneProcessLocal_eq hlin]
  dsimp only
  rw [if_neg (by simp)]
  by_cases hwan : (j.withBuf buf).fwd.wanCount ≠ 1
  · rw [if_pos hwan]; exact .of_eq rfl
  · rw [if_neg hwan, hclass, l2_egressEnd]
    exact @sealsOnly_encryptToWan env (j.withBuf buf) frame hr hadm hbuf _

end Packet

end NetworkEncryptor
