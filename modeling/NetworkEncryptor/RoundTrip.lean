import NetworkEncryptor.Delivery
import NetworkEncryptor.WireSize
import NetworkEncryptor.Ingress

/-!
# NetworkEncryptor.RoundTrip

The three wire formats undone by their own decoders, at the level of
`l2_crypto_encrypt`, `l2_crypto_split_udp`, `l2_crypto_decrypt` and
`l2_crypto_reassemble_udp`: DATA frames, whole datagrams, and the two halves of a
split one in either order (`wireFormats_roundTrip`).

A half waits for the other one for `L2_FRAG_TIMEOUT_NS`, and a joined frame has to
fit a jumbo buffer.  The split checks neither, so both are conditions on getting
the datagram back (`halves_not_joined`).
-/

namespace NetworkEncryptor

/-- The decoder's answer is the frame that was encoded. -/
def Restored (packet : Mem) (len : Nat) (answer : Option (Mem × Nat)) : Prop :=
  ∃ out, answer = some (out, len) ∧ out.read 0 len = packet.read 0 len

section RoundTrip

variable {env env₁ env₂ : Env} {ctx : PacketCryptoCtx} {s s' : L2State} {packet wire : Mem}
  {len n : Nat}

/-! ## DATA frames -/

/-- A DATA frame is as long as 31 bytes of overhead make it, and is restored. -/
theorem data_restored (h₁ : SameCipher env env₁ ctx) (hlen : 14 ≤ len)
    (h : l2CryptoEncrypt env .data ctx packet len s = (some (wire, n), s')) :
    n = len + 31 ∧ Restored packet len (l2CryptoDecrypt env₁ .data ctx wire n) := by
  rw [l2CryptoEncrypt, if_neg (by simp)] at h
  obtain ⟨-, nonce, c, t, hs, hn, hread⟩ := l2TcpEncrypt_eq_some h
  obtain ⟨-, ht⟩ := env.gcm.length_encrypt hs.cipher
  have hdec : env₁.gcm.decrypt ctx.key nonce c t = some (packet.read 12 (len - 12)) := by
    rw [h₁.gcm]; exact h₁.lawful hs.cipher
  obtain ⟨out, hout, hbytes⟩ := l2CryptoDecrypt_dataWire h₁.ctx h₁.lib hdec ht hs.pos
    (Mem.length_read packet 0 12) hread
  have hl : 12 + (packet.read 12 (len - 12)).length = len := by rw [Mem.length_read]; omega
  rw [hl] at hout hbytes
  rw [Mem.length_read] at hn
  refine ⟨by omega, out, hout, ?_⟩
  rw [hbytes]
  have hsplit := Mem.read_add packet 0 12 (len - 12)
  rw [Nat.zero_add, show 12 + (len - 12) = len by omega] at hsplit
  exact hsplit.symm

/-! ## whole datagrams -/

/-- A sealed frame opens to its own shim fields and payload. -/
theorem UdpFrame.opens {macs part : List UInt8} {kind : L2UdpKind} {dg : UdpMeta}
    (h : UdpFrame env ctx s s' macs kind dg part wire n) (hmacs : macs.length = 12)
    (h₁ : SameCipher env env₁ ctx) :
    n = part.length + 60 ∧ l2DoDecryptUdp env₁ ctx wire n = some (udpPlain wire kind dg part) ∧
      wire.read 0 12 = macs ∧ ethReadEt wire 12 = neL2FakeEthertypeUdp := by
  obtain ⟨nonce, c, t, hs, hn, hread⟩ := h
  exact ⟨hn, l2DoDecryptUdp_udpWire h₁ hs.cipher hmacs hread⟩

/-- The frame a whole datagram is rebuilt to. -/
theorem read_udpPlain_full (hip : cryptoPktIsIpv4 packet len = true)
    (hmacs : wire.read 0 12 = packet.read 0 12) (dg : UdpMeta) :
    (udpPlain wire .full dg (packet.read 14 (len - 14))).len = len ∧
      (udpPlain wire .full dg (packet.read 14 (len - 14))).packet.read 0 len = packet.read 0 len := by
  obtain ⟨h34, -⟩ := cryptoPktIsIpv4_iff.mp hip
  obtain ⟨hm, het, hpay⟩ := read_udpPlain wire .full dg (packet.read 14 (len - 14))
  rw [Mem.length_read] at hpay
  rw [if_pos rfl] at het
  have hlen : len = 12 + (2 + (len - 14)) := by omega
  refine ⟨?_, ?_⟩
  · change 14 + (packet.read 14 (len - 14)).length = len
    rw [Mem.length_read]; omega
  · rw [read_eq_joined hip, joined, List.append_nil, List.append_assoc, ← hmacs, ← hm, ← het]
    calc (udpPlain wire .full dg (packet.read 14 (len - 14))).packet.read 0 len
        = (udpPlain wire .full dg (packet.read 14 (len - 14))).packet.read 0
            (12 + (2 + (len - 14))) := by rw [← hlen]
      _ = (udpPlain wire .full dg (packet.read 14 (len - 14))).packet.read 0 12 ++
            ((udpPlain wire .full dg (packet.read 14 (len - 14))).packet.read 12 2 ++
              (udpPlain wire .full dg (packet.read 14 (len - 14))).packet.read 14 (len - 14)) := by
          rw [Mem.read_add, Mem.read_add, Nat.zero_add]
      _ = _ := by rw [hpay]

/-- A whole datagram: both decoders give it back, and the shim says what it was
sent as. -/
theorem full_restored (h₁ : SameCipher env env₁ ctx) (hip : cryptoPktIsIpv4 packet len = true)
    (h : l2CryptoEncrypt env .udp ctx packet len s = (some (wire, n), s')) :
    n = len + 46 ∧ Restored packet len (l2CryptoDecrypt env₁ .udp ctx wire n) ∧
      (∃ r, l2DoDecryptUdp env₁ ctx wire n = some r ∧ r.kind = .full ∧ r.dg = s.txMeta env) ∧
      ∀ tables w output, (l2CryptoReassembleUdp env₁ ctx tables w wire n output).1 = tables ∧
        Restored packet len (l2CryptoReassembleUdp env₁ ctx tables w wire n output).2.frame := by
  obtain ⟨h34, -⟩ := cryptoPktIsIpv4_iff.mp hip
  rw [l2CryptoEncrypt, if_pos rfl] at h
  obtain ⟨-, -, hframe⟩ := l2UdpEncrypt_eq_some hip h
  obtain ⟨hn, hopen, hmacs, het⟩ := hframe.opens (Mem.length_read packet 0 12) h₁
  rw [Mem.length_read] at hn
  obtain ⟨hl, hbytes⟩ := read_udpPlain_full hip hmacs (s.txMeta env)
  have hip' : cryptoPktIsIpv4 (udpPlain wire .full (s.txMeta env) (packet.read 14 (len - 14))).packet
      len = true := by
    have hagree : (udpPlain wire .full (s.txMeta env) (packet.read 14 (len - 14))).packet.read 12 2 =
        [0x08, 0x00] := by
      rw [(read_udpPlain wire .full (s.txMeta env) (packet.read 14 (len - 14))).2.1, if_pos rfl]
    exact cryptoPktIsIpv4_iff.mpr ⟨h34, ethReadEt_eq_ethPIp_iff.mpr hagree⟩
  refine ⟨by omega, ⟨_, ?_, hbytes⟩, ⟨_, hopen, rfl, rfl⟩, fun tables w output => ?_⟩
  · have hmark : cryptoEthL2HasMarker wire n = true :=
      cryptoEthL2HasMarker_iff.mpr ⟨by omega, .inr het⟩
    rw [l2CryptoDecrypt, if_pos rfl, l2UdpDecrypt, h₁.ctx, hmark, if_neg (by simp), if_neg (by simp),
      hopen]
    dsimp only
    rw [hl, if_pos ⟨rfl, hip'⟩]
  · obtain ⟨out, hrun, hread⟩ := @l2CryptoReassembleUdp_of_full ctx wire n
      (packet.read 14 (len - 14)) (s.txMeta env) env₁ tables w output hopen
      (by rw [Mem.length_read]; omega)
    have hlen : 14 + (packet.read 14 (len - 14)).length = len := by rw [Mem.length_read]; omega
    rw [hlen] at hrun hread
    rw [hrun]
    exact ⟨rfl, out, rfl, by rw [hread, hmacs, ← read_eq_joined hip]⟩

/-! ## the halves of a split datagram -/

/-- What two successive calls of `l2_crypto_reassemble_udp` on one worker's table
return. -/
def reassembleTwo (env₁ env₂ : Env) (ctx : PacketCryptoCtx) (tables : FragTables) (w : Nat)
    (f g : Mem × Nat) (o₁ o₂ : Mem) : ReasmResult × ReasmResult :=
  let r := l2CryptoReassembleUdp env₁ ctx tables w f.1 f.2 o₁
  (r.2, (l2CryptoReassembleUdp env₂ ctx r.1 w g.1 g.2 o₂).2)

/-- A decoded fragment: the wire frame `f` opens to `part` behind the shim of
`kind` and `dg`, and the table takes it. -/
structure Fragment (env : Env) (ctx : PacketCryptoCtx) (f : Mem × Nat) (kind : L2UdpKind)
    (dg : UdpMeta) (macs part : List UInt8) : Prop where
  opens : l2DoDecryptUdp env ctx f.1 f.2 = some (udpPlain f.1 kind dg part)
  macs : f.1.read 0 12 = macs
  ok : FragOk (udpPlain f.1 kind dg part).packet (14 + part.length)

section Halves

variable {tables : FragTables} {w : Nat} {ft : OptTable} {f g : Mem × Nat} {dg : UdpMeta}
  {macs p q : List UInt8} {o : Mem}

/-- The bytes of a decoded fragment. -/
theorem Fragment.read {kind : L2UdpKind} (h : Fragment env₁ ctx f kind dg macs p) :
    (udpPlain f.1 kind dg p).packet.read 0 12 = macs ∧
      (udpPlain f.1 kind dg p).packet.read 14 (14 + p.length - 14) = p := by
  obtain ⟨hm, -, hp⟩ := read_udpPlain f.1 kind dg p
  rw [Nat.add_sub_cancel_left]
  exact ⟨hm.trans h.macs, hp⟩

/-- The first half alone is kept. -/
theorem first_kept (h : Fragment env₁ ctx f .frag0 dg macs p)
    (hok : Frag0Ok (udpPlain f.1 .frag0 dg p).packet (14 + p.length))
    (hft : optTable env₁ tables (optTableIdx w) = some ft) (hvac : ft.Vacant) :
    ∃ tables' ft', l2CryptoReassembleUdp env₁ ctx tables w f.1 f.2 o = (tables', .wait) ∧
      tables' (optTableIdx w) = some ft' ∧ ft'.OnlyAt dg ∧
      KeepsFirst (ft'.entries (optBase dg.epoch dg.datagramId)) dg env₁.now macs p := by
  obtain ⟨hm, hp⟩ := h.read
  obtain ⟨e, hrun, hkeep⟩ := @frag0_kept ft dg env₁.now (udpPlain f.1 .frag0 dg p).packet o
    (14 + p.length) ft _ hok (optPickSlot_vacant hvac) (hvac _)
  rw [hm, hp] at hkeep
  refine ⟨Function.update tables (optTableIdx w) (some (ft.set (optBase dg.epoch dg.datagramId) e)), _,
    ?_, Function.update_self .., onlyAt_set hvac dg e, by rw [ft.set_entries_self]; exact hkeep⟩
  rw [l2CryptoReassembleUdp_of_frag h.opens (by simp) hft, hrun]

/-- The second half alone is kept. -/
theorem second_kept (h : Fragment env₁ ctx f .frag1 dg macs q)
    (hft : optTable env₁ tables (optTableIdx w) = some ft) (hvac : ft.Vacant) :
    ∃ tables' ft', l2CryptoReassembleUdp env₁ ctx tables w f.1 f.2 o = (tables', .wait) ∧
      tables' (optTableIdx w) = some ft' ∧ ft'.OnlyAt dg ∧
      KeepsSecond (ft'.entries (optBase dg.epoch dg.datagramId)) dg env₁.now q := by
  obtain ⟨-, hq⟩ := h.read
  obtain ⟨e, hrun, hkeep⟩ := @frag1_kept ft dg env₁.now (udpPlain f.1 .frag1 dg q).packet o
    (14 + q.length) ft _ h.ok (optPickSlot_vacant hvac) (hvac _)
  rw [hq] at hkeep
  refine ⟨Function.update tables (optTableIdx w) (some (ft.set (optBase dg.epoch dg.datagramId) e)), _,
    ?_, Function.update_self .., onlyAt_set hvac dg e, by rw [ft.set_entries_self]; exact hkeep⟩
  rw [l2CryptoReassembleUdp_of_frag h.opens (by simp) hft, hrun]

/-- A table that is there is the one the next call uses. -/
theorem optTable_of_some (h : tables w = some ft) : optTable env₂ tables w = some ft := by
  rw [optTable, h]

/-- First half, then second half. -/
theorem inOrder_joins (hf : Fragment env₁ ctx f .frag0 dg macs p)
    (hok : Frag0Ok (udpPlain f.1 .frag0 dg p).packet (14 + p.length))
    (hg : Fragment env₂ ctx g .frag1 dg macs q)
    (hft : optTable env₁ tables (optTableIdx w) = some ft) (hvac : ft.Vacant)
    (hlen : 14 + p.length + q.length ≤ neJumboFrameMax) (o₁ o₂ : Mem) :
    (reassembleTwo env₁ env₂ ctx tables w f g o₁ o₂).1 = .wait ∧
    (env₂.now - env₁.now ≤ l2FragTimeoutNs → ∃ out,
      (reassembleTwo env₁ env₂ ctx tables w f g o₁ o₂).2 = .done out (14 + p.length + q.length) ∧
      out.read 0 (14 + p.length + q.length) = joined macs p q) ∧
    (¬ env₂.now - env₁.now ≤ l2FragTimeoutNs →
      (reassembleTwo env₁ env₂ ctx tables w f g o₁ o₂).2 = .wait) := by
  obtain ⟨tables', ft', hrun, htab, honly, hkeep⟩ := @first_kept env₁ ctx tables w ft f dg macs p o₁ hf
    hok hft hvac
  obtain ⟨-, hq⟩ := hg.read
  have hjoin := @frag1_joins ft' dg env₂.now env₁.now (udpPlain g.1 .frag1 dg q).packet o₂
    (14 + q.length) macs p hkeep honly hg.ok (by omega)
  rw [hq, show p.length + (14 + q.length) = 14 + p.length + q.length by omega] at hjoin
  unfold reassembleTwo
  rw [hrun]
  dsimp only
  rw [l2CryptoReassembleUdp_of_frag hg.opens (by simp) (optTable_of_some htab)]
  exact ⟨rfl, hjoin⟩

/-- Halves that do not fit a jumbo buffer together are dropped. -/
theorem inOrder_too_long (hf : Fragment env₁ ctx f .frag0 dg macs p)
    (hok : Frag0Ok (udpPlain f.1 .frag0 dg p).packet (14 + p.length))
    (hg : Fragment env₂ ctx g .frag1 dg macs q)
    (hft : optTable env₁ tables (optTableIdx w) = some ft) (hvac : ft.Vacant)
    (hlen : neJumboFrameMax < 14 + p.length + q.length)
    (htime : env₂.now - env₁.now ≤ l2FragTimeoutNs) (o₁ o₂ : Mem) :
    (reassembleTwo env₁ env₂ ctx tables w f g o₁ o₂).2 = .fail := by
  obtain ⟨tables', ft', hrun, htab, -, hkeep⟩ := @first_kept env₁ ctx tables w ft f dg macs p o₁ hf
    hok hft hvac
  have hlive : (ft'.entries (optBase dg.epoch dg.datagramId)).expired env₂.now = false := by
    rw [OptEntry.expired_eq hkeep.time, decide_eq_false_iff_not, gt_iff_lt, UInt64.not_lt]
    exact htime
  have hpick := optPickSlot_hit hkeep.occupied hlive
    ⟨congrArg UdpMeta.epoch hkeep.dg, congrArg UdpMeta.datagramId hkeep.dg⟩
  obtain ⟨e, hst, h1, h2, -, -, h5, -, h7, -, h9, -⟩ :=
    @optStoreSecond_fields (ft'.entries (optBase dg.epoch dg.datagramId)) dg env₂.now
      (udpPlain g.1 .frag1 dg q).packet (14 + q.length - 14) hg.ok.len.2
  rw [optPrepareEntry_live hkeep.dg hlive] at h2 h7 h9
  have hfail : (optEmitJoin e o₂).2 = .fail := by
    rw [optEmitJoin, h2.trans hkeep.flags.1, h1, if_neg (by simp), h7.trans hkeep.eth.1,
      h9.trans hkeep.half.1, h5]
    dsimp only
    rw [if_pos (show p.length + (14 + q.length - 14) + (if (14 : Nat) ≠ 0 then 14 else ethHeaderSize) >
      neJumboFrameMax by simp at hlen ⊢; omega)]
  unfold reassembleTwo
  rw [hrun]
  dsimp only
  rw [l2CryptoReassembleUdp_of_frag hg.opens (by simp) (optTable_of_some htab),
    l2Reassemble_frag1 hg.ok hpick (fun _ => hlive), hst]
  exact hfail

/-- Second half, then first half. -/
theorem swapped_joins (hf : Fragment env₂ ctx f .frag0 dg macs p)
    (hok : Frag0Ok (udpPlain f.1 .frag0 dg p).packet (14 + p.length))
    (hg : Fragment env₁ ctx g .frag1 dg macs q)
    (hft : optTable env₁ tables (optTableIdx w) = some ft) (hvac : ft.Vacant)
    (hlen : 14 + p.length + q.length ≤ neJumboFrameMax) (o₁ o₂ : Mem) :
    (reassembleTwo env₁ env₂ ctx tables w g f o₁ o₂).1 = .wait ∧
    (env₂.now - env₁.now ≤ l2FragTimeoutNs → ∃ out,
      (reassembleTwo env₁ env₂ ctx tables w g f o₁ o₂).2 = .done out (14 + p.length + q.length) ∧
      out.read 0 (14 + p.length + q.length) = joined macs p q) ∧
    (¬ env₂.now - env₁.now ≤ l2FragTimeoutNs →
      (reassembleTwo env₁ env₂ ctx tables w g f o₁ o₂).2 = .wait) := by
  obtain ⟨tables', ft', hrun, htab, honly, hkeep⟩ := @second_kept env₁ ctx tables w ft g dg macs q o₁ hg
    hft hvac
  obtain ⟨hm, hp⟩ := hf.read
  have hjoin := @frag0_joins ft' dg env₂.now env₁.now (udpPlain f.1 .frag0 dg p).packet o₂
    (14 + p.length) q hkeep honly hok (by omega)
  rw [hm, hp] at hjoin
  unfold reassembleTwo
  rw [hrun]
  dsimp only
  rw [l2CryptoReassembleUdp_of_frag hf.opens (by simp) (optTable_of_some htab)]
  exact ⟨rfl, hjoin⟩

end Halves

/-- Both halves of a datagram that was split open to their own shim fields and
their part of the IP packet. -/
theorem split_fragments {firstMax secondMax : Nat} {aux : Mem} {r : SplitFrames}
    (h : l2CryptoSplitUdp env ctx packet len firstMax aux secondMax s = (some r, s'))
    (h₁ : SameCipher env env₁ ctx) (hmax : len - 14 - splitPoint len ≤ neJumboFrameMax) :
    Fragment env₁ ctx (r.first, r.firstLen) .frag0 (s.txMeta env) (packet.read 0 12)
      (packet.read 14 (splitPoint len)) ∧
    Fragment env₁ ctx (r.second, r.secondLen) .frag1 (s.txMeta env) (packet.read 0 12)
      (packet.read (14 + splitPoint len) (len - 14 - splitPoint len)) := by
  have hjumbo : neJumboFrameMax = 9216 := rfl
  have hcut : splitPoint len ≤ 8954 := by rw [splitPoint]; omega
  obtain ⟨-, -, s2, hsecond, hfirst⟩ := l2Split_eq_some h
  obtain ⟨-, hopen0, hm0, het0⟩ := hfirst.opens (Mem.length_read packet 0 12) h₁
  obtain ⟨-, hopen1, hm1, het1⟩ := hsecond.opens (Mem.length_read packet 0 12) h₁
  exact ⟨⟨hopen0, hm0, udpPlain_fragOk (by simp) het0 (by rw [Mem.length_read]; omega)⟩,
    ⟨hopen1, hm1, udpPlain_fragOk (by simp) het1 (by rw [Mem.length_read]; omega)⟩⟩

/-- The first half starts with the IPv4 header. -/
theorem Fragment.frag0Ok {f : Mem × Nat} {dg : UdpMeta} {macs : List UInt8}
    (h : Fragment env₁ ctx f .frag0 dg macs (packet.read 14 (splitPoint len)))
    (hsp : Splittable packet len) :
    Frag0Ok (udpPlain f.1 .frag0 dg (packet.read 14 (splitPoint len))).packet
      (14 + (packet.read 14 (splitPoint len)).length) := by
  obtain ⟨hip, hver, hihl, -, hpay⟩ := hsp
  have hbyte := (packet 14).toNat_lt
  have hcut : 14 + (packet 14).toNat % 16 * 4 ≤ 14 + splitPoint len := by rw [splitPoint]; omega
  obtain ⟨-, -, hread⟩ := read_udpPlain f.1 .frag0 dg (packet.read 14 (splitPoint len))
  rw [Mem.length_read, Mem.read_eq_read_iff] at hread
  have h14 : (udpPlain f.1 .frag0 dg (packet.read 14 (splitPoint len))).packet 14 = packet 14 :=
    hread 0 (by omega)
  refine ⟨h.ok, by rw [h14]; exact hver, ?_⟩
  rw [h14, Mem.length_read]
  omega

/-- A frame is its addresses and the two parts its IP packet was cut into. -/
theorem read_eq_joined_halves (hip : cryptoPktIsIpv4 packet len = true) :
    joined (packet.read 0 12) (packet.read 14 (splitPoint len))
      (packet.read (14 + splitPoint len) (len - 14 - splitPoint len)) = packet.read 0 len := by
  have hcut : splitPoint len + (len - 14 - splitPoint len) = len - 14 := by rw [splitPoint]; omega
  rw [read_eq_joined hip, joined, joined, List.append_nil, ← Mem.read_add, hcut]

/-! ## the three formats -/

/-- Every frame that is encoded comes back: DATA frames through the DATA decoder,
whole datagrams through both decoders, and split ones once both halves are there,
in either order.  The second half has to arrive before the first one expires, and
the frame has to be one that the packet buffers hold. -/
theorem wireFormats_roundTrip (h₁ : SameCipher env env₁ ctx) (h₂ : SameCipher env env₂ ctx)
    (s : L2State) (packet : Mem) (len : Nat) :
    (27 ≤ len → len ≤ 9185 → ethReadEt packet 12 = ethPIp →
      (EncReady env ctx s → ∃ r s', l2CryptoEncrypt env .data ctx packet len s = (some r, s')) ∧
      ∀ {wire n s'}, l2CryptoEncrypt env .data ctx packet len s = (some (wire, n), s') →
        n ≤ neJumboFrameMax ∧ Restored packet len (l2CryptoDecrypt env₁ .data ctx wire n)) ∧
    (34 ≤ len → len ≤ 9170 → ethReadEt packet 12 = ethPIp →
      (EncReady env ctx s → s.udpTxValid = true →
        ∃ r s', l2CryptoEncrypt env .udp ctx packet len s = (some r, s')) ∧
      ∀ {wire n s'}, l2CryptoEncrypt env .udp ctx packet len s = (some (wire, n), s') →
        n ≤ neJumboFrameMax ∧ Restored packet len (l2CryptoDecrypt env₁ .udp ctx wire n) ∧
        (∃ r, l2DoDecryptUdp env₁ ctx wire n = some r ∧ r.kind = .full ∧ r.dg = s.txMeta env) ∧
        ∀ tables w output,
          Restored packet len (l2CryptoReassembleUdp env₁ ctx tables w wire n output).2.frame) ∧
    ∀ {firstMax secondMax aux r s'},
      l2CryptoSplitUdp env ctx packet len firstMax aux secondMax s = (some r, s') →
      len ≤ neJumboFrameMax →
      (∃ x, l2DoDecryptUdp env₁ ctx r.first r.firstLen = some x ∧ x.kind = .frag0 ∧
        x.dg = s.txMeta env ∧ x.len = 14 + splitPoint len ∧
        x.packet.read 14 (splitPoint len) = packet.read 14 (splitPoint len)) ∧
      (∃ x, l2DoDecryptUdp env₁ ctx r.second r.secondLen = some x ∧ x.kind = .frag1 ∧
        x.dg = s.txMeta env ∧ x.len = 14 + (len - 14 - splitPoint len) ∧
        x.packet.read 14 (len - 14 - splitPoint len) =
          packet.read (14 + splitPoint len) (len - 14 - splitPoint len)) ∧
      0 < splitPoint len ∧ splitPoint len < len - 14 ∧
      ∀ tables w ft o₁ o₂, optTable env₁ tables (optTableIdx w) = some ft → ft.Vacant →
        env₂.now - env₁.now ≤ l2FragTimeoutNs →
        ((reassembleTwo env₁ env₂ ctx tables w (r.first, r.firstLen) (r.second, r.secondLen)
            o₁ o₂).1 = .wait ∧
          Restored packet len (reassembleTwo env₁ env₂ ctx tables w (r.first, r.firstLen)
            (r.second, r.secondLen) o₁ o₂).2.frame) ∧
        (reassembleTwo env₁ env₂ ctx tables w (r.second, r.secondLen) (r.first, r.firstLen)
            o₁ o₂).1 = .wait ∧
          Restored packet len (reassembleTwo env₁ env₂ ctx tables w (r.second, r.secondLen)
            (r.first, r.firstLen) o₁ o₂).2.frame := by
  have hjumbo : neJumboFrameMax = 9216 := rfl
  refine ⟨fun hmin hmax het => ⟨fun hready => ?_, fun {wire n s'} h => ?_⟩,
    fun hmin hmax het => ⟨fun hready hv => ?_, fun {wire n s'} h => ?_⟩, ?_⟩
  · have hoff : cryptoEthL2PrefixLen packet len = some 12 :=
      cryptoEthInnerEtOff_eq_some_iff.mpr ⟨rfl, by omega, .inl het⟩
    obtain ⟨r, s', hrun, -⟩ := l2TcpEncrypt_of_ready hready hoff hmin
    exact ⟨r, s', by rw [l2CryptoEncrypt, if_neg (by simp), hrun]⟩
  · obtain ⟨hn, hres⟩ := data_restored h₁ (by omega) h
    exact ⟨by omega, hres⟩
  · obtain ⟨r, s', hrun, -⟩ := l2UdpEncrypt_of_ready hready hv
      (cryptoPktIsIpv4_iff.mpr ⟨hmin, het⟩) (by omega)
    exact ⟨r, s', by rw [l2CryptoEncrypt, if_pos rfl, hrun]⟩
  · obtain ⟨hn, hdec, hshim, hreasm⟩ := full_restored h₁ (cryptoPktIsIpv4_iff.mpr ⟨hmin, het⟩) h
    exact ⟨by omega, hdec, hshim, fun tables w output => (hreasm tables w output).2⟩
  · intro firstMax secondMax aux r s' h hmax
    obtain ⟨hsp, -⟩ := l2Split_eq_some h
    have hpay := hsp.payload
    have hcut : 0 < splitPoint len ∧ splitPoint len < len - 14 := by rw [splitPoint]; omega
    obtain ⟨hf₁, hg₁⟩ := split_fragments h h₁ (by omega)
    obtain ⟨hf₂, hg₂⟩ := split_fragments h h₂ (by omega)
    have hread0 := hf₁.read.2
    have hread1 := hg₁.read.2
    simp only [Nat.add_sub_cancel_left, Mem.length_read] at hread0 hread1
    refine ⟨⟨_, hf₁.opens, rfl, rfl, ?_, hread0⟩, ⟨_, hg₁.opens, rfl, rfl, ?_, hread1⟩, hcut.1,
      hcut.2, ?_⟩
    · change 14 + (packet.read 14 (splitPoint len)).length = _
      rw [Mem.length_read]
    · change 14 + (packet.read (14 + splitPoint len) (len - 14 - splitPoint len)).length = _
      rw [Mem.length_read]
    · intro tables w ft o₁ o₂ hft hvac htime
      have hlen : 14 + (packet.read 14 (splitPoint len)).length +
          (packet.read (14 + splitPoint len) (len - 14 - splitPoint len)).length = len := by
        rw [Mem.length_read, Mem.length_read]; omega
      obtain ⟨hw, hjoin, -⟩ := inOrder_joins hf₁ (hf₁.frag0Ok hsp) hg₂ hft hvac (by omega) o₁ o₂
      obtain ⟨hw', hjoin', -⟩ := swapped_joins hf₂ (hf₂.frag0Ok hsp) hg₁ hft hvac (by omega) o₁ o₂
      obtain ⟨out, hout, hbytes⟩ := hjoin htime
      obtain ⟨out', hout', hbytes'⟩ := hjoin' htime
      rw [hlen, read_eq_joined_halves hsp.ipv4] at hbytes hbytes'
      rw [hlen] at hout hout'
      exact ⟨⟨hw, out, by rw [hout]; rfl, hbytes⟩, hw', out', by rw [hout']; rfl, hbytes'⟩

end RoundTrip

/-! ## halves that are not joined -/

/-- The thread that sends the samples. -/
def sampleSender : L2State := l2CryptoUdpSetTxSeq 7 L2State.init

/-- The environment of a receiver at time `now`. -/
def sampleEnvAt (now : UInt64) : Env := { sampleEnv firstWorker with now := now }

theorem sameCipher_sample (now : UInt64) :
    SameCipher (sampleEnv 0) (sampleEnvAt now) (packetCryptoInit coreKey) :=
  ⟨rfl, sampleGcm_lawful, rfl, rfl⟩

/-- The sample datagram can be split, at its own length and when it is longer. -/
theorem splittable_sample {len : Nat} (h : 46 ≤ len) : Splittable (Mem.ofList sampleUdp) len :=
  ⟨cryptoPktIsIpv4_iff.mpr ⟨by omega, by decide⟩, by decide, by decide, by decide, by
    have : 14 + (Mem.ofList sampleUdp 14).toNat % 16 * 4 + 8 = 42 := by decide
    omega⟩

/-- A second half that comes a second later finds the first one expired, and the
halves of a frame of 9217 bytes are dropped when they meet; the datagrams were
split all the same. -/
theorem halves_not_joined :
    (∃ r s', l2CryptoSplitUdp (sampleEnv 0) (packetCryptoInit coreKey) (Mem.ofList sampleUdp) 46
        neJumboFrameMax (fun _ => 0) neJumboFrameMax sampleSender = (some r, s') ∧
      (reassembleTwo (sampleEnvAt 0) (sampleEnvAt 1000000000) (packetCryptoInit coreKey) (fun _ => none) 0
        (r.first, r.firstLen) (r.second, r.secondLen) (fun _ => 0) (fun _ => 0)).2 = .wait) ∧
    ∃ r s', l2CryptoSplitUdp (sampleEnv 0) (packetCryptoInit coreKey) (Mem.ofList sampleUdp) 9217
        neJumboFrameMax (fun _ => 0) neJumboFrameMax sampleSender = (some r, s') ∧
      (reassembleTwo (sampleEnvAt 0) (sampleEnvAt 0) (packetCryptoInit coreKey) (fun _ => none) 0
        (r.first, r.firstLen) (r.second, r.secondLen) (fun _ => 0) (fun _ => 0)).2 = .fail := by
  have hready := encReady_sample (packetCryptoInit coreKey) rfl sampleSender
  have hft : optTable (sampleEnvAt 0) (fun _ => none) (optTableIdx 0) = some OptTable.empty := rfl
  constructor
  · have hsp := splittable_sample (Nat.le_refl 46)
    obtain ⟨r, s', hrun⟩ := @l2Split_of_ready (sampleEnv 0) (packetCryptoInit coreKey)
      (Mem.ofList sampleUdp) 46 sampleSender neJumboFrameMax neJumboFrameMax (fun _ => 0) hready rfl hsp
      (by decide) (by decide)
    obtain ⟨hf, -⟩ := split_fragments hrun (sameCipher_sample 0) (by decide)
    obtain ⟨-, hg⟩ := split_fragments hrun (sameCipher_sample 1000000000) (by decide)
    obtain ⟨-, -, hlate⟩ := inOrder_joins hf (hf.frag0Ok hsp) hg hft vacant_empty
      (by rw [Mem.length_read, Mem.length_read]; decide) (fun _ => 0) (fun _ => 0)
    exact ⟨r, s', hrun, hlate (by decide)⟩
  · have hsp := @splittable_sample 9217 (by decide)
    obtain ⟨r, s', hrun⟩ := @l2Split_of_ready (sampleEnv 0) (packetCryptoInit coreKey)
      (Mem.ofList sampleUdp) 9217 sampleSender neJumboFrameMax neJumboFrameMax (fun _ => 0) hready rfl hsp
      (by decide) (by decide)
    obtain ⟨hf, hg⟩ := split_fragments hrun (sameCipher_sample 0) (by decide)
    have hfail := inOrder_too_long hf (hf.frag0Ok hsp) hg hft vacant_empty
      (by rw [Mem.length_read, Mem.length_read]; decide) (by decide) (fun _ => 0) (fun _ => 0)
    exact ⟨r, s', hrun, hfail⟩

/-- The sample datagram sent whole, and in two halves that arrive in time. -/
theorem wireFormats_roundTrip_sample :
    (∃ wire n s', l2CryptoEncrypt (sampleEnv 0) .udp (packetCryptoInit coreKey) (Mem.ofList sampleUdp) 46
        sampleSender = (some (wire, n), s') ∧
      Restored (Mem.ofList sampleUdp) 46
        (l2CryptoDecrypt (sampleEnvAt 0) .udp (packetCryptoInit coreKey) wire n)) ∧
    ∃ r s', l2CryptoSplitUdp (sampleEnv 0) (packetCryptoInit coreKey) (Mem.ofList sampleUdp) 46
        neJumboFrameMax (fun _ => 0) neJumboFrameMax sampleSender = (some r, s') ∧
      Restored (Mem.ofList sampleUdp) 46 (reassembleTwo (sampleEnvAt 0) (sampleEnvAt 1000)
        (packetCryptoInit coreKey) (fun _ => none) 0 (r.first, r.firstLen) (r.second, r.secondLen)
        (fun _ => 0) (fun _ => 0)).2.frame := by
  have hready := encReady_sample (packetCryptoInit coreKey) rfl sampleSender
  obtain ⟨-, hfull, hsplit⟩ := wireFormats_roundTrip (sameCipher_sample 0) (sameCipher_sample 1000)
    sampleSender (Mem.ofList sampleUdp) 46
  obtain ⟨hrun, hback⟩ := hfull (by decide) (by decide) (by decide)
  obtain ⟨⟨wire, n⟩, s', henc⟩ := hrun hready rfl
  obtain ⟨r, t, hr⟩ := @l2Split_of_ready (sampleEnv 0) (packetCryptoInit coreKey)
    (Mem.ofList sampleUdp) 46 sampleSender neJumboFrameMax neJumboFrameMax (fun _ => 0) hready rfl
    (splittable_sample (Nat.le_refl 46)) (by decide) (by decide)
  obtain ⟨-, -, -, -, hjoin⟩ := hsplit hr (by decide)
  exact ⟨⟨wire, n, s', henc, (hback henc).2.1⟩, r, t, hr, (hjoin (fun _ => none) 0 OptTable.empty
    (fun _ => 0) (fun _ => 0) rfl vacant_empty (by decide)).1.2⟩

end NetworkEncryptor
