import NetworkEncryptor.L2Crypto

/-!
# NetworkEncryptor.WireFormat

What the encoders and decoders of `NetworkEncryptor.L2Crypto` do, stated on
whole byte strings: the frame before, the frame after, and the plaintext that
went through the cipher.

All four encoders end in the same five steps (load the key, draw a nonce,
write the header, mark, encrypt); `sealTail` is that tail, and
`sealTail_eq_some_iff` is the only place that runs it.  The decoders are
characterised by what must have been true of the received bytes
(`l2DoDecrypt_eq_some_iff`, `l2DoDecryptUdp_eq_some_iff`), for arbitrary input.
-/

namespace NetworkEncryptor

open Attempt

/-! ## the formats -/

/-- A DATA frame: addresses, header, ciphertext and tag. -/
def dataWire (macs : List UInt8) (workerIdx : UInt8) (nonce : Nonce) (body : List UInt8) :
    List UInt8 :=
  macs ++ wireHeader neL2FakeEthertype workerIdx nonce ++ body

/-- A UDP-format frame: the marker sits between header and ciphertext. -/
def udpWire (macs : List UInt8) (workerIdx : UInt8) (nonce : Nonce) (body : List UInt8) :
    List UInt8 :=
  macs ++ wireHeader neL2FakeEthertypeUdp workerIdx nonce ++ (l2UdpMarker ++ body)

@[simp] theorem length_wireHeader (fake : Nat) (workerIdx : UInt8) (nonce : Nonce) :
    (wireHeader fake workerIdx nonce).length = 15 := by
  simp [wireHeader, nonce.2]

@[simp] theorem length_l2UdpMarker : l2UdpMarker.length = 4 := rfl

@[simp] theorem length_be32 (n : UInt32) : (be32 n).length = 4 := rfl

@[simp] theorem length_l2UdpShim (kind : L2UdpKind) (dg : UdpMeta) :
    (l2UdpShim kind dg).length = 13 := rfl

/-! ## shim fields -/

/-- Four bytes are a big-endian word exactly when they are its encoding. -/
theorem readBe32_eq_iff {m : Mem} {off : Nat} {n : UInt32} :
    readBe32 m off = n ↔ m.read off 4 = be32 n := by
  have h0 := (m off).toNat_lt
  have h1 := (m (off + 1)).toNat_lt
  have h2 := (m (off + 2)).toNat_lt
  have h3 := (m (off + 3)).toNat_lt
  have hn := n.toNat_lt
  simp only [Mem.read_succ, Mem.read_zero, be32, List.cons.injEq, and_true, Nat.add_assoc,
    Nat.reduceAdd]
  rw [← UInt32.toNat_inj, ← UInt8.toNat_inj, ← UInt8.toNat_inj, ← UInt8.toNat_inj,
    ← UInt8.toNat_inj]
  simp only [readBe32, UInt32.toNat_ofNat', UInt8.toNat_ofNat']
  omega

/-- The kind nibble determines the kind. -/
theorem L2UdpKind.ofCode_eq_some_iff {n : Nat} {k : L2UdpKind} : ofCode n = some k ↔ n = k.code := by
  match n with
  | 0 => cases k <;> simp [ofCode, code]
  | 1 => cases k <;> simp [ofCode, code]
  | 2 => cases k <;> simp [ofCode, code]
  | n + 3 => cases k <;> simp [ofCode, code]

/-- The shim reader accepts exactly the shims the writer produces. -/
theorem l2UdpReadShim_eq_some_iff {m : Mem} {off : Nat} {k : L2UdpKind} {dg : UdpMeta} :
    l2UdpReadShim m off = some (k, dg) ↔ m.read off 13 = l2UdpShim k dg := by
  have hcode : k.code < 3 := by cases k <;> simp [L2UdpKind.code]
  have hb := (m off).toNat_lt
  have hsplit : m.read off 13 =
      m off :: (m.read (off + 1) 4 ++ m.read (off + 5) 4 ++ m.read (off + 9) 4) := by
    rw [Mem.read_succ, show (12 : Nat) = 4 + (4 + 4) from rfl, Mem.read_add, Mem.read_add,
      List.append_assoc]
  have hfirst : m off = UInt8.ofNat (l2UdpShimVersion * 16 + k.code) ↔
      (m off).toNat / 16 = l2UdpShimVersion ∧ (m off).toNat % 16 = k.code := by
    rw [← UInt8.toNat_inj, UInt8.toNat_ofNat']
    simp only [l2UdpShimVersion]
    omega
  have hrest : m.read (off + 1) 4 ++ m.read (off + 5) 4 ++ m.read (off + 9) 4 =
      be32 dg.epoch ++ be32 dg.seq ++ be32 dg.datagramId ↔
      readBe32 m (off + 1) = dg.epoch ∧ readBe32 m (off + 5) = dg.seq ∧
        readBe32 m (off + 9) = dg.datagramId := by
    rw [List.append_eq_append_iff_of_size_eq_left (by simp),
      List.append_eq_append_iff_of_size_eq_left (by simp), ← readBe32_eq_iff, ← readBe32_eq_iff,
      ← readBe32_eq_iff, and_assoc]
  rw [hsplit, l2UdpShim, List.cons.injEq, hfirst, hrest, l2UdpReadShim]
  by_cases hv : (m off).toNat / 16 = l2UdpShimVersion
  · rw [if_neg (fun h => h hv)]
    obtain ⟨e, s, d⟩ := dg
    simp only [Option.map_eq_some_iff, Prod.mk.injEq, L2UdpKind.ofCode_eq_some_iff,
      UdpMeta.mk.injEq, hv, true_and]
    constructor
    · intro h
      obtain ⟨k', hk', rfl, hdg⟩ := h
      exact ⟨hk', hdg⟩
    · intro h
      exact ⟨k, h.1, rfl, h.2⟩
  · rw [if_pos hv]
    constructor
    · intro h; cases h
    · intro h; exact absurd h.1.1 hv

/-! ## the common tail of the encoders -/

/-- Load the key, draw a nonce, write the header, put `mk` behind it and
encrypt the `plainLen` bytes that follow. -/
def sealTail (env : Env) (ctx : PacketCryptoCtx) (packet : Mem) (fake : Nat) (mk : List UInt8)
    (plainLen : Nat) : Attempt L2State (Mem × Nat) := do
  let key ← ofOption (cryptoPqcSessLoad ctx)
  let nonce ← cryptoPqcGenerateNonce env
  let packet ← l2WriteWireHeaderEt packet 12 fake nonce
  let (packet, newLen) ← cryptoPqcEncryptPayload env key nonce (packet.write 27 mk)
    (27 + mk.length) plainLen
  pure (packet, 27 + mk.length + newLen)

/-- What a finished encoder leaves behind: the nonce it drew and the two parts
of the cipher's answer for the plaintext `plain`, laid out behind the
addresses; and the thread state with the draw and the encryption recorded. -/
structure SealedFrame (env : Env) (ctx : PacketCryptoCtx) (s s' : L2State) (plain : List UInt8)
    (nonce : Nonce) (c t : List UInt8) : Prop where
  ready : ctx.initialized = true ∧ env.initialized = true
  pos : plain ≠ []
  draw : (trfPqcGenerateNonce env s.nonce).1 = some nonce
  cipher : env.gcm.encrypt ctx.key nonce plain = some (c, t)
  state : s' = { s with nonce := (trfPqcGenerateNonce env s.nonce).2,
                        sealed := s.sealed ++ [⟨ctx.key, nonce, plain, c, t⟩] }

section SealTail

variable {env : Env} {ctx : PacketCryptoCtx} {packet : Mem} {fake : Nat} {mk : List UInt8}
  {plainLen : Nat} {s s' : L2State} {nonce : Nonce} {c t : List UInt8}

/-- Header and mark leave the plaintext behind them alone. -/
private theorem read_plain (w : UInt8) :
    ((packet.write 12 (wireHeader fake w nonce)).write 27 mk).read (27 + mk.length) plainLen =
      packet.read (27 + mk.length) plainLen := by
  rw [Mem.read_write_of_disjoint _ (.inr (by omega)),
    Mem.read_write_of_disjoint _ (.inr (by simp))]

/-- The bytes of the finished frame. -/
private theorem read_sealed (packet : Mem) (fake : Nat) (mk : List UInt8) (nonce : Nonce) (w : UInt8)
    (hc : c.length = plainLen) (ht : t.length = 16) :
    ((((packet.write 12 (wireHeader fake w nonce)).write 27 mk).write (27 + mk.length) c).write
      (27 + mk.length + c.length) t).read 0 (27 + mk.length + (plainLen + 16)) =
      packet.read 0 12 ++ wireHeader fake w nonce ++ (mk ++ (c ++ t)) := by
  have hwrite : (((packet.write 12 (wireHeader fake w nonce)).write 27 mk).write
      (27 + mk.length) c).write (27 + mk.length + c.length) t =
      packet.write 12 (wireHeader fake w nonce ++ (mk ++ (c ++ t))) := by
    rw [Mem.write_append, Mem.write_append, Mem.write_append, length_wireHeader]
  have hlen : (wireHeader fake w nonce ++ (mk ++ (c ++ t))).length =
      15 + mk.length + (plainLen + 16) := by
    rw [List.length_append, List.length_append, List.length_append, length_wireHeader, hc, ht]
    omega
  have hsplit : 27 + mk.length + (plainLen + 16) = 12 + (15 + mk.length + (plainLen + 16)) := by
    omega
  rw [hwrite, hsplit, Mem.read_add, Nat.zero_add, Mem.read_write_self _ hlen,
    Mem.read_write_of_disjoint _ (.inl (by omega)), List.append_assoc]

/-- Running the tail when the key is there, a nonce can be drawn and the
cipher works. -/
theorem sealTail_apply (fake : Nat)
    (h : SealedFrame env ctx s s' (packet.read (27 + mk.length) plainLen) nonce c t) :
    ∃ packet', sealTail env ctx packet fake mk plainLen s =
        (some (packet', 27 + mk.length + (plainLen + 16)), s') ∧
      packet'.read 0 (27 + mk.length + (plainLen + 16)) =
        packet.read 0 12 ++ wireHeader fake s.workerIdx nonce ++ (mk ++ (c ++ t)) := by
  obtain ⟨⟨hctx, hinit⟩, hpos, hdraw, hcipher, hstate⟩ := h
  obtain ⟨hc, ht⟩ := env.gcm.length_encrypt hcipher
  rw [Mem.length_read] at hc
  have hkey : cryptoPqcSessLoad ctx = some ctx.key := by rw [cryptoPqcSessLoad, if_pos hctx]
  have hlen0 : (plainLen == 0) = false := by
    apply beq_false_of_ne
    intro h0; subst h0; simp at hpos
  have hgen : cryptoPqcGenerateNonce env s =
      (some nonce, { s with nonce := (trfPqcGenerateNonce env s.nonce).2 }) := by
    rw [cryptoPqcGenerateNonce, hdraw]
  have hread := read_sealed packet fake mk nonce s.workerIdx hc ht
  have hcr : ((((packet.write 12 (wireHeader fake s.workerIdx nonce)).write 27 mk).write
      (27 + mk.length) c).write (27 + mk.length + c.length) t).read (27 + mk.length) plainLen = c := by
    rw [Mem.read_write_of_disjoint _ (.inl (by omega)), Mem.read_write_self _ hc]
  have htr : ((((packet.write 12 (wireHeader fake s.workerIdx nonce)).write 27 mk).write
      (27 + mk.length) c).write (27 + mk.length + c.length) t).read (27 + mk.length + plainLen) 16 =
      t := by
    rw [hc]; exact Mem.read_write_self _ ht
  refine ⟨_, ?_, hread⟩
  simp only [sealTail, bind_apply, hkey, ofOption_apply, hgen, l2WriteWireHeaderEt, read_apply,
    cryptoPqcEncryptPayload, trfEncryptPayloadGcm, hinit, Bool.not_true, hlen0, Bool.or_self,
    Bool.false_eq_true, if_false, read_plain, hcipher, Option.map_some, modify_apply, pure_apply,
    aesGcmTagSize, hc, Nat.add_sub_cancel, hstate]
  rw [hc] at hcr htr
  rw [hcr, htr]

/-- A tail that succeeded did all of it. -/
theorem sealTail_eq_some {packet' : Mem} {len : Nat}
    (h : sealTail env ctx packet fake mk plainLen s = (some (packet', len), s')) :
    ∃ nonce c t, SealedFrame env ctx s s' (packet.read (27 + mk.length) plainLen) nonce c t ∧
      len = 27 + mk.length + (plainLen + 16) ∧
      packet'.read 0 len =
        packet.read 0 12 ++ wireHeader fake s.workerIdx nonce ++ (mk ++ (c ++ t)) := by
  have hrun := h
  rw [sealTail] at h
  obtain ⟨key, s1, hload, h1⟩ := bind_eq_some_iff.mp h
  obtain ⟨hkey, rfl⟩ := ofOption_eq_some_iff.mp hload
  obtain ⟨nonce, s2, hgen, h2⟩ := bind_eq_some_iff.mp h1
  obtain ⟨pk, s3, hhdr, h3⟩ := bind_eq_some_iff.mp h2
  obtain ⟨rfl, rfl⟩ := read_eq_some_iff.mp hhdr
  obtain ⟨r, s4, hcall, -⟩ := bind_eq_some_iff.mp h3
  obtain ⟨r', s5, hpayload, -⟩ := bind_eq_some_iff.mp hcall
  obtain ⟨henc, rfl⟩ := ofOption_eq_some_iff.mp hpayload
  have hctx : ctx.initialized = true ∧ key = ctx.key := by
    rw [cryptoPqcSessLoad] at hkey
    by_cases hi : ctx.initialized = true
    · rw [if_pos hi] at hkey; exact ⟨hi, (Option.some.inj hkey).symm⟩
    · rw [if_neg hi] at hkey; cases hkey
  have hdraw : (trfPqcGenerateNonce env s1.nonce).1 = some nonce := congrArg Prod.fst hgen
  rw [trfEncryptPayloadGcm, read_plain, hctx.2] at henc
  by_cases hg : (!env.initialized || plainLen == 0) = true
  · rw [if_pos hg] at henc; cases henc
  · rw [if_neg hg, Option.map_eq_some_iff] at henc
    obtain ⟨⟨c, t⟩, hcipher, -⟩ := henc
    simp only [Bool.or_eq_true, Bool.not_eq_true', beq_iff_eq, not_or, Bool.not_eq_false] at hg
    have hpos : packet.read (27 + mk.length) plainLen ≠ [] := by
      intro hnil
      have hl := congrArg List.length hnil
      rw [Mem.length_read] at hl
      exact hg.2 hl
    have hframe : SealedFrame env ctx s1
        { s1 with nonce := (trfPqcGenerateNonce env s1.nonce).2,
                  sealed := s1.sealed ++ [⟨ctx.key, nonce, packet.read (27 + mk.length) plainLen, c, t⟩] }
        (packet.read (27 + mk.length) plainLen) nonce c t :=
      ⟨⟨hctx.1, hg.1⟩, hpos, hdraw, hcipher, rfl⟩
    obtain ⟨p, hp, hread⟩ := sealTail_apply fake hframe
    rw [hp, Prod.mk.injEq, Option.some.injEq, Prod.mk.injEq] at hrun
    obtain ⟨⟨rfl, rfl⟩, rfl⟩ := hrun
    exact ⟨nonce, c, t, hframe, rfl, hread⟩

/-- What an encoder needs to get through its tail: a key, an initialized
library, a salt (or one to draw) and a cipher that works. -/
structure EncReady (env : Env) (ctx : PacketCryptoCtx) (s : L2State) : Prop where
  ctx : ctx.initialized = true
  lib : env.initialized = true
  salt : s.nonce.nonceReady = true ∨ env.rand.isSome = true
  cipher : env.gcm.Working

/-- A ready thread draws a nonce, and has its salt from then on. -/
theorem EncReady.draw (h : EncReady env ctx s) :
    ∃ nonce, (trfPqcGenerateNonce env s.nonce).1 = some nonce ∧
      (trfPqcGenerateNonce env s.nonce).2.nonceReady = true := by
  rw [trfPqcGenerateNonce_apply, if_pos h.lib]
  by_cases hr : s.nonce.nonceReady = true
  · rw [if_pos hr]; exact ⟨_, rfl, hr⟩
  · rw [if_neg hr]
    cases hrand : env.rand with
    | none =>
        have hsalt := h.salt
        rw [hrand] at hsalt
        simp [hr] at hsalt
    | some salt => exact ⟨_, rfl, rfl⟩

/-- A ready thread gets through the tail and stays ready. -/
theorem sealTail_of_ready (h : EncReady env ctx s) (hpos : 0 < plainLen) :
    ∃ r s', sealTail env ctx packet fake mk plainLen s = (some r, s') ∧ EncReady env ctx s' := by
  obtain ⟨nonce, hdraw, hready⟩ := h.draw
  obtain ⟨⟨c, t⟩, hcipher⟩ := Option.isSome_iff_exists.mp
    (h.cipher ctx.key nonce (packet.read (27 + mk.length) plainLen))
  have hne : packet.read (27 + mk.length) plainLen ≠ [] := by
    intro hnil
    have hl := congrArg List.length hnil
    rw [Mem.length_read, List.length_nil] at hl
    omega
  obtain ⟨p, hp, -⟩ := sealTail_apply fake ⟨⟨h.ctx, h.lib⟩, hne, hdraw, hcipher, rfl⟩
  exact ⟨_, _, hp, h.ctx, h.lib, .inl hready, h.cipher⟩

end SealTail

/-! ## the encoders -/

section Encoders

variable {env : Env} {ctx : PacketCryptoCtx} {packet : Mem} {pktLen : Nat} {s s' : L2State}

/-- The DATA encoder: move everything from the EtherType on behind the header,
and seal it. -/
theorem l2DoEncrypt_eq_sealTail (het : cryptoEthL2PrefixLen packet pktLen = some 12)
    (hlen : 27 ≤ pktLen) :
    l2DoEncrypt env ctx packet pktLen =
      sealTail env ctx (packet.move 27 12 (pktLen - 12)) neL2FakeEthertype [] (pktLen - 12) := by
  have h14 : 12 + 2 ≤ pktLen := by omega
  have h27 : 12 + 2 + l2CoreIdLen + l2NonceSize ≤ pktLen := by simpa using hlen
  rw [l2DoEncrypt, ofOption_some_bind het, check_bind h14, check_bind h27, sealTail]
  simp only [Mem.write_nil]
  rfl

/-- The FULL encoder: shim, then everything behind the EtherType. -/
theorem l2DoEncryptUdp_eq_sealTail (hip : cryptoPktIsIpv4 packet pktLen = true)
    (hlen : pktLen + 46 ≤ neJumboFrameMax) :
    l2DoEncryptUdp env ctx packet pktLen = (do
      let dg ← l2CryptoUdpTxMeta env
      sealTail env ctx (l2UdpWriteShim (packet.move 44 14 (pktLen - 14)) 31 .full dg)
        neL2FakeEthertypeUdp l2UdpMarker (13 + (pktLen - 14))) := by
  obtain ⟨h34, het⟩ := cryptoPktIsIpv4_iff.mp hip
  have hoff : cryptoEthIpv4Offset packet pktLen = some 14 :=
    cryptoEthIpv4Offset_eq_some_iff.mpr ⟨rfl, h34, het⟩
  have hetOff : cryptoEthL2PrefixLen packet pktLen = some 12 :=
    cryptoEthInnerEtOff_eq_some_iff.mpr ⟨rfl, by omega, .inl het⟩
  have hmax : 12 + 2 + l2CoreIdLen + l2NonceSize + l2UdpMarkerSize + (l2UdpShimSize +
      (pktLen - 14)) + aesGcmTagSize ≤ neJumboFrameMax := by
    simp only [neJumboFrameMax] at hlen
    simp; omega
  rw [l2DoEncryptUdp, ofOption_some_bind hoff, ofOption_some_bind hetOff]
  congr 1
  funext dg
  rw [check_bind hmax]
  rfl

/-- A fragment in a buffer of its own: addresses, shim and its part of the
payload. -/
theorem l2EncryptFragmentSingle_eq_sealTail {plainOff n outMax : Nat} {dg : UdpMeta}
    {kind : L2UdpKind} {outBuf : Mem} (hmax : 60 + n ≤ outMax) :
    l2EncryptFragmentSingle env ctx packet plainOff n dg kind outBuf outMax 12 =
      sealTail env ctx (l2UdpWriteShim ((outBuf.write 0 (packet.read 0 12)).write 44
        (packet.read plainOff n)) 31 kind dg) neL2FakeEthertypeUdp l2UdpMarker (13 + n) := by
  have hmax' : 12 + 2 + l2CoreIdLen + l2NonceSize + l2UdpMarkerSize + (l2UdpShimSize + n) +
      aesGcmTagSize ≤ outMax := by
    simp; omega
  rw [l2EncryptFragmentSingle, check_bind hmax']
  rfl

/-- The in-place fragment: the same layout, cut from the front of the payload. -/
theorem l2EncryptFragment0Inplace_eq_sealTail {n outMax : Nat} {dg : UdpMeta}
    (hmax : 60 + n ≤ outMax) :
    l2EncryptFragment0Inplace env ctx packet n dg outMax 12 14 =
      sealTail env ctx (l2UdpWriteShim (packet.move 44 14 n) 31 .frag0 dg) neL2FakeEthertypeUdp
        l2UdpMarker (13 + n) := by
  have hmax' : 12 + 2 + l2CoreIdLen + l2NonceSize + l2UdpMarkerSize + (l2UdpShimSize + n) +
      aesGcmTagSize ≤ outMax := by
    simp; omega
  rw [l2EncryptFragment0Inplace, check_bind hmax']
  rfl

/-- The plaintext of a UDP-format frame, as the encoders lay it out before
sealing. -/
theorem read_shimmed (m : Mem) (kind : L2UdpKind) (dg : UdpMeta) {part : List UInt8} {n : Nat}
    (hn : part.length = n) :
    (l2UdpWriteShim (m.write 44 part) 31 kind dg).read 31 (13 + n) = l2UdpShim kind dg ++ part ∧
      (l2UdpWriteShim (m.write 44 part) 31 kind dg).read 0 12 = m.read 0 12 := by
  rw [l2UdpWriteShim]
  refine ⟨?_, ?_⟩
  · rw [Mem.read_add, Mem.read_write_self _ (length_l2UdpShim kind dg),
      Mem.read_write_of_disjoint _ (.inr (by simp)), Mem.read_write_self _ hn]
  · rw [Mem.read_write_of_disjoint _ (.inl (by omega)),
      Mem.read_write_of_disjoint _ (.inl (by omega))]

/-- `out` holds the DATA frame of the plaintext `plain`, sealed by the thread
going from `s` to `s'`. -/
def DataFrame (env : Env) (ctx : PacketCryptoCtx) (s s' : L2State) (macs plain : List UInt8)
    (out : Mem) (len : Nat) : Prop :=
  ∃ nonce c t, SealedFrame env ctx s s' plain nonce c t ∧ len = plain.length + 43 ∧
    out.read 0 len = dataWire macs s.workerIdx nonce (c ++ t)

/-- `out` holds the UDP-format frame of `part` behind the shim of `kind` and
`dg`, sealed by the thread going from `s` to `s'`. -/
def UdpFrame (env : Env) (ctx : PacketCryptoCtx) (s s' : L2State) (macs : List UInt8)
    (kind : L2UdpKind) (dg : UdpMeta) (part : List UInt8) (out : Mem) (len : Nat) : Prop :=
  ∃ nonce c t, SealedFrame env ctx s s' (l2UdpShim kind dg ++ part) nonce c t ∧
    len = part.length + 60 ∧ out.read 0 len = udpWire macs s.workerIdx nonce (c ++ t)

/-- Sealing `part` behind a shim gives a UDP-format frame. -/
private theorem udpFrame_of_sealTail {m out : Mem} {len n : Nat} {kind : L2UdpKind} {dg : UdpMeta}
    {part : List UInt8} (hn : part.length = n)
    (h : sealTail env ctx (l2UdpWriteShim (m.write 44 part) 31 kind dg) neL2FakeEthertypeUdp
      l2UdpMarker (13 + n) s = (some (out, len), s')) :
    UdpFrame env ctx s s' (m.read 0 12) kind dg part out len := by
  obtain ⟨nonce, c, t, hs, rfl, hread⟩ := sealTail_eq_some h
  obtain ⟨hplain, hmacs⟩ := read_shimmed m kind dg hn
  rw [length_l2UdpMarker, hplain] at hs
  rw [hmacs] at hread
  refine ⟨nonce, c, t, hs, ?_, hread⟩
  rw [hn, length_l2UdpMarker]; omega

/-- The epoch a thread uses next. -/
def L2State.epoch (env : Env) (s : L2State) : UInt32 :=
  if s.udpEpoch ≠ 0 then s.udpEpoch
  else
    let epoch := match env.getrandom with
      | some r => if r = 0 then env.clockMix else r
      | none => env.clockMix
    if epoch = 0 then 1 else epoch

/-- What identifies the datagram a thread sends next. -/
def L2State.txMeta (env : Env) (s : L2State) : UdpMeta :=
  ⟨s.epoch env, s.udpTxSeq, s.udpTxDatagramId⟩

/-- The thread once it knows its epoch. -/
def L2State.withEpoch (env : Env) (s : L2State) : L2State := { s with udpEpoch := s.epoch env }

/-- The metadata is there once a sequence number has been set. -/
theorem l2CryptoUdpTxMeta_apply (env : Env) (s : L2State) :
    l2CryptoUdpTxMeta env s =
      if s.udpTxValid = true then (some (s.txMeta env), s.withEpoch env) else (none, s) := by
  have hepoch : l2CryptoEpoch env s = (some (s.epoch env), s.withEpoch env) := by
    rw [l2CryptoEpoch, L2State.withEpoch, L2State.epoch]
    by_cases h : s.udpEpoch ≠ 0
    · rw [if_pos h, if_pos h]
    · cases env.getrandom <;> simp [h]
  by_cases hv : s.udpTxValid = true
  · rw [if_pos hv, l2CryptoUdpTxMeta]
    simp only [bind_apply, read_apply, check_apply, if_pos hv, hepoch]
    rfl
  · rw [if_neg hv, l2CryptoUdpTxMeta]
    simp only [bind_apply, read_apply, check_apply, if_neg hv]

theorem EncReady.withEpoch (h : EncReady env ctx s) : EncReady env ctx (s.withEpoch env) :=
  ⟨h.ctx, h.lib, h.salt, h.cipher⟩

/-- What a DATA encoding that succeeded produced. -/
theorem l2TcpEncrypt_eq_some {out : Mem} {len : Nat}
    (h : l2TcpEncrypt env ctx packet pktLen s = (some (out, len), s')) :
    27 ≤ pktLen ∧
      DataFrame env ctx s s' (packet.read 0 12) (packet.read 12 (pktLen - 12)) out len := by
  rw [l2TcpEncrypt] at h
  obtain ⟨_, s1, hc, h1⟩ := bind_eq_some_iff.mp h
  obtain ⟨-, rfl⟩ := check_eq_some_iff.mp hc
  obtain ⟨etOff, s2, ho, h2⟩ := bind_eq_some_iff.mp h1
  obtain ⟨het, rfl⟩ := ofOption_eq_some_iff.mp ho
  obtain ⟨rfl, -, -⟩ := cryptoEthInnerEtOff_eq_some_iff.mp het
  have hlen : 27 ≤ pktLen := by
    have hrun := h2
    rw [l2DoEncrypt, ofOption_some_bind het] at hrun
    obtain ⟨_, s3, hc3, h3⟩ := bind_eq_some_iff.mp hrun
    obtain ⟨_, s4, hc4, -⟩ := bind_eq_some_iff.mp h3
    exact (check_eq_some_iff.mp hc4).1
  rw [l2DoEncrypt_eq_sealTail het hlen] at h2
  obtain ⟨nonce, c, t, hs, rfl, hread⟩ := sealTail_eq_some h2
  rw [List.length_nil, Nat.add_zero, Mem.move, Mem.read_write_self _ (by simp)] at hs
  rw [Mem.move, Mem.read_write_of_disjoint _ (.inl (by omega))] at hread
  refine ⟨hlen, nonce, c, t, hs, ?_, ?_⟩
  · rw [Mem.length_read, List.length_nil]; omega
  · rw [hread, dataWire, List.nil_append]

/-- A ready thread encodes every frame that has room for the header. -/
theorem l2TcpEncrypt_of_ready (hr : EncReady env ctx s)
    (het : cryptoEthL2PrefixLen packet pktLen = some 12) (hlen : 27 ≤ pktLen) :
    ∃ r s', l2TcpEncrypt env ctx packet pktLen s = (some r, s') ∧ EncReady env ctx s' := by
  have hmin : ctx.initialized = true ∧ minEthPkt ≤ pktLen := ⟨hr.ctx, by simp; omega⟩
  rw [l2TcpEncrypt, check_bind hmin, ofOption_some_bind het, l2DoEncrypt_eq_sealTail het hlen]
  exact sealTail_of_ready hr (by omega)

/-- What a FULL encoding that succeeded produced. -/
theorem l2UdpEncrypt_eq_some {out : Mem} {len : Nat} (hip : cryptoPktIsIpv4 packet pktLen = true)
    (h : l2UdpEncrypt env ctx packet pktLen s = (some (out, len), s')) :
    pktLen + 46 ≤ neJumboFrameMax ∧ s.udpTxValid = true ∧
      UdpFrame env ctx (s.withEpoch env) s' (packet.read 0 12) .full (s.txMeta env)
        (packet.read 14 (pktLen - 14)) out len := by
  obtain ⟨h34, het⟩ := cryptoPktIsIpv4_iff.mp hip
  have hoff : cryptoEthIpv4Offset packet pktLen = some 14 :=
    cryptoEthIpv4Offset_eq_some_iff.mpr ⟨rfl, h34, het⟩
  have hetOff : cryptoEthL2PrefixLen packet pktLen = some 12 :=
    cryptoEthInnerEtOff_eq_some_iff.mpr ⟨rfl, by omega, .inl het⟩
  rw [l2UdpEncrypt] at h
  obtain ⟨_, s1, hc, h1⟩ := bind_eq_some_iff.mp h
  obtain ⟨-, rfl⟩ := check_eq_some_iff.mp hc
  rw [hip, if_neg (by simp), ofOption_some_bind hoff, ofOption_some_bind hetOff] at h1
  have hjumbo : pktLen + 46 ≤ neJumboFrameMax := by
    have hrun := h1
    rw [l2DoEncryptUdp, ofOption_some_bind hoff, ofOption_some_bind hetOff] at hrun
    obtain ⟨_, s2, -, h2⟩ := bind_eq_some_iff.mp hrun
    obtain ⟨_, s3, hc3, -⟩ := bind_eq_some_iff.mp h2
    have hmax := (check_eq_some_iff.mp hc3).1
    simp at hmax
    simp only [neJumboFrameMax]
    omega
  rw [l2DoEncryptUdp_eq_sealTail hip hjumbo] at h1
  obtain ⟨dg, s2, hmeta, h2⟩ := bind_eq_some_iff.mp h1
  rw [l2CryptoUdpTxMeta_apply] at hmeta
  by_cases hv : s1.udpTxValid = true
  · rw [if_pos hv, Prod.mk.injEq, Option.some.injEq] at hmeta
    obtain ⟨rfl, rfl⟩ := hmeta
    exact ⟨hjumbo, hv, udpFrame_of_sealTail (Mem.length_read packet _ _) h2⟩
  · rw [if_neg hv] at hmeta; cases hmeta

/-- A ready thread with a sequence number encodes every IPv4 frame that fits a
jumbo buffer. -/
theorem l2UdpEncrypt_of_ready (hr : EncReady env ctx s) (hv : s.udpTxValid = true)
    (hip : cryptoPktIsIpv4 packet pktLen = true) (hjumbo : pktLen + 46 ≤ neJumboFrameMax) :
    ∃ r s', l2UdpEncrypt env ctx packet pktLen s = (some r, s') ∧ EncReady env ctx s' := by
  obtain ⟨h34, het⟩ := cryptoPktIsIpv4_iff.mp hip
  have hmin : ctx.initialized = true ∧ minEthPkt ≤ pktLen := ⟨hr.ctx, by simp; omega⟩
  have hoff : cryptoEthIpv4Offset packet pktLen = some 14 :=
    cryptoEthIpv4Offset_eq_some_iff.mpr ⟨rfl, h34, het⟩
  have hetOff : cryptoEthL2PrefixLen packet pktLen = some 12 :=
    cryptoEthInnerEtOff_eq_some_iff.mpr ⟨rfl, by omega, .inl het⟩
  have hmeta : l2CryptoUdpTxMeta env s = (some (s.txMeta env), s.withEpoch env) := by
    rw [l2CryptoUdpTxMeta_apply, if_pos hv]
  rw [l2UdpEncrypt, check_bind hmin, hip, if_neg (by simp), ofOption_some_bind hoff,
    ofOption_some_bind hetOff, l2DoEncryptUdp_eq_sealTail hip hjumbo, bind_of_some hmeta]
  exact sealTail_of_ready hr.withEpoch (by omega)

/-- A fragment that was built fitted its buffer. -/
theorem l2EncryptFragmentSingle_fits {plainOff n outMax : Nat} {dg : UdpMeta} {kind : L2UdpKind}
    {outBuf : Mem} {r : Mem × Nat}
    (h : l2EncryptFragmentSingle env ctx packet plainOff n dg kind outBuf outMax 12 s = (some r, s')) :
    60 + n ≤ outMax := by
  rw [l2EncryptFragmentSingle] at h
  obtain ⟨_, s1, hc, -⟩ := bind_eq_some_iff.mp h
  have hmax := (check_eq_some_iff.mp hc).1
  simp at hmax
  omega

theorem l2EncryptFragment0Inplace_fits {n outMax : Nat} {dg : UdpMeta} {r : Mem × Nat}
    (h : l2EncryptFragment0Inplace env ctx packet n dg outMax 12 14 s = (some r, s')) :
    60 + n ≤ outMax := by
  rw [l2EncryptFragment0Inplace] at h
  obtain ⟨_, s1, hc, -⟩ := bind_eq_some_iff.mp h
  have hmax := (check_eq_some_iff.mp hc).1
  simp at hmax
  omega

/-- The datagrams `l2_split` takes: IPv4 with a whole header, UDP or ICMP, and
at least one byte behind the eight-byte transport header. -/
structure Splittable (packet : Mem) (pktLen : Nat) : Prop where
  ipv4 : cryptoPktIsIpv4 packet pktLen = true
  version : (packet 14).toNat / 16 = 4
  ihl : 5 ≤ (packet 14).toNat % 16
  proto : (packet 23).toNat = ipprotoUdp ∨ (packet 23).toNat = ipprotoIcmp
  payload : 14 + (packet 14).toNat % 16 * 4 + 8 < pktLen

/-- How much of the IP packet goes into the first fragment: what fills a frame
of the MTU, but not all of it. -/
def splitPoint (pktLen : Nat) : Nat := min 8954 (pktLen - 15)

/-- The split of a datagram that can be split. -/
theorem l2Split_eq {frag0Max frag1Max : Nat} {frag1 : Mem} (hsp : Splittable packet pktLen) :
    l2Split env ctx packet pktLen frag0Max frag1 frag1Max = (do
      let dg ← l2CryptoUdpTxMeta env
      let (frag1, frag1Len) ← l2EncryptFragmentSingle env ctx packet (14 + splitPoint pktLen)
        (pktLen - 14 - splitPoint pktLen) dg .frag1 frag1 frag1Max 12
      let (first, frag0Len) ← l2EncryptFragment0Inplace env ctx packet (splitPoint pktLen) dg
        frag0Max 12 14
      pure ⟨first, frag0Len, frag1, frag1Len⟩) := by
  obtain ⟨hip, hver, hihl, hproto, hpay⟩ := hsp
  obtain ⟨h34, het⟩ := cryptoPktIsIpv4_iff.mp hip
  have hoff : cryptoEthIpv4Offset packet pktLen = some 14 :=
    cryptoEthIpv4Offset_eq_some_iff.mpr ⟨rfl, h34, het⟩
  have hetOff (n : Nat) (hn : 14 ≤ n) : cryptoEthL2PrefixLen packet n = some 12 :=
    cryptoEthInnerEtOff_eq_some_iff.mpr ⟨rfl, hn, .inl het⟩
  have hbyte := (packet 14).toNat_lt
  generalize hih : (packet 14).toNat % 16 * 4 = ih at hpay
  have hih20 : 20 ≤ ih ∧ ih ≤ 60 := by omega
  -- the two parts of the application data, as the source computes them
  have hhalf : (if ethHeaderSize + l2CryptoMtu - (14 + optFragMetaLen) - (ih + 8) ≥
      pktLen - 14 - ih - 8 then pktLen - 14 - ih - 8 - 1
      else ethHeaderSize + l2CryptoMtu - (14 + optFragMetaLen) - (ih + 8)) =
      splitPoint pktLen - (ih + 8) := by
    have hmax : ethHeaderSize + l2CryptoMtu - (14 + optFragMetaLen) = 8954 := rfl
    rw [hmax, splitPoint]
    by_cases hfits : 8954 - (ih + 8) ≥ pktLen - 14 - ih - 8
    · rw [if_pos hfits]; omega
    · rw [if_neg hfits]; omega
  have hfix : ih + 8 ≤ splitPoint pktLen := by rw [splitPoint]; omega
  have hle : splitPoint pktLen ≤ pktLen - 14 := by rw [splitPoint]; omega
  rw [l2Split, ofOption_some_bind hoff, hih, check_bind ⟨hver, hih20.1, by omega⟩,
    check_bind hproto, check_bind (show 8 ≤ pktLen - 14 - ih by omega),
    check_bind (show pktLen - 14 - ih - 8 ≠ 0 by omega), check_bind (by simp),
    check_bind (by simp; omega), hhalf]
  have hsecond : 14 + ih + 8 + (splitPoint pktLen - (ih + 8)) = 14 + splitPoint pktLen := by omega
  have hrest : pktLen - 14 - ih - 8 - (splitPoint pktLen - (ih + 8)) =
      pktLen - 14 - splitPoint pktLen := by omega
  have hfirst : ih + 8 + (splitPoint pktLen - (ih + 8)) = splitPoint pktLen := by omega
  simp only [ofOption_some_bind (hetOff ethL2HdrMax (by simp)),
    ofOption_some_bind (hetOff pktLen (by omega)), hsecond, hrest, hfirst]

/-- A datagram that was split could be split. -/
theorem splittable_of_l2Split {frag0Max frag1Max : Nat} {frag1 : Mem} {r : SplitFrames}
    (h : l2Split env ctx packet pktLen frag0Max frag1 frag1Max s = (some r, s')) :
    Splittable packet pktLen := by
  rw [l2Split] at h
  obtain ⟨l3Off, s1, ho, h1⟩ := bind_eq_some_iff.mp h
  obtain ⟨hoff, -⟩ := ofOption_eq_some_iff.mp ho
  obtain ⟨rfl, h34, het⟩ := cryptoEthIpv4Offset_eq_some_iff.mp hoff
  obtain ⟨_, s2, hc2, h2⟩ := bind_eq_some_iff.mp h1
  obtain ⟨⟨hver, hihl, hroom⟩, -⟩ := check_eq_some_iff.mp hc2
  obtain ⟨_, s3, hc3, h3⟩ := bind_eq_some_iff.mp h2
  obtain ⟨hproto, -⟩ := check_eq_some_iff.mp hc3
  obtain ⟨_, s4, hc4, h4⟩ := bind_eq_some_iff.mp h3
  obtain ⟨hlen8, -⟩ := check_eq_some_iff.mp hc4
  obtain ⟨_, s5, hc5, -⟩ := bind_eq_some_iff.mp h4
  obtain ⟨happ, -⟩ := check_eq_some_iff.mp hc5
  exact ⟨cryptoPktIsIpv4_iff.mpr ⟨h34, het⟩, hver, by omega, hproto, by omega⟩

/-- What a split that succeeded produced: the second fragment is sealed first,
the first one from the state this leaves. -/
theorem l2Split_eq_some {frag0Max frag1Max : Nat} {frag1 : Mem} {r : SplitFrames}
    (h : l2Split env ctx packet pktLen frag0Max frag1 frag1Max s = (some r, s')) :
    Splittable packet pktLen ∧ s.udpTxValid = true ∧ ∃ s2,
      UdpFrame env ctx (s.withEpoch env) s2 (packet.read 0 12) .frag1 (s.txMeta env)
        (packet.read (14 + splitPoint pktLen) (pktLen - 14 - splitPoint pktLen))
        r.second r.secondLen ∧
      UdpFrame env ctx s2 s' (packet.read 0 12) .frag0 (s.txMeta env)
        (packet.read 14 (splitPoint pktLen)) r.first r.firstLen := by
  have hsp := splittable_of_l2Split h
  rw [l2Split_eq hsp] at h
  obtain ⟨dg, s1, hmeta, h1⟩ := bind_eq_some_iff.mp h
  rw [l2CryptoUdpTxMeta_apply] at hmeta
  by_cases hv : s.udpTxValid = true
  · rw [if_pos hv, Prod.mk.injEq, Option.some.injEq] at hmeta
    obtain ⟨rfl, rfl⟩ := hmeta
    obtain ⟨⟨f1, l1⟩, s2, hsecond, h2⟩ := bind_eq_some_iff.mp h1
    obtain ⟨⟨f0, l0⟩, s3, hfirst, h3⟩ := bind_eq_some_iff.mp h2
    obtain ⟨rfl, rfl⟩ := pure_eq_some_iff.mp h3
    have hmax1 := l2EncryptFragmentSingle_fits hsecond
    have hmax0 := l2EncryptFragment0Inplace_fits hfirst
    rw [l2EncryptFragmentSingle_eq_sealTail hmax1] at hsecond
    rw [l2EncryptFragment0Inplace_eq_sealTail hmax0] at hfirst
    have hmacs := @Mem.read_write_self frag1 0 12 _ (Mem.length_read packet 0 12)
    have hframe1 := udpFrame_of_sealTail (Mem.length_read packet _ _) hsecond
    have hframe0 := udpFrame_of_sealTail (Mem.length_read packet _ _) hfirst
    rw [hmacs] at hframe1
    exact ⟨hsp, hv, s2, hframe1, hframe0⟩
  · rw [if_neg hv] at hmeta; cases hmeta

/-- A ready thread with a sequence number splits every datagram whose
fragments fit their buffers. -/
theorem l2Split_of_ready {frag0Max frag1Max : Nat} {frag1 : Mem} (hr : EncReady env ctx s)
    (hv : s.udpTxValid = true) (hsp : Splittable packet pktLen)
    (hmax0 : 60 + splitPoint pktLen ≤ frag0Max)
    (hmax1 : 60 + (pktLen - 14 - splitPoint pktLen) ≤ frag1Max) :
    ∃ r s', l2Split env ctx packet pktLen frag0Max frag1 frag1Max s = (some r, s') := by
  have hmeta : l2CryptoUdpTxMeta env s = (some (s.txMeta env), s.withEpoch env) := by
    rw [l2CryptoUdpTxMeta_apply, if_pos hv]
  rw [l2Split_eq hsp, bind_of_some hmeta, l2EncryptFragmentSingle_eq_sealTail hmax1,
    l2EncryptFragment0Inplace_eq_sealTail hmax0]
  obtain ⟨⟨f1, l1⟩, s2, h1, hr2⟩ := @sealTail_of_ready env ctx
    (l2UdpWriteShim ((frag1.write 0 (packet.read 0 12)).write 44
      (packet.read (14 + splitPoint pktLen) (pktLen - 14 - splitPoint pktLen))) 31 .frag1
      (s.txMeta env)) neL2FakeEthertypeUdp l2UdpMarker
    (13 + (pktLen - 14 - splitPoint pktLen)) (s.withEpoch env) hr.withEpoch (by omega)
  obtain ⟨⟨f0, l0⟩, s3, h0, -⟩ := @sealTail_of_ready env ctx
    (l2UdpWriteShim (packet.move 44 14 (splitPoint pktLen)) 31 .frag0 (s.txMeta env))
    neL2FakeEthertypeUdp l2UdpMarker (13 + splitPoint pktLen) s2 hr2 (by omega)
  refine ⟨⟨f0, l0, f1, l1⟩, s3, ?_⟩
  rw [bind_of_some h1]
  exact bind_of_some h0 _

end Encoders

/-! ## the decoders -/

section Decoders

variable {env : Env} {ctx : PacketCryptoCtx} {packet : Mem} {pktLen : Nat}

/-- The EtherTypes whose header the decoders look behind. -/
def KnownEt (packet : Mem) : Prop :=
  ethReadEt packet 12 = ethPIp ∨ ethReadEt packet 12 = neL2FakeEthertype ∨
    ethReadEt packet 12 = neL2FakeEthertypeUdp

/-- The cipher accepts what lies between `off` and the end of the frame, with
the nonce of the header, as an encryption of `plain`. -/
def Opens (env : Env) (ctx : PacketCryptoCtx) (packet : Mem) (off pktLen : Nat)
    (plain : List UInt8) : Prop :=
  ctx.initialized = true ∧ env.initialized = true ∧ off + 16 < pktLen ∧
    env.gcm.decrypt ctx.key (packet.readNonce 15) (packet.read off (pktLen - off - 16))
      (packet.read (pktLen - 16) 16) = some plain

theorem l2EncStartOff_eq_some_iff {off : Nat} :
    l2EncStartOff packet pktLen = some off ↔ off = 27 ∧ 27 ≤ pktLen ∧ KnownEt packet := by
  rw [l2EncStartOff, l2NonceOff, l2CoreIdOff, cryptoEthL2CoreIdOff]
  cases h : cryptoEthInnerEtOff packet pktLen with
  | none =>
      constructor
      · intro hc; cases hc
      · intro hc
        have hs := cryptoEthInnerEtOff_eq_some_iff.mpr ⟨rfl, (by omega : 14 ≤ pktLen), hc.2.2⟩
        rw [h] at hs; cases hs
  | some o =>
      obtain ⟨rfl, h14, het⟩ := cryptoEthInnerEtOff_eq_some_iff.mp h
      by_cases h15 : pktLen < 12 + 3
      · simp only [if_pos h15, Option.map_none]
        constructor
        · intro hc; cases hc
        · intro hc; omega
      · simp only [if_neg h15, Option.map_some, l2CoreIdLen, l2NonceSize, packetCryptoNonceBytes]
        by_cases h27 : pktLen < 12 + 2 + 1 + 12
        · rw [if_pos h27]
          constructor
          · intro hc; cases hc
          · intro hc; omega
        · rw [if_neg h27, Option.some.injEq]
          constructor
          · intro ho; exact ⟨ho.symm, by omega, het⟩
          · intro ho; exact ho.1.symm

/-- The header fields are where the encoders put them. -/
theorem l2NonceOff_of_knownEt (het : KnownEt packet) (hlen : 27 ≤ pktLen) :
    l2NonceOff packet pktLen = some 15 := by
  have hoff : cryptoEthInnerEtOff packet pktLen = some 12 :=
    cryptoEthInnerEtOff_eq_some_iff.mpr ⟨rfl, by omega, het⟩
  rw [l2NonceOff, l2CoreIdOff, cryptoEthL2CoreIdOff, hoff]
  simp only [if_neg (show ¬ pktLen < 12 + 3 by omega), Option.map_some]
  rfl

/-- The cipher call of both decoders. -/
theorem cryptoPqcDecryptPayloadResilient_eq_some_iff {off decLen : Nat} {p : Mem}
    (hoff : off ≤ pktLen) :
    cryptoPqcDecryptPayloadResilient env ctx (packet.readNonce 15) packet off (pktLen - off) =
        some (p, decLen) ↔
      ∃ plain, Opens env ctx packet off pktLen plain ∧ p = packet.write off plain ∧
        decLen = plain.length := by
  rw [cryptoPqcDecryptPayloadResilient]
  by_cases hctx : ctx.initialized = true
  · rw [if_pos hctx, trfDecryptPayloadGcm]
    by_cases hg : (!env.initialized || pktLen - off - aesGcmTagSize == 0) = true
    · rw [if_pos hg]
      simp only [aesGcmTagSize, Bool.or_eq_true, Bool.not_eq_true', beq_iff_eq] at hg
      constructor
      · intro hc; cases hc
      · intro hc
        obtain ⟨plain, ⟨-, hi, hlen, -⟩, -⟩ := hc
        rw [hi] at hg
        simp only [Bool.true_eq_false, false_or] at hg
        omega
    · rw [if_neg hg, Option.map_eq_some_iff]
      simp only [aesGcmTagSize, Bool.or_eq_true, Bool.not_eq_true', beq_iff_eq, not_or,
        Bool.not_eq_false] at hg ⊢
      have htag : off + (pktLen - off - 16) = pktLen - 16 := by omega
      simp only [Opens, hctx, hg.1, true_and, htag, Prod.mk.injEq]
      constructor
      · intro h
        obtain ⟨plain, hdec, rfl, rfl⟩ := h
        exact ⟨plain, ⟨by omega, hdec⟩, rfl, rfl⟩
      · intro h
        obtain ⟨plain, ⟨-, hdec⟩, rfl, rfl⟩ := h
        exact ⟨plain, hdec, rfl, rfl⟩
  · rw [if_neg hctx]
    constructor
    · intro hc; cases hc
    · intro hc
      obtain ⟨plain, ⟨hi, -⟩, -⟩ := hc
      exact absurd hi hctx

/-- The EtherType survives a store behind the header. -/
private theorem ethReadEt_write (packet : Mem) {off : Nat} (plain : List UInt8) (hoff : 14 ≤ off) :
    ethReadEt (packet.write off plain) 12 = ethReadEt packet 12 :=
  ethReadEt_congr (Mem.write_of_not_mem _ (by omega)) (Mem.write_of_not_mem _ (by omega))

/-- The DATA decoder, on any bytes: it succeeds exactly when the cipher accepts
everything behind the header. -/
theorem l2DoDecrypt_eq_some_iff {out : Mem} {len : Nat} :
    l2DoDecrypt env ctx packet pktLen = some (out, len) ↔
      KnownEt packet ∧ ∃ plain, Opens env ctx packet 27 pktLen plain ∧
        out = (packet.write 27 plain).move 12 27 plain.length ∧ len = 12 + plain.length := by
  have hetOff (plain : List UInt8) (h14 : 14 ≤ pktLen) (het : KnownEt packet) :
      cryptoEthL2PrefixLen (packet.write 27 plain) pktLen = some 12 := by
    rw [KnownEt, ← ethReadEt_write packet plain (by omega : 14 ≤ 27)] at het
    exact cryptoEthInnerEtOff_eq_some_iff.mpr ⟨rfl, h14, het⟩
  rw [l2DoDecrypt]
  cases hs : l2EncStartOff packet pktLen with
  | none =>
      constructor
      · intro hc; cases hc
      · intro hc
        obtain ⟨het, plain, ⟨-, -, hlen, -⟩, -⟩ := hc
        have h27 := l2EncStartOff_eq_some_iff.mpr ⟨rfl, (by omega : 27 ≤ pktLen), het⟩
        rw [hs] at h27; cases h27
  | some off =>
      obtain ⟨rfl, h27, het⟩ := l2EncStartOff_eq_some_iff.mp hs
      rw [l2NonceOff_of_knownEt het h27]
      have hdec := @cryptoPqcDecryptPayloadResilient_eq_some_iff env ctx packet pktLen 27
      by_cases hctx : ctx.initialized = true
      · rw [cryptoPqcSessLoad, if_pos hctx]
        cases hd : cryptoPqcDecryptPayloadResilient env ctx (packet.readNonce 15) packet 27
            (pktLen - 27) with
        | none =>
            constructor
            · intro hc; simp only [hd] at hc; cases hc
            · intro hc
              obtain ⟨-, plain, ho, -⟩ := hc
              rw [(hdec h27).mpr ⟨plain, ho, rfl, rfl⟩] at hd; cases hd
        | some r =>
            obtain ⟨plain, ho, hr1, hr2⟩ := (hdec h27).mp hd
            simp only [hd, l2RestorePlainPacket, hr1, hr2, hetOff plain (by omega) het,
              Option.map_some, Option.some.injEq, Prod.mk.injEq]
            constructor
            · intro h; exact ⟨het, plain, ho, h.1.symm, h.2.symm⟩
            · intro h
              obtain ⟨-, plain', ho', rfl, rfl⟩ := h
              have heq : plain = plain' := Option.some.inj (ho.2.2.2.symm.trans ho'.2.2.2)
              rw [heq]; exact ⟨rfl, rfl⟩
      · rw [cryptoPqcSessLoad, if_neg hctx]
        constructor
        · intro hc; cases hc
        · intro hc
          obtain ⟨-, plain, ho, -⟩ := hc
          exact absurd ho.1 hctx

/-- The frame the UDP decoder rebuilds from the payload behind a shim. -/
def udpPlain (packet : Mem) (kind : L2UdpKind) (dg : UdpMeta) (payload : List UInt8) : UdpPlain :=
  let restored := (packet.write 31 (l2UdpShim kind dg ++ payload)).move 14 44 payload.length
  ⟨kind, dg, if kind = .full then cryptoEthSetIpv4Et restored 12 else restored, 14 + payload.length⟩

/-- A plaintext starts with a shim exactly when the reader finds it in place. -/
private theorem l2UdpReadShim_write {plain : List UInt8} {kind : L2UdpKind} {dg : UdpMeta}
    (hlen : 13 ≤ plain.length) :
    l2UdpReadShim (packet.write 31 plain) 31 = some (kind, dg) ↔
      ∃ payload, plain = l2UdpShim kind dg ++ payload := by
  have hread : (packet.write 31 plain).read 31 13 = plain.take 13 := by
    have h := @Mem.read_write_inside packet 31 0 13 plain (by omega)
    rw [List.drop_zero] at h
    exact h
  rw [l2UdpReadShim_eq_some_iff, hread]
  constructor
  · intro h; exact ⟨plain.drop 13, by rw [← h, List.take_append_drop]⟩
  · intro h
    obtain ⟨payload, rfl⟩ := h
    exact List.take_left' (length_l2UdpShim kind dg)

/-- The UDP decoder, on any bytes: it succeeds exactly when the marker is there
and the cipher accepts what is behind it as an encryption of a shim and
something. -/
theorem l2DoDecryptUdp_eq_some_iff {r : UdpPlain} :
    l2DoDecryptUdp env ctx packet pktLen = some r ↔
      KnownEt packet ∧ packet.read 27 4 = l2UdpMarker ∧ 60 ≤ pktLen ∧
        ∃ kind dg payload, Opens env ctx packet 31 pktLen (l2UdpShim kind dg ++ payload) ∧
          r = udpPlain packet kind dg payload := by
  have hetOff (plain : List UInt8) (h14 : 14 ≤ pktLen) (het : KnownEt packet) :
      cryptoEthL2PrefixLen (packet.write 31 plain) pktLen = some 12 := by
    rw [KnownEt, ← ethReadEt_write packet plain (by omega : 14 ≤ 31)] at het
    exact cryptoEthInnerEtOff_eq_some_iff.mpr ⟨rfl, h14, het⟩
  have hdec := @cryptoPqcDecryptPayloadResilient_eq_some_iff env ctx packet pktLen 31
  have hsub (kind : L2UdpKind) (dg : UdpMeta) (payload : List UInt8) :
      (l2UdpShim kind dg ++ payload).length - 13 = payload.length := by
    rw [List.length_append, length_l2UdpShim]; omega
  rw [l2DoDecryptUdp, l2FragMagicOff]
  constructor
  · intro h
    cases hs : l2EncStartOff packet pktLen with
    | none => simp only [hs] at h; cases h
    | some off =>
        obtain ⟨rfl, h27, het⟩ := l2EncStartOff_eq_some_iff.mp hs
        simp only [hs, l2NonceOff_of_knownEt het h27] at h
        by_cases hm : l2UdpMarkerMatch packet pktLen 27 = true
        · rw [hm, Bool.not_true, if_neg (by simp)] at h
          by_cases hlen : pktLen < 27 + l2UdpMarkerSize + l2UdpShimSize + aesGcmTagSize
          · rw [if_pos hlen] at h; cases h
          · rw [if_neg hlen] at h
            simp only [l2UdpMarkerSize, l2UdpShimSize, aesGcmTagSize] at hlen h
            have h60 : 60 ≤ pktLen := by omega
            have hmark : packet.read 27 4 = l2UdpMarker := by
              simp only [l2UdpMarkerMatch, Bool.and_eq_true, beq_iff_eq] at hm
              exact hm.2
            cases hk : cryptoPqcSessLoad ctx with
            | none => simp only [hk] at h; cases h
            | some key =>
                simp only [hk] at h
                cases hd : cryptoPqcDecryptPayloadResilient env ctx (packet.readNonce 15) packet 31
                    (pktLen - 31) with
                | none => simp only [hd] at h; cases h
                | some q =>
                    obtain ⟨plain, ho, hq1, hq2⟩ := (hdec (by omega)).mp hd
                    simp only [hd, hq1, hq2] at h
                    by_cases h13 : plain.length < 13
                    · rw [if_pos h13] at h; cases h
                    · rw [if_neg h13, hetOff plain (by omega) het] at h
                      cases hshim : l2UdpReadShim (packet.write 31 plain) 31 with
                      | none => simp only [hshim] at h; cases h
                      | some kd =>
                          obtain ⟨kind, dg⟩ := kd
                          obtain ⟨payload, rfl⟩ := (l2UdpReadShim_write (by omega)).mp hshim
                          simp only [hshim, hsub, Option.some.injEq] at h
                          exact ⟨het, hmark, h60, kind, dg, payload, ho, h.symm⟩
        · simp only [Bool.not_eq_true] at hm
          rw [hm, Bool.not_false, if_pos rfl] at h; cases h
  · intro h
    obtain ⟨het, hmark, h60, kind, dg, payload, ho, rfl⟩ := h
    have h27 : 27 ≤ pktLen := by omega
    have hs := l2EncStartOff_eq_some_iff.mpr ⟨rfl, h27, het⟩
    have hm : l2UdpMarkerMatch packet pktLen 27 = true := by
      simp only [l2UdpMarkerMatch, l2UdpMarkerSize, hmark, beq_self_eq_true, Bool.and_true,
        decide_eq_true_eq]
      omega
    have hlen : ¬ pktLen < 27 + l2UdpMarkerSize + l2UdpShimSize + aesGcmTagSize := by
      simp; omega
    have hkey : cryptoPqcSessLoad ctx = some ctx.key := by rw [cryptoPqcSessLoad, if_pos ho.1]
    have hd := (hdec (by omega)).mpr ⟨_, ho, rfl, rfl⟩
    have h13 : ¬ (l2UdpShim kind dg ++ payload).length < 13 := by
      rw [List.length_append, length_l2UdpShim]; omega
    have hshim := (@l2UdpReadShim_write packet (l2UdpShim kind dg ++ payload) kind dg
      (by omega)).mpr ⟨payload, rfl⟩
    simp only [hs, l2NonceOff_of_knownEt het h27]
    rw [hm, Bool.not_true, if_neg (by simp), if_neg hlen, hkey]
    simp only [l2UdpMarkerSize, l2UdpShimSize, Nat.reduceAdd, hd, if_neg h13, hshim,
      hetOff _ (by omega : 14 ≤ pktLen) het, hsub]
    rfl

/-- The bytes of a rebuilt frame: the addresses, the EtherType (IPv4 for a whole
datagram, as received for a fragment), and the payload. -/
theorem read_udpPlain (packet : Mem) (kind : L2UdpKind) (dg : UdpMeta) (payload : List UInt8) :
    (udpPlain packet kind dg payload).packet.read 0 12 = packet.read 0 12 ∧
      (udpPlain packet kind dg payload).packet.read 12 2 =
        (if kind = .full then [0x08, 0x00] else packet.read 12 2) ∧
      (udpPlain packet kind dg payload).packet.read 14 payload.length = payload := by
  have hbehind : (packet.write 31 (l2UdpShim kind dg ++ payload)).read 44 payload.length =
      payload := by
    have h := @Mem.read_write_inside packet 31 13 payload.length (l2UdpShim kind dg ++ payload)
      (by simp)
    rw [h, List.drop_left' (length_l2UdpShim kind dg), List.take_length]
  have hfront (off n : Nat) (hn : off + n ≤ 14) :
      ((packet.write 31 (l2UdpShim kind dg ++ payload)).move 14 44 payload.length).read off n =
        packet.read off n := by
    rw [Mem.move, Mem.read_write_of_disjoint _ (.inl hn),
      Mem.read_write_of_disjoint _ (.inl (by omega))]
  have hmoved : ((packet.write 31 (l2UdpShim kind dg ++ payload)).move 14 44
      payload.length).read 14 payload.length = payload := by
    rw [Mem.move, hbehind, Mem.read_write_self _ rfl]
  by_cases hk : kind = .full
  · simp only [udpPlain, if_pos hk, cryptoEthSetIpv4Et]
    refine ⟨?_, ?_, ?_⟩
    · rw [Mem.read_write_of_disjoint _ (.inl (by omega)), hfront 0 12 (by omega)]
    · exact Mem.read_write_self _ rfl
    · rw [Mem.read_write_of_disjoint _ (.inr (by simp)), hmoved]
  · simp only [udpPlain, if_neg hk]
    exact ⟨hfront 0 12 (by omega), hfront 12 2 (by omega), hmoved⟩

/-- The bytes of a frame the DATA decoder restores. -/
theorem read_dataPlain (packet : Mem) (plain : List UInt8) :
    ((packet.write 27 plain).move 12 27 plain.length).read 0 (12 + plain.length) =
      packet.read 0 12 ++ plain := by
  rw [Mem.move, Mem.read_write_self _ rfl, Mem.read_add, Nat.zero_add, Mem.read_write_self _ rfl,
    Mem.read_write_of_disjoint _ (.inl (by omega)), Mem.read_write_of_disjoint _ (.inl (by omega))]

/-! ## reading a wire frame back -/

/-- The fields of a frame laid out as addresses, header and body. -/
theorem read_wire {packet : Mem} {n : Nat} {macs body : List UInt8} {fake : Nat} {w : UInt8}
    {nonce : Nonce} (hmacs : macs.length = 12) (hn : n = 27 + body.length)
    (h : packet.read 0 n = macs ++ wireHeader fake w nonce ++ body) :
    packet.read 0 12 = macs ∧
      packet.read 12 2 = [UInt8.ofNat (fake / 256), UInt8.ofNat fake] ∧ packet 14 = w ∧
      packet.readNonce 15 = nonce ∧ packet.read 27 body.length = body := by
  rw [List.append_assoc, Mem.read_eq_append_iff (by simp; omega),
    Mem.read_eq_append_iff (by simp), hmacs, length_wireHeader] at h
  obtain ⟨hm, hh, hb⟩ := h
  have hheader : packet.read 12 15 = [UInt8.ofNat (fake / 256), UInt8.ofNat fake] ++ ([w] ++ nonce.1) :=
    hh
  rw [Mem.read_eq_append_iff (by simp [nonce.2]), Mem.read_eq_append_iff (by simp [nonce.2]),
    nonce.2] at hheader
  obtain ⟨het, hw, hnonce⟩ := hheader
  refine ⟨hm, het, ?_, Subtype.ext hnonce, hb⟩
  exact List.head_eq_of_cons_eq hw

/-- Reading a UDP-format frame back. -/
theorem read_udpWire {packet : Mem} {n : Nat} {macs c t : List UInt8} {w : UInt8} {nonce : Nonce}
    (hmacs : macs.length = 12) (ht : t.length = 16)
    (h : packet.read 0 n = udpWire macs w nonce (c ++ t)) :
    n = c.length + 47 ∧ packet.read 0 12 = macs ∧ ethReadEt packet 12 = neL2FakeEthertypeUdp ∧
      packet 14 = w ∧ packet.readNonce 15 = nonce ∧ packet.read 27 4 = l2UdpMarker ∧
      packet.read 31 (n - 31 - 16) = c ∧ packet.read (n - 16) 16 = t := by
  have hn : n = c.length + 47 := by
    have hl := congrArg List.length h
    simp only [Mem.length_read, udpWire, List.length_append, hmacs, ht, length_wireHeader,
      length_l2UdpMarker] at hl
    omega
  obtain ⟨hm, het, hw, hnonce, hbody⟩ := read_wire hmacs
    (by simp only [List.length_append, ht, length_l2UdpMarker]; omega) h
  rw [Mem.read_eq_append_iff (by simp), Mem.read_eq_append_iff (by simp), length_l2UdpMarker,
    ht] at hbody
  obtain ⟨hmark, hc, htag⟩ := hbody
  refine ⟨hn, hm, ethReadEt_of_read het, hw, hnonce, hmark, ?_, ?_⟩
  · rw [show n - 31 - 16 = c.length by omega]; exact hc
  · rw [show n - 16 = 27 + 4 + c.length by omega]; exact htag

/-- Reading a DATA frame back. -/
theorem read_dataWire {packet : Mem} {n : Nat} {macs c t : List UInt8} {w : UInt8} {nonce : Nonce}
    (hmacs : macs.length = 12) (ht : t.length = 16)
    (h : packet.read 0 n = dataWire macs w nonce (c ++ t)) :
    n = c.length + 43 ∧ packet.read 0 12 = macs ∧ ethReadEt packet 12 = neL2FakeEthertype ∧
      packet 14 = w ∧ packet.readNonce 15 = nonce ∧
      packet.read 27 (n - 27 - 16) = c ∧ packet.read (n - 16) 16 = t := by
  have hn : n = c.length + 43 := by
    have hl := congrArg List.length h
    simp only [Mem.length_read, dataWire, List.length_append, hmacs, ht, length_wireHeader] at hl
    omega
  obtain ⟨hm, het, hw, hnonce, hbody⟩ := read_wire hmacs
    (by simp only [List.length_append, ht]; omega) h
  rw [Mem.read_eq_append_iff (by simp), ht] at hbody
  refine ⟨hn, hm, ethReadEt_of_read het, hw, hnonce, ?_, ?_⟩
  · rw [show n - 27 - 16 = c.length by omega]; exact hbody.1
  · rw [show n - 16 = 27 + c.length by omega]; exact hbody.2

/-- Shims tell kind and metadata apart. -/
theorem l2UdpShim_append_inj {kind kind' : L2UdpKind} {dg dg' : UdpMeta} {p p' : List UInt8}
    (h : l2UdpShim kind dg ++ p = l2UdpShim kind' dg' ++ p') : kind = kind' ∧ dg = dg' ∧ p = p' := by
  obtain ⟨hshim, hp⟩ := List.append_inj h (by simp)
  have hr : (Mem.ofList (l2UdpShim kind dg)).read 0 13 = l2UdpShim kind dg :=
    Mem.read_ofList _ (by simp)
  have h1 := l2UdpReadShim_eq_some_iff.mpr hr
  have h2 := l2UdpReadShim_eq_some_iff.mpr (hr.trans hshim)
  rw [h1, Option.some.injEq, Prod.mk.injEq] at h2
  exact ⟨h2.1, h2.2, hp⟩

end Decoders

end NetworkEncryptor
