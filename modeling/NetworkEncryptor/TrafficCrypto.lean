import NetworkEncryptor.Config
import NetworkEncryptor.Lib.Mem
import NetworkEncryptor.Lib.Attempt

/-!
# NetworkEncryptor.TrafficCrypto

`src/crypto/pqc/traffic_crypto.c` and `crypto_pqc_layer.h`: the per-thread
nonce generator and the AES-256-GCM calls.

The cipher itself lives in a binary library, so it is a parameter, `Gcm`:
what the five `scrypt_Cipher*` calls of one encryption or decryption do
together.  What a single call into the environment returned (the library
state, the random bytes, the clock, the allocator) is an `Env`, supplied
afresh for every packet.
-/

namespace NetworkEncryptor

/-- A byte string of a fixed length: an array of the source. -/
abbrev Bytes (n : Nat) := { bs : List UInt8 // bs.length = n }

/-- `byte nonce_salt[8]`. -/
abbrev Salt := Bytes 8

/-- `byte nonce[CRYPTO_PQC_NONCE_BYTES]`. -/
abbrev Nonce := Bytes 12

/-- `uint8_t key[AES_MAX_KEY_SIZE]`. -/
abbrev Key := Bytes 32

/-- The nonce field of a packet. -/
def Mem.readNonce (m : Mem) (off : Nat) : Nonce := ⟨m.read off 12, by simp⟩

/-- The AES-256-GCM of the library: ciphertext and tag of an encryption, the
plaintext of a decryption; `none` when a library call reports an error.
Counter mode keeps the length and `scrypt_CipherGetTag` fills a tag of
`GCM_TAG_SIZE` bytes. -/
structure Gcm where
  encrypt : Key → Nonce → List UInt8 → Option (List UInt8 × List UInt8)
  decrypt : Key → Nonce → List UInt8 → List UInt8 → Option (List UInt8)
  length_encrypt : ∀ {k n p c t}, encrypt k n p = some (c, t) → c.length = p.length ∧ t.length = 16
  length_decrypt : ∀ {k n c t p}, decrypt k n c t = some p → p.length = c.length

/-- Decryption undoes encryption. -/
def Gcm.Lawful (g : Gcm) : Prop :=
  ∀ {k n p c t}, g.encrypt k n p = some (c, t) → g.decrypt k n c t = some p

/-- The cipher works: no library call of an encryption fails. -/
def Gcm.Working (g : Gcm) : Prop := ∀ k n p, (g.encrypt k n p).isSome

/-- What the environment answers during the handling of one packet. -/
structure Env where
  /-- the cipher library -/
  gcm : Gcm
  /-- `initialized`, set by `trf_pqc_init_global` -/
  initialized : Bool
  /-- the bytes `scrypt_RandomBytes` delivers, if it succeeds -/
  rand : Option Salt
  /-- `opt_time_ns()` -/
  now : UInt64
  /-- the word `getrandom` delivers, if it succeeds -/
  getrandom : Option UInt32
  /-- the clock and process id mix `l2_crypto_epoch` falls back to -/
  clockMix : UInt32
  /-- whether `calloc` delivers a fragment table -/
  callocOk : Bool

/-! ## nonces -/

/-- The thread-local nonce generator.  `issued` is no field of the source: it
is the history of the nonces handed out, oldest first. -/
structure NonceState where
  nonceSalt : Salt
  nonceCounter : UInt32
  nonceReady : Bool
  issued : List Nonce

/-- A new thread's generator. -/
def NonceState.init : NonceState := ⟨⟨List.replicate 8 0, by simp⟩, 0, false, []⟩

/-- `memcpy` of a `uint32_t` on the little-endian target. -/
def le32 (n : UInt32) : List UInt8 :=
  [UInt8.ofNat n.toNat, UInt8.ofNat (n.toNat / 256), UInt8.ofNat (n.toNat / 65536),
    UInt8.ofNat (n.toNat / 16777216)]

/-- The nonce of a salt and a counter value. -/
def mkNonce (salt : Salt) (n : UInt32) : Nonce :=
  ⟨salt.1 ++ le32 n, by simp [salt.2, le32]⟩

/-- The lazy draw of the salt. -/
def nonceEnsureSalt (env : Env) : Attempt NonceState Unit := do
  let ready ← Attempt.read (·.nonceReady)
  if ready then pure ()
  else do
    let salt ← Attempt.ofOption env.rand
    Attempt.modify fun s => { s with nonceSalt := salt, nonceReady := true }

def trfPqcGenerateNonce (env : Env) : Attempt NonceState Nonce := do
  Attempt.check (env.initialized = true)
  nonceEnsureSalt env
  Attempt.modify fun s => { s with nonceCounter := s.nonceCounter + 1 }
  let nonce ← Attempt.read fun s => mkNonce s.nonceSalt s.nonceCounter
  Attempt.modify fun s => { s with issued := s.issued ++ [nonce] }
  pure nonce

/-! ## the cipher calls -/

/-- Encrypt `len` bytes at `off` in place and put the tag behind them. -/
def trfEncryptPayloadGcm (env : Env) (key : Key) (nonce : Nonce) (data : Mem) (off len : Nat) :
    Option (Mem × Nat) :=
  if !env.initialized || len == 0 then none
  else
    (env.gcm.encrypt key nonce (data.read off len)).map fun (cipher, tag) =>
      ((data.write off cipher).write (off + cipher.length) tag, cipher.length + aesGcmTagSize)

/-- Decrypt `len` bytes at `off`, the last sixteen being the tag, in place. -/
def trfDecryptPayloadGcm (env : Env) (key : Key) (nonce : Nonce) (data : Mem) (off len : Nat) :
    Option (Mem × Nat) :=
  let cipherLen := len - aesGcmTagSize
  if !env.initialized || cipherLen == 0 then none
  else
    (env.gcm.decrypt key nonce (data.read off cipherLen) (data.read (off + cipherLen) 16)).map
      fun plain => (data.write off plain, plain.length)

/-- `struct packet_crypto_ctx`. -/
structure PacketCryptoCtx where
  key : Key
  initialized : Bool

def packetCryptoInit (key : Key) : PacketCryptoCtx := ⟨key, true⟩

def cryptoPqcSessLoad (ctx : PacketCryptoCtx) : Option Key :=
  if ctx.initialized then some ctx.key else none

def cryptoPqcDecryptPayloadResilient (env : Env) (ctx : PacketCryptoCtx) (nonce : Nonce)
    (data : Mem) (off len : Nat) : Option (Mem × Nat) :=
  if ctx.initialized then trfDecryptPayloadGcm env ctx.key nonce data off len else none

/-! ## what the generator does -/

/-- One call of the generator: it fails and leaves the generator as it was, or
it draws the salt if there is none yet, and hands out the salt with the next
counter value. -/
theorem trfPqcGenerateNonce_apply (env : Env) (s : NonceState) :
    trfPqcGenerateNonce env s =
      if env.initialized = true then
        if s.nonceReady then
          (some (mkNonce s.nonceSalt (s.nonceCounter + 1)),
            { s with nonceCounter := s.nonceCounter + 1,
                     issued := s.issued ++ [mkNonce s.nonceSalt (s.nonceCounter + 1)] })
        else
          match env.rand with
          | none => (none, s)
          | some salt =>
              (some (mkNonce salt (s.nonceCounter + 1)),
                ⟨salt, s.nonceCounter + 1, true, s.issued ++ [mkNonce salt (s.nonceCounter + 1)]⟩)
      else (none, s) := by
  unfold trfPqcGenerateNonce nonceEnsureSalt
  by_cases hi : env.initialized = true
  · simp only [Attempt.bind_apply, Attempt.check_apply, if_pos hi, Attempt.read_apply]
    by_cases hr : s.nonceReady
    · simp only [hr, if_true, Attempt.pure_apply, Attempt.modify_apply]
    · cases hrand : env.rand with
      | none => simp [hr, Attempt.bind_apply]
      | some salt => simp [hr, Attempt.bind_apply]
  · simp only [Attempt.bind_apply, Attempt.check_apply, if_neg hi]

/-- The four counter bytes determine the counter. -/
theorem le32_injective : Function.Injective le32 := by
  intro a b h
  simp only [le32, List.cons.injEq, and_true] at h
  obtain ⟨h0, h1, h2, h3⟩ := h
  have e0 := congrArg UInt8.toNat h0
  have e1 := congrArg UInt8.toNat h1
  have e2 := congrArg UInt8.toNat h2
  have e3 := congrArg UInt8.toNat h3
  simp only [UInt8.toNat_ofNat'] at e0 e1 e2 e3
  have ha := a.toNat_lt
  have hb := b.toNat_lt
  apply UInt32.toNat_inj.mp
  omega

/-- Salt and counter are read back from the nonce. -/
theorem mkNonce_inj {salt salt' : Salt} {n n' : UInt32} (h : mkNonce salt n = mkNonce salt' n') :
    salt = salt' ∧ n = n' := by
  have hv := congrArg Subtype.val h
  obtain ⟨hs, hn⟩ := List.append_inj hv (by rw [salt.2, salt'.2])
  exact ⟨Subtype.ext hs, le32_injective hn⟩

/-! ## a stand-in cipher

Witnesses and counterexamples need a cipher that runs; the results need none. -/

/-- A stand-in cipher: the keystream is the nonce repeated, the tag is zero. -/
def sampleGcm : Gcm where
  encrypt _ n p := some (p.zipIdx.map fun (b, i) => b ^^^ n.1.getD (i % 12) 0, List.replicate 16 0)
  decrypt _ n c _ := some (c.zipIdx.map fun (b, i) => b ^^^ n.1.getD (i % 12) 0)
  length_encrypt h := by
    simp only [Option.some.injEq, Prod.mk.injEq] at h
    rw [← h.1, ← h.2]; simp
  length_decrypt h := by
    rw [Option.some.injEq] at h
    rw [← h]; simp

/-- The key of `static_config.c`. -/
def coreKey : Key :=
  ⟨[0x73, 0x21, 0x4a, 0x9c, 0xe1, 0x5d, 0x2f, 0xb8, 0x16, 0xc7, 0x3b, 0x90, 0xad, 0x44, 0xf2, 0x6e,
    0x58, 0x0d, 0xa1, 0x37, 0xcb, 0x7f, 0x24, 0x95, 0xee, 0x63, 0x18, 0xd4, 0x89, 0xba, 0x05, 0xcf],
    by decide⟩

/-- The salt worker `i` draws. -/
def sampleSalt (i : Fin 6) : Salt :=
  ⟨[UInt8.ofNat i.val, 0x1f, 0x8b, 0x30, 0x77, 0x02, 0xc4, 0x9e], rfl⟩

theorem firstWorker_lt : 0 < 6 := by decide

/-- The first worker. -/
abbrev firstWorker : Fin 6 := ⟨0, firstWorker_lt⟩

/-- An environment in which everything works. -/
def sampleEnv (i : Fin 6) : Env :=
  { gcm := sampleGcm, initialized := true, rand := some (sampleSalt i), now := 0,
    getrandom := some 0x5eed, clockMix := 1, callocOk := true }

/-- A 42-byte ICMP echo request behind its Ethernet header. -/
def samplePing : List UInt8 :=
  [0x02, 0, 0, 0, 0, 0x02, 0x02, 0, 0, 0, 0, 0x01, 0x08, 0x00,
    0x45, 0, 0, 28, 0, 1, 0, 0, 64, 1, 0, 0, 10, 0, 0, 1, 10, 0, 0, 2,
    8, 0, 0, 0, 0, 1, 0, 1]

/-- The stand-in decrypts what it encrypts. -/
theorem sampleGcm_lawful : sampleGcm.Lawful := by
  intro k n p c t h
  simp only [sampleGcm, Option.some.injEq, Prod.mk.injEq] at h ⊢
  rw [← h.1]
  apply List.ext_getElem (by simp)
  intro i h1 h2
  simp [UInt8.xor_assoc]

theorem sampleGcm_working : sampleGcm.Working := fun _ _ _ => rfl

end NetworkEncryptor
