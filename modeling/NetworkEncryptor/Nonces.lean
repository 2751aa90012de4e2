import NetworkEncryptor.L2Crypto
import Mathlib.Data.List.Nodup
import Mathlib.Logic.Function.Iterate

/-!
# NetworkEncryptor.Nonces

Which nonces a running appliance uses.  Every worker thread has a salt of its
own and a 32-bit counter; the four encryption functions draw one nonce each
from the generator of the thread that calls them.

A run is a sequence of such calls, by any threads in any order.  One thread's
history is `salt‖1, salt‖2, …` with the counter taken modulo `2^32`
(`NonceInv`, kept by every call), so the nonces of a run are pairwise distinct
exactly as long as no thread has drawn more than `2^32` of them: the counter
wraps and the generator does not notice.
-/

namespace NetworkEncryptor

open Attempt

/-! ## calls of worker threads -/

/-- What a worker thread may call: the four encryption functions, and the
function that gives the next datagram its sequence number. -/
inductive WorkerCall
  | data (ctx : PacketCryptoCtx) (packet : Mem) (pktLen : Nat)
  | full (ctx : PacketCryptoCtx) (packet : Mem) (pktLen : Nat)
  | second (ctx : PacketCryptoCtx) (ethHdr : Mem) (plainOff encPlainLen : Nat) (dg : UdpMeta)
      (kind : L2UdpKind) (outBuf : Mem) (outMax etOff : Nat)
  | first (ctx : PacketCryptoCtx) (packet : Mem) (frag0PlainLen : Nat) (dg : UdpMeta)
      (outMax etOff l3Off : Nat)
  | setTxSeq (seq : UInt32)

/-- The thread state after a call. -/
def WorkerCall.run (env : Env) : WorkerCall → L2State → L2State
  | .data ctx packet pktLen, s => (l2DoEncrypt env ctx packet pktLen s).2
  | .full ctx packet pktLen, s => (l2DoEncryptUdp env ctx packet pktLen s).2
  | .second ctx ethHdr plainOff encPlainLen dg kind outBuf outMax etOff, s =>
      (l2EncryptFragmentSingle env ctx ethHdr plainOff encPlainLen dg kind outBuf outMax etOff s).2
  | .first ctx packet frag0PlainLen dg outMax etOff l3Off, s =>
      (l2EncryptFragment0Inplace env ctx packet frag0PlainLen dg outMax etOff l3Off s).2
  | .setTxSeq seq, s => l2CryptoUdpSetTxSeq seq s

/-- One step of a run: which thread calls what, and what the environment
answers. -/
structure WorkerStep (ι : Type) where
  thread : ι
  env : Env
  call : WorkerCall

variable {ι : Type} [DecidableEq ι]

/-- The threads' states after one step. -/
def WorkerStep.apply (threads : ι → L2State) (e : WorkerStep ι) : ι → L2State :=
  Function.update threads e.thread (e.call.run e.env (threads e.thread))

/-- The threads' states after a run from process start. -/
def runWorkers (steps : List (WorkerStep ι)) : ι → L2State :=
  steps.foldl WorkerStep.apply fun _ => L2State.init

/-- No two successful nonce draws of the run returned the same nonce. -/
def NoncesFresh (threads : ι → L2State) : Prop :=
  (∀ i, (threads i).nonce.issued.Nodup) ∧
    ∀ i j, i ≠ j → ∀ n ∈ (threads i).nonce.issued, n ∉ (threads j).nonce.issued

/-- `scrypt_RandomBytes` gives every thread a salt of its own. -/
def SaltsFrom (salt : ι → Salt) (steps : List (WorkerStep ι)) : Prop :=
  ∀ e ∈ steps, e.env.rand = none ∨ e.env.rand = some (salt e.thread)

/-! ## what one call does to the generator -/

section Calls

variable {P : NonceState → Prop} {env : Env}

/-- A property of the generator that a draw keeps, every encoder keeps: they
touch the generator only by drawing from it. -/
private theorem encoderRel_keeps (hP : ∀ n, P n → P (trfPqcGenerateNonce env n).2) :
    EncoderRel (fun s t => P s.nonce → P t.nonce) env where
  refl _ := id
  trans _ _ _ h1 h2 h := h2 (h1 h)
  draw s hs := hP s.nonce hs
  epoch := by
    intro s hs
    unfold l2CryptoEpoch
    by_cases h : s.udpEpoch ≠ 0
    · rw [if_pos h]; exact hs
    · rw [if_neg h]; exact hs
  record _ _ h := h

/-- Whatever a draw keeps, every call of a worker keeps. -/
theorem WorkerCall.run_keeps (hP : ∀ n, P n → P (trfPqcGenerateNonce env n).2) (c : WorkerCall)
    (s : L2State) (hs : P s.nonce) : P (c.run env s).nonce := by
  have hrel := encoderRel_keeps hP
  cases c with
  | data ctx packet pktLen => exact hrel.doEncrypt ctx packet pktLen s hs
  | full ctx packet pktLen => exact hrel.doEncryptUdp ctx packet pktLen s hs
  | second ctx ethHdr plainOff encPlainLen dg kind outBuf outMax etOff =>
      exact hrel.fragmentSingle ctx ethHdr plainOff encPlainLen dg kind outBuf outMax etOff s hs
  | first ctx packet frag0PlainLen dg outMax etOff l3Off =>
      exact hrel.fragment0Inplace ctx packet frag0PlainLen dg outMax etOff l3Off s hs
  | setTxSeq seq => exact hs

end Calls

/-! ## one thread's history -/

/-- The nonce the `j`-th draw of a thread returns, counted from zero. -/
def nthNonce (salt : Salt) (j : Nat) : Nonce := mkNonce salt (UInt32.ofNat (j + 1))

/-- The generator of a thread whose salt is `salt`: its history is the first
so many nonces of the salt, and the counter is where the history ends. -/
structure NonceInv (salt : Salt) (n : NonceState) : Prop where
  issued : n.issued = (List.range n.issued.length).map (nthNonce salt)
  counter : n.nonceCounter = UInt32.ofNat n.issued.length
  ready : n.nonceReady = true → n.nonceSalt = salt

theorem nonceInv_init (salt : Salt) : NonceInv salt NonceState.init :=
  ⟨rfl, rfl, fun h => by cases h⟩

/-- Adding the next nonce of the salt keeps the invariant. -/
private theorem nonceInv_snoc {salt : Salt} {n : NonceState} (h : NonceInv salt n) :
    NonceInv salt ⟨salt, n.nonceCounter + 1, true,
      n.issued ++ [mkNonce salt (n.nonceCounter + 1)]⟩ := by
  have hnext : n.nonceCounter + 1 = UInt32.ofNat (n.issued.length + 1) := by
    rw [h.counter, UInt32.ofNat_add]; rfl
  refine ⟨?_, ?_, fun _ => rfl⟩
  · simp only [List.length_append, List.length_singleton, List.range_succ, List.map_append,
      List.map_singleton]
    rw [← h.issued, hnext, nthNonce]
  · simp only [List.length_append, List.length_singleton]
    exact hnext

/-- A draw keeps the invariant when the random source knows this thread's
salt only. -/
theorem nonceInv_generate {salt : Salt} {env : Env}
    (hrand : env.rand = none ∨ env.rand = some salt) (n : NonceState) (h : NonceInv salt n) :
    NonceInv salt (trfPqcGenerateNonce env n).2 := by
  rw [trfPqcGenerateNonce_apply]
  by_cases hi : env.initialized = true
  · rw [if_pos hi]
    by_cases hr : n.nonceReady = true
    · rw [if_pos hr]
      have hs := nonceInv_snoc h
      have hsalt := h.ready hr
      rw [← hsalt] at hs ⊢
      simpa only [← hr] using hs
    · rw [if_neg hr]
      cases hrand with
      | inl hnone => rw [hnone]; exact h
      | inr hsome => rw [hsome]; exact nonceInv_snoc h
  · rw [if_neg hi]; exact h

/-- Every thread's generator keeps its invariant along every run. -/
theorem nonceInv_run {salt : ι → Salt} (steps : List (WorkerStep ι)) (hs : SaltsFrom salt steps)
    (i : ι) : NonceInv (salt i) (runWorkers steps i).nonce := by
  have key : ∀ (steps : List (WorkerStep ι)) (threads : ι → L2State), SaltsFrom salt steps →
      (∀ i, NonceInv (salt i) (threads i).nonce) →
      ∀ i, NonceInv (salt i) (steps.foldl WorkerStep.apply threads i).nonce := by
    intro steps
    induction steps with
    | nil => intro threads _ hinv; exact hinv
    | cons e steps ih =>
        intro threads hsalts hinv
        refine ih _ (fun e' he' => hsalts e' (List.mem_cons_of_mem _ he')) fun j => ?_
        have hrand := hsalts e List.mem_cons_self
        by_cases hj : j = e.thread
        · subst hj
          simp only [WorkerStep.apply, Function.update_self]
          exact WorkerCall.run_keeps (nonceInv_generate hrand) _ _ (hinv e.thread)
        · simp only [WorkerStep.apply, Function.update_of_ne hj]
          exact hinv j
  exact key steps _ hs (fun i => nonceInv_init (salt i)) i

/-! ## when a nonce repeats -/

theorem nthNonce_inj {salt salt' : Salt} {j k : Nat} (h : nthNonce salt j = nthNonce salt' k) :
    salt = salt' ∧ (j + 1) % 2 ^ 32 = (k + 1) % 2 ^ 32 := by
  obtain ⟨hs, hn⟩ := mkNonce_inj h
  refine ⟨hs, ?_⟩
  have ht := congrArg UInt32.toNat hn
  simpa only [UInt32.toNat_ofNat'] using ht

/-- The first `k` nonces of a salt are distinct exactly up to the wrap of the
counter. -/
theorem nodup_nthNonce_iff (salt : Salt) (k : Nat) :
    ((List.range k).map (nthNonce salt)).Nodup ↔ k ≤ 2 ^ 32 := by
  rw [List.nodup_map_iff_inj_on List.nodup_range]
  constructor
  · intro h
    by_contra hk
    -- draw number 2^32 repeats draw number 0
    have heq : nthNonce salt 0 = nthNonce salt (2 ^ 32) := by
      rw [nthNonce, nthNonce]; congr 1
    have h0 := h 0 (List.mem_range.mpr (by omega)) (2 ^ 32) (List.mem_range.mpr (by omega)) heq
    omega
  · intro hk j hj l hl heq
    have hmod := (nthNonce_inj heq).2
    rw [List.mem_range] at hj hl
    omega

/-- **Nonce uniqueness over whole runs**: for any threads with pairwise
distinct salts and any sequence of calls by them, the nonces handed out are
pairwise distinct if and only if no thread has been handed more than `2^32`. -/
theorem noncesFresh_iff {salt : ι → Salt} (hsalt : Function.Injective salt)
    (steps : List (WorkerStep ι)) (hs : SaltsFrom salt steps) :
    NoncesFresh (runWorkers steps) ↔
      ∀ i, (runWorkers steps i).nonce.issued.length ≤ 2 ^ 32 := by
  have hinv := nonceInv_run steps hs
  have hnodup (i : ι) : (runWorkers steps i).nonce.issued.Nodup ↔
      (runWorkers steps i).nonce.issued.length ≤ 2 ^ 32 := by
    rw [← nodup_nthNonce_iff (salt i), ← (hinv i).issued]
  constructor
  · intro h i
    exact (hnodup i).mp (h.1 i)
  · intro h
    refine ⟨fun i => (hnodup i).mpr (h i), fun i j hij n hi hj => hij ?_⟩
    rw [(hinv i).issued] at hi
    rw [(hinv j).issued] at hj
    obtain ⟨a, -, ha⟩ := List.mem_map.mp hi
    obtain ⟨b, -, hb⟩ := List.mem_map.mp hj
    exact hsalt (nthNonce_inj (ha.trans hb.symm)).1

/-! ## a run past the wrap -/

/-- Encrypting a frame that has room for the header draws exactly one nonce,
whatever the cipher then says. -/
theorem l2DoEncrypt_nonce {env : Env} {ctx : PacketCryptoCtx} {packet : Mem} {pktLen : Nat}
    (hctx : ctx.initialized = true) (het : cryptoEthL2PrefixLen packet pktLen = some 12)
    (hlen : 27 ≤ pktLen) (s : L2State) :
    (l2DoEncrypt env ctx packet pktLen s).2.nonce = (trfPqcGenerateNonce env s.nonce).2 := by
  have hkey : cryptoPqcSessLoad ctx = some ctx.key := by rw [cryptoPqcSessLoad, if_pos hctx]
  have h14 : 12 + 2 ≤ pktLen := by omega
  have h27 : 12 + 2 + l2CoreIdLen + l2NonceSize ≤ pktLen := by simpa using hlen
  have hdraw : (cryptoPqcGenerateNonce env s).2.nonce = (trfPqcGenerateNonce env s.nonce).2 := rfl
  simp only [l2DoEncrypt, bind_apply, het, hkey, ofOption_apply, check_apply, if_pos h14, if_pos h27]
  cases hg : cryptoPqcGenerateNonce env s with
  | mk r t =>
      rw [hg] at hdraw
      cases r with
      | none => exact hdraw
      | some nonce =>
          simp only [l2WriteWireHeader, l2WriteWireHeaderEt, read_apply, cryptoPqcEncryptPayload,
            bind_apply, ofOption_apply]
          cases trfEncryptPayloadGcm env ctx.key nonce _ _ _ with
          | none => exact hdraw
          | some r => exact hdraw

/-- A draw from a working source adds one nonce to the history. -/
theorem length_issued_generate {env : Env} (hi : env.initialized = true) (hr : env.rand.isSome)
    (n : NonceState) :
    (trfPqcGenerateNonce env n).2.issued.length = n.issued.length + 1 := by
  obtain ⟨salt, hsalt⟩ := Option.isSome_iff_exists.mp hr
  rw [trfPqcGenerateNonce_apply, if_pos hi, hsalt]
  by_cases hready : n.nonceReady = true
  · rw [if_pos hready]; simp
  · rw [if_neg hready]; simp

/-- A thread that repeats a call which draws one nonce has drawn as many
nonces as it made calls. -/
theorem length_issued_replicate {e : WorkerStep ι}
    (hone : ∀ s, (e.call.run e.env s).nonce.issued.length = s.nonce.issued.length + 1) (k : Nat) :
    (runWorkers (List.replicate k e) e.thread).nonce.issued.length = k := by
  have key : ∀ (k : Nat) (threads : ι → L2State),
      ((List.replicate k e).foldl WorkerStep.apply threads e.thread).nonce.issued.length =
        (threads e.thread).nonce.issued.length + k := by
    intro k
    induction k with
    | zero => intro threads; rfl
    | succ k ih =>
        intro threads
        rw [List.replicate_succ, List.foldl_cons, ih, WorkerStep.apply, Function.update_self, hone]
        omega
  have h := key k fun _ => L2State.init
  simpa [runWorkers, L2State.init, NonceState.init] using h

/-- Worker `i` encrypts the ping. -/
def sampleStep (i : Fin 6) : WorkerStep (Fin 6) :=
  ⟨i, sampleEnv i, .data (packetCryptoInit coreKey) (Mem.ofList samplePing) 42⟩

private theorem sampleStep_draws (i : Fin 6) (s : L2State) :
    ((sampleStep i).call.run (sampleStep i).env s).nonce.issued.length =
      s.nonce.issued.length + 1 := by
  have hone := @l2DoEncrypt_nonce (sampleEnv i) (packetCryptoInit coreKey)
    (Mem.ofList samplePing) 42 rfl (by decide) (by decide) s
  have hlen := @length_issued_generate (sampleEnv i) rfl rfl s.nonce
  rw [← hone] at hlen
  exact hlen

private theorem sampleSalt_injective : Function.Injective sampleSalt := by
  have h : ∀ i j, sampleSalt i = sampleSalt j → i = j := by decide
  exact fun i j => h i j

private theorem sampleSteps_salts (i : Fin 6) (k : Nat) :
    SaltsFrom sampleSalt (List.replicate k (sampleStep i)) := by
  intro e he
  rw [List.eq_of_mem_replicate he]
  exact .inr rfl

/-- One worker that sends one frame more than its counter has values repeats a
nonce, and no call has failed. -/
theorem noncesFresh_wrap :
    SaltsFrom sampleSalt (List.replicate (2 ^ 32 + 1) (sampleStep 0)) ∧
      ¬ NoncesFresh (runWorkers (List.replicate (2 ^ 32 + 1) (sampleStep 0))) := by
  refine ⟨sampleSteps_salts 0 _, fun h => ?_⟩
  have hinv := nonceInv_run (List.replicate (2 ^ 32 + 1) (sampleStep 0)) (sampleSteps_salts 0 _) 0
  have hlen := length_issued_replicate (sampleStep_draws 0) (2 ^ 32 + 1)
  have hthread : (sampleStep 0).thread = 0 := rfl
  rw [hthread] at hlen
  have hle := (nodup_nthNonce_iff (sampleSalt 0) _).mp (hinv.issued ▸ h.1 0)
  omega

/-- Two workers sending one frame each are well within the bound. -/
theorem noncesFresh_two :
    NoncesFresh (runWorkers [sampleStep 0, sampleStep 1]) :=
  (noncesFresh_iff sampleSalt_injective [sampleStep 0, sampleStep 1]
    (by intro e he; simp only [List.mem_cons, List.not_mem_nil, or_false] at he
        rcases he with rfl | rfl
        · exact .inr rfl
        · exact .inr rfl)).mpr (by decide)

end NetworkEncryptor
