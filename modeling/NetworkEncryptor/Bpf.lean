import NetworkEncryptor.EthParse

/-!
# NetworkEncryptor.Bpf

`bpf/lan.c` and `bpf/wan.c`: which frames reach the AF_XDP sockets.  The
programs see the first `dataLen` bytes of a frame (the linear part) and, through
`xdp_get_buff_len`, its whole length.
-/

namespace NetworkEncryptor

/-- `enum xdp_action`, the part the programs use.  `redirect` is the call of
`bpf_redirect_map` on the socket of the receiving queue. -/
inductive XdpAction
  | pass
  | drop
  | redirect
  deriving DecidableEq, Repr

def ethP8021Q : Nat := 0x8100
def ethP8021AD : Nat := 0x88A8

def lanRedirect (data : Mem) (dataLen buffLen : Nat) : XdpAction :=
  if 14 > dataLen then .pass
  else if ethReadEt data 12 ≠ ethPIp ∨ 14 + 20 > dataLen then .pass
  else
    let protocol := (data 23).toNat
    if protocol ≠ ipprotoIcmp ∧ protocol ≠ ipprotoTcp ∧ protocol ≠ ipprotoUdp ∧
        protocol ≠ ipprotoOspf then .pass
    else
      let ipLen := ethReadEt data 16
      if ipLen < 20 ∨ ipLen > 9000 ∨ buffLen < 14 + ipLen ∨ buffLen > 14 + 9000 then .drop
      else .redirect

/-- `wan_redirect`; `encryptedEt` is the entry of `wan_config_map`. -/
def wanRedirect (encryptedEt : Nat) (data : Mem) (dataLen buffLen : Nat) : XdpAction :=
  if 14 > dataLen then .pass
  else
    let etherType := ethReadEt data 12
    if etherType = ethP8021Q ∨ etherType = ethP8021AD then .pass
    else if !(etherType == neL2FakeEthertypeUdp ||
        (encryptedEt != 0 && etherType == encryptedEt)) then .pass
    else if buffLen > 14 + 9000 then .drop
    else .redirect

/-- What `update_wan_fake_ethertype` puts into the map. -/
def wanConfigEt : Nat := neL2FakeEthertype

/-- The frames `lan_redirect` sends to the socket. -/
theorem lanRedirect_eq_redirect_iff {data : Mem} {dataLen buffLen : Nat} :
    lanRedirect data dataLen buffLen = .redirect ↔
      34 ≤ dataLen ∧ ethReadEt data 12 = ethPIp ∧
        ((data 23).toNat = ipprotoIcmp ∨ (data 23).toNat = ipprotoTcp ∨
          (data 23).toNat = ipprotoUdp ∨ (data 23).toNat = ipprotoOspf) ∧
        20 ≤ ethReadEt data 16 ∧ 14 + ethReadEt data 16 ≤ buffLen ∧ buffLen ≤ 9014 := by
  rw [lanRedirect]
  by_cases h14 : 14 > dataLen
  · rw [if_pos h14]
    constructor
    · intro h; cases h
    · intro h; omega
  · rw [if_neg h14]
    by_cases het : ethReadEt data 12 ≠ ethPIp ∨ 14 + 20 > dataLen
    · rw [if_pos het]
      constructor
      · intro h; cases h
      · intro h
        rcases het with hne | hlt
        · exact absurd h.2.1 hne
        · omega
    · rw [if_neg het]
      simp only [ne_eq, not_or, Decidable.not_not] at het
      dsimp only
      by_cases hp : (data 23).toNat ≠ ipprotoIcmp ∧ (data 23).toNat ≠ ipprotoTcp ∧
          (data 23).toNat ≠ ipprotoUdp ∧ (data 23).toNat ≠ ipprotoOspf
      · rw [if_pos hp]
        constructor
        · intro h; cases h
        · intro h
          obtain ⟨h1, h2, h3, h4⟩ := hp
          rcases h.2.2.1 with h' | h' | h' | h'
          · exact absurd h' h1
          · exact absurd h' h2
          · exact absurd h' h3
          · exact absurd h' h4
      · rw [if_neg hp]
        have hp' : (data 23).toNat = ipprotoIcmp ∨ (data 23).toNat = ipprotoTcp ∨
            (data 23).toNat = ipprotoUdp ∨ (data 23).toNat = ipprotoOspf := by
          simp only [ne_eq, not_and_or, Decidable.not_not] at hp
          exact hp
        by_cases hl : ethReadEt data 16 < 20 ∨ ethReadEt data 16 > 9000 ∨
            buffLen < 14 + ethReadEt data 16 ∨ buffLen > 14 + 9000
        · rw [if_pos hl]
          constructor
          · intro h; cases h
          · intro h; omega
        · rw [if_neg hl]
          constructor
          · intro _; exact ⟨by omega, het.1, hp', by omega, by omega, by omega⟩
          · intro _; rfl

/-- Encrypted frames that fit the MTU are redirected. -/
theorem wanRedirect_eq_redirect {data : Mem} {dataLen buffLen : Nat} (hlen : 14 ≤ dataLen)
    (het : ethReadEt data 12 = neL2FakeEthertype ∨ ethReadEt data 12 = neL2FakeEthertypeUdp)
    (hmax : buffLen ≤ 9014) : wanRedirect wanConfigEt data dataLen buffLen = .redirect := by
  rw [wanRedirect, if_neg (by omega)]
  rcases het with het | het
  · simp [het, wanConfigEt, ethP8021Q, ethP8021AD]; omega
  · simp [het, ethP8021Q, ethP8021AD]; omega

end NetworkEncryptor
