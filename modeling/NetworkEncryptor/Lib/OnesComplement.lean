import NetworkEncryptor.Lib.Mem

/-!
# NetworkEncryptor.Lib.OnesComplement

The Internet checksum: byte strings as sums of big-endian 16-bit words, the
carries folded back in.

Folding keeps the residue modulo 65535, and a non-zero sum folds to 0xFFFF
exactly when that residue is zero (`onesFold_eq_iff`), so questions about
checksums become linear arithmetic modulo 65535.  `sum16_write` says what a
stored word does to the sum: how much a byte counts depends on the half of
the word it falls into.
-/

namespace NetworkEncryptor

/-! ## the sum -/

/-- Add up the bytes of big-endian 16-bit words, the first byte being the high
half of its word or the low one; an odd last byte is padded with a zero. -/
def sumHalves (high : Bool) : List UInt8 → Nat
  | [] => 0
  | b :: bs => (if high then 256 * b.toNat else b.toNat) + sumHalves (!high) bs

/-- The sum of the big-endian 16-bit words of a byte string. -/
def sum16 (bs : List UInt8) : Nat := sumHalves true bs

example : sum16 [0x12, 0x34, 0x56] = 0x1234 + 0x5600 := by decide

/-- How much a byte at offset `i` of a checksummed string counts. -/
def weight16 (i : Nat) : Nat := if i % 2 = 0 then 256 else 1

theorem sumHalves_append (high : Bool) (xs ys : List UInt8) :
    sumHalves high (xs ++ ys) =
      sumHalves high xs + sumHalves (if xs.length % 2 = 0 then high else !high) ys := by
  induction xs generalizing high with
  | nil => simp [sumHalves]
  | cons x xs ih =>
      rw [List.cons_append, sumHalves, sumHalves, ih, Nat.add_assoc]
      congr 3
      rw [List.length_cons]
      rcases Nat.mod_two_eq_zero_or_one xs.length with h | h
      · rw [if_pos h, if_neg (by omega)]
      · rw [if_neg (by omega), if_pos (by omega), Bool.not_not]

/-- Two bytes behind a prefix count by the parity of its length. -/
theorem sum16_append_pair (xs ys : List UInt8) (a b : UInt8) :
    sum16 (xs ++ a :: b :: ys) =
      sum16 (xs ++ 0 :: 0 :: ys) + weight16 xs.length * a.toNat +
        weight16 (xs.length + 1) * b.toNat := by
  rw [sum16, sum16, sumHalves_append, sumHalves_append]
  rcases Nat.mod_two_eq_zero_or_one xs.length with h | h
  · have h' : ¬(xs.length + 1) % 2 = 0 := by omega
    simp [weight16, h, h', sumHalves]; omega
  · have h' : (xs.length + 1) % 2 = 0 := by omega
    simp [weight16, h, h', sumHalves]; omega

/-- Storing two bytes at offset `p` of a checksummed slice exchanges their
share of the sum. -/
theorem sum16_write (m : Mem) {off p n : Nat} (a b : UInt8) (hp : p + 2 ≤ n) :
    sum16 ((m.write (off + p) [a, b]).read off n) +
        (weight16 p * (m (off + p)).toNat + weight16 (p + 1) * (m (off + p + 1)).toNat) =
      sum16 (m.read off n) + (weight16 p * a.toNat + weight16 (p + 1) * b.toNat) := by
  obtain ⟨r, rfl⟩ := Nat.exists_eq_add_of_le hp
  have hsplit : ∀ m' : Mem, m'.read off (p + 2 + r) =
      m'.read off p ++ m' (off + p) :: m' (off + p + 1) :: m'.read (off + p + 2) r := by
    intro m'
    rw [Nat.add_assoc, Mem.read_add, Nat.add_comm 2 r, Mem.read_succ, Mem.read_succ]
  have hself : (m.write (off + p) [a, b]).read (off + p) 2 = [a, b] := m.read_write_self rfl
  simp only [Mem.read_succ, Mem.read_zero, List.cons.injEq, and_true] at hself
  have hbefore : (m.write (off + p) [a, b]).read off p = m.read off p :=
    m.read_write_of_disjoint (.inl (Nat.le_refl _))
  have hafter : (m.write (off + p) [a, b]).read (off + p + 2) r = m.read (off + p + 2) r :=
    m.read_write_of_disjoint (.inr (Nat.le_refl _))
  rw [hsplit, hsplit m, hself.1, hself.2, hbefore, hafter, sum16_append_pair,
    sum16_append_pair _ _ (m (off + p)), Mem.length_read]
  omega

/-! ## folding -/

/-- Add the carries of a sum back in until it has 16 bits. -/
def onesFold (sum : Nat) : Nat :=
  if sum < 65536 then sum else onesFold (sum % 65536 + sum / 65536)
termination_by sum
decreasing_by omega

theorem onesFold_lt (sum : Nat) : onesFold sum < 65536 := by
  fun_induction onesFold sum with
  | case1 sum h => exact h
  | case2 sum h ih => exact ih

theorem onesFold_mod (sum : Nat) : onesFold sum % 65535 = sum % 65535 := by
  fun_induction onesFold sum with
  | case1 sum h => rfl
  | case2 sum h ih => rw [ih]; omega

theorem onesFold_pos {sum : Nat} (h : 0 < sum) : 0 < onesFold sum := by
  fun_induction onesFold sum with
  | case1 sum hlt => exact h
  | case2 sum hge ih => exact ih (by omega)

/-- A sum verifies, that is, it folds to all ones, exactly when it is a non-zero
multiple of 65535. -/
theorem onesFold_eq_iff {sum : Nat} : onesFold sum = 0xFFFF ↔ 0 < sum ∧ sum % 65535 = 0 := by
  have hlt := onesFold_lt sum
  have hmod := onesFold_mod sum
  constructor
  · intro h
    refine ⟨Nat.pos_of_ne_zero fun h0 => ?_, by omega⟩
    rw [h0, onesFold, if_pos (by decide)] at h
    cases h
  · rintro ⟨hpos, hz⟩
    have := onesFold_pos hpos
    omega

end NetworkEncryptor
