/-!
# NetworkEncryptor.Lib.Footprint

What of a memory a computation may have changed, told by a log of the regions it
stored into: `Changes log m m'` says that a byte that differs lies in one of them.

Memory is divided into blocks of `b` bytes.  If every region of the log lies in one
block, a block that no region starts in is as it was (`Changes.block_eq`).
-/

namespace NetworkEncryptor

section Footprint

variable {β : Type _} {m m' m'' : Nat → β} {log log' : List (Nat × Nat)} {c : Nat × Nat} {b x : Nat}

/-- The byte lies in the region, an address and a size. -/
def InRegion (c : Nat × Nat) (x : Nat) : Prop := c.1 ≤ x ∧ x < c.1 + c.2

/-- Only bytes in the regions of the log differ. -/
def Changes (log : List (Nat × Nat)) (m m' : Nat → β) : Prop := ∀ x, m' x ≠ m x → ∃ c ∈ log, InRegion c x

theorem Changes.refl (log : List (Nat × Nat)) (m : Nat → β) : Changes log m m :=
  fun _ hx => absurd rfl hx

theorem Changes.trans (h : Changes log m m') (h' : Changes log' m' m'') : Changes (log ++ log') m m'' := by
  intro x hx
  by_cases heq : m' x = m x
  · obtain ⟨c, hc, hin⟩ := h' x (by rw [heq]; exact hx)
    exact ⟨c, List.mem_append_right _ hc, hin⟩
  · obtain ⟨c, hc, hin⟩ := h x heq
    exact ⟨c, List.mem_append_left _ hc, hin⟩

/-- A region that does not leave its block has all its bytes there. -/
theorem InRegion.div_eq (h : InRegion c x) (hfit : c.1 % b + c.2 ≤ b) : x / b = c.1 / b := by
  obtain ⟨hle, hlt⟩ := h
  have hsplit := Nat.div_add_mod c.1 b
  refine Nat.div_eq_of_lt_le ?_ ?_
  · rw [Nat.mul_comm]; omega
  · rw [Nat.succ_mul, Nat.mul_comm]; omega

/-- A block that no region starts in is as it was. -/
theorem Changes.block_eq (h : Changes log m m') (hfit : ∀ c ∈ log, c.1 % b + c.2 ≤ b)
    (hout : ∀ c ∈ log, c.1 / b ≠ x / b) : m' x = m x := by
  refine Classical.byContradiction fun hne => ?_
  obtain ⟨c, hc, hin⟩ := h x hne
  exact hout c hc (hin.div_eq (hfit c hc)).symm

end Footprint

end NetworkEncryptor
