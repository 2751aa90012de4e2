import Mathlib.Data.List.Range

/-!
# NetworkEncryptor.Lib.Ways

First-match lookups over the ways `0 … n - 1` of a set: what a lookup finds
when the ways change at one place.
-/

namespace NetworkEncryptor

/-- The first way that satisfies `p`. -/
def findWay (n : Nat) (p : Nat → Bool) : Option Nat := (List.range n).find? p

section findWay

variable {n w : Nat} {p q : Nat → Bool}

theorem findWay_eq_none_iff : findWay n p = none ↔ ∀ i < n, p i = false := by
  simp [findWay, List.find?_eq_none]

theorem findWay_eq_some (h : findWay n p = some w) : w < n ∧ p w = true := by
  refine ⟨?_, List.find?_some h⟩
  simpa using List.mem_of_find?_eq_some h

theorem findWay_congr (h : ∀ i < n, p i = q i) : findWay n p = findWay n q := by
  unfold findWay
  have hmem : ∀ l : List Nat, (∀ i ∈ l, i < n) → l.find? p = l.find? q := by
    intro l
    induction l with
    | nil => intro _; rfl
    | cons i l ih =>
        intro hl
        rw [List.find?_cons, List.find?_cons, h i (hl i (by simp)),
          ih fun j hj => hl j (by simp [hj])]
  exact hmem _ fun i hi => by simpa using hi

/-- The only way that matches is found. -/
theorem findWay_eq_of_unique (hw : w < n) (hp : p w = true) (h : ∀ i < n, p i = true → i = w) :
    findWay n p = some w := by
  cases hf : findWay n p with
  | none =>
      have := findWay_eq_none_iff.mp hf w hw
      rw [hp] at this
      cases this
  | some v =>
      obtain ⟨hv, hpv⟩ := findWay_eq_some hf
      rw [h v hv hpv]

/-- More ways do not change what is found. -/
theorem findWay_of_le {m : Nat} (hle : m ≤ n) (h : findWay m p = some w) : findWay n p = some w := by
  obtain ⟨k, rfl⟩ := Nat.exists_eq_add_of_le hle
  unfold findWay at h ⊢
  rw [List.range_add, List.find?_append, h]
  rfl

theorem findWay_succ (n : Nat) (p : Nat → Bool) :
    findWay (n + 1) p = (findWay n p).or (if p n then some n else none) := by
  rw [findWay, List.range_succ, List.find?_append, List.find?_singleton]
  rfl

end findWay

end NetworkEncryptor
