import Mathlib.Order.Lattice
import Mathlib.Data.Nat.Init
import Mathlib.Data.Set.Defs
import Mathlib.Logic.Function.Basic

/-!
# NetworkEncryptor.Lib.LeastLoaded

Placing each new item where the fewest items are.

`keepMin` is one turn of a scan for the least load; after the scan nothing that was
visited is below what it kept (`foldl_keepMin_le`).  A scan that starts anywhere and
goes round once visits everything (`exists_rotate`).  Counts that differ by at most
one stay so when one of the least is raised (`Balanced.raise`).
-/

namespace NetworkEncryptor

section KeepMin

variable {ι κ : Type _}

/-- The load kept so far and whose it is, against that of `i`. -/
def keepMin [LT κ] [DecidableLT κ] (load : ι → κ) (best : κ × ι) (i : ι) : κ × ι :=
  if load i < best.1 then (load i, i) else best

variable [LinearOrder κ] (load : ι → κ)

theorem keepMin_le (best : κ × ι) (i : ι) :
    (keepMin load best i).1 ≤ best.1 ∧ (keepMin load best i).1 ≤ load i := by
  unfold keepMin
  split
  · next h => exact ⟨h.le, le_refl _⟩
  · next h => exact ⟨le_refl _, not_lt.mp h⟩

/-- A scan keeps what it started with or the load of something it visited, and
nothing below it was there. -/
theorem foldl_keepMin (is : List ι) (best : κ × ι) :
    (is.foldl (keepMin load) best = best ∨ ∃ i ∈ is, is.foldl (keepMin load) best = (load i, i)) ∧
      (is.foldl (keepMin load) best).1 ≤ best.1 ∧
      ∀ i ∈ is, (is.foldl (keepMin load) best).1 ≤ load i := by
  induction is generalizing best with
  | nil => simp
  | cons i is ih =>
      obtain ⟨hfrom, hle, hall⟩ := ih (keepMin load best i)
      obtain ⟨hbest, hi⟩ := keepMin_le load best i
      simp only [List.foldl_cons, List.forall_mem_cons]
      refine ⟨?_, hle.trans hbest, hle.trans hi, hall⟩
      rcases hfrom with heq | ⟨j, hj, heq⟩
      · rw [heq, keepMin]
        split
        · exact Or.inr ⟨i, List.mem_cons_self, rfl⟩
        · exact Or.inl rfl
      · exact Or.inr ⟨j, List.mem_cons_of_mem i hj, heq⟩

end KeepMin

/-- Going round once from anywhere. -/
theorem exists_rotate {n j : Nat} (start : Nat) (hj : j < n) : ∃ off < n, (start + off) % n = j := by
  have hn : 0 < n := Nat.lt_of_le_of_lt (Nat.zero_le j) hj
  have hlt : start % n < n := Nat.mod_lt start hn
  rcases Nat.le_total (start % n) j with hle | hle
  · refine ⟨j - start % n, by omega, ?_⟩
    rw [← Nat.mod_add_mod, Nat.add_sub_cancel' hle, Nat.mod_eq_of_lt hj]
  · refine ⟨(j + n - start % n) % n, Nat.mod_lt _ hn, ?_⟩
    rw [Nat.add_mod_mod, ← Nat.mod_add_mod, Nat.add_sub_cancel' (by omega), Nat.add_mod_right,
      Nat.mod_eq_of_lt hj]

/-! ## balanced counts -/

/-- The counts over `s` differ by at most one. -/
def Balanced {ι : Type _} (s : Set ι) (count : ι → Nat) : Prop :=
  ∀ a ∈ s, ∀ b ∈ s, count a ≤ count b + 1

/-- One more for one of the least. -/
theorem Balanced.raise {ι : Type _} [DecidableEq ι] {s : Set ι} {count : ι → Nat} (h : Balanced s count)
    {i : ι} (hmin : ∀ j ∈ s, count i ≤ count j) :
    Balanced s (Function.update count i (count i + 1)) := by
  intro a ha b hb
  have hab := h a ha b hb
  have hia := hmin a ha
  have hib := hmin b hb
  simp only [Function.update_apply]
  split_ifs with ha' hb' hb'
  · omega
  · omega
  · subst hb'; omega
  · exact hab

end NetworkEncryptor
