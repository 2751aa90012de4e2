import Mathlib.Data.List.Nodup
import Mathlib.Data.List.Pairwise
import Mathlib.Data.List.Perm.Basic

/-!
# NetworkEncryptor.Lib.Partition

Things that are moved between places: every one of them is in exactly one place.

`Partition.move` is the rule for a step: it may change the places of a list, as
long as these hold the same things together afterwards.
-/

namespace NetworkEncryptor

section Partition

variable {P α : Type _} {own own' : P → List α} {U : α → Prop}

/-- The places hold the things of `U` and nothing else, each of them once. -/
structure Partition (own : P → List α) (U : α → Prop) : Prop where
  nodup : ∀ p, (own p).Nodup
  disjoint : ∀ p p', p ≠ p' → (own p).Disjoint (own p')
  covers : ∀ a, U a ↔ ∃ p, a ∈ own p

/-- Everything has one place. -/
theorem Partition.existsUnique (h : Partition own U) {a : α} (ha : U a) : ∃! p, a ∈ own p := by
  obtain ⟨p, hp⟩ := (h.covers a).mp ha
  refine ⟨p, hp, fun p' hp' => ?_⟩
  by_contra hne
  exact h.disjoint p' p hne hp' hp

theorem Partition.nodup_flatMap (h : Partition own U) {ps : List P} (hps : ps.Nodup) :
    (ps.flatMap own).Nodup :=
  List.nodup_flatMap.mpr ⟨fun p _ => h.nodup p, hps.imp fun {p p'} hne => h.disjoint p p' hne⟩

/-- Things that change places within a list of places. -/
theorem Partition.move (h : Partition own U) {ps : List P} (hps : ps.Nodup)
    (hout : ∀ p ∉ ps, own' p = own p) (hperm : (ps.flatMap own').Perm (ps.flatMap own)) :
    Partition own' U := by
  have hnd : (ps.flatMap own').Nodup := hperm.nodup_iff.mpr (h.nodup_flatMap hps)
  obtain ⟨hnd1, hnd2⟩ := List.nodup_flatMap.mp hnd
  have hsymm : Std.Symm (Function.onFun List.Disjoint own') := ⟨fun _ _ hd a ha hb => hd hb ha⟩
  -- what is in one of the places now was in one of them before
  have hback : ∀ {a p}, p ∈ ps → a ∈ own' p → ∃ p' ∈ ps, a ∈ own p' := fun hp ha =>
    List.mem_flatMap.mp (hperm.mem_iff.mp (List.mem_flatMap.mpr ⟨_, hp, ha⟩))
  have hcross : ∀ {p p'}, p ∈ ps → p' ∉ ps → (own' p).Disjoint (own' p') := by
    intro p p' hp hp' a ha ha'
    rw [hout p' hp'] at ha'
    obtain ⟨p'', hp'', ha''⟩ := hback hp ha
    have hne : p'' ≠ p' := by intro he; rw [he] at hp''; exact hp' hp''
    exact h.disjoint p'' p' hne ha'' ha'
  refine ⟨?_, ?_, ?_⟩
  · intro p
    by_cases hp : p ∈ ps
    · exact hnd1 p hp
    · rw [hout p hp]; exact h.nodup p
  · intro p p' hne
    by_cases hp : p ∈ ps
    · by_cases hp' : p' ∈ ps
      · exact hnd2.forall hp hp' hne
      · exact hcross hp hp'
    · by_cases hp' : p' ∈ ps
      · exact fun a ha ha' => hcross hp' hp ha' ha
      · rw [hout p hp, hout p' hp']; exact h.disjoint p p' hne
  · intro a
    rw [h.covers a]
    constructor
    · intro ⟨p, ha⟩
      by_cases hp : p ∈ ps
      · obtain ⟨p', -, ha'⟩ := List.mem_flatMap.mp
          (hperm.mem_iff.mpr (List.mem_flatMap.mpr ⟨p, hp, ha⟩))
        exact ⟨p', ha'⟩
      · exact ⟨p, by rw [hout p hp]; exact ha⟩
    · intro ⟨p, ha⟩
      by_cases hp : p ∈ ps
      · obtain ⟨p', -, ha'⟩ := hback hp ha
        exact ⟨p', ha'⟩
      · exact ⟨p, by rw [← hout p hp]; exact ha⟩

/-- Places hold no more than there is. -/
theorem Partition.length_le {own : P → List Nat} {n : Nat} (h : Partition own (· < n)) {ps : List P}
    (hps : ps.Nodup) : (ps.flatMap own).length ≤ n := by
  have hsub : ps.flatMap own ⊆ List.range n := by
    intro a ha
    obtain ⟨p, -, hp⟩ := List.mem_flatMap.mp ha
    exact List.mem_range.mpr ((h.covers a).mpr ⟨p, hp⟩)
  have := (List.subperm_of_subset (h.nodup_flatMap hps) hsub).length_le
  rwa [List.length_range] at this

end Partition

end NetworkEncryptor
