import Mathlib.Data.List.Sort

/-!
# NetworkEncryptor.Lib.Ordered

Lists that stay in order while they are worked on: an element is replaced by
what was made of it (`pairwise_splice`), and the second of two results directly
follows the first (`Paired`).
-/

namespace NetworkEncryptor

variable {α : Type _}

/-! ## replacing an element -/

/-- An element is replaced by elements that compare with the others as it did. -/
theorem pairwise_splice {R : α → α → Prop} {as bs ps : List α} {p : α} (h : (as ++ p :: bs).Pairwise R)
    (hps : ps.Pairwise R) (hleft : ∀ q ∈ ps, ∀ a ∈ as, R a p → R a q)
    (hright : ∀ q ∈ ps, ∀ b ∈ bs, R p b → R q b) : (as ++ ps ++ bs).Pairwise R := by
  simp only [List.pairwise_append, List.pairwise_cons, List.mem_append, List.mem_cons] at h ⊢
  obtain ⟨has, ⟨hpb, hbs⟩, hab⟩ := h
  refine ⟨⟨has, hps, fun a ha q hq => ?_⟩, hbs, fun a ha b hb => ?_⟩
  · exact hleft q hq a ha (hab a ha p (.inl rfl))
  · rcases ha with ha | hq
    · exact hab a ha b (.inr hb)
    · exact hright a hq b hb (hpb b hb)

/-- Of two increasing lists, one that has only elements of the other is a part of it. -/
theorem sublist_of_increasing {as bs : List Nat} (ha : as.Pairwise (· < ·)) (hb : bs.Pairwise (· < ·))
    (hsub : as ⊆ bs) : as.Sublist bs :=
  List.sublist_of_subperm_of_pairwise (List.subperm_of_subset ha.nodup hsub) ha hb

/-! ## seconds and firsts -/

/-- Every second element has a first right before it. -/
def Paired (R : α → α → Prop) (second : α → Prop) (l : List α) : Prop :=
  ∀ i q, l[i]? = some q → second q → ∃ j p, i = j + 1 ∧ l[j]? = some p ∧ R p q

section Paired

variable {R : α → α → Prop} {second : α → Prop} {l m : List α}

theorem paired_nil : Paired R second ([] : List α) := by
  intro i q hq
  simp at hq

/-- What has gone through so far. -/
theorem Paired.of_append (h : Paired R second (l ++ m)) : Paired R second l := by
  intro i q hq hs
  have hi : i < l.length := (List.getElem?_eq_some_iff.mp hq).1
  obtain ⟨j, p, rfl, hp, hr⟩ := h i q (by rw [List.getElem?_append_left hi, hq]) hs
  rw [List.getElem?_append_left (by omega)] at hp
  exact ⟨j, p, rfl, hp, hr⟩

theorem Paired.append (h : Paired R second l) (hm : Paired R second m) : Paired R second (l ++ m) := by
  intro i q hq hs
  by_cases hi : i < l.length
  · rw [List.getElem?_append_left hi] at hq
    obtain ⟨j, p, rfl, hp, hr⟩ := h i q hq hs
    exact ⟨j, p, rfl, by rw [List.getElem?_append_left (by omega), hp], hr⟩
  · rw [List.getElem?_append_right (by omega)] at hq
    obtain ⟨j, p, hj, hp, hr⟩ := hm _ q hq hs
    refine ⟨l.length + j, p, by omega, ?_, hr⟩
    rw [List.getElem?_append_right (by omega), Nat.add_sub_cancel_left, hp]

theorem paired_one {p : α} (hp : ¬ second p) : Paired R second [p] := by
  intro i q hq hs
  obtain ⟨hi, rfl⟩ := List.getElem?_eq_some_iff.mp hq
  obtain rfl : i = 0 := by simpa using hi
  exact absurd hs hp

theorem paired_pair {p q : α} (hp : ¬ second p) (hr : R p q) : Paired R second [p, q] := by
  intro i x hx hs
  match i with
  | 0 => simp at hx; exact absurd (hx ▸ hs) hp
  | 1 => simp at hx; exact ⟨0, p, rfl, rfl, hx ▸ hr⟩
  | i + 2 => simp at hx

end Paired

end NetworkEncryptor
