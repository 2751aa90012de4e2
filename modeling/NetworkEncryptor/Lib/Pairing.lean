import NetworkEncryptor.Lib.Run
import Mathlib.Data.Bool.Basic
import Mathlib.Data.List.Induction
import Mathlib.Data.List.Nodup
import Mathlib.Logic.Function.Basic

/-!
# NetworkEncryptor.Lib.Pairing

Things that arrive whole or as two halves, in any order, and the state machine
that puts them together: it keeps the half that came first, with the time at
which it came.

When every piece arrives at most once, each thing comes out exactly once if all
its pieces arrived, and not at all otherwise (`pairedUp_run`).
-/

namespace NetworkEncryptor

/-- A thing as a whole, or its first or second half. -/
inductive Piece (κ : Type _)
  | whole (k : κ)
  | half (k : κ) (second : Bool)
  deriving DecidableEq

def Piece.key {κ : Type _} : Piece κ → κ
  | .whole k => k
  | .half k _ => k

/-- The half that waits for the other one, since when, and what has come out. -/
structure Pairing (κ τ : Type _) where
  waiting : κ → Option (Bool × τ)
  done : List κ

section Pairing

variable {κ τ : Type _}

def Pairing.init : Pairing κ τ := ⟨fun _ => none, []⟩

/-- A piece arrives at a time. -/
def Pairing.step [DecidableEq κ] (s : Pairing κ τ) (a : Piece κ × τ) : Pairing κ τ :=
  match a.1 with
  | .whole k => { s with done := s.done ++ [k] }
  | .half k second =>
      match s.waiting k with
      | none => { s with waiting := Function.update s.waiting k (some (second, a.2)) }
      | some _ => ⟨Function.update s.waiting k none, s.done ++ [k]⟩

/-- All pieces of the thing are there. -/
def Complete (ps : List (Piece κ)) (k : κ) : Prop :=
  .whole k ∈ ps ∨ ∀ second, .half k second ∈ ps

/-- Every piece arrives at most once, and nothing comes both as a whole and in halves. -/
structure Pieces (ps : List (Piece κ)) : Prop where
  nodup : ps.Nodup
  apart : ∀ k second, .whole k ∈ ps → .half k second ∉ ps

theorem Pieces.of_append {ps qs : List (Piece κ)} (h : Pieces (ps ++ qs)) : Pieces ps where
  nodup := (List.nodup_append'.mp h.nodup).1
  apart k second hw hh := h.apart k second (List.mem_append_left _ hw) (List.mem_append_left _ hh)

/-- What the state machine knows of the pieces that arrived. -/
structure PairedUp (as : List (Piece κ × τ)) (s : Pairing κ τ) : Prop where
  nodup : s.done.Nodup
  done : ∀ k, k ∈ s.done ↔ Complete (as.map Prod.fst) k
  waiting : ∀ k second t, s.waiting k = some (second, t) →
    (.half k second, t) ∈ as ∧ .half k (!second) ∉ as.map Prod.fst
  here : ∀ k second, .half k second ∈ as.map Prod.fst → .half k (!second) ∉ as.map Prod.fst →
    ∃ t, s.waiting k = some (second, t)

theorem pairedUp_init : PairedUp ([] : List (Piece κ × τ)) Pairing.init where
  nodup := List.nodup_nil
  done k := by simp [Pairing.init, Complete]
  waiting k second t h := by cases h
  here k second h := by cases h

section Step

variable {as : List (Piece κ × τ)} {s : Pairing κ τ} {k : κ} {b : Bool} {t : τ}

theorem mem_pieces {p q : Piece κ} : p ∈ (as ++ [(q, t)]).map Prod.fst ↔ p ∈ as.map Prod.fst ∨ p = q := by
  simp only [List.map_append, List.mem_append, List.map_cons, List.map_nil, List.mem_singleton]

/-- A piece that arrives has not arrived before. -/
theorem Pieces.fresh {q : Piece κ} (hp : Pieces ((as ++ [(q, t)]).map Prod.fst)) : q ∉ as.map Prod.fst := by
  have hnodup := hp.nodup
  rw [List.map_append, List.nodup_append'] at hnodup
  exact fun hq => hnodup.2.2 hq (List.mem_singleton_self q)

variable [DecidableEq κ]

/-- A thing arrives as a whole. -/
theorem PairedUp.whole (h : PairedUp as s) (hp : Pieces ((as ++ [(Piece.whole k, t)]).map Prod.fst)) :
    PairedUp (as ++ [(.whole k, t)]) (s.step (.whole k, t)) := by
  have hnew := hp.fresh
  have hhalf : ∀ b, Piece.half k b ∉ as.map Prod.fst := fun b hk =>
    hp.apart k b (mem_pieces.mpr (.inr rfl)) (mem_pieces.mpr (.inl hk))
  have hk : k ∉ s.done := by
    rw [h.done]
    rintro (hw | hall)
    · exact hnew hw
    · exact hhalf true (hall true)
  constructor
  · exact List.nodup_append'.mpr ⟨h.nodup, List.nodup_singleton k, by simpa [Pairing.step] using hk⟩
  · intro k'
    have := h.done k'
    simp only [Pairing.step, Complete, mem_pieces, List.mem_append, List.mem_singleton] at this ⊢
    grind
  · intro k' b t' hw
    obtain ⟨hmem, hno⟩ := h.waiting k' b t' hw
    exact ⟨List.mem_append_left _ hmem, by rw [mem_pieces]; grind⟩
  · intro k' b hmem hno
    rw [mem_pieces] at hmem hno
    exact h.here k' b (by grind) (by grind)

/-- The first of two halves arrives. -/
theorem PairedUp.first (h : PairedUp as s) (hp : Pieces ((as ++ [(Piece.half k b, t)]).map Prod.fst))
    (hw : s.waiting k = none) : PairedUp (as ++ [(.half k b, t)])
      { s with waiting := Function.update s.waiting k (some (b, t)) } := by
  have hnew := hp.fresh
  have hother : Piece.half k (!b) ∉ as.map Prod.fst := by
    intro hm
    obtain ⟨t', ht'⟩ := h.here k (!b) hm (by simpa using hnew)
    rw [hw] at ht'
    cases ht'
  constructor
  · exact h.nodup
  · intro k'
    have := h.done k'
    simp only [Complete, mem_pieces] at this ⊢
    grind
  · intro k' b' t' hw'
    have := h.waiting k' b' t'
    simp only [mem_pieces, List.mem_append, List.mem_singleton] at this hw' ⊢
    by_cases hk : k' = k
    · subst hk
      rw [Function.update_self] at hw'
      grind
    · rw [Function.update_of_ne hk] at hw'
      grind
  · intro k' b' hm hno
    have := h.here k' b'
    simp only [mem_pieces] at this hm hno ⊢
    by_cases hk : k' = k
    · subst hk
      have hb : b' = b := by grind
      rw [Function.update_self, hb]
      exact ⟨t, rfl⟩
    · rw [Function.update_of_ne hk]
      grind

/-- The second of two halves arrives. -/
theorem PairedUp.second (h : PairedUp as s) (hp : Pieces ((as ++ [(Piece.half k b, t)]).map Prod.fst))
    {w : Bool × τ} (hw : s.waiting k = some w) : PairedUp (as ++ [(.half k b, t)])
      ⟨Function.update s.waiting k none, s.done ++ [k]⟩ := by
  have hnew := hp.fresh
  obtain ⟨b', t'⟩ := w
  obtain ⟨hm, hno⟩ := h.waiting k b' t' hw
  have hfst : Piece.half k b' ∈ as.map Prod.fst := List.mem_map_of_mem hm
  have hk : k ∉ s.done := by
    rw [h.done]
    rintro (hwhole | hall)
    · exact hp.apart k b (mem_pieces.mpr (.inl hwhole)) (mem_pieces.mpr (.inr rfl))
    · exact hnew (hall b)
  obtain rfl : b' = !b := by
    rcases Bool.eq_or_eq_not b' b with rfl | hb
    · exact absurd hfst hnew
    · exact hb
  constructor
  · exact List.nodup_append'.mpr ⟨h.nodup, List.nodup_singleton k, by simpa using hk⟩
  · intro k'
    rw [List.mem_append, List.mem_singleton, h.done]
    simp only [Complete, mem_pieces, Piece.half.injEq, reduceCtorEq, or_false]
    constructor
    · rintro ((hwhole | hall) | rfl)
      · exact .inl hwhole
      · exact .inr fun c => .inl (hall c)
      · -- both halves are there now
        refine .inr fun c => ?_
        rcases Bool.eq_or_eq_not c b with rfl | rfl
        · exact .inr ⟨rfl, rfl⟩
        · exact .inl hfst
    · rintro (hwhole | hall)
      · exact .inl (.inl hwhole)
      · by_cases hkk : k' = k
        · exact .inr hkk
        · exact .inl (.inr fun c => (hall c).resolve_right fun heq => hkk heq.1)
  · intro k' b' t'' hw'
    have := h.waiting k' b' t''
    simp only [mem_pieces, List.mem_append, List.mem_singleton] at this hw' ⊢
    by_cases hk : k' = k
    · rw [hk, Function.update_self] at hw'
      cases hw'
    · rw [Function.update_of_ne hk] at hw'
      grind
  · intro k' b' hm hno
    have := h.here k' b'
    simp only [mem_pieces] at this hm hno ⊢
    by_cases hk : k' = k
    · -- no half of it waits for the other
      subst hk
      refine absurd ?_ hno
      rcases Bool.eq_or_eq_not b' b with rfl | rfl
      · exact .inl hfst
      · exact .inr (by rw [Bool.not_not])
    · rw [Function.update_of_ne hk]
      grind

end Step

theorem pairedUp_run [DecidableEq κ] {as : List (Piece κ × τ)} (hp : Pieces (as.map Prod.fst)) :
    PairedUp as (run Pairing.step Pairing.init as) := by
  induction as using List.reverseRecOn with
  | nil => exact pairedUp_init
  | append_singleton as a ih =>
      have h := ih (by rw [List.map_append] at hp; exact hp.of_append)
      rw [run_append]
      obtain ⟨p, t⟩ := a
      cases p with
      | whole k => exact h.whole hp
      | half k b =>
          cases hw : (run Pairing.step Pairing.init as).waiting k with
          | none => simpa only [run_cons, run_nil, Pairing.step, hw] using h.first hp hw
          | some w => simpa only [run_cons, run_nil, Pairing.step, hw] using h.second hp hw

end Pairing

end NetworkEncryptor
