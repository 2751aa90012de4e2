/-!
# NetworkEncryptor.Lib.Chains

A stream cut into chains: an element says whether the next one continues it,
and an element that is not continued closes its chain.
-/

namespace NetworkEncryptor

section Chains

variable {α : Type _} (contd : α → Bool)

/-- Add an element to the open chain, closing it when it is not continued. -/
def chainStep (s : List (List α) × List α) (a : α) : List (List α) × List α :=
  if contd a then (s.1, s.2 ++ [a]) else (s.1 ++ [s.2 ++ [a]], [])

/-- The chains a stream completes after the open chain `rest`, and the chain it
leaves open. -/
def chainsFrom (rest as : List α) : List (List α) × List α :=
  as.foldl (chainStep contd) ([], rest)

@[simp] theorem chainsFrom_nil (rest : List α) : chainsFrom contd rest [] = ([], rest) := rfl

theorem foldl_chainStep (done : List (List α)) (rest as : List α) :
    as.foldl (chainStep contd) (done, rest) =
      (done ++ (chainsFrom contd rest as).1, (chainsFrom contd rest as).2) := by
  induction as generalizing done rest with
  | nil => simp
  | cons a as ih =>
      rw [chainsFrom, List.foldl_cons, List.foldl_cons, chainStep, chainStep]
      by_cases hc : contd a
      · rw [if_pos hc, if_pos hc, ih]; rfl
      · rw [if_neg hc, if_neg hc, ih, ih ([] ++ [rest ++ [a]])]
        simp

theorem chainsFrom_append (rest as bs : List α) :
    chainsFrom contd rest (as ++ bs) =
      ((chainsFrom contd rest as).1 ++ (chainsFrom contd (chainsFrom contd rest as).2 bs).1,
        (chainsFrom contd (chainsFrom contd rest as).2 bs).2) := by
  rw [chainsFrom, List.foldl_append, ← foldl_chainStep]
  rfl

theorem chainsFrom_concat (rest as : List α) (a : α) :
    chainsFrom contd rest (as ++ [a]) = chainStep contd (chainsFrom contd rest as) a := by
  rw [chainsFrom, List.foldl_append]
  rfl

/-- Continued elements and one that is not are one chain. -/
theorem chainsFrom_closed {as : List α} {a : α} (has : ∀ b ∈ as, contd b = true)
    (ha : contd a = false) : chainsFrom contd [] (as ++ [a]) = ([as ++ [a]], []) := by
  have hopen (rest : List α) : chainsFrom contd rest as = ([], rest ++ as) := by
    induction as generalizing rest with
    | nil => simp
    | cons b bs ih =>
        have hb : chainsFrom contd rest [b] = ([], rest ++ [b]) := by
          rw [chainsFrom, List.foldl_cons, List.foldl_nil, chainStep, if_pos (has b (by simp))]
        rw [show b :: bs = [b] ++ bs from rfl, chainsFrom_append, hb,
          ih fun c hc => has c (by simp [hc])]
        simp
  rw [chainsFrom_concat, hopen, chainStep, if_neg (by rw [ha]; simp)]
  simp

/-- The open chain is the beginning of a chain of the stream, complete or still
open. -/
theorem exists_prefix_of_chainsFrom (rest as : List α) :
    ∃ ch ∈ (chainsFrom contd rest as).1 ++ [(chainsFrom contd rest as).2], rest <+: ch := by
  induction as generalizing rest with
  | nil => exact ⟨rest, by simp, List.prefix_refl rest⟩
  | cons a as ih =>
      rw [show a :: as = [a] ++ as from rfl, chainsFrom_append]
      have hone : chainsFrom contd rest [a] = chainStep contd ([], rest) a := rfl
      rw [hone, chainStep]
      by_cases hc : contd a = true
      · rw [if_pos hc]
        obtain ⟨ch, hch, hpre⟩ := ih (rest ++ [a])
        exact ⟨ch, hch, (List.prefix_append rest [a]).trans hpre⟩
      · rw [if_neg hc]
        exact ⟨rest ++ [a], by simp, List.prefix_append rest [a]⟩

end Chains

end NetworkEncryptor
