import Mathlib.Data.List.Basic

/-!
# NetworkEncryptor.Lib.Fifo

A bounded FIFO queue as a specification: which events a queue of a given capacity
can show, one after the other.

Elements are pushed in groups, all of a group at once or none.  A run of the
specification determines what has been taken out: the elements put in, in order,
up to the ones still inside (`FifoRun.pushes_eq`).
-/

namespace NetworkEncryptor

/-- What a queue shows: a group was put in, a group of `n` was refused, an element was
taken out, there was none. -/
inductive FifoEvent (α : Type _)
  | push (xs : List α)
  | refuse (n : Nat)
  | pop (x : α)
  | empty

section Fifo

variable {α : Type _}

/-- One event of a queue of capacity `cap`. -/
inductive FifoStep (cap : Nat) : List α → FifoEvent α → List α → Prop
  | push {q xs : List α} (h : q.length + xs.length ≤ cap) : FifoStep cap q (.push xs) (q ++ xs)
  | refuse {q : List α} {n : Nat} (h : cap < q.length + n) : FifoStep cap q (.refuse n) q
  | pop {x : α} {q : List α} : FifoStep cap (x :: q) (.pop x) q
  | empty : FifoStep cap [] .empty []

/-- A sequence of events, oldest first. -/
inductive FifoRun (cap : Nat) : List α → List (FifoEvent α) → List α → Prop
  | nil (q : List α) : FifoRun cap q [] q
  | snoc {q q' q'' : List α} {log : List (FifoEvent α)} {e : FifoEvent α}
      (h : FifoRun cap q log q') (he : FifoStep cap q' e q'') : FifoRun cap q (log ++ [e]) q''

/-- Everything that was put in. -/
def fifoPushes (log : List (FifoEvent α)) : List α :=
  log.flatMap fun
    | .push xs => xs
    | _ => []

/-- Everything that was taken out. -/
def fifoPops (log : List (FifoEvent α)) : List α :=
  log.flatMap fun
    | .pop x => [x]
    | _ => []

theorem fifoPushes_append (log log' : List (FifoEvent α)) :
    fifoPushes (log ++ log') = fifoPushes log ++ fifoPushes log' := List.flatMap_append

theorem fifoPops_append (log log' : List (FifoEvent α)) :
    fifoPops (log ++ log') = fifoPops log ++ fifoPops log' := List.flatMap_append

/-- First in, first out, and nothing else. -/
theorem FifoRun.pushes_eq {cap : Nat} {q : List α} {log : List (FifoEvent α)}
    (h : FifoRun cap [] log q) : fifoPushes log = fifoPops log ++ q := by
  induction h with
  | nil => rfl
  | snoc _ he ih =>
      rw [fifoPushes_append, fifoPops_append, ih]
      cases he with
      | push h => simp [fifoPushes, fifoPops]
      | refuse h => simp [fifoPushes, fifoPops]
      | pop => simp [fifoPushes, fifoPops]
      | empty => simp [fifoPushes, fifoPops]

/-- The capacity is kept. -/
theorem FifoRun.length_le {cap : Nat} {q : List α} {log : List (FifoEvent α)}
    (h : FifoRun cap [] log q) : q.length ≤ cap := by
  induction h with
  | nil => exact Nat.zero_le cap
  | snoc _ he ih =>
      cases he with
      | push h => rw [List.length_append]; exact h
      | refuse h => exact ih
      | pop => rw [List.length_cons] at ih; omega
      | empty => exact ih

end Fifo

end NetworkEncryptor
