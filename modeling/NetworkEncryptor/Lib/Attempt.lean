/-!
# NetworkEncryptor.Lib.Attempt

Computations over an explicit state that may give up: the shape of a C
function that returns `-1` on failure but has by then already changed what it
changed.  `Attempt σ α` therefore returns the state in both cases, and a
failed step keeps it.

Two rules carry every proof about such a function: `bind_eq_some_iff` peels a
successful run apart into the runs of its parts, and `Within.bind` chains what
each part may do to the state, successful or not.
-/

namespace NetworkEncryptor

/-- A computation over `σ` that may fail; failure keeps the state reached. -/
def Attempt (σ α : Type) := σ → Option α × σ

namespace Attempt

variable {σ α β : Type}

/-- Run `f` on the result of `x`, unless `x` failed. -/
protected def bind (x : Attempt σ α) (f : α → Attempt σ β) : Attempt σ β := fun s =>
  match x s with
  | (some a, s') => f a s'
  | (none, s') => (none, s')

instance : Monad (Attempt σ) where
  pure a := fun s => (some a, s)
  bind := Attempt.bind

/-- `return -1`. -/
def fail : Attempt σ α := fun s => (none, s)

/-- Continue only under `c`. -/
def check (c : Prop) [Decidable c] : Attempt σ Unit := fun s =>
  if c then (some (), s) else (none, s)

/-- Continue only with a value. -/
def ofOption (o : Option α) : Attempt σ α := fun s => (o, s)

/-- A value read from the state. -/
def read (f : σ → α) : Attempt σ α := fun s => (some (f s), s)

/-- Change the state. -/
def modify (f : σ → σ) : Attempt σ Unit := fun s => (some (), f s)

/-! ## running -/

@[simp] theorem pure_apply (a : α) (s : σ) : (pure a : Attempt σ α) s = (some a, s) := rfl

@[simp] theorem fail_apply (s : σ) : (fail : Attempt σ α) s = (none, s) := rfl

@[simp] theorem ofOption_apply (o : Option α) (s : σ) : (ofOption o : Attempt σ α) s = (o, s) := rfl

@[simp] theorem read_apply (f : σ → α) (s : σ) : (read f : Attempt σ α) s = (some (f s), s) := rfl

@[simp] theorem modify_apply (f : σ → σ) (s : σ) : (modify f : Attempt σ Unit) s = (some (), f s) :=
  rfl

theorem check_apply (c : Prop) [Decidable c] (s : σ) :
    (check c : Attempt σ Unit) s = if c then (some (), s) else (none, s) := rfl

theorem bind_apply (x : Attempt σ α) (f : α → Attempt σ β) (s : σ) :
    (x >>= f) s = match x s with
      | (some a, s') => f a s'
      | (none, s') => (none, s') := rfl

/-- A first part that succeeds is run and done with. -/
theorem bind_of_some {x : Attempt σ α} {s s' : σ} {a : α} (h : x s = (some a, s'))
    (f : α → Attempt σ β) : (x >>= f) s = f a s' := by
  rw [bind_apply, h]

/-- A check that holds is no step. -/
theorem check_bind {c : Prop} [Decidable c] (h : c) (f : Unit → Attempt σ β) :
    (check c >>= f) = f () := by
  funext s; rw [bind_apply, check_apply, if_pos h]

/-- A check that does not hold is the end. -/
theorem check_bind_of_not {c : Prop} [Decidable c] (h : ¬c) (f : Unit → Attempt σ β) :
    (check c >>= f) = fail := by
  funext s; rw [bind_apply, check_apply, if_neg h, fail_apply]

/-- A value that is there is just passed on. -/
theorem ofOption_some_bind {o : Option α} {a : α} (h : o = some a) (f : α → Attempt σ β) :
    (ofOption o >>= f) = f a := by
  funext s; rw [bind_apply, h, ofOption_apply]

/-- A value that is not there is the end. -/
theorem ofOption_none_bind {o : Option α} (h : o = none) (f : α → Attempt σ β) :
    (ofOption o >>= f) = fail := by
  funext s; rw [bind_apply, h, ofOption_apply, fail_apply]

/-- A sequence succeeds exactly when its parts do, one after the other. -/
theorem bind_eq_some_iff {x : Attempt σ α} {f : α → Attempt σ β} {s s' : σ} {b : β} :
    (x >>= f) s = (some b, s') ↔ ∃ a t, x s = (some a, t) ∧ f a t = (some b, s') := by
  rw [bind_apply]
  constructor
  · intro h
    cases hx : x s with
    | mk r t =>
        cases r with
        | none => simp only [hx] at h; cases h
        | some a => exact ⟨a, t, rfl, by simpa only [hx] using h⟩
  · rintro ⟨a, t, hx, hf⟩
    simpa only [hx] using hf

/-- A sequence fails where one of its parts does. -/
theorem bind_eq_none_iff {x : Attempt σ α} {f : α → Attempt σ β} {s s' : σ} :
    (x >>= f) s = (none, s') ↔
      x s = (none, s') ∨ ∃ a t, x s = (some a, t) ∧ f a t = (none, s') := by
  rw [bind_apply]
  cases hx : x s with
  | mk r t =>
      cases r with
      | none => simp
      | some a =>
          constructor
          · intro h; exact .inr ⟨a, t, rfl, h⟩
          · intro h
            rcases h with h | ⟨a', t', h, hf⟩
            · cases h
            · cases h; exact hf

theorem check_eq_none_iff {c : Prop} [Decidable c] {s s' : σ} :
    (check c : Attempt σ Unit) s = (none, s') ↔ ¬ c ∧ s' = s := by
  rw [check_apply]
  by_cases hc : c
  · simp [hc]
  · simp [hc, eq_comm]

theorem ofOption_eq_none_iff {o : Option α} {s s' : σ} :
    (ofOption o : Attempt σ α) s = (none, s') ↔ o = none ∧ s' = s := by
  simp [eq_comm]

theorem check_eq_some_iff {c : Prop} [Decidable c] {s s' : σ} {u : Unit} :
    (check c : Attempt σ Unit) s = (some u, s') ↔ c ∧ s' = s := by
  rw [check_apply]
  by_cases hc : c
  · simp [hc, eq_comm]
  · simp [hc]

theorem ofOption_eq_some_iff {o : Option α} {s s' : σ} {a : α} :
    (ofOption o : Attempt σ α) s = (some a, s') ↔ o = some a ∧ s' = s := by
  simp [eq_comm]

theorem read_eq_some_iff {f : σ → α} {s s' : σ} {a : α} :
    (read f : Attempt σ α) s = (some a, s') ↔ a = f s ∧ s' = s := by
  simp [eq_comm]

theorem pure_eq_some_iff {s s' : σ} {a b : α} :
    (pure a : Attempt σ α) s = (some b, s') ↔ b = a ∧ s' = s := by
  simp [eq_comm]

/-! ## what a computation may do to the state -/

/-- Every run of `x`, failed or not, takes a state to an `R`-related one. -/
def Within (R : σ → σ → Prop) (x : Attempt σ α) : Prop := ∀ s, R s (x s).2

variable {R : σ → σ → Prop}

theorem Within.pure (hr : ∀ s, R s s) (a : α) : Within R (pure a : Attempt σ α) := fun s => hr s

theorem Within.check (hr : ∀ s, R s s) (c : Prop) [Decidable c] :
    Within R (check c : Attempt σ Unit) := by
  intro s
  rw [check_apply]
  by_cases hc : c
  · rw [if_pos hc]; exact hr s
  · rw [if_neg hc]; exact hr s

theorem Within.ofOption (hr : ∀ s, R s s) (o : Option α) : Within R (ofOption o : Attempt σ α) :=
  fun s => hr s

theorem Within.read (hr : ∀ s, R s s) (f : σ → α) : Within R (read f : Attempt σ α) :=
  fun s => hr s

/-- Chaining: the parts of a sequence stay within a transitive relation
together, also when the first one fails. -/
theorem Within.bind (ht : ∀ s t u, R s t → R t u → R s u) {x : Attempt σ α}
    {f : α → Attempt σ β} (hx : Within R x) (hf : ∀ a, Within R (f a)) :
    Within R (x >>= f) := by
  intro s
  have h1 := hx s
  rw [bind_apply]
  cases hxs : x s with
  | mk r t =>
      rw [hxs] at h1
      cases r with
      | none => exact h1
      | some a => exact ht s t _ h1 (hf a t)

/-! ## loops -/

/-- `f` for each element, until one fails. -/
def forEach {ι : Type} (f : ι → Attempt σ Unit) : List ι → Attempt σ Unit
  | [] => pure ()
  | x :: xs => do
      f x
      forEach f xs

/-! ## pre- and postconditions -/

/-- From a state in `P`, a run of `x` that succeeds ends in `Q`, one that fails in `E`. -/
def Ensures (P : σ → Prop) (x : Attempt σ α) (Q : α → σ → Prop) (E : σ → Prop) : Prop :=
  ∀ s, P s → (∀ a s', x s = (some a, s') → Q a s') ∧ ∀ s', x s = (none, s') → E s'

variable {P P' E : σ → Prop} {Q : α → σ → Prop}

theorem Ensures.pure {a : α} (h : ∀ s, P s → Q a s) : Ensures P (pure a) Q E := by
  refine fun s hs => ⟨fun b s' hrun => ?_, fun s' hrun => nomatch hrun⟩
  obtain ⟨rfl, rfl⟩ := pure_eq_some_iff.mp hrun
  exact h _ hs

theorem Ensures.fail (h : ∀ s, P s → E s) : Ensures P (fail : Attempt σ α) Q E := by
  refine fun s hs => ⟨fun b s' hrun => (nomatch hrun), fun s' hrun => ?_⟩
  cases hrun
  exact h s hs

theorem Ensures.modify {f : σ → σ} {Q : Unit → σ → Prop} (h : ∀ s, P s → Q () (f s)) :
    Ensures P (modify f) Q E := by
  refine fun s hs => ⟨fun b s' hrun => ?_, fun s' hrun => nomatch hrun⟩
  cases hrun
  exact h s hs

theorem Ensures.check {c : Prop} [Decidable c] {Q : Unit → σ → Prop} (h : ∀ s, P s → c → Q () s)
    (he : ∀ s, P s → ¬c → E s) : Ensures P (check c) Q E := by
  refine fun s hs => ⟨fun b s' hrun => ?_, fun s' hrun => ?_⟩
  · obtain ⟨hc, rfl⟩ := check_eq_some_iff.mp hrun
    exact h _ hs hc
  · obtain ⟨hc, rfl⟩ := check_eq_none_iff.mp hrun
    exact he _ hs hc

theorem Ensures.bind {x : Attempt σ α} {f : α → Attempt σ β} {R : β → σ → Prop}
    (hx : Ensures P x Q E) (hf : ∀ a, Ensures (Q a) (f a) R E) : Ensures P (x >>= f) R E := by
  refine fun s hs => ⟨fun b s' hrun => ?_, fun s' hrun => ?_⟩
  · obtain ⟨a, t, hxs, hft⟩ := bind_eq_some_iff.mp hrun
    exact (hf a t ((hx s hs).1 a t hxs)).1 b s' hft
  · rcases bind_eq_none_iff.mp hrun with hxs | ⟨a, t, hxs, hft⟩
    · exact (hx s hs).2 s' hxs
    · exact (hf a t ((hx s hs).1 a t hxs)).2 s' hft

/-- What is read from a known state is known. -/
theorem Ensures.read_bind {s : σ} {f : σ → α} {k : α → Attempt σ β} {R : β → σ → Prop}
    (h : Ensures (· = s) (k (f s)) R E) : Ensures (· = s) (read f >>= k) R E := by
  rintro t rfl
  exact h t rfl

theorem Ensures.mono {x : Attempt σ α} {Q' : α → σ → Prop} {E' : σ → Prop} (h : Ensures P x Q E)
    (hp : ∀ s, P' s → P s) (hq : ∀ a s, Q a s → Q' a s) (he : ∀ s, E s → E' s) :
    Ensures P' x Q' E' := fun s hs =>
  ⟨fun a s' hrun => hq a s' ((h s (hp s hs)).1 a s' hrun), fun s' hrun => he s' ((h s (hp s hs)).2 s' hrun)⟩

/-- The invariant of a loop is about the elements that are done. -/
theorem Ensures.forEach {ι : Type} {I : List ι → σ → Prop} {f : ι → Attempt σ Unit} {xs : List ι}
    (hstep : ∀ done x rest, done ++ x :: rest = xs →
      Ensures (I done) (f x) (fun _ => I (done ++ [x])) E) :
    Ensures (I []) (Attempt.forEach f xs) (fun _ => I xs) E := by
  suffices hrest : ∀ rest done, done ++ rest = xs →
      Ensures (I done) (Attempt.forEach f rest) (fun _ => I xs) E from hrest xs [] rfl
  intro rest
  induction rest with
  | nil =>
      intro done hdone
      rw [List.append_nil] at hdone
      exact Ensures.pure fun s hs => hdone ▸ hs
  | cons x rest ih =>
      intro done hdone
      refine Ensures.bind (hstep done x rest hdone) fun _ => ih (done ++ [x]) ?_
      rw [List.append_assoc, List.singleton_append, hdone]

/-- The same for the numbers below `n`. -/
theorem Ensures.forRange {I : Nat → σ → Prop} {f : Nat → Attempt σ Unit} {n : Nat}
    (hstep : ∀ i, i < n → Ensures (I i) (f i) (fun _ => I (i + 1)) E) :
    Ensures (I 0) (Attempt.forEach f (List.range n)) (fun _ => I n) E := by
  have hstep' : ∀ done x rest, done ++ x :: rest = List.range n →
      Ensures (I done.length) (f x) (fun _ => I (done ++ [x]).length) E := by
    intro done x rest hdone
    have hlen := congrArg List.length hdone
    rw [List.length_append, List.length_cons, List.length_range] at hlen
    have hx : x = done.length := by
      have hget := congrArg (fun l => l[done.length]?) hdone
      simpa [List.getElem?_range (show done.length < n by omega)] using hget
    subst hx
    rw [List.length_append]
    exact hstep done.length (by omega)
  have hrun := Ensures.forEach (I := fun done => I done.length) hstep'
  rwa [List.length_range] at hrun

end Attempt

end NetworkEncryptor
