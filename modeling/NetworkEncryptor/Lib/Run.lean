/-!
# NetworkEncryptor.Lib.Run

Runs of a step function over a list of events, and properties of all the steps
of a run.

`Along step P s es` says that `P` holds of the state before each step and its
event.  An invariant that every step keeps under an assumption `P` turns
assumptions about all steps into conclusions about all steps (`Along.invariant`).
-/

namespace NetworkEncryptor

section Run

variable {σ ε : Type _} {step : σ → ε → σ} {P Q : σ → ε → Prop} {Inv : σ → Prop}

/-- The state after a list of events. -/
def run (step : σ → ε → σ) (s : σ) (es : List ε) : σ := es.foldl step s

@[simp] theorem run_nil (step : σ → ε → σ) (s : σ) : run step s [] = s := rfl

@[simp] theorem run_cons (step : σ → ε → σ) (s : σ) (e : ε) (es : List ε) :
    run step s (e :: es) = run step (step s e) es := rfl

/-- `P` holds at every step of the run. -/
def Along (step : σ → ε → σ) (P : σ → ε → Prop) : σ → List ε → Prop
  | _, [] => True
  | s, e :: es => P s e ∧ Along step P (step s e) es

instance Along.decidable [∀ s e, Decidable (P s e)] : ∀ s es, Decidable (Along step P s es)
  | _, [] => inferInstanceAs (Decidable True)
  | s, e :: es =>
      have := Along.decidable (step s e) es
      inferInstanceAs (Decidable (P s e ∧ Along step P (step s e) es))

/-- What holds of every event of the list, in any state, holds along the run. -/
theorem Along.of_forall {s : σ} {es : List ε} (h : ∀ e ∈ es, ∀ s, P s e) : Along step P s es := by
  induction es generalizing s with
  | nil => trivial
  | cons e es ih => exact ⟨h e (by simp) s, ih fun e' he' => h e' (by simp [he'])⟩

theorem Along.and {s : σ} {es : List ε} (hp : Along step P s es) (hq : Along step Q s es) :
    Along step (fun s e => P s e ∧ Q s e) s es := by
  induction es generalizing s with
  | nil => trivial
  | cons e es ih => exact ⟨⟨hp.1, hq.1⟩, ih hp.2 hq.2⟩

/-- A run in two parts. -/
theorem run_append (s : σ) (es fs : List ε) :
    run step s (es ++ fs) = run step (run step s es) fs := List.foldl_append

theorem Along.append {s : σ} {es fs : List ε} (he : Along step P s es)
    (hf : Along step P (run step s es) fs) : Along step P s (es ++ fs) := by
  induction es generalizing s with
  | nil => exact hf
  | cons e es ih => exact ⟨he.1, ih he.2 hf⟩

/-- The invariant rule: what every step keeps holds at the end, and what follows
at one step from the invariant and the assumption holds at all of them. -/
theorem Along.invariant (hstep : ∀ s e, Inv s → P s e → Inv (step s e) ∧ Q s e) :
    ∀ {s : σ} {es : List ε}, Inv s → Along step P s es → Inv (run step s es) ∧ Along step Q s es := by
  intro s es
  induction es generalizing s with
  | nil => intro hinv _; exact ⟨hinv, trivial⟩
  | cons e es ih =>
      intro hinv hal
      obtain ⟨hnext, hq⟩ := hstep s e hinv hal.1
      obtain ⟨hend, hrest⟩ := ih hnext hal.2
      exact ⟨hend, hq, hrest⟩

/-- What is not so at the start and is so at the end became so at some moment. -/
theorem Along.exists_moment {A B : σ → Prop}
    (hstep : ∀ s e, Inv s → P s e → Inv (step s e) ∧ (A (step s e) → A s ∨ B s ∨ B (step s e))) :
    ∀ {s : σ} {es : List ε}, Inv s → Along step P s es → A (run step s es) →
      A s ∨ ∃ es', es' <+: es ∧ B (run step s es') := by
  intro s es
  induction es generalizing s with
  | nil => intro _ _ hend; exact .inl hend
  | cons e es ih =>
      intro hinv hal hend
      obtain ⟨hnext, hone⟩ := hstep s e hinv hal.1
      rcases ih hnext hal.2 hend with hnow | ⟨es', hpre, hb⟩
      · rcases hone hnow with hs | hs | hs
        · exact .inl hs
        · exact .inr ⟨[], List.nil_prefix, hs⟩
        · exact .inr ⟨[e], List.cons_prefix_cons.mpr ⟨rfl, List.nil_prefix⟩, hs⟩
      · exact .inr ⟨e :: es', List.cons_prefix_cons.mpr ⟨rfl, hpre⟩, hb⟩

end Run

end NetworkEncryptor
