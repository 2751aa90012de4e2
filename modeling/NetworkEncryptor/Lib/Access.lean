import NetworkEncryptor.Lib.Mem

/-!
# NetworkEncryptor.Lib.Access

Programs over byte buffers that show every access they make.

A `Prog` learns what is in a buffer by a `read` only and changes it by a `write`
only; `act` is a step on the rest of the state.  `run` is what the program
computes, `accesses` the list of the accesses of that run, in order.

`Does` says both at once: where the program ends, and that every access on the
way was allowed.  A function is specified by one `Does` lemma, and a sequence is
taken apart by `Does.bind`.
-/

namespace NetworkEncryptor

/-- One access: `n` bytes read at `off` of a buffer whose content is `len` bytes
long, `n` bytes written at `off` of a buffer, or the unsigned subtraction `a - b`. -/
inductive Access (ι : Type)
  | read (buf : ι) (off n len : Nat)
  | write (buf : ι) (off n : Nat)
  | sub (a b : Nat)
  deriving DecidableEq

/-- A state with buffers named by `ι`. -/
class Buffers (ι σ : Type) where
  get : σ → ι → Mem
  set : σ → ι → Mem → σ

/-- A buffer that holds what was stored in it last. -/
structure Buffers.Cell (ι σ : Type) [Buffers ι σ] (buf : ι) : Prop where
  get_set : ∀ (s : σ) m, get (set s buf m) buf = m
  set_set : ∀ (s : σ) m m', set (set s buf m) buf m' = set s buf m'
  set_get : ∀ s : σ, set s buf (get s buf) = s

/-- A program over a state `σ` with buffers named by `ι`. -/
inductive Prog (ι σ α : Type) : Type 1
  | ret (a : α)
  | read (buf : ι) (off n len : Nat) (k : List UInt8 → Prog ι σ α)
  | write (buf : ι) (off : Nat) (bs : List UInt8) (k : Prog ι σ α)
  | sub (a b : Nat) (k : Nat → Prog ι σ α)
  | act {β : Type} (f : σ → β × σ) (k : β → Prog ι σ α)

namespace Prog

variable {ι σ α β : Type}

/-- Continue with `f` where `x` ends. -/
protected def bind : Prog ι σ α → (α → Prog ι σ β) → Prog ι σ β
  | .ret a, f => f a
  | .read buf off n len k, f => .read buf off n len fun bs => (k bs).bind f
  | .write buf off bs k, f => .write buf off bs (k.bind f)
  | .sub a b k, f => .sub a b fun d => (k d).bind f
  | .act g k, f => .act g fun b => (k b).bind f

instance : Monad (Prog ι σ) where
  pure := .ret
  bind := Prog.bind

/-! ## the operations of a program -/

/-- `n` bytes at `off` of a buffer with `len` bytes of content. -/
def bytes (buf : ι) (len off n : Nat) : Prog ι σ (List UInt8) := .read buf off n len .ret

/-- The byte at `off` of a buffer with `len` bytes of content. -/
def byte (buf : ι) (len off : Nat) : Prog ι σ UInt8 :=
  .read buf off 1 len fun bs => .ret (bs.getD 0 0)

/-- Store `bs` at `off` of a buffer. -/
def store (buf : ι) (off : Nat) (bs : List UInt8) : Prog ι σ Unit := .write buf off bs (.ret ())

/-- The difference of two unsigned lengths. -/
def minus (a b : Nat) : Prog ι σ Nat := .sub a b .ret

/-- A step on the rest of the state. -/
def step (f : σ → α × σ) : Prog ι σ α := .act f .ret

/-- `memmove(buf + dst, buf + src, n)` in a buffer with `len` bytes of content. -/
def move (buf : ι) (len dst src n : Nat) : Prog ι σ Unit := do
  let bs ← bytes buf len src n
  store buf dst bs

/-! ## running -/

variable [Buffers ι σ]

/-- The result of a program and the state it ends in. -/
def run : Prog ι σ α → σ → α × σ
  | .ret a, s => (a, s)
  | .read buf off n _ k, s => (k ((Buffers.get s buf).read off n)).run s
  | .write buf off bs k, s => k.run (Buffers.set s buf ((Buffers.get s buf).write off bs))
  | .sub a b k, s => (k (a - b)).run s
  | .act f k, s => (k (f s).1).run (f s).2

/-- Every access of a run, in order. -/
def accesses : Prog ι σ α → σ → List (Access ι)
  | .ret _, _ => []
  | .read buf off n len k, s =>
      .read buf off n len :: (k ((Buffers.get s buf).read off n)).accesses s
  | .write buf off bs k, s =>
      .write buf off bs.length ::
        k.accesses (Buffers.set s buf ((Buffers.get s buf).write off bs))
  | .sub a b k, s => .sub a b :: (k (a - b)).accesses s
  | .act f k, s => (k (f s).1).accesses (f s).2

theorem run_bind (x : Prog ι σ α) (f : α → Prog ι σ β) (s : σ) :
    (x >>= f).run s = (f (x.run s).1).run (x.run s).2 := by
  change (x.bind f).run s = _
  induction x generalizing s with
  | ret a => rfl
  | read buf off n len k ih => exact ih _ s
  | write buf off bs k ih => exact ih _
  | sub a b k ih => exact ih _ s
  | act g k ih => exact ih _ _

theorem accesses_bind (x : Prog ι σ α) (f : α → Prog ι σ β) (s : σ) :
    (x >>= f).accesses s = x.accesses s ++ (f (x.run s).1).accesses (x.run s).2 := by
  change (x.bind f).accesses s = _
  induction x generalizing s with
  | ret a => rfl
  | read buf off n len k ih => exact congrArg (_ :: ·) (ih _ s)
  | write buf off bs k ih => exact congrArg (_ :: ·) (ih _)
  | sub a b k ih => exact congrArg (_ :: ·) (ih _ s)
  | act g k ih => exact ih _ _

/-! ## what a program does, within bounds -/

/-- From `s`, the program ends in `out`, and all its accesses are allowed. -/
def Does (ok : Access ι → Prop) (x : Prog ι σ α) (s : σ) (out : α × σ) : Prop :=
  x.run s = out ∧ ∀ a ∈ x.accesses s, ok a

namespace Does

variable {ok : Access ι → Prop} {x : Prog ι σ α} {f : α → Prog ι σ β} {s t : σ} {a : α} {out : β × σ}

protected theorem pure (a : α) (s : σ) : Does ok (pure a : Prog ι σ α) s (a, s) :=
  ⟨rfl, fun _ h => absurd h List.not_mem_nil⟩

protected theorem bind (hx : Does ok x s (a, t)) (hf : Does ok (f a) t out) :
    Does ok (x >>= f) s out := by
  constructor
  · rw [run_bind, hx.1, hf.1]
  · rw [accesses_bind, hx.1]
    intro b hb
    rcases List.mem_append.mp hb with h | h
    · exact hx.2 b h
    · exact hf.2 b h

theorem bytes {buf : ι} {len off n : Nat} (h : ok (.read buf off n len)) (s : σ) :
    Does ok (Prog.bytes buf len off n) s ((Buffers.get s buf).read off n, s) :=
  ⟨rfl, by simpa [Prog.bytes, accesses] using h⟩

theorem byte {buf : ι} {len off : Nat} (h : ok (.read buf off 1 len)) (s : σ) :
    Does ok (Prog.byte buf len off) s (Buffers.get s buf off, s) :=
  ⟨rfl, by simpa [Prog.byte, accesses] using h⟩

theorem store {buf : ι} {off : Nat} {bs : List UInt8} (h : ok (.write buf off bs.length)) (s : σ) :
    Does ok (Prog.store buf off bs) s
      ((), Buffers.set s buf ((Buffers.get s buf).write off bs)) :=
  ⟨rfl, by simpa [Prog.store, accesses] using h⟩

theorem minus {a b : Nat} (h : ok (.sub a b)) (s : σ) :
    Does ok (Prog.minus a b : Prog ι σ Nat) s (a - b, s) :=
  ⟨rfl, by simpa [Prog.minus, accesses] using h⟩

theorem step (f : σ → α × σ) (s : σ) : Does ok (Prog.step f : Prog ι σ α) s (f s) :=
  ⟨rfl, fun _ h => absurd h List.not_mem_nil⟩

theorem move {buf : ι} {len dst src n : Nat} (hr : ok (.read buf src n len))
    (hw : ok (.write buf dst n)) (s : σ) :
    Does ok (Prog.move buf len dst src n) s
      ((), Buffers.set s buf ((Buffers.get s buf).move dst src n)) := by
  refine (bytes hr s).bind (store ?_ s)
  rw [Mem.length_read]
  exact hw

end Does

end Prog

end NetworkEncryptor
