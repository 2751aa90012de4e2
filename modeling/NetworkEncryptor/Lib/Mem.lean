import Mathlib.Data.List.GetD

/-!
# NetworkEncryptor.Lib.Mem

Byte memory as a total function, with the two operations C code performs on
it: reading a slice and storing a byte string.  `memmove` is read-then-store,
so overlap needs no case of its own; `memcpy` between two buffers is a store
of what was read from the other one.

The lemmas say what a slice reads after a store: the stored bytes when the
slice lies inside them, the old bytes when it lies outside.  They are proved
once here, pointwise, so the packet proofs never look at an index again.
-/

namespace NetworkEncryptor

/-- Byte memory: the byte stored at every offset. -/
abbrev Mem := Nat → UInt8

namespace Mem

/-- The `n` bytes at `off`. -/
def read (m : Mem) (off n : Nat) : List UInt8 := (List.range n).map fun i => m (off + i)

/-- Store `bs` at `off`. -/
def write (m : Mem) (off : Nat) (bs : List UInt8) : Mem := fun i =>
  if off ≤ i ∧ i < off + bs.length then bs.getD (i - off) 0 else m i

/-- `memmove(m + dst, m + src, n)`. -/
def move (m : Mem) (dst src n : Nat) : Mem := m.write dst (m.read src n)

/-- The memory seen from `off` on: a pointer into the middle of a buffer. -/
def shift (m : Mem) (off : Nat) : Mem := fun i => m (off + i)

/-- A buffer that starts with `bs`; the rest is zero. -/
def ofList (bs : List UInt8) : Mem := fun i => bs.getD i 0

/-! ## reading -/

@[simp] theorem length_read (m : Mem) (off n : Nat) : (m.read off n).length = n := by
  simp [read]

@[simp] theorem read_zero (m : Mem) (off : Nat) : m.read off 0 = [] := rfl

@[simp] theorem getElem_read (m : Mem) (off n i : Nat) (h : i < (m.read off n).length) :
    (m.read off n)[i] = m (off + i) := by
  simp [read]

theorem getElem?_read (m : Mem) {off n i : Nat} (h : i < n) :
    (m.read off n)[i]? = some (m (off + i)) := by
  rw [List.getElem?_eq_getElem (by simpa using h), getElem_read]

theorem getD_read (m : Mem) {off n i : Nat} (h : i < n) :
    (m.read off n).getD i 0 = m (off + i) := by
  rw [List.getD_eq_getElem?_getD, getElem?_read m h, Option.getD_some]

@[simp] theorem read_shift (m : Mem) (off off' n : Nat) :
    (m.shift off).read off' n = m.read (off + off') n := by
  simp [read, shift, Nat.add_assoc]

/-- A slice splits at any point into two adjacent slices. -/
theorem read_add (m : Mem) (off a b : Nat) :
    m.read off (a + b) = m.read off a ++ m.read (off + a) b := by
  simp [read, List.range_add, Nat.add_assoc]

theorem read_succ (m : Mem) (off n : Nat) : m.read off (n + 1) = m off :: m.read (off + 1) n := by
  rw [Nat.add_comm n 1, read_add]; simp [read]

theorem take_read (m : Mem) {off n k : Nat} (h : k ≤ n) : (m.read off n).take k = m.read off k := by
  obtain ⟨r, rfl⟩ := Nat.exists_eq_add_of_le h
  rw [read_add, List.take_left' (by simp)]

theorem drop_read (m : Mem) {off n k : Nat} (h : k ≤ n) :
    (m.read off n).drop k = m.read (off + k) (n - k) := by
  obtain ⟨r, rfl⟩ := Nat.exists_eq_add_of_le h
  rw [read_add, List.drop_left' (by simp), Nat.add_sub_cancel_left]

/-- Two memories read the same slice exactly when they agree on its bytes. -/
theorem read_eq_read_iff {m m' : Mem} {off off' n : Nat} :
    m.read off n = m'.read off' n ↔ ∀ i < n, m (off + i) = m' (off' + i) := by
  constructor
  · intro h i hi
    have hg := congrArg (fun l => l.getD i 0) h
    simpa only [getD_read _ hi] using hg
  · intro h
    apply List.ext_getElem (by simp)
    intro i hi _
    rw [getElem_read, getElem_read]
    exact h i (by simpa using hi)

/-- A slice is a concatenation exactly when its two parts are the two slices. -/
theorem read_eq_append_iff {m : Mem} {off n : Nat} {xs ys : List UInt8}
    (hn : n = xs.length + ys.length) :
    m.read off n = xs ++ ys ↔
      m.read off xs.length = xs ∧ m.read (off + xs.length) ys.length = ys := by
  rw [hn, read_add]
  constructor
  · intro h; exact List.append_inj h (by simp)
  · intro h; rw [h.1, h.2]

theorem read_ofList (bs : List UInt8) {n : Nat} (h : bs.length = n) :
    (ofList bs).read 0 n = bs := by
  apply List.ext_getElem (by simp [h])
  intro i h1 h2
  simp [ofList, h2]

/-! ## storing -/

theorem write_of_mem (m : Mem) {off i : Nat} {bs : List UInt8} (h : off ≤ i)
    (h' : i < off + bs.length) : m.write off bs i = bs.getD (i - off) 0 := by
  rw [write, if_pos ⟨h, h'⟩]

theorem write_of_not_mem (m : Mem) {off i : Nat} {bs : List UInt8}
    (h : i < off ∨ off + bs.length ≤ i) : m.write off bs i = m i := by
  rw [write, if_neg (by omega)]

@[simp] theorem write_nil (m : Mem) (off : Nat) : m.write off [] = m := by
  funext i; exact write_of_not_mem m (by simp; omega)

/-- The stored bytes read back. -/
theorem read_write_self (m : Mem) {off n : Nat} {bs : List UInt8} (h : bs.length = n) :
    (m.write off bs).read off n = bs := by
  apply List.ext_getElem (by simp [h])
  intro i h1 h2
  rw [getElem_read, write_of_mem m (by omega) (by omega), Nat.add_sub_cancel_left]
  simp [h2]

/-- A slice outside the store is unchanged. -/
theorem read_write_of_disjoint (m : Mem) {off off' n : Nat} {bs : List UInt8}
    (h : off' + n ≤ off ∨ off + bs.length ≤ off') :
    (m.write off bs).read off' n = m.read off' n := by
  rw [read_eq_read_iff]
  intro i hi
  exact write_of_not_mem m (by omega)

/-- A slice inside the store reads the corresponding stored bytes. -/
theorem read_write_inside (m : Mem) {off k n : Nat} {bs : List UInt8} (h : k + n ≤ bs.length) :
    (m.write off bs).read (off + k) n = (bs.drop k).take n := by
  apply List.ext_getElem (by simp; omega)
  intro i h1 h2
  have hi : i < n := by simpa using h1
  rw [getElem_read, write_of_mem m (by omega) (by omega)]
  have hsub : off + k + i - off = k + i := by omega
  have hlt : k + i < bs.length := by omega
  rw [hsub, List.getD_eq_getElem?_getD, List.getElem?_eq_getElem hlt, Option.getD_some]
  simp

/-- Storing a concatenation is storing the parts one after the other. -/
theorem write_append (m : Mem) (off : Nat) (bs cs : List UInt8) :
    m.write off (bs ++ cs) = (m.write off bs).write (off + bs.length) cs := by
  funext i
  by_cases h1 : off ≤ i ∧ i < off + bs.length
  · rw [write_of_mem m h1.1 (by simp; omega), write_of_not_mem _ (by omega),
      write_of_mem m h1.1 h1.2, List.getD_append _ _ _ _ (by omega)]
  · by_cases h2 : off + bs.length ≤ i ∧ i < off + bs.length + cs.length
    · rw [write_of_mem m (by omega) (by simp; omega), write_of_mem _ h2.1 h2.2,
        List.getD_append_right _ _ _ _ (by omega)]
      congr 1; omega
    · rw [write_of_not_mem m (by simp; omega), write_of_not_mem _ (by omega),
        write_of_not_mem m (by omega)]

end Mem

end NetworkEncryptor
