import NetworkEncryptor.CryptoRoute
import NetworkEncryptor.Lib.Ways

/-!
# NetworkEncryptor.Routes

The route table over whole calls: what a lookup and an insert leave of the
entries of every other flow.

A call either leaves the state alone or writes one free way for a key that was
in no way of its set (`dpFlowRouteGet_cases`), so an entry stays where it is
found, and a set that is full stays full.
-/

namespace NetworkEncryptor

section Table

variable {rt rt' : RouteState} {key key' : RouteKey} {way : Nat}

/-- The way holds `key`. -/
def RouteState.holds (rt : RouteState) (key : RouteKey) (way : Nat) : Bool :=
  (rt.table (routeSet key) way).valid && (rt.table (routeSet key) way).key = key

theorem routeFind_eq_findWay : routeFind rt key = findWay dpRouteWays (rt.holds key) := rfl

theorem routeFind_eq_some (h : routeFind rt key = some way) :
    way < dpRouteWays ∧ (rt.table (routeSet key) way).valid = true ∧
      (rt.table (routeSet key) way).key = key := by
  obtain ⟨hlt, hp⟩ := findWay_eq_some (routeFind_eq_findWay ▸ h)
  simpa [hlt, RouteState.holds] using hp

theorem routeEmpty_eq_some (h : routeEmpty rt key = some way) :
    way < dpRouteWays ∧ (rt.table (routeSet key) way).valid = false := by
  obtain ⟨hlt, hp⟩ := findWay_eq_some h
  simpa [hlt] using hp

theorem routeEmpty_eq_none_iff :
    routeEmpty rt key = none ↔ ∀ w < dpRouteWays, (rt.table (routeSet key) w).valid = true := by
  refine findWay_eq_none_iff.trans ?_
  simp

/-- The set of `key` is full and `key` is not in it. -/
def Saturated (rt : RouteState) (key : RouteKey) : Prop :=
  routeFind rt key = none ∧ routeEmpty rt key = none

instance : Decidable (Saturated rt key) := inferInstanceAs (Decidable (_ ∧ _))

/-! ## the entry written by an insert -/

theorem RouteState.setEntry_table (set w set' w' : Nat) (e : RouteEntry) :
    (rt.setEntry set w e).table set' w' =
      if set' = set ∧ w' = w then e else rt.table set' w' := by
  unfold RouteState.setEntry
  by_cases hs : set' = set
  · subst hs
    by_cases hw : w' = w
    · subst hw; simp
    · simp [hw]
  · simp [hs]

/-- The entry a new flow gets: its key, and both counters at zero. -/
theorem routeInsert_table (hint : Option Nat) :
    ∃ e : RouteEntry, e.valid = true ∧ e.key = key ∧ (∀ dir, e.udpTxSeq dir = 0) ∧
      (routeInsert rt key hint way).2.table =
        (rt.setEntry (routeSet key) way e).table := by
  exact ⟨_, rfl, rfl, fun _ => rfl, rfl⟩

section Insert

variable (hfind : routeFind rt key = none) (hempty : routeEmpty rt key = some way)
  (hint : Option Nat)

include hfind hempty

/-- The new entry is found. -/
theorem routeFind_insert : routeFind (routeInsert rt key hint way).2 key = some way := by
  obtain ⟨e, hv, hk, -, htab⟩ := @routeInsert_table rt key way hint
  obtain ⟨hlt, -⟩ := routeEmpty_eq_some hempty
  have hnone := findWay_eq_none_iff.mp (routeFind_eq_findWay ▸ hfind)
  refine findWay_eq_of_unique hlt ?_ ?_
  · simp [htab, RouteState.setEntry_table, hv, hk]
  · intro i hi hp
    by_contra hne
    have hold := hnone i hi
    simp only [htab, RouteState.setEntry_table, hne, and_false, if_false] at hp
    rw [RouteState.holds, hp] at hold
    cases hold

omit hfind in
/-- Other flows keep their ways, with all that these hold. -/
theorem routeFind_insert_of_ne (hne : key' ≠ key) :
    routeFind (routeInsert rt key hint way).2 key' = routeFind rt key' := by
  obtain ⟨e, hv, hk, -, htab⟩ := @routeInsert_table rt key way hint
  obtain ⟨-, hfree⟩ := routeEmpty_eq_some hempty
  refine findWay_congr fun i _ => ?_
  rw [htab, RouteState.setEntry_table]
  split_ifs with h
  · rw [h.1, h.2, hfree, hk]
    simp [Ne.symm hne]
  · rfl

omit hfind in
/-- An insert overwrites no valid entry. -/
theorem routeInsert_of_valid {s w : Nat} (hv : (rt.table s w).valid = true) :
    (routeInsert rt key hint way).2.table s w = rt.table s w := by
  obtain ⟨e, -, -, -, htab⟩ := @routeInsert_table rt key way hint
  obtain ⟨-, hfree⟩ := routeEmpty_eq_some hempty
  rw [htab, RouteState.setEntry_table, if_neg]
  rintro ⟨rfl, rfl⟩
  rw [hfree] at hv
  cases hv

omit hfind in
/-- A saturated set is no place for an insert, and stays saturated. -/
theorem Saturated.insert (hsat : Saturated rt key') :
    Saturated (routeInsert rt key hint way).2 key' := by
  have hne : key' ≠ key := by
    rintro rfl
    rw [hsat.2] at hempty
    cases hempty
  refine ⟨(routeFind_insert_of_ne hempty hint hne).trans hsat.1, ?_⟩
  rw [routeEmpty_eq_none_iff]
  intro w hw
  have hv := routeEmpty_eq_none_iff.mp hsat.2 w hw
  rw [routeInsert_of_valid hempty hint hv, hv]

end Insert

/-! ## calls -/

/-- What a call does to the table: nothing, or it inserts a flow that was not
there. -/
theorem dpFlowRouteGet_cases (rt : RouteState) (pkt : Mem) (len : Nat) (hint : Option Nat) :
    (dpFlowRouteGet rt pkt len hint).2 = rt ∨
      ∃ key way, dpRouteKeyParse pkt len = some key ∧ routeFind rt key = none ∧
        routeEmpty rt key = some way ∧
        (dpFlowRouteGet rt pkt len hint).2 = (routeInsert rt key hint way).2 := by
  unfold dpFlowRouteGet
  cases hkey : dpRouteKeyParse pkt len with
  | none => exact .inl rfl
  | some key =>
      simp only [dpFlowRouteGetKey]
      cases hfind : routeFind rt key with
      | some way => exact .inl rfl
      | none =>
          cases hempty : routeEmpty rt key with
          | none => exact .inl rfl
          | some way => exact .inr ⟨key, way, rfl, hfind, hempty, rfl⟩

/-! ## drawing a number from an entry -/

theorem routeBumpSeq_table (set w set' w' : Nat) (dir : Bool) :
    ((routeBumpSeq rt set w dir).2.table set' w').valid = (rt.table set' w').valid ∧
      ((routeBumpSeq rt set w dir).2.table set' w').key = (rt.table set' w').key := by
  simp only [routeBumpSeq, RouteState.setEntry_table]
  split_ifs with h
  · rw [h.1, h.2]; exact ⟨rfl, rfl⟩
  · exact ⟨rfl, rfl⟩

/-- Drawing moves no entry. -/
theorem routeFind_bump (set w : Nat) (dir : Bool) :
    routeFind (routeBumpSeq rt set w dir).2 key = routeFind rt key := by
  refine findWay_congr fun i _ => ?_
  rw [(routeBumpSeq_table set w _ i dir).1, (routeBumpSeq_table set w _ i dir).2]

theorem routeEmpty_bump (set w : Nat) (dir : Bool) :
    routeEmpty (routeBumpSeq rt set w dir).2 key = routeEmpty rt key := by
  refine findWay_congr fun i _ => ?_
  rw [(routeBumpSeq_table set w _ i dir).1]

end Table

end NetworkEncryptor
