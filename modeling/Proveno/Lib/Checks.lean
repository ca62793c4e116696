import Mathlib.Tactic.Basic

/-! A list of checks made in order, which ends at the first that fails. -/

namespace Checks

variable {α ε : Type} {check : α → Except ε Unit}

theorem forM_nil : ([] : List α).forM check = .ok () := rfl

theorem forM_cons (x : α) (xs : List α) :
    (x :: xs).forM check = check x >>= fun _ => xs.forM check := rfl

theorem forM_eq_ok_iff {xs : List α} : xs.forM check = .ok () ↔ ∀ x ∈ xs, check x = .ok () := by
  induction xs with
  | nil => simp [forM_nil]
  | cons x xs ih =>
    rw [forM_cons]
    cases hx : check x with
    | error e => simp [bind, Except.bind, hx]
    | ok u =>
      cases u
      simpa [bind, Except.bind, hx] using ih

/-- The error is that of the first check that fails. -/
theorem forM_eq_error_iff {xs : List α} {e : ε} :
    xs.forM check = .error e ↔
      ∃ (i : Nat) (x : α), xs[i]? = some x ∧ check x = .error e ∧
        ∀ j < i, ∀ y, xs[j]? = some y → check y = .ok () := by
  induction xs with
  | nil => simp [forM_nil]
  | cons x xs ih =>
    rw [forM_cons]
    cases hx : check x with
    | error f =>
      constructor
      · intro h
        obtain rfl : f = e := Except.error.inj h
        exact ⟨0, x, rfl, hx, by simp⟩
      · rintro ⟨i, y, hy, hcheck, hbefore⟩
        cases i with
        | zero =>
          obtain rfl : x = y := by simpa using hy
          rw [hx] at hcheck
          exact hcheck
        | succ i =>
          have := hbefore 0 (Nat.succ_pos i) x rfl
          rw [hx] at this
          cases this
    | ok u =>
      cases u
      refine ih.trans ⟨?_, ?_⟩
      · rintro ⟨i, y, hy, hcheck, hbefore⟩
        refine ⟨i + 1, y, hy, hcheck, fun j hj z hz => ?_⟩
        cases j with
        | zero =>
          obtain rfl : x = z := by simpa using hz
          exact hx
        | succ j => exact hbefore j (Nat.lt_of_succ_lt_succ hj) z hz
      · rintro ⟨i, y, hy, hcheck, hbefore⟩
        cases i with
        | zero =>
          obtain rfl : x = y := by simpa using hy
          rw [hx] at hcheck
          cases hcheck
        | succ i =>
          exact ⟨i, y, hy, hcheck, fun j hj z hz => hbefore (j + 1) (Nat.succ_lt_succ hj) z hz⟩

end Checks
