import Proveno.Types.Value

/-!
Floor division and modulo on 64-bit integers. The machine divides towards zero; `luaIdiv` and
`luaMod` correct its results by sign tests. Both are compared with the exact floored quotient and
remainder, and with a reading in which a zero divisor panics.
-/

namespace Proveno

/-- The sign test after a division: the remainder is not on the divisor's side. -/
def Overshoots (r b : Int) : Prop :=
  r ≠ 0 ∧ (decide (r < 0) != decide (b < 0)) = true

instance (r b : Int) : Decidable (Overshoots r b) :=
  inferInstanceAs (Decidable (_ ∧ _))

theorem overshoots_iff (r b : Int) : Overshoots r b ↔ (r < 0 ∧ 0 ≤ b) ∨ (0 < r ∧ b < 0) := by
  unfold Overshoots
  by_cases hr : r < 0 <;> by_cases hb : b < 0 <;> simp [hr, hb] <;> omega

theorem tmod_bounds (a b : Int) (hb : b ≠ 0) :
    (a.tmod b).natAbs < b.natAbs := by
  rw [Int.natAbs_tmod]
  exact Nat.mod_lt _ (Int.natAbs_pos.mpr hb)

theorem floored_of_overshoots (a b : Int) (hb : b ≠ 0) (h : Overshoots (a.tmod b) b) :
    a.fdiv b = a.tdiv b - 1 ∧ a.fmod b = a.tmod b + b := by
  have hsum : a.tmod b + b * a.tdiv b = a := Int.tmod_add_mul_tdiv a b
  have hsize := tmod_bounds a b hb
  have hmoved : a.tmod b + b + b * (a.tdiv b - 1) = a := by
    rw [Int.mul_sub, Int.mul_one]
    omega
  rcases (overshoots_iff _ _).mp h with ⟨hr, hpos⟩ | ⟨hr, hneg⟩
  · exact (Int.fdiv_fmod_unique (by omega)).mpr ⟨hmoved, by omega, by omega⟩
  · exact (Int.fdiv_fmod_unique' hneg).mpr ⟨hmoved, by omega, by omega⟩

theorem floored_of_not_overshoots (a b : Int) (hb : b ≠ 0) (h : ¬ Overshoots (a.tmod b) b) :
    a.fdiv b = a.tdiv b ∧ a.fmod b = a.tmod b := by
  have hsum : a.tmod b + b * a.tdiv b = a := Int.tmod_add_mul_tdiv a b
  have hsize := tmod_bounds a b hb
  rw [overshoots_iff] at h
  rcases Int.lt_or_gt_of_ne hb with hneg | hpos
  · exact (Int.fdiv_fmod_unique' hneg).mpr ⟨hsum, by omega, by omega⟩
  · exact (Int.fdiv_fmod_unique hpos).mpr ⟨hsum, by omega, by omega⟩

theorem fmod_side (a b : Int) (hb : b ≠ 0) :
    (a.fmod b = 0 ∨ (a.fmod b < 0 ↔ b < 0)) ∧ (a.fmod b).natAbs < b.natAbs := by
  rcases Int.lt_or_gt_of_ne hb with hneg | hpos
  · obtain ⟨-, hlow, hhigh⟩ := (Int.fdiv_fmod_unique' (a := a) hneg).mp ⟨rfl, rfl⟩
    exact ⟨by omega, by omega⟩
  · obtain ⟨-, hlow, hhigh⟩ := (Int.fdiv_fmod_unique (a := a) hpos).mp ⟨rfl, rfl⟩
    exact ⟨by omega, by omega⟩

/-- A computation that may panic, and otherwise ends in a value or an error. -/
abbrev Panicking (α : Type) := ExceptT LuaError Option α

def panic {α : Type} : Panicking α := ExceptT.mk none

/-- `i64::wrapping_div`. -/
def wrappingDiv (a b : Int64) : Panicking Int64 :=
  if b = 0 then panic else pure (a / b)

/-- `i64::wrapping_rem`. -/
def wrappingRem (a b : Int64) : Panicking Int64 :=
  if b = 0 then panic else pure (a % b)

theorem overshoots_toInt (r b : Int64) :
    (r ≠ 0 ∧ (decide (r < 0) != decide (b < 0)) = true) ↔ Overshoots r.toInt b.toInt := by
  have hzero : r = 0 ↔ r.toInt = 0 := by
    rw [← Int64.toInt_inj, Int64.toInt_zero]
  simp only [Overshoots, Ne, hzero, Int64.lt_iff_toInt_lt, Int64.toInt_zero]

theorem ofInt_tdiv_toInt (a b : Int64) : Int64.ofInt (a.toInt.tdiv b.toInt) = a / b := by
  rw [← Int64.toInt_inj, Int64.toInt_ofInt, Int64.toInt_div]

theorem ofInt_tmod_toInt (a b : Int64) : Int64.ofInt (a.toInt.tmod b.toInt) = a % b := by
  rw [← Int64.toInt_mod, Int64.ofInt_toInt]

theorem toInt_ofInt_fmod (a b : Int64) (hb : b ≠ 0) :
    (Int64.ofInt (a.toInt.fmod b.toInt)).toInt = a.toInt.fmod b.toInt := by
  have hne : b.toInt ≠ 0 := fun h => hb (Int64.toInt_inj.mp h)
  obtain ⟨hside, hsize⟩ := fmod_side a.toInt b.toInt hne
  have hlow := b.le_toInt
  have hhigh := b.toInt_lt
  apply Int64.toInt_ofInt_of_le <;> omega

namespace LuaValue

theorem luaIdiv_integers (a b : Int64) (hb : b ≠ 0) :
    luaIdiv (integer a) (integer b) =
      .ok (integer (Int64.ofInt (a.toInt.fdiv b.toInt))) := by
  have hne : b.toInt ≠ 0 := fun h => hb (Int64.toInt_inj.mp h)
  have hread : luaIdiv (integer a) (integer b) =
      if a % b ≠ 0 ∧ (decide (a % b < 0) != decide (b < 0)) = true
      then .ok (integer (a / b - 1)) else .ok (integer (a / b)) := if_neg hb
  rw [hread]
  split
  · next h =>
    rw [overshoots_toInt, Int64.toInt_mod] at h
    rw [(floored_of_overshoots _ _ hne h).1, Int64.ofInt_sub, ofInt_tdiv_toInt]
    rfl
  · next h =>
    rw [overshoots_toInt, Int64.toInt_mod] at h
    rw [(floored_of_not_overshoots _ _ hne h).1, ofInt_tdiv_toInt]

theorem luaMod_integers (a b : Int64) (hb : b ≠ 0) :
    luaMod (integer a) (integer b) =
      .ok (integer (Int64.ofInt (a.toInt.fmod b.toInt))) := by
  have hne : b.toInt ≠ 0 := fun h => hb (Int64.toInt_inj.mp h)
  have hread : luaMod (integer a) (integer b) =
      if a % b ≠ 0 ∧ (decide (a % b < 0) != decide (b < 0)) = true
      then .ok (integer (a % b + b)) else .ok (integer (a % b)) := if_neg hb
  rw [hread]
  split
  · next h =>
    rw [overshoots_toInt, Int64.toInt_mod] at h
    rw [(floored_of_overshoots _ _ hne h).2, Int64.ofInt_add, ofInt_tmod_toInt, Int64.ofInt_toInt]
  · next h =>
    rw [overshoots_toInt, Int64.toInt_mod] at h
    rw [(floored_of_not_overshoots _ _ hne h).2, ofInt_tmod_toInt]

/-- `luaIdiv` with the panic of its divisions. -/
def luaIdivPanicking (a b : LuaValue) : Panicking LuaValue := do
  let x ← liftExcept a.asInteger
  let y ← liftExcept b.asInteger
  if y = 0 then throw .runtime
  else
    let d ← wrappingDiv x y
    let r ← wrappingRem x y
    if r ≠ 0 ∧ (decide (r < 0) != decide (y < 0)) then pure (integer (d - 1))
    else pure (integer d)

/-- `luaMod` with the panic of its division. -/
def luaModPanicking (a b : LuaValue) : Panicking LuaValue := do
  let x ← liftExcept a.asInteger
  let y ← liftExcept b.asInteger
  if y = 0 then throw .runtime
  else
    let r ← wrappingRem x y
    if r ≠ 0 ∧ (decide (r < 0) != decide (y < 0)) then pure (integer (r + y))
    else pure (integer r)

theorem luaIdivPanicking_eq (a b : LuaValue) :
    luaIdivPanicking a b = ExceptT.mk (some (luaIdiv a b)) := by
  cases a with
  | integer x =>
    cases b with
    | integer y =>
      by_cases hy : y = 0
      · subst hy
        rfl
      · have hquotient : wrappingDiv x y = pure (x / y) := if_neg hy
        have hremainder : wrappingRem x y = pure (x % y) := if_neg hy
        have hleft : luaIdivPanicking (integer x) (integer y) = _ := if_neg hy
        have hright : luaIdiv (integer x) (integer y) = _ := if_neg hy
        rw [hleft, hright, hquotient, hremainder]
        simp only [pure_bind]
        split <;> rfl
    | _ => rfl
  | _ => rfl

theorem luaModPanicking_eq (a b : LuaValue) :
    luaModPanicking a b = ExceptT.mk (some (luaMod a b)) := by
  cases a with
  | integer x =>
    cases b with
    | integer y =>
      by_cases hy : y = 0
      · subst hy
        rfl
      · have hremainder : wrappingRem x y = pure (x % y) := if_neg hy
        have hleft : luaModPanicking (integer x) (integer y) = _ := if_neg hy
        have hright : luaMod (integer x) (integer y) = _ := if_neg hy
        rw [hleft, hright, hremainder]
        simp only [pure_bind]
        split <;> rfl
    | _ => rfl
  | _ => rfl

/-- The quotient is the floor wrapped to 64 bits, the remainder the exact floored one, and no
operands make either operation panic. -/
theorem floored_division_law :
    (∀ a b : Int64, b ≠ 0 → ∃ q r : Int64,
      luaIdiv (integer a) (integer b) = .ok (integer q) ∧
      luaMod (integer a) (integer b) = .ok (integer r) ∧
      q = Int64.ofInt (a.toInt.fdiv b.toInt) ∧
      a = q * b + r ∧
      r.toInt = a.toInt.fmod b.toInt ∧
      (r = 0 ∨ (r < 0 ↔ b < 0)) ∧
      r.toInt.natAbs < b.toInt.natAbs) ∧
    ∀ x y : LuaValue,
      luaIdivPanicking x y = ExceptT.mk (some (luaIdiv x y)) ∧
      luaModPanicking x y = ExceptT.mk (some (luaMod x y)) := by
  refine ⟨?_, fun x y => ⟨luaIdivPanicking_eq x y, luaModPanicking_eq x y⟩⟩
  intro a b hb
  have hne : b.toInt ≠ 0 := fun h => hb (Int64.toInt_inj.mp h)
  have hexact := toInt_ofInt_fmod a b hb
  obtain ⟨hside, hsize⟩ := fmod_side a.toInt b.toInt hne
  refine ⟨_, _, luaIdiv_integers a b hb, luaMod_integers a b hb, rfl, ?_, hexact, ?_, ?_⟩
  · calc a = Int64.ofInt (a.toInt.fdiv b.toInt * b.toInt + a.toInt.fmod b.toInt) := by
          rw [Int.mul_comm, Int.mul_fdiv_add_fmod, Int64.ofInt_toInt]
      _ = _ := by rw [Int64.ofInt_add, Int64.ofInt_mul, Int64.ofInt_toInt]
  · rw [← Int64.toInt_inj, Int64.lt_iff_toInt_lt, Int64.lt_iff_toInt_lt, hexact]
    exact hside
  · rw [hexact]
    exact hsize

theorem floored_division_law_minValue : ∃ q r : Int64,
    luaIdiv (integer Int64.minValue) (integer (-1)) = .ok (integer q) ∧
    luaMod (integer Int64.minValue) (integer (-1)) = .ok (integer r) ∧
    q = Int64.ofInt (Int64.minValue.toInt.fdiv (-1 : Int64).toInt) ∧
    Int64.minValue = q * (-1) + r ∧
    r.toInt = Int64.minValue.toInt.fmod (-1 : Int64).toInt ∧
    (r = 0 ∨ (r < 0 ↔ (-1 : Int64) < 0)) ∧
    r.toInt.natAbs < (-1 : Int64).toInt.natAbs :=
  floored_division_law.1 Int64.minValue (-1) (by decide)

end LuaValue

end Proveno
