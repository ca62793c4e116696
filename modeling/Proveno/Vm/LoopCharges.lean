import Proveno.Vm.ListOperations
import Proveno.Vm.Strings

/-! What the loops of `unpack`, `table.move` and `string.rep` cost. The gas for a loop is
charged before it begins, and computed by machine arithmetic from its bounds. -/

namespace Proveno

open Target (toU64 rangeCount)

namespace Vm

/-- The element count of `unpack`, once the gas for the loop is charged. -/
def payUnpack (tgt : Target) (i j : Int64) : Vm Nat := do
  let span ← orPanic (tgt.checkedI64 (j.toInt - i.toInt))
  let count := toU64 (← orPanic (tgt.checkedI64 (span.toInt + 1)))
  let double ← orPanic (tgt.checkedU64 (count * 2))
  charge (← orPanic (tgt.checkedU64 (1 + double)))
  pure count

def unpackLoop (tgt : Target) (t : TableRef) (i j : Int64) (count : Nat) :
    Vm (List LuaValue) := do
  orPanic (tgt.withCapacity (count % 2 ^ tgt.wordBits))
  orPanic (tgt.withCapacity (rangeCount i j))
  pure (valuesFrom (← getTable t) i (rangeCount i j))

def payMove (tgt : Target) (f e : Int64) : Vm Unit := do
  let span ← orPanic (tgt.checkedI64 (e.toInt - f.toInt))
  charge (toU64 (← orPanic (tgt.checkedI64 (span.toInt + 1))))

def moveLoop (tgt : Target) (a a2 : TableRef) (f e tPos : Int64) : Vm Unit := do
  orPanic (tgt.withCapacity (rangeCount f e))
  moveValues a2 tPos 0 (valuesFrom (← getTable a) f (rangeCount f e))

def payRep (tgt : Target) (s : Bytes) (n : Nat) : Vm Unit := do
  let resultLen := min (s.length * n) (2 ^ tgt.wordBits - 1)
  liftError (checkStringLen resultLen)
  charge (s.length * n)
  trackAlloc (AllocSize.string resultLen)

/-- A call of one of the three, with its arguments. -/
inductive LoopCall
  | unpack (t : TableRef) (i j : Int64)
  | move (a : TableRef) (f e tPos : Int64) (a2 : Option TableRef)
  | rep (s : Bytes) (n : Int64)

namespace LoopCall

def call : LoopCall → Vm (List LuaValue)
  | unpack t i j => Vm.unpack [.table t, .integer i, .integer j]
  | move a f e tPos a2 => tableMove ([.table a, .integer f, .integer e, .integer tPos] ++
      (a2.map LuaValue.table).toList)
  | rep s n => stringRep [.string s, .integer n]

/-- The part of the call before the loop. -/
def pay (tgt : Target) : LoopCall → Vm Unit
  | unpack _ i j => do let _ ← payUnpack tgt i j
  | move _ f e _ _ => payMove tgt f e
  | rep s n => payRep tgt s (tgt.toUsize n)

/-- How many turns the loop is given. -/
def turns (tgt : Target) : LoopCall → Nat
  | unpack _ i j => rangeCount i j
  | move _ f e _ _ => rangeCount f e
  | rep _ n => if n.toInt ≤ 0 then 0 else tgt.toUsize n

end LoopCall

theorem run_unpack (t : TableRef) (i j : Int64) (c : Core) :
    (unpack [.table t, .integer i, .integer j]).run c =
      (if i.toInt > j.toInt then pure []
        else payUnpack c.target i j >>= unpackLoop c.target t i j : Vm (List LuaValue)).run c := by
  have hrun : unpack [.table t, .integer i, .integer j] = getTable t >>= fun _ =>
    (if i.toInt > j.toInt then pure []
    else do
      let tgt ← getTarget
      let span ← orPanic (tgt.checkedI64 (j.toInt - i.toInt))
      let count := toU64 (← orPanic (tgt.checkedI64 (span.toInt + 1)))
      let double ← orPanic (tgt.checkedU64 (count * 2))
      charge (← orPanic (tgt.checkedU64 (1 + double)))
      unpackLoop tgt t i j count) := rfl
  have hread : (getTable t).run c = (.ok (c.heap.table t), c) := rfl
  rw [hrun, Exec.run_bind_ok hread]
  split_ifs
  · rfl
  · rw [Exec.run_bind_ok (run_getTarget c)]
    simp only [payUnpack, Exec.bind_assoc, Exec.pure_bind]

theorem run_move (a : TableRef) (f e tPos : Int64) (a2 : Option TableRef) (c : Core) :
    (LoopCall.move a f e tPos a2).call.run c =
      (if f.toInt > e.toInt then pure (a2.map LuaValue.table).toList
        else do
          payMove c.target f e
          moveLoop c.target a (a2.getD a) f e tPos
          pure (a2.map LuaValue.table).toList : Vm (List LuaValue)).run c := by
  have hrun : (LoopCall.move a f e tPos a2).call =
    (if f.toInt > e.toInt then pure (a2.map LuaValue.table).toList
    else do
      let tgt ← getTarget
      let span ← orPanic (tgt.checkedI64 (e.toInt - f.toInt))
      charge (toU64 (← orPanic (tgt.checkedI64 (span.toInt + 1))))
      orPanic (tgt.withCapacity (rangeCount f e))
      moveValues (a2.getD a) tPos 0 (valuesFrom (← getTable a) f (rangeCount f e))
      pure (a2.map LuaValue.table).toList) := by
    cases a2 <;> rfl
  rw [hrun]
  split_ifs
  · rfl
  · rw [Exec.run_bind_ok (run_getTarget c)]
    simp only [payMove, moveLoop, Exec.bind_assoc]

theorem run_rep (s : Bytes) (n : Int64) (c : Core) :
    (stringRep [.string s, .integer n]).run c =
      (if n.toInt ≤ 0 then pure [.string []]
        else do
          payRep c.target s (c.target.toUsize n)
          pure [.string (List.replicate (c.target.toUsize n) s).flatten] :
            Vm (List LuaValue)).run c := by
  have hrun : stringRep [.string s, .integer n] =
    (if n.toInt ≤ 0 then pure [.string []]
    else do repeated s ((← getTarget).toUsize n)) := rfl
  rw [hrun]
  split_ifs
  · rfl
  · rw [Exec.run_bind_ok (run_getTarget c)]
    simp only [repeated, payRep, Exec.bind_assoc]
    rw [Exec.run_bind_ok (run_getTarget c)]

/-- What the gas that a call charges promises. On a machine that stops at every overflow,
whose vectors have room for as much as gas can pay for, the call does not panic, and its
loop has no more turns than the gas charged for it. -/
structure Paid (c : Core) (l : LoopCall) : Prop where
  exact : ∀ tgt : Target, tgt.overflowChecks = true → c.gas.remaining ≤ tgt.maxElements →
    (l.call.run { c with target := tgt }).1 ≠ .error .panicked
  product : ∀ s n c', l = .rep s n → (l.pay c.target).run c = (.ok (), c') →
    s.length * l.turns c.target < 2 ^ c.target.wordBits
  covered : ∀ c', (l.pay c.target).run c = (.ok (), c') →
    l.turns c.target ≤ c.gas.remaining - c'.gas.remaining

/-- The writes of `table.move` from a turn on. -/
def moves (tPos : Int64) : Nat → List LuaValue → List (TableOp LuaValue)
  | _, [] => []
  | idx, v :: rest =>
    .rawset (.integer (Int64.ofInt (tPos.toInt + idx))) v :: moves tPos (idx + 1) rest

/-- Where the bounds and the state let the charge cover the loop. -/
def LoopCall.Covered (c : Core) : LoopCall → Prop
  | .unpack _ i j => i.toInt ≤ j.toInt → j.toInt - i.toInt + 1 < 2 ^ 63
  | .move a f e tPos a2 => f.toInt ≤ e.toInt → e.toInt - f.toInt + 1 < 2 ^ 63 ∧
      (c.gas.remaining < rangeCount f e ∨ tPos.toInt + (e.toInt - f.toInt) < 2 ^ 63 ∨
        (c.heap.table (a2.getD a)).runOps (moves tPos 0
          ((valuesFrom (c.heap.table a) f (rangeCount f e)).take (2 ^ 63 - tPos.toInt).toNat)) =
            none)
  | .rep s n => 0 < n.toInt → s ≠ [] ∨ c.target.toUsize n = 0 ∨
      c.mem.limit < min (c.mem.allocated + AllocSize.string 0) MemoryMeter.u64Max

/-- The table that a call writes to. -/
def LoopCall.target : LoopCall → Option TableRef
  | .move a _ _ _ a2 => some (a2.getD a)
  | _ => none

section Arithmetic

variable {tgt : Target}

theorem orPanic_some {α : Type} (a : α) : orPanic (some a) = (pure a : Vm α) := rfl

theorem checkedI64_of_fits {x : Int} (h : -2 ^ 63 ≤ x ∧ x < 2 ^ 63) :
    tgt.checkedI64 x = some (Int64.ofInt x) := by
  rw [Target.checkedI64, if_neg fun hover => hover.2 h]

theorem checkedI64_of_over {x : Int} (hchecks : tgt.overflowChecks = true) (h : 2 ^ 63 ≤ x) :
    tgt.checkedI64 x = none := by
  rw [Target.checkedI64, if_pos ⟨hchecks, fun hfits => by omega⟩]

theorem checkedU64_of_lt {x : Nat} (h : x < 2 ^ 64) : tgt.checkedU64 x = some x := by
  rw [Target.checkedU64, if_neg fun hover => hover.2 h, Nat.mod_eq_of_lt h]

theorem toU64_ofInt {x : Int} (h0 : 0 ≤ x) (h : x < 2 ^ 63) : toU64 (Int64.ofInt x) = x.toNat := by
  rw [toU64, Int64.toInt_ofInt_of_le (by omega) h, Int.emod_eq_of_lt h0 (by omega)]

variable (tgt) in
/-- The count of elements, without overflow. -/
theorem spans {i j : Int64} (hle : i.toInt ≤ j.toInt) (hcount : j.toInt - i.toInt + 1 < 2 ^ 63) :
    tgt.checkedI64 (j.toInt - i.toInt) = some (Int64.ofInt (j.toInt - i.toInt)) ∧
      tgt.checkedI64 ((Int64.ofInt (j.toInt - i.toInt)).toInt + 1) =
        some (Int64.ofInt (j.toInt - i.toInt + 1)) ∧
      toU64 (Int64.ofInt (j.toInt - i.toInt + 1)) = rangeCount i j := by
  have hspan : (Int64.ofInt (j.toInt - i.toInt)).toInt = j.toInt - i.toInt :=
    Int64.toInt_ofInt_of_le (by omega) (by omega)
  refine ⟨checkedI64_of_fits (by omega), ?_, toU64_ofInt (by omega) hcount⟩
  rw [hspan, checkedI64_of_fits (by omega)]

theorem payUnpack_exact {i j : Int64} (hle : i.toInt ≤ j.toInt)
    (hcount : j.toInt - i.toInt + 1 < 2 ^ 63) :
    payUnpack tgt i j = (do
      charge (1 + rangeCount i j * 2)
      pure (rangeCount i j)) := by
  obtain ⟨hspan, hnext, hwide⟩ := spans tgt hle hcount
  have hlt : rangeCount i j < 2 ^ 63 := by
    rw [rangeCount]
    omega
  rw [payUnpack, hspan, orPanic_some, Exec.pure_bind, hnext, orPanic_some, Exec.pure_bind, hwide]
  dsimp only
  rw [checkedU64_of_lt (by omega), orPanic_some, Exec.pure_bind, checkedU64_of_lt (by omega),
    orPanic_some, Exec.pure_bind]

theorem payMove_exact {f e : Int64} (hle : f.toInt ≤ e.toInt)
    (hcount : e.toInt - f.toInt + 1 < 2 ^ 63) : payMove tgt f e = charge (rangeCount f e) := by
  obtain ⟨hspan, hnext, hwide⟩ := spans tgt hle hcount
  rw [payMove, hspan, orPanic_some, Exec.pure_bind, hnext, orPanic_some, Exec.pure_bind, hwide]

/-- A range of 2^63 elements or more overflows in its count. -/
theorem span_over {i j : Int64} (hchecks : tgt.overflowChecks = true)
    (hcount : 2 ^ 63 ≤ j.toInt - i.toInt + 1) :
    tgt.checkedI64 (j.toInt - i.toInt) = none ∨
      tgt.checkedI64 (j.toInt - i.toInt) = some (Int64.ofInt (j.toInt - i.toInt)) ∧
        tgt.checkedI64 ((Int64.ofInt (j.toInt - i.toInt)).toInt + 1) = none := by
  by_cases hspan : 2 ^ 63 ≤ j.toInt - i.toInt
  · exact .inl (checkedI64_of_over hchecks hspan)
  · refine .inr ⟨checkedI64_of_fits (by omega), checkedI64_of_over hchecks ?_⟩
    rw [Int64.toInt_ofInt_of_le (by omega) (by omega)]
    exact hcount

theorem run_payUnpack_over {i j : Int64} (hchecks : tgt.overflowChecks = true)
    (hcount : 2 ^ 63 ≤ j.toInt - i.toInt + 1) (c : Core) :
    (payUnpack tgt i j).run c = (.error .panicked, c) := by
  rw [payUnpack]
  rcases span_over hchecks hcount with hspan | ⟨hspan, hnext⟩
  · rw [hspan]
    rfl
  · rw [hspan, orPanic_some, Exec.pure_bind, hnext]
    rfl

theorem run_payMove_over {f e : Int64} (hchecks : tgt.overflowChecks = true)
    (hcount : 2 ^ 63 ≤ e.toInt - f.toInt + 1) (c : Core) :
    (payMove tgt f e).run c = (.error .panicked, c) := by
  rw [payMove]
  rcases span_over hchecks hcount with hspan | ⟨hspan, hnext⟩
  · rw [hspan]
    rfl
  · rw [hspan, orPanic_some, Exec.pure_bind, hnext]
    rfl

end Arithmetic

section Loop

variable {c : Core} {r : TableRef}

/-- The loop of `table.move` meets an overflow when it comes past the last key, which it
does unless a write before fails. -/
theorem moveValues_panics_iff (hchecks : c.target.overflowChecks = true)
    (hr : r < c.heap.tables.length) (tPos : Int64) (vs : List LuaValue) (idx : Nat)
    (hidx : tPos.toInt + idx ≤ 2 ^ 63) :
    ((moveValues r tPos idx vs).run c).1 = .error .panicked ↔
      2 ^ 63 < tPos.toInt + idx + vs.length ∧ (c.heap.table r).runOps
        (moves tPos idx (vs.take (2 ^ 63 - tPos.toInt - idx).toNat)) ≠ none := by
  have hmin := tPos.le_toInt
  induction vs generalizing c idx with
  | nil =>
    simp only [List.length_nil]
    exact ⟨fun h => (by cases h), fun h => by omega⟩
  | cons v rest ih =>
    rw [moveValues, Exec.run_bind_ok (run_getTarget c), List.length_cons]
    by_cases hlast : tPos.toInt + idx = 2 ^ 63
    · rw [checkedI64_of_over hchecks (by omega),
        show Int.toNat (2 ^ 63 - tPos.toInt - idx) = 0 by omega]
      exact ⟨fun _ => ⟨by push_cast; omega, Option.some_ne_none _⟩, fun _ => rfl⟩
    rw [checkedI64_of_fits (by omega), orPanic_some, Exec.pure_bind,
      show Int.toNat (2 ^ 63 - tPos.toInt - idx) =
        Int.toNat (2 ^ 63 - tPos.toInt - (idx + 1 : Nat)) + 1 by omega, List.take_succ_cons, moves,
      LuaTable.runOps]
    rcases rawset_cases r (.integer (Int64.ofInt (tPos.toInt + idx))) v c with
      ⟨t', c', happly, hrun, hheap, htarget⟩ | ⟨e, t', c', happly, hrun, -⟩
    · have hr' : r < c'.heap.tables.length := by rwa [hheap, Heap.length_tables_setTable]
      have htable : c'.heap.table r = t' := by rw [hheap, Heap.table_setTable_self hr]
      have hrest := ih (c := c') (htarget ▸ hchecks) hr' (idx + 1) (by omega)
      rw [Exec.run_bind_ok hrun, happly]
      rw [htable] at hrest
      refine hrest.trans (and_congr_left fun _ => ?_)
      push_cast
      exact ⟨fun h => by omega, fun h => by omega⟩
    · rw [Exec.run_bind_error hrun, happly]
      exact ⟨fun h => (by cases h), fun h => absurd rfl h.2⟩

end Loop

section Charges

variable {c : Core} {tgt : Target}

theorem rangeCount_eq_zero {i j : Int64} (h : i.toInt > j.toInt) : rangeCount i j = 0 := by
  rw [rangeCount]
  omega

theorem withCapacity_of_le {n : Nat} (h : n ≤ tgt.maxElements) :
    tgt.withCapacity n = some () := if_pos h

/-- After a charge there is either no gas left for it, or the rest runs with less. -/
theorem run_charge_bind {α : Type} (n : Nat) (m : Vm α) (c : Core) :
    (charge n >>= fun _ => m).run c =
      if n > c.gas.remaining then
        (.error (.raised .gasExhausted), { c with gas := { c.gas with remaining := 0 } }.record
          (.fatal .gasExhausted c.heap c.logs))
      else m.run { c with gas := { c.gas with remaining := c.gas.remaining - n } } := by
  rw [Exec.run_bind, run_charge]
  split_ifs <;> rfl

theorem panicked_bind_pure {α β : Type} (m : Vm α) (b : β) (c : Core) :
    ((m >>= fun _ => pure b).run c).1 = .error .panicked ↔ (m.run c).1 = .error .panicked := by
  rw [Exec.run_bind]
  rcases m.run c with ⟨e | x, c'⟩
  · exact ⟨fun h => by cases h; rfl, fun h => by cases h; rfl⟩
  · exact ⟨nofun, nofun⟩

theorem unpack_not_panicked (t : TableRef) {i j : Int64}
    (hcount : i.toInt ≤ j.toInt → j.toInt - i.toInt + 1 < 2 ^ 63)
    (hroom : c.gas.remaining ≤ c.target.maxElements) :
    ((LoopCall.unpack t i j).call.run c).1 ≠ .error .panicked := by
  rw [LoopCall.call, run_unpack]
  by_cases hempty : i.toInt > j.toInt
  · rw [if_pos hempty]
    nofun
  rw [if_neg hempty, payUnpack_exact (by omega) (hcount (by omega)), Exec.bind_assoc,
    run_charge_bind]
  by_cases hgas : 1 + rangeCount i j * 2 > c.gas.remaining
  · rw [if_pos hgas]
    nofun
  have hmod := Nat.mod_le (rangeCount i j) (2 ^ c.target.wordBits)
  rw [if_neg hgas, Exec.pure_bind, unpackLoop, withCapacity_of_le (by omega), orPanic_some,
    Exec.pure_bind, withCapacity_of_le (by omega)]
  nofun

theorem move_panics_iff {a : TableRef} {f e tPos : Int64} {a2 : Option TableRef}
    (hr : a2.getD a < c.heap.tables.length) (hchecks : c.target.overflowChecks = true)
    (hroom : c.gas.remaining ≤ c.target.maxElements) :
    ((LoopCall.move a f e tPos a2).call.run c).1 ≠ .error .panicked ↔
      (LoopCall.move a f e tPos a2).Covered c := by
  rw [run_move, LoopCall.Covered]
  by_cases hempty : f.toInt > e.toInt
  · rw [if_pos hempty]
    exact ⟨fun _ hle => by omega, fun _ => nofun⟩
  rw [if_neg hempty, forall_prop_of_true (not_lt.mp hempty)]
  by_cases hcount : 2 ^ 63 ≤ e.toInt - f.toInt + 1
  · rw [Exec.run_bind_error (run_payMove_over hchecks hcount c)]
    exact ⟨fun h => absurd rfl h, fun h => by omega⟩
  rw [payMove_exact (not_lt.mp hempty) (not_le.mp hcount), run_charge_bind]
  by_cases hgas : rangeCount f e > c.gas.remaining
  · rw [if_pos hgas]
    exact ⟨fun _ => ⟨not_le.mp hcount, .inl hgas⟩, fun _ => nofun⟩
  have hread (c : Core) : (getTable a).run c = (.ok (c.heap.table a), c) := rfl
  rw [if_neg hgas, moveLoop, withCapacity_of_le (by omega), orPanic_some, Exec.pure_bind,
    Exec.bind_assoc, Exec.run_bind_ok (hread _), ne_eq, panicked_bind_pure]
  refine (not_congr (moveValues_panics_iff (c := { c with
    gas := { c.gas with remaining := c.gas.remaining - rangeCount f e } }) hchecks hr tPos _ 0
    (by have := tPos.toInt_lt; omega))).trans ?_
  rw [length_valuesFrom, not_and_or, not_not, not_lt]
  have hlength : (rangeCount f e : Int) = e.toInt - f.toInt + 1 := by
    rw [rangeCount]
    omega
  constructor
  · rintro (hle | hnone)
    · exact ⟨not_le.mp hcount, .inr (.inl (by omega))⟩
    · exact ⟨not_le.mp hcount, .inr (.inr (by simpa using hnone))⟩
  · rintro ⟨-, hless | hle | hnone⟩
    · exact absurd hless hgas
    · exact .inl (by omega)
    · exact .inr (by simpa using hnone)

variable (tgt c) in
theorem run_payRep (s : Bytes) (n : Nat) :
    (∃ e c', (payRep tgt s n).run c = (.error (.raised e), c') ∧
      (s = [] → c.mem.limit < min (c.mem.allocated + AllocSize.string 0) MemoryMeter.u64Max)) ∨
    ∃ c', (payRep tgt s n).run c = (.ok (), c') ∧
      min (s.length * n) (2 ^ tgt.wordBits - 1) ≤ maxStringLen ∧
      c'.gas.remaining + s.length * n = c.gas.remaining ∧
      (s = [] → min (c.mem.allocated + AllocSize.string 0) MemoryMeter.u64Max ≤ c.mem.limit) := by
  rw [payRep]
  by_cases hlen : min (s.length * n) (2 ^ tgt.wordBits - 1) > maxStringLen
  · refine .inl ⟨_, _, by rw [checkStringLen, if_pos hlen]; rfl, ?_⟩
    rintro rfl
    simp at hlen
  rw [checkStringLen, if_neg hlen, liftError_ok, Exec.pure_bind, run_charge_bind]
  by_cases hgas : s.length * n > c.gas.remaining
  · refine .inl ⟨_, _, by rw [if_pos hgas], ?_⟩
    rintro rfl
    simp at hgas
  rw [if_neg hgas, run_trackAlloc]
  dsimp only
  by_cases hmem : min (c.mem.allocated + AllocSize.string
      (min (s.length * n) (2 ^ tgt.wordBits - 1))) MemoryMeter.u64Max > c.mem.limit
  · refine .inl ⟨_, _, by rw [if_pos hmem], ?_⟩
    rintro rfl
    simpa using hmem
  · refine .inr ⟨_, by rw [if_neg hmem], not_lt.mp hlen, ?_, ?_⟩
    · simp only
      omega
    · rintro rfl
      rw [List.length_nil, Nat.zero_mul, Nat.zero_min] at hmem
      exact not_lt.mp hmem

theorem rep_not_panicked (s : Bytes) (n : Int64) :
    ((LoopCall.rep s n).call.run c).1 ≠ .error .panicked := by
  rw [LoopCall.call, run_rep]
  split_ifs
  · nofun
  rw [ne_eq, panicked_bind_pure]
  rcases run_payRep c c.target s (c.target.toUsize n) with
    ⟨e, c', hrun, -⟩ | ⟨c', hrun, -⟩
  · rw [hrun]
    nofun
  · rw [hrun]
    nofun

/-- Below the limit on strings the length of the result is exact. -/
theorem product_exact (hbits : 32 ≤ tgt.wordBits) {len : Nat}
    (h : min len (2 ^ tgt.wordBits - 1) ≤ maxStringLen) : len < 2 ^ tgt.wordBits := by
  have hmax : maxStringLen = 65536 := rfl
  have hpow : 2 ^ 32 ≤ 2 ^ tgt.wordBits := Nat.pow_le_pow_right (by omega) hbits
  omega

/-- As `c`, on a machine that stops at every overflow. -/
def checkedCore (c : Core) : Core :=
  { c with target := { c.target with overflowChecks := true, maxElements := c.gas.remaining } }

theorem unpack_paid_iff (t : TableRef) (i j : Int64) :
    Paid c (.unpack t i j) ↔ (LoopCall.unpack t i j).Covered c := by
  constructor
  · intro hpaid hle
    by_contra hcount
    refine hpaid.exact (checkedCore c).target rfl le_rfl ?_
    rw [LoopCall.call, run_unpack, if_neg (not_lt.mpr hle),
      Exec.run_bind_error (run_payUnpack_over rfl (not_lt.mp hcount) _)]
  · intro hcovered
    refine ⟨fun tgt _ hroom => unpack_not_panicked t hcovered hroom, nofun, fun c' hpay => ?_⟩
    rw [LoopCall.turns]
    by_cases hempty : i.toInt > j.toInt
    · rw [rangeCount_eq_zero hempty]
      exact Nat.zero_le _
    rw [LoopCall.pay, payUnpack_exact (not_lt.mp hempty) (hcovered (not_lt.mp hempty)),
      Exec.bind_assoc, run_charge_bind] at hpay
    split_ifs at hpay with hgas
    · cases hpay
    · cases hpay
      dsimp only
      omega

theorem move_paid_iff {a : TableRef} {f e tPos : Int64} {a2 : Option TableRef}
    (hr : a2.getD a < c.heap.tables.length) :
    Paid c (.move a f e tPos a2) ↔ (LoopCall.move a f e tPos a2).Covered c := by
  constructor
  · intro hpaid
    exact (move_panics_iff (c := checkedCore c) hr rfl le_rfl).mp
      (hpaid.exact (checkedCore c).target rfl le_rfl)
  · intro hcovered
    refine ⟨fun tgt hchecks hroom => ?_, nofun, fun c' hpay => ?_⟩
    · exact (move_panics_iff (c := { c with target := tgt }) hr hchecks hroom).mpr hcovered
    rw [LoopCall.turns]
    by_cases hempty : f.toInt > e.toInt
    · rw [rangeCount_eq_zero hempty]
      exact Nat.zero_le _
    rw [LoopCall.pay, payMove_exact (not_lt.mp hempty) (hcovered (not_lt.mp hempty)).1,
      run_charge] at hpay
    split_ifs at hpay with hgas
    · cases hpay
    · cases hpay
      dsimp only
      omega

theorem rep_paid_iff (hbits : 32 ≤ c.target.wordBits) (s : Bytes) (n : Int64) :
    Paid c (.rep s n) ↔ (LoopCall.rep s n).Covered c := by
  have hpay := run_payRep c c.target s (c.target.toUsize n)
  constructor
  · intro hpaid hpos
    by_contra hnot
    simp only [not_or, not_not, not_lt] at hnot
    obtain ⟨rfl, hturns, hmem⟩ := hnot
    rcases hpay with ⟨e, c', -, hover⟩ | ⟨c', hrun, -, hgas, -⟩
    · exact absurd (hover rfl) (not_lt.mpr hmem)
    · have hcovered := hpaid.covered c' hrun
      rw [LoopCall.turns, if_neg (not_le.mpr hpos)] at hcovered
      rw [List.length_nil] at hgas
      omega
  · intro hcovered
    refine ⟨fun tgt _ _ => rep_not_panicked s n, fun s' n' c' heq hrun => ?_, fun c' hrun => ?_⟩
    · cases heq
      rcases hpay with ⟨e, c'', hrun', -⟩ | ⟨c'', hrun', hlen, -⟩
      · rw [LoopCall.pay, hrun'] at hrun
        cases hrun
      · have hexact := product_exact hbits hlen
        rw [LoopCall.turns]
        split_ifs
        · exact Nat.two_pow_pos _
        · exact hexact
    · rw [LoopCall.turns]
      split_ifs with hpos
      · exact Nat.zero_le _
      rcases hpay with ⟨e, c'', hrun', -⟩ | ⟨c'', hrun', -, hgas, hmem⟩
      · rw [LoopCall.pay, hrun'] at hrun
        cases hrun
      · rw [LoopCall.pay, hrun'] at hrun
        cases hrun
        rcases hcovered (not_le.mp hpos) with hne | hzero | hover
        · have hlen : 1 ≤ s.length := List.length_pos_iff.mpr hne
          have hmul := Nat.mul_le_mul_right (c.target.toUsize n) hlen
          omega
        · rw [hzero]
          exact Nat.zero_le _
        · by_cases hs : s = []
          · exact absurd hover (not_lt.mpr (hmem hs))
          · have hlen : 1 ≤ s.length := List.length_pos_iff.mpr hs
            have hmul := Nat.mul_le_mul_right (c.target.toUsize n) hlen
            omega

end Charges

/-- The gas for a loop is computed without overflow and covers its turns exactly where the
bounds and the state let it. -/
theorem loopCall_paid_iff {c : Core} (hbits : 32 ≤ c.target.wordBits) (l : LoopCall)
    (hlive : ∀ r ∈ l.target, r < c.heap.tables.length) : Paid c l ↔ l.Covered c := by
  cases l with
  | unpack t i j => exact unpack_paid_iff t i j
  | move a f e tPos a2 => exact move_paid_iff (hlive _ rfl)
  | rep s n => exact rep_paid_iff hbits s n

theorem loopCall_paid_iff_unpackThree :
    Paid tenTwentyCore (.unpack 0 1 3) ↔ (LoopCall.unpack 0 1 3).Covered tenTwentyCore :=
  loopCall_paid_iff (by decide) _ (by simp [LoopCall.target])

/-- A thousand repetitions of the empty string are free. -/
theorem emptyRep_not_paid : ¬∀ (c : Core) (l : LoopCall), Paid c l := by
  intro hall
  have hcovered := (rep_paid_iff (c := tenTwentyCore) (by decide) [] 1000).mp (hall _ _)
  have hfree : ¬([] ≠ ([] : Bytes) ∨ tenTwentyCore.target.toUsize 1000 = 0 ∨
    tenTwentyCore.mem.limit < min (tenTwentyCore.mem.allocated + AllocSize.string 0)
      MemoryMeter.u64Max) := by decide
  exact hfree (hcovered (by decide))

end Vm

end Proveno
