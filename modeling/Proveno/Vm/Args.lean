import Proveno.Vm.Core

/-! What the builtins share: reading arguments, and machine arithmetic that
depends on how the runtime was built. -/

namespace Proveno

namespace Target

/-- `i as usize`. -/
def toUsize (tgt : Target) (i : Int64) : Nat := (i.toInt % 2 ^ tgt.wordBits).toNat

/-- An `i64` result, which panics or wraps when it is out of range. -/
def checkedI64 (tgt : Target) (exact : Int) : Option Int64 :=
  if tgt.overflowChecks ∧ ¬(-2 ^ 63 ≤ exact ∧ exact < 2 ^ 63) then none
  else some (Int64.ofInt exact)

def checkedU64 (tgt : Target) (exact : Nat) : Option Nat :=
  if tgt.overflowChecks ∧ ¬exact < 2 ^ 64 then none else some (exact % 2 ^ 64)

/-- `Vec::with_capacity`. -/
def withCapacity (tgt : Target) (n : Nat) : Option Unit :=
  if n ≤ tgt.maxElements then some () else none

/-- Growing a vector to so many bytes. -/
def growBytes (tgt : Target) (n : Nat) : Option Unit :=
  if n < 2 ^ (tgt.wordBits - 1) then some () else none

end Target

namespace Vm

def maxStringLen : Nat := 65536

def getTarget : Vm Target := ⟨fun s => (.ok s.target, s)⟩

@[simp] theorem run_getTarget (c : Core) : getTarget.run c = (.ok c.target, c) := rfl

def typeErr (fname expected : String) (got : LuaValue) : VmError :=
  .typeError (ascii fname ++ ascii ": expected " ++ ascii expected ++ ascii ", got " ++
    ascii got.typeName)

def requireArg (args : List LuaValue) (idx : Nat) (fname : String) : Except VmError LuaValue :=
  match args[idx]? with
  | some v => .ok v
  | none => .error (runtimeErr (ascii fname ++ ascii ": missing argument " ++ decimal (idx + 1)))

def requireInteger (args : List LuaValue) (idx : Nat) (fname : String) : Except VmError Int64 := do
  match ← requireArg args idx fname with
  | .integer n => .ok n
  | other => .error (typeErr fname "integer" other)

def requireString (args : List LuaValue) (idx : Nat) (fname : String) : Except VmError Bytes := do
  match ← requireArg args idx fname with
  | .string s => .ok s
  | other => .error (typeErr fname "string" other)

def requireTable (args : List LuaValue) (idx : Nat) (fname : String) :
    Except VmError TableRef := do
  match ← requireArg args idx fname with
  | .table t => .ok t
  | other => .error (typeErr fname "table" other)

section Required

variable {args : List LuaValue} {idx : Nat} {fname : String}

theorem requireArg_ok {v : LuaValue} :
    requireArg args idx fname = .ok v ↔ args[idx]? = some v := by
  unfold requireArg
  cases args[idx]? <;> simp

theorem requireInteger_ok {n : Int64} :
    requireInteger args idx fname = .ok n ↔ args[idx]? = some (.integer n) := by
  unfold requireInteger requireArg
  cases args[idx]? with
  | none => simp [bind, Except.bind]
  | some v => cases v <;> simp [bind, Except.bind]

theorem requireString_ok {s : Bytes} :
    requireString args idx fname = .ok s ↔ args[idx]? = some (.string s) := by
  unfold requireString requireArg
  cases args[idx]? with
  | none => simp [bind, Except.bind]
  | some v => cases v <;> simp [bind, Except.bind]

theorem requireTable_ok {t : TableRef} :
    requireTable args idx fname = .ok t ↔ args[idx]? = some (.table t) := by
  unfold requireTable requireArg
  cases args[idx]? with
  | none => simp [bind, Except.bind]
  | some v => cases v <;> simp [bind, Except.bind]

end Required

/-- An integer argument that may be left out; the text says what it is for. -/
def optionalInteger (args : List LuaValue) (idx : Nat) (fname purpose : String)
    (default : Int64) : Except VmError Int64 :=
  match args[idx]? with
  | none => .ok default
  | some (.integer n) => .ok n
  | some other => .error (typeErr fname purpose other)

def checkStringLen (len : Nat) : Except VmError Unit :=
  if len > maxStringLen then .error (runtimeErr (ascii "string length overflow")) else .ok ()

theorem checkStringLen_ok {n : Nat} : checkStringLen n = .ok () ↔ n ≤ maxStringLen := by
  unfold checkStringLen
  split_ifs with h
  · exact iff_of_false nofun (Nat.not_le_of_gt h)
  · exact iff_of_true rfl (Nat.le_of_not_gt h)

/-- `ceil_log2`, with 0 for no or one element. -/
def ceilLog2 (n : Nat) : Nat := Nat.clog 2 n

/-- The charge of a write made by a builtin. -/
def chargeRawsetResult (result : RawsetResult) (oldCap : Nat) : Vm Unit :=
  match result with
  | .updated => pure ()
  | .inserted grew newHashCapacity =>
    if grew then trackAlloc ((newHashCapacity - oldCap) * AllocSize.tableHashSlot)
    else trackAlloc AllocSize.tableArraySlot

/-- `rawset_tracked` followed by that charge. -/
def rawsetCharged (t : TableRef) (key : LuaKey) (value : LuaValue) : Vm Unit := do
  let oldCap := (← getTable t).capacity
  let result ← rawsetTracked t key value
  chargeRawsetResult result oldCap

def getOrNil (t : TableRef) (key : LuaKey) : Vm LuaValue := do
  pure (((← getTable t).get key).getD .nil)

end Vm

end Proveno
