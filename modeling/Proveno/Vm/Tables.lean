import Proveno.Vm.Args

/-! `select`, `unpack` and the builtins of the `table` module other than `table.sort`. -/

namespace Proveno

namespace Target

def checkedUsize (tgt : Target) (exact : Nat) : Option Nat :=
  if tgt.overflowChecks ∧ ¬exact < 2 ^ tgt.wordBits then none else some (exact % 2 ^ tgt.wordBits)

/-- `n as u64` of an `i64`. -/
def toU64 (n : Int64) : Nat := (n.toInt % 2 ^ 64).toNat

/-- The number of turns of `for k in i..=j`. -/
def rangeCount (i j : Int64) : Nat := (j.toInt - i.toInt + 1).toNat

end Target

namespace Vm

open Target (toU64 rangeCount)

/-- The values under the keys from `i` on, as many as the count says. -/
def valuesFrom (t : LuaTable LuaValue) (i : Int64) (count : Nat) : List LuaValue :=
  (List.range count).map fun k => (t.get (.integer (Int64.ofInt (i.toInt + k)))).getD .nil

def select (args : List LuaValue) : Vm (List LuaValue) := do
  charge GasCost.baseInstruction
  let index ← liftError (requireArg args 0 "select")
  let rest := args.tail
  match index with
  | .string s =>
    if s = ascii "#" then pure [.integer (Int64.ofNat rest.length)]
    else raise (typeErr "select" "integer or '#'" index)
  | .integer n =>
    let idx := if n.toInt < 0 then (rest.length : Int) + n.toInt else n.toInt - 1
    if idx < 0 ∨ idx ≥ rest.length then
      raise (runtimeErr (ascii "bad argument #1 to 'select' (index out of range)"))
    else do
      let v ← orPanic rest[idx.toNat]?
      pure [v]
  | other => raise (typeErr "select" "integer or '#'" other)

def unpack (args : List LuaValue) : Vm (List LuaValue) := do
  let t ← liftError (requireTable args 0 "unpack")
  let len := (← getTable t).length
  let i ← liftError (optionalInteger args 1 "unpack" "integer for i" 1)
  let j ← liftError (optionalInteger args 2 "unpack" "integer for j" (Int64.ofNat len))
  if i.toInt > j.toInt then pure []
  else
    let tgt ← getTarget
    let span ← orPanic (tgt.checkedI64 (j.toInt - i.toInt))
    let count := toU64 (← orPanic (tgt.checkedI64 (span.toInt + 1)))
    let double ← orPanic (tgt.checkedU64 (count * 2))
    charge (← orPanic (tgt.checkedU64 (1 + double)))
    orPanic (tgt.withCapacity (count % 2 ^ tgt.wordBits))
    orPanic (tgt.withCapacity (rangeCount i j))
    pure (valuesFrom (← getTable t) i (rangeCount i j))

/-- Move the elements from `pos` up to `k` one place up, the last first. -/
def shiftRight (t : TableRef) (pos : Nat) : Nat → Vm Unit
  | 0 => pure ()
  | k + 1 =>
    if k + 1 < pos then pure ()
    else do
      let v ← getOrNil t (LuaTable.arrayKey (k + 1))
      rawsetCharged t (LuaTable.arrayKey (k + 2)) v
      shiftRight t pos k

/-- The position and the value to insert there, by default after the last element. -/
def insertion (args : List LuaValue) (len : Nat) : Except VmError (Int64 × LuaValue) :=
  match args with
  | _ :: _ :: value :: _ => do
    let p ← requireInteger args 1 "table.insert"
    .ok (p, value)
  | [_, value] => .ok (Int64.ofNat (len + 1), value)
  | _ => .error (runtimeErr (ascii "table.insert: missing value argument"))

def tableInsert (args : List LuaValue) : Vm (List LuaValue) := do
  let t ← liftError (requireTable args 0 "table.insert")
  let len := (← getTable t).length
  let (pos, value) ← liftError (insertion args len)
  if pos.toInt < 1 ∨ pos.toInt > len + 1 then
    raise (runtimeErr (ascii "table.insert: position out of range"))
  else do
    charge (5 + (len + 1 - pos.toInt.toNat))
    shiftRight t pos.toInt.toNat len
    rawsetCharged t (.integer pos) value
    pure []

/-- Move the elements after `pos` one place down, as many as the count says. -/
def shiftLeft (t : TableRef) : Nat → Nat → Vm Unit
  | _, 0 => pure ()
  | pos, count + 1 => do
    let v ← getOrNil t (LuaTable.arrayKey (pos + 1))
    rawset t (LuaTable.arrayKey pos) v
    shiftLeft t (pos + 1) count

/-- An integer argument that counts as absent when there are too few arguments. -/
def trailingInteger (args : List LuaValue) (idx : Nat) (fname : String) (default : Int64) :
    Except VmError Int64 :=
  if args.length > idx then requireInteger args idx fname else .ok default

def tableRemove (args : List LuaValue) : Vm (List LuaValue) := do
  let t ← liftError (requireTable args 0 "table.remove")
  let len := (← getTable t).length
  if len = 0 then pure [.nil]
  else do
    let pos ← liftError (trailingInteger args 1 "table.remove" (Int64.ofNat len))
    if pos.toInt < 1 ∨ pos.toInt > len then
      raise (runtimeErr (ascii "table.remove: position out of range"))
    else do
      let removed ← getOrNil t (.integer pos)
      charge (5 + (len - pos.toInt.toNat))
      shiftLeft t pos.toInt.toNat (len - pos.toInt.toNat)
      rawremove t (LuaTable.arrayKey len)
      pure [removed]

/-- The elements as texts, which ends at the first that is neither string nor number. -/
def concatParts (t : LuaTable LuaValue) : Int → Nat → Except VmError (List Bytes)
  | _, 0 => .ok []
  | k, count + 1 =>
    match ((t.get (.integer (Int64.ofInt k))).getD .nil).concatPart with
    | .ok part => do
      let parts ← concatParts t (k + 1) count
      .ok (part :: parts)
    | .error _ =>
      .error (runtimeErr (ascii "table.concat: element at index " ++ intText (Int64.ofInt k) ++
        ascii " is not a string or number"))

def concatSep (args : List LuaValue) : Except VmError Bytes :=
  match (args[1]? : Option LuaValue) with
  | none | some .nil => .ok []
  | some (.string s) => .ok s
  | some other => .error (typeErr "table.concat" "string sep" other)

def tableConcat (args : List LuaValue) : Vm (List LuaValue) := do
  let t ← liftError (requireTable args 0 "table.concat")
  let len := (← getTable t).length
  let sep ← liftError (concatSep args)
  let i ← liftError (trailingInteger args 2 "table.concat" 1)
  let j ← liftError (trailingInteger args 3 "table.concat" (Int64.ofNat len))
  if i.toInt > j.toInt then pure [.string []]
  else
    let parts ← liftError (concatParts (← getTable t) i.toInt (rangeCount i j))
    let tgt ← getTarget
    let partsLen ← orPanic (tgt.checkedUsize (parts.map List.length).sum)
    let sepLen ← orPanic (tgt.checkedUsize (sep.length * (parts.length - 1)))
    let resultLen ← orPanic (tgt.checkedUsize (partsLen + sepLen))
    liftError (checkStringLen resultLen)
    charge resultLen
    trackAlloc (AllocSize.string resultLen)
    orPanic (tgt.growBytes (sep.intercalate parts).length)
    pure [.string (sep.intercalate parts)]

/-- Store the values under the keys from `t_pos` on. -/
def moveValues (dest : TableRef) (tPos : Int64) : Nat → List LuaValue → Vm Unit
  | _, [] => pure ()
  | idx, v :: rest => do
    let key ← orPanic ((← getTarget).checkedI64 (tPos.toInt + idx))
    rawset dest (.integer key) v
    moveValues dest tPos (idx + 1) rest

def tableMove (args : List LuaValue) : Vm (List LuaValue) := do
  let a ← liftError (requireTable args 0 "table.move")
  let f ← liftError (requireInteger args 1 "table.move")
  let e ← liftError (requireInteger args 2 "table.move")
  let tPos ← liftError (requireInteger args 3 "table.move")
  let a2 ← liftError (if args.length ≥ 5 then requireTable args 4 "table.move" else .ok a)
  let result := if args.length ≥ 5 then [.table a2] else []
  if f.toInt > e.toInt then pure result
  else
    let tgt ← getTarget
    let span ← orPanic (tgt.checkedI64 (e.toInt - f.toInt))
    charge (toU64 (← orPanic (tgt.checkedI64 (span.toInt + 1))))
    orPanic (tgt.withCapacity (rangeCount f e))
    moveValues a2 tPos 0 (valuesFrom (← getTable a) f (rangeCount f e))
    pure result

end Vm

end Proveno
