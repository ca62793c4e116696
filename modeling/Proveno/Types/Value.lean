import Mathlib.Order.Defs.LinearOrder
import Mathlib.Data.List.Lex
import Mathlib.Data.Prod.Lex
import Proveno.Types.Text

/-! The values of the virtual machine. A table or a captured variable is a
reference into the heap, so that equality of references is `Rc::ptr_eq`. -/

namespace Proveno

inductive LuaError
  | runtime
  | memory
  | type
  deriving DecidableEq

inductive BuiltinId
  | type | tostring | tonumber | select | unpack
  | stringLen | stringSub | stringFind | stringFindLiteral | stringUpper | stringLower
  | stringRep | stringByte | stringChar | stringFormat | stringUnsupported
  | mathAbs | mathMin | mathMax | mathScaleDiv
  | tableInsert | tableRemove | tableConcat | tableSort | tableMove
  | jsonEncode | jsonDecode | jsonDecodeStrings
  | decimalParse | decimalFormat | decimalRescale
  deriving DecidableEq

abbrev TableRef := Nat

/-- A captured variable: the cell that a closure and its frame share. -/
abbrev CellRef := Nat

structure LuaClosure where
  protoIdx : Nat
  upvalues : List CellRef
  deriving DecidableEq

inductive LuaValue
  | nil
  | boolean (b : Bool)
  | integer (n : Int64)
  | string (s : Bytes)
  | table (t : TableRef)
  | function (f : LuaClosure)
  | builtin (id : BuiltinId)
  deriving DecidableEq

inductive LuaKey
  | integer (n : Int64)
  | string (s : Bytes)
  | boolean (b : Bool)

namespace LuaKey

/-- Integers ascending, then strings by raw bytes, then `false` before `true`. -/
def rank : LuaKey → ℕ ×ₗ ℤ ×ₗ List ℕ
  | integer n => toLex (0, toLex (n.toInt, []))
  | string s => toLex (1, toLex (0, s.map UInt8.toNat))
  | boolean b => toLex (2, toLex (if b then 1 else 0, []))

theorem rank_injective : Function.Injective rank := by
  intro a b h
  have hmap : Function.Injective (List.map UInt8.toNat) :=
    List.map_injective_iff.mpr fun _ _ => UInt8.toNat_inj.mp
  cases a <;> cases b <;> simp [rank, Int64.toInt_inj] at h ⊢
  · exact h
  · exact hmap h
  · rename_i a b
    cases a <;> cases b <;> simp at h ⊢

instance : LinearOrder LuaKey := LinearOrder.lift' rank rank_injective

def toValue : LuaKey → LuaValue
  | integer n => .integer n
  | string s => .string s
  | boolean b => .boolean b

end LuaKey

namespace LuaValue

def typeName : LuaValue → String
  | nil => "nil"
  | boolean _ => "boolean"
  | integer _ => "integer"
  | string _ => "string"
  | table _ => "table"
  | function _ | builtin _ => "function"

def isTruthy : LuaValue → Bool
  | nil | boolean false => false
  | _ => true

def asInteger : LuaValue → Except LuaError Int64
  | integer n => .ok n
  | _ => .error .type

def asTable : LuaValue → Except LuaError TableRef
  | table t => .ok t
  | _ => .error .type

def asFunction : LuaValue → Except LuaError LuaClosure
  | function f => .ok f
  | _ => .error .type

def intoKey : LuaValue → Except LuaError LuaKey
  | integer n => .ok (.integer n)
  | string s => .ok (.string s)
  | boolean b => .ok (.boolean b)
  | nil => .error .runtime
  | table _ | function _ | builtin _ => .error .type

def toLuaString : LuaValue → Bytes
  | nil => ascii "nil"
  | boolean b => ascii (if b then "true" else "false")
  | integer n => intText n
  | string s => s
  | table _ => ascii "table"
  | function _ | builtin _ => ascii "function"

def luaCmp : LuaValue → LuaValue → Except LuaError Ordering
  | integer a, integer b => .ok (compare a.toInt b.toInt)
  | string a, string b => .ok (compare (a.map UInt8.toNat) (b.map UInt8.toNat))
  | _, _ => .error .type

def concatPart : LuaValue → Except LuaError Bytes
  | string s => .ok s
  | integer n => .ok (intText n)
  | _ => .error .type

def luaConcat (a b : LuaValue) : Except LuaError LuaValue := do
  let left ← a.concatPart
  let right ← b.concatPart
  if left.length + right.length > 65536 then .error .memory
  else .ok (string (left ++ right))

def luaAdd (a b : LuaValue) : Except LuaError LuaValue := do
  let x ← a.asInteger
  let y ← b.asInteger
  .ok (integer (x + y))

def luaSub (a b : LuaValue) : Except LuaError LuaValue := do
  let x ← a.asInteger
  let y ← b.asInteger
  .ok (integer (x - y))

def luaMul (a b : LuaValue) : Except LuaError LuaValue := do
  let x ← a.asInteger
  let y ← b.asInteger
  .ok (integer (x * y))

/-- Truncated division, moved down by one when the signs differ. -/
def luaIdiv (a b : LuaValue) : Except LuaError LuaValue := do
  let x ← a.asInteger
  let y ← b.asInteger
  if y = 0 then .error .runtime
  else
    let d := x / y
    let r := x % y
    if r ≠ 0 ∧ (decide (r < 0) != decide (y < 0)) then .ok (integer (d - 1))
    else .ok (integer d)

def luaMod (a b : LuaValue) : Except LuaError LuaValue := do
  let x ← a.asInteger
  let y ← b.asInteger
  if y = 0 then .error .runtime
  else
    let r := x % y
    if r ≠ 0 ∧ (decide (r < 0) != decide (y < 0)) then .ok (integer (r + y))
    else .ok (integer r)

def luaUnm (a : LuaValue) : Except LuaError LuaValue := do
  let x ← a.asInteger
  .ok (integer (-x))

end LuaValue

example : LuaValue.luaIdiv (.integer (-7)) (.integer 2) = .ok (.integer (-4)) := by decide

end Proveno
