import Proveno.Lib.SortedAssoc
import Proveno.Types.Value

/-! The hybrid table: an array part for the keys `1..n` and an ordered hash
part for all others. The definitions are those of a host whose `usize` has 64
bits, on which the cast of a positive key is exact. -/

namespace Proveno

open SortedAssoc

def maxTableEntries : Nat := 50000

/-- The element types a table can hold; storing a nil removes the key. -/
class HasNil (V : Type) where
  isNil : V → Bool

instance : HasNil LuaValue where
  isNil v := v == .nil

instance : HasNil Unit where
  isNil _ := false

inductive RawsetResult
  | updated
  | inserted (grew : Bool) (newHashCapacity : Nat)
  deriving DecidableEq

structure LuaTable (V : Type) where
  array : List V
  hash : List (LuaKey × V)
  entryCount : Nat
  hashCapacity : Nat

def nextPowerOfTwo (n : Nat) : Nat := 2 ^ Nat.clog 2 n

/-- `(n * 4).div_ceil(3).next_power_of_two().max(4)`, and nothing for no entry. -/
def nextPowerOfTwoCapacity (n : Nat) : Nat :=
  if n = 0 then 0 else max (nextPowerOfTwo ((n * 4 + 2) / 3)) 4

namespace LuaTable

variable {V : Type}

def new : LuaTable V := ⟨[], [], 0, 0⟩

def get (t : LuaTable V) (key : LuaKey) : Option V :=
  match key with
  | .integer i =>
    if 1 ≤ i.toInt ∧ i.toInt ≤ t.array.length then t.array[(i.toInt - 1).toNat]?
    else find key t.hash
  | _ => find key t.hash

def capacity (t : LuaTable V) : Nat := t.hashCapacity

def length (t : LuaTable V) : Nat := t.array.length

def arrayKey (i : Nat) : LuaKey := .integer (Int64.ofNat i)

/-- Keys of the array part first, then those of the hash part in order. -/
def sortedKeys (t : LuaTable V) : List LuaKey :=
  (List.range t.array.length).map (fun i => arrayKey (i + 1)) ++ t.hash.map Prod.fst

def updateHashCapacity (t : LuaTable V) : LuaTable V :=
  { t with hashCapacity := max t.hashCapacity (nextPowerOfTwoCapacity t.hash.length) }

/-- Move the hash entries that continue the array part into it. -/
def consolidate : Nat → LuaTable V → LuaTable V
  | 0, t => t
  | fuel + 1, t =>
    match find (arrayKey (t.array.length + 1)) t.hash with
    | some v => consolidate fuel
        { t with
          array := t.array ++ [v]
          hash := erase (arrayKey (t.array.length + 1)) t.hash }
    | none => t

def append (t : LuaTable V) (value : V) : LuaTable V :=
  consolidate t.hash.length
    { t with array := t.array ++ [value], entryCount := t.entryCount + 1 }

def storeHash (t : LuaTable V) (key : LuaKey) (value : V) : RawsetResult × LuaTable V :=
  let t' := { t with hash := insert key value t.hash }
  if (find key t.hash).isNone then
    let t'' := { t' with entryCount := t.entryCount + 1 }.updateHashCapacity
    (.inserted (decide (t.hashCapacity < t''.hashCapacity)) t''.hashCapacity, t'')
  else (.updated, t')

def store (t : LuaTable V) (key : LuaKey) (value : V) : RawsetResult × LuaTable V :=
  match key with
  | .integer i =>
    if 1 ≤ i.toInt ∧ i.toInt ≤ t.array.length + 1 then
      if i.toInt ≤ t.array.length then
        (.updated, { t with array := t.array.set (i.toInt.toNat - 1) value })
      else (.inserted false t.hashCapacity, t.append value)
    else t.storeHash key value
  | _ => t.storeHash key value

/-- `Vec::remove` on the array part shifts the later elements down. -/
def rawremove (t : LuaTable V) (key : LuaKey) : LuaTable V :=
  let viaHash :=
    if (find key t.hash).isSome then
      { t with hash := erase key t.hash, entryCount := t.entryCount - 1 }
    else t
  match key with
  | .integer i =>
    if 1 ≤ i.toInt ∧ i.toInt ≤ t.array.length then
      { t with
        array := t.array.eraseIdx (i.toInt - 1).toNat
        entryCount := t.entryCount - 1 }
    else viaHash
  | _ => viaHash

section
variable [HasNil V]

/-- The outcome together with the table after the call: a write that fails on
the entry cap has already been made. -/
def rawsetTracked (t : LuaTable V) (key : LuaKey) (value : V) :
    Except LuaError RawsetResult × LuaTable V :=
  if key = .integer Int64.minValue then (.error .runtime, t)
  else if HasNil.isNil value then (.ok .updated, t.rawremove key)
  else
    let (result, t') := t.store key value
    if t'.entryCount > maxTableEntries then (.error .memory, t') else (.ok result, t')

def rawset (t : LuaTable V) (key : LuaKey) (value : V) : Except LuaError Unit × LuaTable V :=
  let (result, t') := t.rawsetTracked key value
  (result.map fun _ => (), t')

/-- Every table a program or a host can hold: built from the empty one by
writes, failed ones included, and removals. -/
inductive Reachable : LuaTable V → Prop
  | new : Reachable new
  | rawset {t : LuaTable V} (key : LuaKey) (value : V) (h : Reachable t) :
      Reachable (t.rawsetTracked key value).2
  | rawremove {t : LuaTable V} (key : LuaKey) (h : Reachable t) : Reachable (t.rawremove key)

end

end LuaTable

example : ((((LuaTable.new.rawset (.integer 2) (.integer 20)).2).rawset
    (.integer 1) (.integer 10)).2 : LuaTable LuaValue).array = [.integer 10, .integer 20] := by
  decide

end Proveno
