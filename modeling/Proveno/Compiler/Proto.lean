import Proveno.Types.Text

/-! Bytecode: instructions, constants and function prototypes. A jump offset is
relative to the instruction after the jump. -/

namespace Proveno

inductive Instruction
  | nop
  | pushK (idx : UInt16)
  | pushNil
  | pushTrue
  | pushFalse
  | pop
  | dup
  | loadLocal (slot : UInt8)
  | storeLocal (slot : UInt8)
  | loadUp (idx : UInt8)
  | storeUp (idx : UInt8)
  | newTable
  | getTable
  | setTable
  | getField (idx : UInt16)
  | setField (idx : UInt16)
  | add
  | sub
  | mul
  | iDiv
  | mod
  | neg
  | eq
  | ne
  | lt
  | le
  | gt
  | ge
  | not
  | and (off : Int16)
  | or (off : Int16)
  | concat (n : UInt8)
  | len
  | jmp (off : Int16)
  | jmpIf (off : Int16)
  | jmpIfNot (off : Int16)
  | call (argc : UInt8)
  | ret (n : UInt8)
  | closure (idx : UInt16)
  | toolCall
  | pcall (argc : UInt8)
  | log
  | error
  | iterInitSorted (off : Int16)
  | iterInitArray (off : Int16)
  | iterNext (off : Int16)
  deriving DecidableEq

inductive Constant
  | nil
  | boolean (b : Bool)
  | integer (n : Int64)
  | string (s : Bytes)
  | proto (idx : UInt16)
  deriving DecidableEq

/-- Where a closure takes an upvalue from: a slot or an upvalue of the function
around it. -/
inductive UpvalueDesc
  | local (slot : UInt8)
  | upvalue (idx : UInt8)
  deriving DecidableEq

structure FunctionProto where
  code : List Instruction
  constants : List Constant
  localCount : UInt8
  upvalueCount : UInt8
  paramCount : UInt8
  lines : List UInt32
  maxStack : UInt16
  upvalues : List UpvalueDesc
  deriving DecidableEq

def FunctionProto.new (paramCount : UInt8) : FunctionProto where
  code := []
  constants := []
  localCount := 0
  upvalueCount := 0
  paramCount
  lines := []
  maxStack := 0
  upvalues := []

/-- The first prototype is the top-level chunk. -/
structure CompiledProgram where
  prototypes : List FunctionProto
  deriving DecidableEq

end Proveno
