import Proveno.Compiler.Proto

/-! Opcode numbers and operands of instructions, and the step of a trace. -/

namespace Proveno

namespace Instruction

def opcodeId : Instruction → Nat
  | nop => 0
  | pushK _ => 1
  | pushNil => 2
  | pushTrue => 3
  | pushFalse => 4
  | pop => 5
  | dup => 6
  | loadLocal _ => 7
  | storeLocal _ => 8
  | loadUp _ => 9
  | storeUp _ => 10
  | newTable => 11
  | getTable => 12
  | setTable => 13
  | getField _ => 14
  | setField _ => 15
  | add => 16
  | sub => 17
  | mul => 18
  | iDiv => 19
  | mod => 20
  | neg => 21
  | eq => 22
  | ne => 23
  | lt => 24
  | le => 25
  | gt => 26
  | ge => 27
  | not => 28
  | and _ => 29
  | or _ => 30
  | concat _ => 31
  | len => 32
  | jmp _ => 33
  | jmpIf _ => 34
  | jmpIfNot _ => 35
  | call _ => 36
  | ret _ => 37
  | closure _ => 38
  | toolCall => 39
  | pcall _ => 40
  | log => 41
  | error => 42
  | iterInitSorted _ => 43
  | iterInitArray _ => 44
  | iterNext _ => 45

def operand : Instruction → Int
  | pushK idx | getField idx | setField idx | closure idx => idx.toNat
  | loadLocal n | storeLocal n | loadUp n | storeUp n | concat n | call n | ret n | pcall n =>
    n.toNat
  | and off | or off | jmp off | jmpIf off | jmpIfNot off | iterInitSorted off
  | iterInitArray off | iterNext off => off.toInt
  | _ => 0

end Instruction

structure TraceStep where
  pc : Nat
  opcode : Nat
  operand : Int
  stackTop : Int64
  nextPc : Nat
  deriving DecidableEq

end Proveno
