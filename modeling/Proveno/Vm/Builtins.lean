import Proveno.Vm.Decimal
import Proveno.Vm.Format
import Proveno.Vm.Json
import Proveno.Vm.Strings
import Proveno.Vm.Tables

/-! The core builtins, the dispatch of a builtin by its id, and the globals that the
sentinel names of compiled code refer to. -/

namespace Proveno

namespace Vm

def type (args : List LuaValue) : Vm (List LuaValue) := do
  let v ← liftError (requireArg args 0 "type")
  pure [.string (ascii v.typeName)]

def tostring (args : List LuaValue) : Vm (List LuaValue) := do
  let v ← liftError (requireArg args 0 "tostring")
  pure [.string v.toLuaString]

/-- The text of the characters left after trimming. -/
def trimmedText (s : Bytes) : Bytes := (trimChars (lossyChars s.length s)).flatMap encodeChar

def tonumber (args : List LuaValue) : Vm (List LuaValue) := do
  let v ← liftError (requireArg args 0 "tonumber")
  match v with
  | .integer n => pure [.integer n]
  | .string s =>
    match parseI64 (trimmedText s) with
    | some n => pure [.integer n]
    | none => pure [.nil]
  | _ => pure [.nil]

def callBuiltin (id : BuiltinId) (args : List LuaValue) : Vm (List LuaValue) :=
  match id with
  | .type => type args
  | .tostring => tostring args
  | .tonumber => tonumber args
  | .select => select args
  | .unpack => unpack args
  | .stringLen => stringLen args
  | .stringSub => stringSub args
  | .stringFind => stringFind args
  | .stringFindLiteral => stringFindLiteral args
  | .stringUpper => stringUpper args
  | .stringLower => stringLower args
  | .stringRep => stringRep args
  | .stringByte => stringByte args
  | .stringChar => stringChar args
  | .stringFormat => stringFormat args
  | .stringUnsupported => raise (runtimeErr (ascii "string.match/gmatch/gsub not supported"))
  | .mathAbs => mathAbs args
  | .mathMin => mathMin args
  | .mathMax => mathMax args
  | .mathScaleDiv => mathScaleDiv args
  | .tableInsert => tableInsert args
  | .tableRemove => tableRemove args
  | .tableConcat => tableConcat args
  | .tableMove => tableMove args
  | .tableSort => raise (runtimeErr (ascii "table.sort must be dispatched by engine"))
  | .jsonEncode => jsonEncode args
  | .jsonDecode => jsonDecode args
  | .jsonDecodeStrings => jsonDecodeStrings args
  | .decimalParse => decimalParse args
  | .decimalFormat => decimalFormat args
  | .decimalRescale => decimalRescale args

end Vm

namespace Globals

/-- A table written field by field. -/
def tableOf (fields : List (String × LuaValue)) : LuaTable LuaValue :=
  fields.foldl (fun t field => (t.rawset (.string (ascii field.1)) field.2).2) LuaTable.new

def stringModule : LuaTable LuaValue := tableOf [
  ("len", .builtin .stringLen), ("sub", .builtin .stringSub), ("find", .builtin .stringFind),
  ("find_literal", .builtin .stringFindLiteral), ("upper", .builtin .stringUpper),
  ("lower", .builtin .stringLower), ("rep", .builtin .stringRep),
  ("byte", .builtin .stringByte), ("char", .builtin .stringChar),
  ("format", .builtin .stringFormat), ("match", .builtin .stringUnsupported),
  ("gmatch", .builtin .stringUnsupported), ("gsub", .builtin .stringUnsupported)]

def mathModule : LuaTable LuaValue := tableOf [
  ("abs", .builtin .mathAbs), ("min", .builtin .mathMin), ("max", .builtin .mathMax),
  ("scale_div", .builtin .mathScaleDiv), ("maxinteger", .integer Int64.maxValue),
  ("mininteger", .integer Int64.minValue)]

def tableModule : LuaTable LuaValue := tableOf [
  ("insert", .builtin .tableInsert), ("remove", .builtin .tableRemove),
  ("concat", .builtin .tableConcat), ("sort", .builtin .tableSort),
  ("move", .builtin .tableMove)]

def jsonModule : LuaTable LuaValue := tableOf [
  ("encode", .builtin .jsonEncode), ("decode", .builtin .jsonDecode),
  ("decode_strings", .builtin .jsonDecodeStrings)]

def decimalModule : LuaTable LuaValue := tableOf [
  ("parse", .builtin .decimalParse), ("format", .builtin .decimalFormat),
  ("rescale", .builtin .decimalRescale)]

/-- The module tables are placed in the heap in this order. -/
def modules : List (String × LuaTable LuaValue) := [
  ("__string", stringModule), ("__math", mathModule), ("__table", tableModule),
  ("__json", jsonModule), ("__decimal", decimalModule)]

def coreFunctions : List (String × LuaValue) := [
  ("__type", .builtin .type), ("__tostring", .builtin .tostring),
  ("__tonumber", .builtin .tonumber), ("__select", .builtin .select),
  ("__unpack", .builtin .unpack)]

/-- `build_globals`: the globals table, and the heap with the module tables. -/
def build (heap : Heap) : LuaTable LuaValue × Heap :=
  let names := modules.zipIdx.map fun entry =>
    (entry.1.1, LuaValue.table (heap.tables.length + entry.2))
  (tableOf (coreFunctions ++ names),
    { heap with tables := heap.tables ++ modules.map Prod.snd })

end Globals

end Proveno
