import Proveno.Vm.EngineComposed

/-! The instructions carried out without the host, and the parts of calls and returns, are
composed of the primitive steps of the machine. -/

namespace Proveno

namespace Vm

theorem luaLen_composed (v : LuaValue) : Composed (luaLen v) := by
  cases v with
  | string s => exact .pure _
  | table t => exact .bind (.getTable t) fun _ _ => .pure _
  | _ => exact .liftLua (.error .type)

theorem arrayValues_composed (t : TableRef) (n : Nat) : Composed (arrayValues t n) :=
  .bind (.getTable t) fun _ _ => .pure _

theorem writeBack_composed (t : TableRef) (i : Nat) (vs : List LuaValue) :
    Composed (writeBack t i vs) := by
  induction vs generalizing i with
  | nil => exact .pure _
  | cons v vs ih => exact .bind (.rawset ..) fun _ _ => ih _

theorem defaultLess_composed (a b : LuaValue) : Composed (defaultLess a b) := by
  unfold defaultLess
  split
  · exact .pure _
  · exact .raise nofun

end Vm

namespace Engine

theorem constant_composed (program : CompiledProgram) (idx : UInt16) :
    Composed (constant program idx) :=
  .bind .topFrame fun _ => .bind (.orPanic _) fun _ => .orPanic _

theorem constantToStringKey_ne {k : Constant} {e : VmError}
    (h : constantToStringKey k = .error e) : e.cause ≠ .gasExhausted := by
  cases k <;> cases h <;> nofun

theorem stringKey_composed (program : CompiledProgram) (idx : UInt16) :
    Composed (stringKey program idx) :=
  .bind (constant_composed program idx) fun k => by
    split
    · exact .pure _
    · exact .raise (constantToStringKey_ne ‹_›)

theorem jumpBy_composed (offset : Int16) : Composed (jumpBy offset) :=
  .bind .topFrame fun _ => .get_bind (fun _ => .setPc _) fun _ _ _ => rfl

theorem resolveSentinel_composed (v : LuaValue) : Composed (resolveSentinel v) := by
  cases v with
  | string s =>
    unfold resolveSentinel
    dsimp only
    split_ifs
    · exact .get_bind (fun _ => .pure _) fun _ _ _ => rfl
    · exact .pure _
  | _ => exact .pure _

theorem stringMethod_composed (key : LuaKey) : Composed (stringMethod key) :=
  .get_bind (fun _ => by
    dsimp only
    split
    · exact .pure _
    · exact .raise nofun) fun _ _ _ => rfl

theorem tableOf_composed (v : LuaValue) : Composed (tableOf v) := .liftLua _

theorem getOrNil_composed (t : TableRef) (key : LuaKey) : Composed (getOrNil t key) :=
  .lift (.getOrNil t key)

theorem stackAt_composed (idx : Nat) : Composed (stackAt idx) :=
  .get_bind (fun _ => .orPanic _) fun _ _ _ => rfl

theorem loadLocal_composed (slot : UInt8) : Composed (loadLocal slot) :=
  .bind .topFrame fun _ => .bind (stackAt_composed _) fun _ => .bind (.slotValue _) fun _ => .push _

theorem storeLocal_composed (slot : UInt8) : Composed (storeLocal slot) :=
  .bind .popValue fun _ => .bind .topFrame fun _ => .get_bind (fun _ => .assignSlot ..) fun _ _ _ => rfl

theorem upvalueCell_composed (idx : UInt8) : Composed (upvalueCell idx) :=
  .bind .topFrame fun _ => .orPanic _

theorem loadUp_composed (idx : UInt8) : Composed (loadUp idx) :=
  .bind (upvalueCell_composed idx) fun _ => .bind (.lift (.getCell _)) fun _ => .push _

theorem storeUp_composed (idx : UInt8) : Composed (storeUp idx) :=
  .bind .popValue fun _ => .bind (upvalueCell_composed idx) fun _ => .lift (.setCell ..)

theorem newTable_composed : Composed newTable :=
  .bind (.charge _) fun _ => .bind (.trackAlloc _) fun _ =>
    .bind (.lift .newTable) fun _ => .push _

theorem getTable_composed : Composed getTable :=
  .bind (.charge _) fun _ => .bind .popValue fun _ => .bind (.liftLua _) fun _ =>
    .bind .popValue fun _ => .bind (resolveSentinel_composed _) fun _ =>
      .bind (tableOf_composed _) fun _ => .bind (getOrNil_composed ..) fun _ => .push _

theorem setTable_composed : Composed setTable :=
  .bind .popValue fun _ => .bind .popValue fun _ => .bind (.liftLua _) fun _ =>
    .bind .popValue fun _ => .bind (tableOf_composed _) fun _ => .lift (.doRawset ..)

theorem getField_composed (program : CompiledProgram) (idx : UInt16) :
    Composed (getField program idx) := by
  refine .bind (.charge _) fun _ => .bind (stringKey_composed ..) fun _ =>
    .bind .popValue fun _ => .bind (resolveSentinel_composed _) fun v => ?_
  cases v with
  | string s => exact .bind (stringMethod_composed _) fun _ => .push _
  | _ => exact .bind (tableOf_composed _) fun _ => .bind (getOrNil_composed ..) fun _ => .push _

theorem setField_composed (program : CompiledProgram) (idx : UInt16) :
    Composed (setField program idx) :=
  .bind .popValue fun _ => .bind (stringKey_composed ..) fun _ => .bind .popValue fun _ =>
    .bind (tableOf_composed _) fun _ => .lift (.doRawset ..)

theorem binary_composed (op : LuaValue → LuaValue → Except LuaError LuaValue) :
    Composed (binary op) :=
  .bind .popValue fun _ => .bind .popValue fun _ => .bind (.liftLua _) fun _ => .push _

theorem unary_composed (op : LuaValue → Except LuaError LuaValue) : Composed (unary op) :=
  .bind .popValue fun _ => .bind (.liftLua _) fun _ => .push _

theorem shortCircuit_composed (truth : Bool) (offset : Int16) :
    Composed (shortCircuit truth offset) :=
  .bind .topSlot fun _ => .bind (.slotValue _) fun _ => by
    split_ifs
    · exact jumpBy_composed _
    · exact .pure _

theorem jumpWhen_composed (truth : Bool) (offset : Int16) : Composed (jumpWhen truth offset) :=
  .bind .popValue fun _ => by
    split_ifs
    · exact jumpBy_composed _
    · exact .pure _

theorem concat_composed (n : UInt8) : Composed (concat n) :=
  .bind (.popValues _) fun _ => .bind (.orPanic _) fun _ => .bind (.liftLua _) fun _ =>
    .bind (.charge _) fun _ => .bind (.trackAlloc _) fun _ => .push _

theorem len_composed : Composed len :=
  .bind (.charge _) fun _ => .bind .popValue fun _ =>
    .bind (.lift (Vm.luaLen_composed _)) fun _ => .push _

theorem bindArgs_composed (base params i : Nat) (args : List LuaValue) :
    Composed (bindArgs base params i args) := by
  induction args generalizing i with
  | nil => exact .pure _
  | cons arg args ih =>
    rw [bindArgs]
    split_ifs
    · exact .bind (.bindSlot ..) fun _ => ih _
    · exact ih _

theorem pushNils_composed (n : Nat) : Composed (pushNils n) := by
  induction n with
  | zero => exact .pure _
  | succ n ih => exact .bind (.push _) fun _ => ih

theorem capture_composed (desc : UpvalueDesc) : Composed (capture desc) :=
  .bind .topFrame fun _ => by
    cases desc with
    | «local» slot => exact .captureSlot _
    | upvalue idx => exact .orPanic _

theorem captureAll_composed (descs : List UpvalueDesc) : Composed (captureAll descs) := by
  induction descs with
  | nil => exact .pure _
  | cons desc descs ih =>
    exact .bind (capture_composed desc) fun _ => .bind ih fun _ => .pure _

theorem closure_composed (program : CompiledProgram) (protoIdx : UInt16) :
    Composed (closure program protoIdx) :=
  .bind (.orPanic _) fun _ => .bind (.trackAlloc _) fun _ =>
    .bind (captureAll_composed _) fun _ => .push _

theorem log_composed : Composed log :=
  .bind .popValue fun _ => .bind (.charge _) fun _ => .logMessage _

theorem error_composed : Composed error :=
  .bind .popValue fun _ => .bind (.charge _) fun _ => .raise nofun

theorem iterInitSorted_composed (offset : Int16) : Composed (iterInitSorted offset) := by
  refine .bind .popValue fun _ => .bind (tableOf_composed _) fun _ =>
    .bind (.lift (.getTable _)) fun _ => .bind (.charge _) fun _ => ?_
  split_ifs
  · exact jumpBy_composed _
  · exact .pushSlot nofun

theorem iterInitArray_composed (offset : Int16) : Composed (iterInitArray offset) := by
  refine .bind .popValue fun _ => .bind (tableOf_composed _) fun _ => .bind (.charge _) fun _ =>
    .bind (.lift (.getTable _)) fun _ => ?_
  split_ifs
  · exact jumpBy_composed _
  · exact .pushSlot nofun

theorem iterNext_composed (offset : Int16) : Composed (iterNext offset) := by
  refine .get_bind (fun s => ?_) fun _ _ _ => rfl
  split
  · refine .bind .popSlot fun _ => ?_
    split
    · split
      · exact jumpBy_composed _
      · exact .bind (getOrNil_composed ..) fun _ => .bind (.charge _) fun _ =>
          .bind (.pushSlot nofun) fun _ => .bind (.push _) fun _ => .push _
    · refine .bind (getOrNil_composed ..) fun _ => ?_
      split_ifs
      · exact jumpBy_composed _
      · exact .bind (.charge _) fun _ => .get_bind (fun _ => .bind (.orPanic _) fun _ =>
          .bind (.pushSlot nofun) fun _ => .bind (.push _) fun _ => .push _) fun _ _ _ => rfl
  · exact .raise nofun

theorem takeCall_composed (argc : UInt8) : Composed (takeCall argc) :=
  .bind (.popValues _) fun _ => .bind .popValue fun _ => .bind (resolveSentinel_composed _) fun _ =>
    .bind (.recordCall ..) fun _ => .pure _

theorem perform_composed (program : CompiledProgram) (instr : Instruction) :
    Composed (perform program instr) := by
  cases instr with
  | pushK idx => exact .bind (constant_composed ..) fun _ => .push _
  | pushNil | pushTrue | pushFalse => exact .push _
  | pop => exact .bind .popSlot fun _ => .pure _
  | dup => exact .dup
  | loadLocal slot => exact loadLocal_composed slot
  | storeLocal slot => exact storeLocal_composed slot
  | loadUp idx => exact loadUp_composed idx
  | storeUp idx => exact storeUp_composed idx
  | newTable => exact newTable_composed
  | getTable => exact getTable_composed
  | setTable => exact setTable_composed
  | getField idx => exact getField_composed ..
  | setField idx => exact setField_composed ..
  | add | sub | mul | iDiv | mod | eq | ne | lt | le | gt | ge => exact binary_composed _
  | neg | not => exact unary_composed _
  | and offset | or offset => exact shortCircuit_composed ..
  | concat n => exact concat_composed n
  | len => exact len_composed
  | jmp offset => exact jumpBy_composed offset
  | jmpIf offset | jmpIfNot offset => exact jumpWhen_composed ..
  | closure idx => exact closure_composed ..
  | log => exact log_composed
  | error => exact error_composed
  | iterInitSorted offset => exact iterInitSorted_composed offset
  | iterInitArray offset => exact iterInitArray_composed offset
  | iterNext offset => exact iterNext_composed offset
  | nop | call _ | pcall _ | toolCall | ret _ => exact .pure _

end Engine

theorem Run.toolArgs_composed : Engine.Composed toolArgs := by
  refine .bind .popValue fun args => .bind .popValue fun name => ?_
  cases name with
  | string s =>
    cases args with
    | table t => exact .bind (.lift (.getTable t)) fun _ => .pure _
    | _ => exact .raise nofun
  | _ => exact .raise nofun

end Proveno
