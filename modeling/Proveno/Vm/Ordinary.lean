import Proveno.Vm.CallsAdvance

/-! What the machine does without its host in the course of a run: steps within a frame, and
steps from one frame to another. None of it depends on what is left in the meters. -/

namespace Proveno

namespace Engine

/-- A computation composed of steps within a frame and of pushes and pops of frames. -/
inductive Ordinary : {α : Type} → Engine α → Prop
  | composed {α : Type} {m : Engine α} (h : Composed m) : Ordinary m
  | bind {α β : Type} {m : Engine α} {f : α → Engine β} (hm : Ordinary m)
      (hf : ∀ a, Ordinary (f a)) : Ordinary (m >>= f)
  | get_bind {α : Type} {f : Machine → Engine α} (hf : ∀ s, Ordinary (f s))
      (hblind : ∀ s gas limit, f (s.withMeters gas limit) = f s) :
      Ordinary (Exec.get >>= f)
  | record (e : Event) : Ordinary (record e)
  | pushFrame (frame : CallFrame) : Ordinary (pushFrame frame)
  | popFrame : Ordinary popFrame
  | truncateStack (len : Nat) : Ordinary (truncateStack len)
  | truncateFrames (len : Nat) : Ordinary (truncateFrames len)

namespace Ordinary

variable {α : Type}

theorem pure (a : α) : Ordinary (Pure.pure a) := .composed (.pure a)

theorem raise {e : VmError} (h : e.cause ≠ .gasExhausted) : Ordinary (raise e : Engine α) :=
  .composed (.raise h)

theorem charge (n : Nat) : Ordinary (charge n) := .composed (.charge n)

theorem lift {m : Vm α} (h : Vm.Composed m) : Ordinary (lift m) := .composed (.lift h)

theorem orPanic (o : Option α) : Ordinary (orPanic o) := .composed (.orPanic o)

theorem push (v : LuaValue) : Ordinary (push v) := .composed (.push v)

theorem topFrame : Ordinary topFrame := .composed .topFrame

theorem pushCallFrame (program : CompiledProgram) (closure : LuaClosure) (args : List LuaValue)
    (expectedReturns : Nat) :
    Ordinary (pushCallFrame program closure args expectedReturns) :=
  .bind (.orPanic _) fun _ => .bind (.lift (.trackAlloc _)) fun _ => .get_bind (fun _ =>
    .bind (.pushFrame _) fun _ => .composed (.bind (pushNils_composed _) fun _ =>
      bindArgs_composed ..)) fun _ _ _ => rfl

theorem doReturn (n : Nat) : Ordinary (doReturn n) := by
  refine .bind (.composed (.popValues n)) fun _ => .bind .topFrame fun _ => .bind .popFrame fun _ =>
    .bind (.truncateStack _) fun _ => .get_bind (fun _ => ?_) fun _ _ _ => rfl
  split_ifs
  · exact .pure _
  · exact .bind (.push _) fun _ => .pure _
  · exact .pure _

theorem implicitReturn (nested : Bool) : Ordinary (implicitReturn nested) :=
  .bind (.record _) fun _ => .doReturn 0

theorem fetch (program : CompiledProgram) : Ordinary (fetch program) :=
  .bind .topFrame fun _ => .bind (.orPanic _) fun _ => .pure _

theorem advance (nested : Bool) (frame : CallFrame) : Ordinary (advance nested frame) :=
  .get_bind (fun _ => .bind (.record _) fun _ => .bind (.composed (.setPc _)) fun _ => .pure _)
    fun _ _ _ => rfl

theorem complete (turn : Nat × Usage) : Ordinary (complete turn) :=
  .get_bind (fun _ => .record _) fun _ _ _ => rfl

/-- What every instruction costs. -/
theorem paid : Ordinary (do
    Engine.charge GasCost.baseInstruction
    Engine.record .charged) :=
  .bind (.charge _) fun _ => .record _

theorem unwind (stackLen frameLen : Nat) (e : VmError) : Ordinary (do
    Engine.charge GasCost.pcallUnwind
    Engine.truncateStack stackLen
    Engine.truncateFrames frameLen
    Pure.pure (.error e) : Engine (Except VmError LuaValue)) :=
  .bind (.charge _) fun _ => .bind (.truncateStack _) fun _ => .bind (.truncateFrames _) fun _ =>
    .pure _

theorem callComparator (program : CompiledProgram) (comp a b : LuaValue) : Ordinary (do
    let closure ← liftLua comp.asFunction
    recordCall comp [a, b]
    Engine.pushCallFrame program closure [a, b] 1) :=
  .bind (.composed (.liftLua _)) fun _ => .bind (.composed (.recordCall ..)) fun _ =>
    .pushCallFrame ..

theorem enterMain (proto : FunctionProto) (input : LuaValue) :
    Ordinary (Run.enterMain proto input) := by
  refine .bind (.pushFrame _) fun _ => .bind (.composed (pushNils_composed _)) fun _ => ?_
  split_ifs
  · exact .composed (.bindSlot ..)
  · exact .pure _

end Ordinary

end Engine

end Proveno
