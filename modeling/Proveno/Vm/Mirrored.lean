import Proveno.Lib.Mirror
import Proveno.Vm.Ordinary
import Proveno.Vm.Turns

/-! One program run from two states that belong together. The runs do the same for as long as
the machine does the same on its own and in its tool calls, so that a relation between the two
sides that these keep is kept by whole runs. -/

namespace Proveno

/-- What the loops of a run look at. -/
structure View where
  frames : List CallFrame
  stack : List OwnedSlot
  config : VmConfig
  heap : Heap

def Machine.view (m : Machine) : View := ⟨m.frames, m.stack, m.config, m.core.heap⟩

namespace Run

variable {H H' α β : Type}

/-- The loops may have different fuel where it does not matter that the first runs out. -/
def FuelFor (stops : Stop → Prop) (fuel fuel' : Nat) : Prop :=
  fuel ≤ fuel' ∧ (fuel < fuel' → stops .outOfFuel)

theorem FuelFor.refl (stops : Stop → Prop) (fuel : Nat) : FuelFor stops fuel fuel :=
  ⟨le_rfl, fun h => absurd h (lt_irrefl _)⟩

theorem FuelFor.pred {stops : Stop → Prop} {fuel fuel' : Nat}
    (h : FuelFor stops (fuel + 1) (fuel' + 1)) : FuelFor stops fuel fuel' :=
  ⟨Nat.le_of_succ_le_succ h.1, fun hlt => h.2 (Nat.succ_lt_succ hlt)⟩

/-- States are related that look alike, and what the machine does keeps them related, with
its host or without it. The stops that are left aside end the run. -/
structure Reflects [HostInterface H] [HostInterface H'] (accepted : System H → Prop)
    (stops : Stop → Prop) (R : System H → System H' → Prop) : Prop where
  view : ∀ s t, R s t → t.machine.view = s.machine.view
  fuel : ∀ s t, R s t → FuelFor stops (fuelFor s.gas) (fuelFor t.gas)
  fatal : ∀ e, stops (.raised e) → e.isUnrecoverable = true
  line : ∀ e line, stops (.raised e) → stops (.raised (.withLine line e))
  embed : ∀ {α : Type} {m : Engine α}, m.Ordinary →
    Exec.Mirrors accepted stops R (Run.embed m) (Run.embed m)
  toolCall : Exec.Mirrors accepted stops R toolCall toolCall

section Tools

/-- What tool calls work on. -/
def toolState (s : System H) : ToolRegistry.State H := ⟨s.registry, s.transcript, s.machine.core⟩

/-- What a tool call has left. -/
def afterTool (s : System H) (part : ToolRegistry.State H) : System H :=
  ⟨{ s.machine with core := part.core }, part.registry, part.transcript⟩

theorem run_askTool [HostInterface H] (name : Bytes) (args : LuaTable LuaValue) (s : System H) :
    (askTool name args).run s =
      (((ToolRegistry.call name args s.machine.config).run (toolState s)).1,
        afterTool s ((ToolRegistry.call name args s.machine.config).run (toolState s)).2) := rfl

end Tools

section Merge

variable {accepted : System H → Prop} {stops : Stop → Prop} {R : System H → System H' → Prop}
  {less : α → α → Run H Bool} {less' : α → α → Run H' Bool}

theorem mirrors_merge (h : ∀ a b, Exec.Mirrors accepted stops R (less a b) (less' a b)) (fuel : Nat)
    (left right : List α) :
    Exec.Mirrors accepted stops R (merge less fuel left right) (merge less' fuel left right) := by
  induction fuel generalizing left right with
  | zero => cases left <;> cases right <;> exact .pure _
  | succ fuel ih =>
    cases left with
    | nil => exact .pure _
    | cons a left =>
      cases right with
      | nil => exact .pure _
      | cons b right =>
        refine (h a b).bind fun isLess => ?_
        cases isLess
        · exact (ih ..).bind fun _ => .pure _
        · exact (ih ..).bind fun _ => .pure _

theorem mirrors_mergeSort (h : ∀ a b, Exec.Mirrors accepted stops R (less a b) (less' a b))
    (fuel : Nat) (arr : List α) :
    Exec.Mirrors accepted stops R (mergeSort less fuel arr) (mergeSort less' fuel arr) := by
  induction fuel generalizing arr with
  | zero => exact .pure _
  | succ fuel ih =>
    rw [mergeSort, mergeSort]
    exact .ite (fun _ => .pure _) fun _ =>
      (ih _).bind fun _ => (ih _).bind fun _ => mirrors_merge h ..

end Merge

namespace Reflects

variable [HostInterface H] [HostInterface H'] {accepted : System H → Prop} {stops : Stop → Prop}
  {R : System H → System H' → Prop} {program : CompiledProgram} {inner : Run H LuaValue}
  {inner' : Run H' LuaValue}

theorem embed_then (hR : Reflects accepted stops R) {m : Engine α} (hm : m.Ordinary)
    {f : α → Run H β} {f' : α → Run H' β} (hf : ∀ a, Exec.Mirrors accepted stops R (f a) (f' a)) :
    Exec.Mirrors accepted stops R (Run.embed m >>= f) (Run.embed m >>= f') :=
  (hR.embed hm).bind hf

theorem protect (hR : Reflects accepted stops R) {m : Run H LuaValue} {m' : Run H' LuaValue}
    (h : Exec.Mirrors accepted stops R m m') (stackLen frameLen : Nat) :
    Exec.Mirrors accepted stops R (Run.protect stackLen frameLen m)
      (Run.protect stackLen frameLen m') := by
  refine h.attempt_bind ?_ fun outcome _ => ?_
  · intro e he
    rcases e with e | _ | _
    · exact ⟨.raised e, he, if_pos (hR.fatal e he)⟩
    · exact ⟨_, he, rfl⟩
    · exact ⟨_, he, rfl⟩
  · rcases outcome with (e | _ | _) | v
    · exact .ite (fun _ => .throw _) fun _ => hR.embed (.unwind ..)
    · exact .throw _
    · exact .throw _
    · exact .pure _

theorem withLine (hR : Reflects accepted stops R) {m : Run H α} {m' : Run H' α}
    (h : Exec.Mirrors accepted stops R m m') (proto : FunctionProto) (pc : Nat) :
    Exec.Mirrors accepted stops R (Run.withLine proto pc m) (Run.withLine proto pc m') := by
  refine h.attempt_bind ?_ fun outcome _ => ?_
  · intro e he
    rcases e with e | _ | _
    · exact ⟨_, hR.line e _ he, rfl⟩
    · exact ⟨_, he, rfl⟩
    · exact ⟨_, he, rfl⟩
  · rcases outcome with (e | _ | _) | a
    · exact .throw _
    · exact .throw _
    · exact .throw _
    · exact .pure _

theorem inTurn (hR : Reflects accepted stops R) {m : Run H α} {m' : Run H' α}
    (h : Exec.Mirrors accepted stops R m m') (nested : Bool) (frame : CallFrame) :
    Exec.Mirrors accepted stops R (Run.inTurn nested frame m) (Run.inTurn nested frame m') :=
  hR.embed_then (.advance ..) fun _ => h.bind fun _ => hR.embed_then (.complete _) fun _ => .pure _

theorem callComparator (hR : Reflects accepted stops R)
    (hinner : Exec.Mirrors accepted stops R inner inner') (comp a b : LuaValue) :
    Exec.Mirrors accepted stops R (Run.callComparator program inner comp a b)
      (Run.callComparator program inner' comp a b) :=
  hR.embed_then (.callComparator ..) fun _ => hinner.bind fun _ => .pure _

theorem sortValues (hR : Reflects accepted stops R)
    (hinner : Exec.Mirrors accepted stops R inner inner') (args arr : List LuaValue) :
    Exec.Mirrors accepted stops R (Run.sortValues program inner args arr)
      (Run.sortValues program inner' args arr) := by
  have hdefault : (Engine.lift (mergeSort Vm.defaultLess arr.length arr)).Ordinary :=
    .lift (mergeSort_closed (Q := Vm.Composed) .pure (fun hm hf => .bind hm fun b _ => hf b)
      Vm.defaultLess_composed ..)
  unfold Run.sortValues
  split
  · exact hR.embed hdefault
  · exact hR.embed hdefault
  · exact mirrors_mergeSort (fun a b => hR.callComparator hinner _ a b) ..

theorem doTableSort (hR : Reflects accepted stops R)
    (hinner : Exec.Mirrors accepted stops R inner inner') (args : List LuaValue) :
    Exec.Mirrors accepted stops R (Run.doTableSort program inner args)
      (Run.doTableSort program inner' args) :=
  hR.embed_then (.lift (.liftError (sortTable_mild args))) fun _ =>
    hR.embed_then (.lift (.getTable _)) fun _ => .ite (fun _ => .pure _) fun _ =>
      hR.embed_then (.charge _) fun _ =>
        hR.embed_then (.lift (Vm.arrayValues_composed ..)) fun _ =>
          (hR.sortValues hinner ..).bind fun _ => hR.embed (.lift (Vm.writeBack_composed ..))

theorem builtin (hR : Reflects accepted stops R)
    (hinner : Exec.Mirrors accepted stops R inner inner') (id : BuiltinId) (args : List LuaValue) :
    Exec.Mirrors accepted stops R (Run.builtin program inner id args)
      (Run.builtin program inner' id args) := by
  have hother (id : BuiltinId) :
      Exec.Mirrors accepted stops R (Run.callBuiltin id args) (Run.callBuiltin id args) :=
    hR.embed (.lift (.bind (Vm.callBuiltin_composed id args) fun _ _ => .pure _))
  cases id with
  | tableSort => exact (hR.doTableSort hinner args).bind fun _ => .pure _
  | _ => exact hother _

variable [Nonempty H']

/-- Computations that begin by looking at the machine. -/
theorem look (hR : Reflects accepted stops R) {f : System H → Run H α} {f' : System H' → Run H' α}
    (h : ∀ s t, t.machine.view = s.machine.view → Exec.Mirrors accepted stops R (f s) (f' t)) :
    Exec.Mirrors accepted stops R (Exec.get >>= f) (Exec.get >>= f') := by
  obtain ⟨host⟩ := ‹Nonempty H'›
  exact .get_bind_of hR.view (fun s => ⟨⟨s.machine, .new host, []⟩, rfl⟩) h

theorem call (hR : Reflects accepted stops R) (hinner : Exec.Mirrors accepted stops R inner inner')
    (argc : UInt8) :
    Exec.Mirrors accepted stops R (Run.call program inner argc) (Run.call program inner' argc) := by
  refine hR.embed_then (.charge _) fun _ => hR.look fun s t hview => ?_
  have hframes : t.machine.frames = s.machine.frames := congrArg View.frames hview
  have hconfig : t.machine.config = s.machine.config := congrArg View.config hview
  dsimp only
  rw [hframes, hconfig]
  refine .ite (fun _ => hR.embed (.raise nofun)) fun _ =>
    hR.embed_then (.composed (Engine.takeCall_composed argc)) fun out => ?_
  obtain ⟨func, args⟩ := out
  cases func with
  | builtin id => exact (hR.builtin hinner id args).bind fun _ => hR.embed (.push _)
  | function closure => exact hR.embed (.pushCallFrame ..)
  | _ => exact hR.embed (.raise nofun)

theorem protectedCall (hR : Reflects accepted stops R)
    (hinner : Exec.Mirrors accepted stops R inner inner') (func : LuaValue) (args : List LuaValue) :
    Exec.Mirrors accepted stops R (Run.protectedCall program inner func args)
      (Run.protectedCall program inner' func args) := by
  refine hR.look fun s t hview => ?_
  have hframes : t.machine.frames = s.machine.frames := congrArg View.frames hview
  have hstack : t.machine.stack = s.machine.stack := congrArg View.stack hview
  have hconfig : t.machine.config = s.machine.config := congrArg View.config hview
  dsimp only
  rw [hframes, hstack, hconfig]
  cases func with
  | builtin id => exact hR.protect (hR.builtin hinner id args) ..
  | function closure =>
    exact .ite (fun _ => .pure _) fun _ => hR.embed_then (.pushCallFrame ..) fun _ =>
      hR.protect hinner ..
  | _ => exact .pure _

theorem pcall (hR : Reflects accepted stops R) (hinner : Exec.Mirrors accepted stops R inner inner')
    (argc : UInt8) :
    Exec.Mirrors accepted stops R (Run.pcall program inner argc)
      (Run.pcall program inner' argc) := by
  refine hR.embed_then (.charge _) fun _ => hR.look fun s t hview => ?_
  have hframes : t.machine.frames = s.machine.frames := congrArg View.frames hview
  have hstack : t.machine.stack = s.machine.stack := congrArg View.stack hview
  dsimp only
  rw [hframes, hstack]
  refine hR.embed_then (.composed (Engine.takeCall_composed argc)) fun out =>
    (hR.protectedCall hinner out.1 out.2).bind fun outcome => ?_
  have hpush : Exec.Mirrors accepted stops R (pushOutcome outcome) (pushOutcome outcome) := by
    cases outcome with
    | ok v => exact hR.embed (.bind (.push _) fun _ => .push _)
    | error e => exact hR.embed (.bind (.push _) fun _ => .push _)
  refine hpush.bind fun _ => hR.look fun s' t' hview' => ?_
  have hframes' : t'.machine.frames = s'.machine.frames := congrArg View.frames hview'
  have hstack' : t'.machine.stack = s'.machine.stack := congrArg View.stack hview'
  rw [hframes', hstack']
  exact hR.embed (.record _)

theorem runFrame (hR : Reflects accepted stops R) {loop : Nat → Run H LuaValue}
    {loop' : Nat → Run H' LuaValue}
    (h : ∀ target, Exec.Mirrors accepted stops R (loop target) (loop' target)) :
    Exec.Mirrors accepted stops R (Run.runFrame loop) (Run.runFrame loop') := by
  refine hR.look fun s t hview => ?_
  have hframes : t.machine.frames = s.machine.frames := congrArg View.frames hview
  dsimp only
  rw [hframes]
  exact h _

theorem dispatch (hR : Reflects accepted stops R)
    (hinner : Exec.Mirrors accepted stops R inner inner') (instr : Instruction) :
    Exec.Mirrors accepted stops R (Run.dispatch program inner instr)
      (Run.dispatch program inner' instr) := by
  refine hR.embed_then .paid fun _ => ?_
  cases instr with
  | call argc => exact (hR.call hinner argc).bind fun _ => .pure _
  | pcall argc => exact (hR.pcall hinner argc).bind fun _ => .pure _
  | toolCall => exact hR.toolCall.bind fun _ => .pure _
  | ret n => exact hR.embed (.bind (.charge _) fun _ => .doReturn _)
  | _ => exact hR.embed_then (.composed (Engine.perform_composed ..)) fun _ => .pure _

theorem turn (hR : Reflects accepted stops R) (hinner : Exec.Mirrors accepted stops R inner inner')
    (nested : Bool) :
    Exec.Mirrors accepted stops R (Run.turn program nested inner)
      (Run.turn program nested inner') := by
  refine hR.embed_then (.fetch program) fun out => ?_
  obtain ⟨frame, instr⟩ := out
  cases instr with
  | none => exact hR.embed (.implicitReturn _)
  | some instr => exact hR.inTurn (hR.dispatch hinner instr) ..

theorem runInner (hR : Reflects accepted stops R) {fuel fuel' : Nat}
    (hfuel : FuelFor stops fuel fuel') (target : Nat) :
    Exec.Mirrors accepted stops R (Run.runInner program fuel target)
      (Run.runInner program fuel' target) := by
  induction fuel generalizing fuel' target with
  | zero =>
    cases fuel' with
    | zero => exact .throw _
    | succ fuel' => exact .of_stop (hfuel.2 (Nat.succ_pos _))
  | succ fuel ih =>
    cases fuel' with
    | zero => exact absurd hfuel.1 (Nat.not_succ_le_zero _)
    | succ fuel' =>
      rw [runInner_succ, runInner_succ]
      refine hR.look fun s t hview => ?_
      have hframes : t.machine.frames = s.machine.frames := congrArg View.frames hview
      rw [hframes]
      refine .ite (fun _ => hR.embed (.composed .popValue)) fun _ =>
        (hR.turn (hR.runFrame fun target => ih hfuel.pred target) true).bind fun done => ?_
      cases done with
      | none => exact ih hfuel.pred target
      | some v => exact .pure v

theorem mainTurn (hR : Reflects accepted stops R)
    (hinner : Exec.Mirrors accepted stops R inner inner') (trace : List TraceStep) :
    Exec.Mirrors accepted stops R (Run.mainTurn program inner trace)
      (Run.mainTurn program inner' trace) := by
  refine hR.embed_then (.fetch program) fun out => ?_
  obtain ⟨frame, instr⟩ := out
  cases instr with
  | none => exact hR.embed_then (.implicitReturn _) fun _ => .pure _
  | some instr =>
    dsimp only
    rw [tracedDispatch_eq, tracedDispatch_eq]
    refine hR.look fun s t hview => hR.embed_then (.orPanic _) fun proto =>
      (hR.inTurn (hR.withLine (hR.dispatch hinner instr) ..) ..).bind fun done =>
        hR.look fun s' t' hview' => ?_
    have hconfig : t.machine.config = s.machine.config := congrArg View.config hview
    have hstep : Trace.step program frame instr t.machine t'.machine =
        Trace.step program frame instr s.machine s'.machine := by
      have hheap : t.machine.core.heap = s.machine.core.heap := congrArg View.heap hview
      have hstack : t.machine.stack = s.machine.stack := congrArg View.stack hview
      have hframes' : t'.machine.frames = s'.machine.frames := congrArg View.frames hview'
      rw [Trace.step, Trace.step, hheap, hstack, hframes']
    dsimp only
    rw [hconfig, hstep]
    exact .ite (fun _ => .pure _) fun _ => .pure _

theorem mainLoop (hR : Reflects accepted stops R) {fuel fuel' : Nat}
    (hfuel : FuelFor stops fuel fuel') (trace : List TraceStep) :
    Exec.Mirrors accepted stops R (Run.mainLoop program fuel trace)
      (Run.mainLoop program fuel' trace) := by
  induction fuel generalizing fuel' trace with
  | zero =>
    cases fuel' with
    | zero => exact .throw _
    | succ fuel' => exact .of_stop (hfuel.2 (Nat.succ_pos _))
  | succ fuel ih =>
    cases fuel' with
    | zero => exact absurd hfuel.1 (Nat.not_succ_le_zero _)
    | succ fuel' =>
      rw [mainLoop_succ, mainLoop_succ]
      refine (hR.mainTurn (hR.runFrame fun target => hR.runInner hfuel.pred target) trace).bind
        fun out => ?_
      obtain ⟨done, trace⟩ := out
      cases done with
      | some v => exact .pure _
      | none =>
        refine hR.look fun s t hview => ?_
        have hframes : t.machine.frames = s.machine.frames := congrArg View.frames hview
        rw [hframes]
        exact .ite (fun _ => .pure _) fun _ => ih hfuel.pred trace

end Reflects

section Whole

/-- A run from its first frame to the end of its main loop. -/
def body [HostInterface H] (program : CompiledProgram) (input : LuaValue) :
    Run H (LuaValue × List TraceStep) := do
  let proto ← embed (Engine.orPanic program.prototypes[0]?)
  embed (Engine.lift (Vm.trackAlloc (AllocSize.stackFrame proto.localCount)))
  embed (enterMain proto input)
  mainLoop program (fuelFor (← Exec.get).machine.core.gas.remaining) []

/-- What a run gives that has ended so. -/
def output (s : System H) (out : LuaValue × List TraceStep) : VmOutput where
  returnValue := out.1
  logs := s.machine.core.logs
  gasUsed := s.machine.core.gas.used
  memoryUsed := s.machine.core.mem.used
  transcript := s.transcript
  trace := out.2

variable [HostInterface H]

theorem run_execute (program : CompiledProgram) (input : LuaValue) (s : System H) :
    (execute program input).run s =
      let ended := (body program input).run (cleared s)
      (ended.1.map (output ended.2), ended.2) := by
  have hmain (proto : FunctionProto) : runMain program proto input = (do
      embed (enterMain proto input)
      let out ← mainLoop program (fuelFor (← Exec.get).machine.core.gas.remaining) []
      let s ← Exec.get
      pure (output s out) : Run H VmOutput) := rfl
  have hrest {m : Run H (LuaValue × List TraceStep)} {s : System H} :
      (do let out ← m
          let s ← Exec.get
          pure (output s out) : Run H VmOutput).run s =
        ((m.run s).1.map (output (m.run s).2), (m.run s).2) := by
    rw [Exec.run_bind]
    rcases m.run s with ⟨e | out, s'⟩ <;> rfl
  rw [← hrest, execute, Exec.run_bind_ok (show reset.run s = (.ok (), cleared s) from rfl), body]
  simp only [hmain, Exec.bind_assoc]

variable [HostInterface H'] [Nonempty H'] {accepted : System H → Prop} {stops : Stop → Prop}
  {R : System H → System H' → Prop} {program : CompiledProgram}

theorem Reflects.body (hR : Reflects accepted stops R) (input : LuaValue) :
    Exec.Mirrors accepted stops R (Run.body program input) (Run.body program input) := by
  obtain ⟨host⟩ := ‹Nonempty H'›
  refine hR.embed_then (.orPanic _) fun proto => hR.embed_then (.lift (.trackAlloc _)) fun _ =>
    hR.embed_then (.enterMain ..) fun _ => ?_
  have hex (s : System H) : ∃ t : System H', FuelFor stops (fuelFor s.gas) (fuelFor t.gas) :=
    ⟨⟨s.machine, .new host, []⟩, .refl stops (fuelFor s.gas)⟩
  exact .get_bind_of hR.fuel hex fun _ _ hfuel => hR.mainLoop hfuel []

/-- Runs of one program from states that belong together have the same value or error and
trace, and end in states that belong together. -/
theorem Reflects.execute (hR : Reflects accepted stops R) (input : LuaValue) {s : System H}
    {t : System H'} (hst : R (cleared s) (cleared t))
    (hacc : accepted ((execute program input).run s).2)
    (hpass : Exec.Passes stops ((execute program input).run s).1) :
    ∃ r : Except Stop (LuaValue × List TraceStep), ∃ s' t', R s' t' ∧
      (Run.execute program input).run s = (r.map (output s'), s') ∧
      (Run.execute program input).run t = (r.map (output t'), t') := by
  rw [run_execute] at hacc hpass
  have hpass' : Exec.Passes stops ((Run.body program input).run (cleared s)).1 := by
    intro e he
    refine hpass e ?_
    dsimp only
    rw [he]
    rfl
  obtain ⟨t', hrun, hst'⟩ := (hR.body input).run_eq hst hacc hpass'
  refine ⟨_, _, t', hst', run_execute program input s, ?_⟩
  rw [run_execute, hrun]

end Whole

end Run

end Proveno
