import Proveno.Host.ToolRegistry
import Proveno.Vm.Dispatch

/-! The instructions that run a function to its end, a protected call or a comparator,
or ask the host. They are given the inner loop that runs the innermost frame. -/

namespace Proveno

section Merge

variable {ε S α : Type}

/-- The merge of `merge_sort`: on a tie the right element comes first. -/
def merge (less : α → α → Exec ε S Bool) : Nat → List α → List α → Exec ε S (List α)
  | _, [], right => pure right
  | _, left, [] => pure left
  | 0, left, right => pure (left ++ right)
  | fuel + 1, a :: left, b :: right => do
    if ← less a b then do
      let rest ← merge less fuel left (b :: right)
      pure (a :: rest)
    else do
      let rest ← merge less fuel (a :: left) right
      pure (b :: rest)

/-- Sort by halves; the fuel is the length of the list. -/
def mergeSort (less : α → α → Exec ε S Bool) : Nat → List α → Exec ε S (List α)
  | 0, arr => pure arr
  | fuel + 1, arr =>
    if arr.length ≤ 1 then pure arr
    else do
      let left ← mergeSort less fuel (arr.take (arr.length / 2))
      let right ← mergeSort less fuel (arr.drop (arr.length / 2))
      merge less arr.length left right

/-- What holds of the comparisons, and is kept by sequencing, holds of the sort. -/
theorem merge_closed {Q : ∀ {β : Type}, Exec ε S β → Prop}
    (hpure : ∀ {β : Type} (b : β), Q (pure b : Exec ε S β))
    (hbind : ∀ {β γ : Type} {m : Exec ε S β} {f : β → Exec ε S γ}, Q m → (∀ b, Q (f b)) →
      Q (m >>= f))
    {less : α → α → Exec ε S Bool} (hless : ∀ a b, Q (less a b)) (fuel : Nat)
    (left right : List α) : Q (merge less fuel left right) := by
  induction fuel generalizing left right with
  | zero => cases left <;> cases right <;> exact hpure _
  | succ fuel ih =>
    cases left with
    | nil => exact hpure _
    | cons a left =>
      cases right with
      | nil => exact hpure _
      | cons b right =>
        refine hbind (hless a b) fun isLess => ?_
        cases isLess
        · exact hbind (ih ..) fun _ => hpure _
        · exact hbind (ih ..) fun _ => hpure _

theorem mergeSort_closed {Q : ∀ {β : Type}, Exec ε S β → Prop}
    (hpure : ∀ {β : Type} (b : β), Q (pure b : Exec ε S β))
    (hbind : ∀ {β γ : Type} {m : Exec ε S β} {f : β → Exec ε S γ}, Q m → (∀ b, Q (f b)) →
      Q (m >>= f))
    {less : α → α → Exec ε S Bool} (hless : ∀ a b, Q (less a b)) (fuel : Nat)
    (arr : List α) : Q (mergeSort less fuel arr) := by
  induction fuel generalizing arr with
  | zero => exact hpure _
  | succ fuel ih =>
    rw [mergeSort]
    split_ifs
    · exact hpure _
    · exact hbind (ih _) fun _ => hbind (ih _) fun _ =>
        merge_closed hpure hbind hless ..

end Merge

/-- The machine with its host. -/
structure System (H : Type) where
  machine : Machine
  registry : ToolRegistry H
  transcript : Transcript

abbrev Run (H : Type) := Exec Stop (System H)

namespace Run

variable {H : Type}

/-- A computation that does not involve the host. -/
def embed {α : Type} (m : Engine α) : Run H α :=
  Exec.zoom System.machine (fun s machine => { s with machine }) m

theorem run_embed {α : Type} {m : Engine α} {s : System H} {r : Except Stop α} {machine : Machine}
    (h : m.run s.machine = (r, machine)) : (embed m).run s = (r, { s with machine }) := by
  rw [embed, Exec.run_zoom, h]

theorem embed_bind {α β : Type} (m : Engine α) (f : α → Engine β) :
    (embed (m >>= f) : Run H β) = embed m >>= fun a => embed (f a) := by
  refine congrArg Exec.mk (funext fun s => ?_)
  simp only [embed, Exec.run_bind, Exec.run_zoom]
  rcases m.run s.machine with ⟨_ | _, _⟩ <;> rfl

section Calls

variable (program : CompiledProgram) (inner : Run H LuaValue)

def callComparator (comp a b : LuaValue) : Run H Bool := do
  embed do
    let closure ← Engine.liftLua comp.asFunction
    Engine.recordCall comp [a, b]
    Engine.pushCallFrame program closure [a, b] 1
  let result ← inner
  pure result.isTruthy

def sortTable (args : List LuaValue) : Except VmError TableRef :=
  match args.head? with
  | some (.table t) => .ok t
  | some other => .error (.typeError (ascii "table.sort: expected table, got " ++
      ascii other.typeName))
  | none => .error (runtimeErr (ascii "table.sort: missing table argument"))

def sortValues (args : List LuaValue) (arr : List LuaValue) : Run H (List LuaValue) :=
  match (args[1]? : Option LuaValue) with
  | none | some .nil => embed (Engine.lift (mergeSort Vm.defaultLess arr.length arr))
  | some comp => mergeSort (callComparator program inner comp) arr.length arr

def doTableSort (args : List LuaValue) : Run H Unit := do
  let t ← embed (Engine.lift (Vm.liftError (sortTable args)))
  let n := (← embed (Engine.lift (Vm.getTable t))).length
  if n ≤ 1 then pure ()
  else do
    embed (Engine.charge (n * Vm.ceilLog2 (n + 1)))
    let arr ← embed (Engine.lift (Vm.arrayValues t n))
    let sorted ← sortValues program inner args arr
    embed (Engine.lift (Vm.writeBack t 1 sorted))

/-- The first result of a builtin. -/
def callBuiltin (id : BuiltinId) (args : List LuaValue) : Run H LuaValue :=
  embed (Engine.lift do
    let results ← Vm.callBuiltin id args
    pure (results.headD .nil))

/-- A call of a builtin, of which `table.sort` alone may run functions. -/
def builtin (id : BuiltinId) (args : List LuaValue) : Run H LuaValue :=
  match id with
  | .tableSort => do
    doTableSort program inner args
    pure .nil
  | id => callBuiltin id args

def call (argc : UInt8) : Run H Unit := do
  embed (Engine.charge GasCost.functionCall)
  let machine := (← Exec.get).machine
  if machine.frames.length ≥ machine.config.maxCallDepth then
    embed (Engine.raise .callDepthExceeded)
  else do
    let (func, args) ← embed (Engine.takeCall argc)
    match func with
    | .builtin id => do
      let result ← builtin program inner id args
      embed (Engine.push result)
    | .function closure => embed (Engine.pushCallFrame program closure args 1)
    | other => embed (Engine.raise (.typeError (ascii "attempt to call a " ++
        ascii other.typeName ++ ascii " value")))

/-- The flag and the value that a protected call leaves. -/
def pushOutcome : Except VmError LuaValue → Run H Unit
  | .ok v => embed do
    Engine.push (.boolean true)
    Engine.push v
  | .error e => embed do
    Engine.push (.boolean false)
    Engine.push (Engine.errorToLuaValue e)

/-- The outcome of a protected computation; after an error the stack and the frames are
cut back. -/
def protect (stackLen frameLen : Nat) (m : Run H LuaValue) :
    Run H (Except VmError LuaValue) := do
  match ← Exec.attempt m with
  | .ok v => pure (.ok v)
  | .error (.raised e) =>
    if e.isUnrecoverable then Exec.throw (.raised e)
    else embed do
      Engine.charge GasCost.pcallUnwind
      Engine.truncateStack stackLen
      Engine.truncateFrames frameLen
      pure (.error e)
  | .error stop => Exec.throw stop

theorem run_protect (stackLen frameLen : Nat) (m : Run H LuaValue) (s : System H) :
    (protect stackLen frameLen m).run s = match m.run s with
      | (.ok v, s') => (.ok (.ok v), s')
      | (.error (.raised e), s') =>
        if e.isUnrecoverable then (.error (.raised e), s')
        else (embed do
          Engine.charge GasCost.pcallUnwind
          Engine.truncateStack stackLen
          Engine.truncateFrames frameLen
          pure (.error e)).run s'
      | (.error stop, s') => (.error stop, s') := by
  rw [protect, Exec.run_bind, Exec.run_attempt]
  rcases m.run s with ⟨(_ | _ | _) | _, _⟩
  · dsimp only
    split_ifs <;> rfl
  all_goals rfl

/-- The outcome of a protected call of a value. -/
def protectedCall (func : LuaValue) (args : List LuaValue) : Run H (Except VmError LuaValue) := do
  let machine := (← Exec.get).machine
  match func with
  | .builtin id =>
    protect machine.stack.length machine.frames.length (builtin program inner id args)
  | .function closure =>
    if machine.frames.length ≥ machine.config.maxCallDepth then pure (.error .callDepthExceeded)
    else do
      embed (Engine.pushCallFrame program closure args 1)
      protect machine.stack.length machine.frames.length inner
  | _ => pure (.error (.ofLuaError .type))

def pcall (argc : UInt8) : Run H Unit := do
  embed (Engine.charge GasCost.pcallSetup)
  let before := (← Exec.get).machine
  let (func, args) ← embed (Engine.takeCall argc)
  let outcome ← protectedCall program inner func args
  pushOutcome outcome
  let after := (← Exec.get).machine
  embed (Engine.record
    (.pcall argc.toNat before.frames before.stack outcome after.frames after.stack))

end Calls

variable [HostInterface H]

def askTool (name : Bytes) (args : LuaTable LuaValue) : Run H (LuaTable LuaValue) := do
  let config := (← Exec.get).machine.config
  Exec.zoom (fun s => ⟨s.registry, s.transcript, s.machine.core⟩)
    (fun s (part : ToolRegistry.State H) =>
      { machine := { s.machine with core := part.core }
        registry := part.registry
        transcript := part.transcript })
    (ToolRegistry.call name args config)

/-- The name and the arguments of a tool call, the arguments on top. -/
def toolArgs : Engine (Bytes × LuaTable LuaValue) := do
  let argsVal ← Engine.popValue
  let nameVal ← Engine.popValue
  match nameVal with
  | .string name =>
    match argsVal with
    | .table args => do pure (fromUtf8Lossy name, ← Engine.lift (Vm.getTable args))
    | _ => Engine.raise (.typeError (ascii "tool args must be a table"))
  | _ => Engine.raise (.typeError (ascii "tool name must be a string"))

def toolCall : Run H Unit := do
  let (name, args) ← embed toolArgs
  let response ← askTool name args
  embed do
    let t ← Engine.lift (Vm.allocResponse response)
    Engine.push (.table t)

/-- One instruction, with the value returned when it ends the run. -/
def dispatch (program : CompiledProgram) (inner : Run H LuaValue) (instr : Instruction) :
    Run H (Option LuaValue) := do
  embed do
    Engine.charge GasCost.baseInstruction
    Engine.record .charged
  match instr with
  | .call argc => do
    call program inner argc
    pure none
  | .pcall argc => do
    pcall program inner argc
    pure none
  | .toolCall => do
    toolCall
    pure none
  | .ret n => embed do
    Engine.charge GasCost.functionReturn
    Engine.doReturn n.toNat
  | instr => do
    embed (Engine.perform program instr)
    pure none

end Run

end Proveno
