import Proveno.Vm.CallsAdvance
import Proveno.Vm.StackFloor

/-! Stack discipline. Given a depth for every position of every prototype that the
instructions keep to, each frame stays above its own locals, and a function that is called
leaves the stack and the frames of its caller alone. -/

namespace Proveno

/-- Depths of the operand stack for the positions of all prototypes: what an instruction needs
is there, and where it leads at least as much is there as the depth says, or exactly so much. -/
structure Layout (program : CompiledProgram) where
  depth : Nat → Nat → Option Nat
  exact : Prop
  bits : Nat
  entry : ∀ {idx proto}, program.prototypes[idx]? = some proto → proto.code ≠ [] →
    depth idx 0 = some 0
  needs : ∀ {idx proto pc instr d}, program.prototypes[idx]? = some proto →
    proto.code[pc]? = some instr → depth idx pc = some d → instr.pops ≤ d
  goes : ∀ {idx proto pc instr d pc' d'}, program.prototypes[idx]? = some proto →
    proto.code[pc]? = some instr → depth idx pc = some d → instr.Goes bits (pc + 1) d pc' d' →
    pc' < proto.code.length → ∃ d₀, depth idx pc' = some d₀ ∧ d₀ ≤ d' ∧ (exact → d₀ = d')

namespace Layout

variable {program : CompiledProgram} (L : Layout program)

/-- So many slots are at least what a depth says, or exactly that. -/
def Fits (d a : Nat) : Prop := d ≤ a ∧ (L.exact → d = a)

/-- A frame with so many slots on the stack, which reach beyond its locals by what the depth
at its position says. -/
def Live (f : CallFrame) (n : Nat) : Prop :=
  ∃ proto a, program.prototypes[f.protoIdx]? = some proto ∧
    n = f.base + proto.localCount.toNat + a ∧
    (f.pc < proto.code.length → ∃ d, L.depth f.protoIdx f.pc = some d ∧ L.Fits d a)

/-- Frames, the innermost with so many slots on the stack; each of the others goes on with one
value on top of the base of the one it called. -/
def Chain (base : Nat) : List CallFrame → Nat → Prop
  | [], n => n = base + 1
  | f :: rest, n =>
    L.Live f n ∧ f.expectedReturns = 1 ∧ base ≤ f.base ∧ Chain base rest (f.base + 1)

/-- The value and the flag that a protected call leaves. -/
def outcomeSlots : Except VmError LuaValue → List StackSlot
  | .ok v => [.value (.boolean true), .value v]
  | .error e => [.value (.boolean false), .value (Engine.errorToLuaValue e)]

/-- What the events of a run that keeps to the depths say about the stack. -/
def Good : Event → Prop
  | .dispatch _ frames stack => ∃ f rest, frames = f :: rest ∧ L.Live f stack.length ∧
      ∃ d, L.depth f.protoIdx f.pc = some d
  | .pop frames k => ∃ f rest proto, frames = f :: rest ∧
      program.prototypes[f.protoIdx]? = some proto ∧ f.base + proto.localCount.toNat ≤ k
  | .pcall argc frames stack outcome frames' stack' => frames' = frames ∧ argc < stack.length ∧
      ∃ top, stack' = stack.take (stack.length - (argc + 1)) ++ top ∧
        top.map OwnedSlot.slot = outcomeSlots outcome
  | _ => True

/-- The stack and the frames are these. -/
structure Resting (stack : List OwnedSlot) (frames : List CallFrame) (s : Machine) : Prop where
  stack : s.stack = stack
  frames : s.frames = frames
  bits : s.core.target.wordBits = L.bits
  good : ∀ e ∈ s.core.history, L.Good e

/-- The stack and the frames are these and more. -/
structure Beyond (stack : List OwnedSlot) (frames : List CallFrame) (s : Machine) : Prop where
  stack : stack <+: s.stack
  frames : frames <:+ s.frames
  bits : s.core.target.wordBits = L.bits
  good : ∀ e ∈ s.core.history, L.Good e

/-- A frame above a stack and around it the frames given. -/
structure Entered (f : CallFrame) (stack : List OwnedSlot) (rest : List CallFrame) (s : Machine) :
    Prop where
  live : L.Live f s.stack.length
  returns : f.expectedReturns = 1
  base : stack.length = f.base
  stack : stack <+: s.stack
  frames : s.frames = f :: rest
  bits : s.core.target.wordBits = L.bits
  good : ∀ e ∈ s.core.history, L.Good e

variable {L} {stack : List OwnedSlot} {frames : List CallFrame} {s : Machine}

theorem Resting.beyond (h : L.Resting stack frames s) : L.Beyond stack frames s :=
  ⟨h.stack ▸ List.prefix_rfl, h.frames ▸ List.suffix_rfl, h.bits, h.good⟩

theorem good_of_silent {e : Event} (h : e.IsSilent) : L.Good e := by
  cases e with
  | dispatch | pop | pcall => exact h.elim
  | _ => trivial

/-- The stack reaches to the end of the locals of the innermost frame. -/
def Held (program : CompiledProgram) (stack : List OwnedSlot) (frames : List CallFrame) : Prop :=
  ∃ f rest proto, frames = f :: rest ∧ program.prototypes[f.protoIdx]? = some proto ∧
    f.base + proto.localCount.toNat ≤ stack.length

/-- From these frames and this stack a computation ends with the same, or stops with more
on top of them. -/
def Restores {H α : Type} (L : Layout program) (m : Run H α) : Prop := ∀ stack frames,
  Held program stack frames → Exec.Meets (fun s => L.Resting stack frames s.machine) m
    (fun _ s => L.Resting stack frames s.machine)
    fun _ s => L.Beyond stack frames s.machine

/-- The inner loop runs the innermost frame to its end. -/
def EndsFrame {H : Type} (L : Layout program) (inner : Run H LuaValue) : Prop :=
  ∀ f stack rest, Held program stack rest → Exec.Meets (fun s => L.Entered f stack rest s.machine) inner
    (fun _ s => L.Resting stack rest s.machine)
    fun _ s => L.Beyond stack rest s.machine

theorem meets_embed {H α : Type} {m : Engine α} {pre : Machine → Prop}
    {post : α → Machine → Prop} {failed : Stop → Machine → Prop}
    (h : Exec.Meets pre m post failed) :
    Exec.Meets (fun s : System H => pre s.machine) (Run.embed m) (fun a s => post a s.machine)
      fun stop s => failed stop s.machine := by
  intro s hs
  have h := h s.machine hs
  rcases hrun : m.run s.machine with ⟨e | a, machine⟩
  · rw [Run.run_embed hrun]
    rw [hrun] at h
    exact h
  · rw [Run.run_embed hrun]
    rw [hrun] at h
    exact h

theorem Resting.core (h : L.Resting stack frames s) {core : Core}
    (hbits : core.target.wordBits = s.core.target.wordBits)
    (hgood : ∀ e ∈ core.history, e ∈ s.core.history ∨ e.IsSilent) :
    L.Resting stack frames { s with core } :=
  ⟨h.stack, h.frames, hbits.trans h.bits,
    fun e he => (hgood e he).elim (h.good e) good_of_silent⟩

theorem meets_lift {α : Type} {m : Vm α} (hm : Vm.Composed m) (stack : List OwnedSlot)
    (frames : List CallFrame) :
    Exec.Meets (L.Resting stack frames) (Engine.lift m) (fun _ => L.Resting stack frames)
      fun _ s => L.Beyond stack frames s := by
  intro s hs
  have hresting := hs.core (hm.wordBits s.core) (hm.silent s.core)
  rw [Engine.run_lift]
  cases (m.run s.core).1 with
  | ok a => exact hresting
  | error stop => exact hresting.beyond

theorem meets_raise {α : Type} (e : VmError) (stack : List OwnedSlot) (frames : List CallFrame) :
    Exec.Meets (L.Resting stack frames) (Engine.raise e : Engine α)
      (fun _ => L.Resting stack frames) fun _ => L.Beyond stack frames := by
  intro s hs
  have hresting : L.Resting stack frames { s with core := s.core.noteRaise e } := by
    unfold Core.noteRaise
    split_ifs
    · exact hs.core rfl fun _ he => (List.mem_cons.mp he).elim (fun heq => .inr (heq ▸ trivial)) .inl
    · exact hs
  rw [Engine.run_raise]
  exact hresting.beyond

theorem meets_slotValue (slot : StackSlot) (stack : List OwnedSlot) (frames : List CallFrame) :
    Exec.Meets (L.Resting stack frames) (Engine.slotValue slot) (fun _ => L.Resting stack frames)
      fun _ => L.Beyond stack frames := by
  cases slot with
  | value v => exact Exec.Meets.pure fun _ hs => hs
  | shared cell => exact meets_lift (.getCell cell) stack frames
  | iterHandle handle => exact meets_raise _ stack frames

namespace Restores

variable {H α β : Type} {m : Run H α} {f : α → Run H β}

theorem pure (a : α) : L.Restores (Pure.pure a : Run H α) :=
  fun _ _ _ => Exec.Meets.pure fun _ hs => hs

theorem bind (hm : L.Restores m) (hf : ∀ a, L.Restores (f a)) : L.Restores (m >>= f) :=
  fun stack frames hheld => Exec.Meets.bind (hm stack frames hheld) fun a => hf a stack frames hheld

theorem embed {m : Engine α}
    (h : ∀ stack frames, Exec.Meets (L.Resting stack frames) m (fun _ => L.Resting stack frames)
      fun _ s => L.Beyond stack frames s) :
    L.Restores (Run.embed m : Run H α) := by
  intro stack frames _
  have hembed := meets_embed (H := H) (h stack frames)
  exact hembed

theorem lift {m : Vm α} (hm : Vm.Composed m) :
    L.Restores (Run.embed (Engine.lift m) : Run H α) := embed (meets_lift hm)

end Restores

section Enter

variable {closure : LuaClosure} {args : List LuaValue}

/-- The region of a frame above a floor. -/
def region (L : Layout program) (stack : List OwnedSlot) (f : CallFrame) (rest : List CallFrame)
    (floor : Nat) (keep : Nat → Prop) : Region :=
  ⟨stack, f, rest, floor, keep, L.bits, L.Good⟩

theorem sound_region {f : CallFrame} {rest : List CallFrame} {floor : Nat} {keep : Nat → Prop}
    {proto : FunctionProto} (hproto : program.prototypes[f.protoIdx]? = some proto)
    (hfloor : f.base + proto.localCount.toNat ≤ floor) :
    (L.region stack f rest floor keep).Sound where
  silent _ he := good_of_silent he
  pop _ _ hk := ⟨_, rest, proto, rfl, hproto, hfloor.trans hk⟩

theorem does_pushNils {c : Region} (count n : Nat) :
    c.Does pc n (Engine.pushNils count) fun _ pc' n' => pc' = pc ∧ n' = n + count := by
  induction count generalizing n with
  | zero => exact .pure ⟨rfl, rfl⟩
  | succ count ih =>
    refine Region.pushSlot_then _ ((ih (n + 1)).mono fun _ _ _ ⟨hpc, hn⟩ => ⟨hpc, ?_⟩)
    omega

theorem quiet_bindArgs {c : Region} {base : Nat} (hkeep : ∀ i, c.keep i → i < base)
    (params i : Nat) (args : List LuaValue) : c.Quiet (Engine.bindArgs base params i args) := by
  induction args generalizing i with
  | nil => exact .pure ()
  | cons arg args ih =>
    rw [Engine.bindArgs]
    split_ifs
    · exact (Region.quiet_bindSlot (fun hk => by have := hkeep _ hk; omega) arg).bind
        fun _ => ih (i + 1)
    · exact ih (i + 1)

/-- A frame that has just been pushed is given its locals. -/
theorem meets_locals {f : CallFrame} {proto : FunctionProto} {frames : List CallFrame}
    (hproto : program.prototypes[f.protoIdx]? = some proto) (hf : f.pc = 0)
    (hreturns : f.expectedReturns = 1) (hs : L.Resting stack frames s)
    (hbase : f.base = stack.length) {bind : Engine Unit}
    (hbind : ∀ c : Region, (∀ i, c.keep i → i < f.base) → c.Quiet bind) :
    Exec.Meets (· = { s with
        frames := f :: s.frames
        core := s.core.record (.enter (s.frames.length + 1)) })
      (do Engine.pushNils proto.localCount.toNat; bind)
      (fun _ => L.Entered f stack frames)
      fun _ s => L.Beyond stack frames s := by
  let c := L.region stack f frames f.base (· < f.base)
  have hat : c.At 0 stack.length { s with
      frames := f :: s.frames
      core := s.core.record (.enter (s.frames.length + 1)) } := {
    frames := by rw [hs.frames, ← hf]; rfl
    length := congrArg List.length hs.stack
    floor := hbase.le
    slots := fun _ _ _ => by rw [hs.stack]; rfl
    bits := hs.bits
    good := fun e he => (List.mem_cons.mp he).elim (fun heq => heq ▸ trivial) (hs.good e) }
  have hbelow {pc n : Nat} {s : Machine} (h : c.At pc n s) : stack <+: s.stack := by
    refine List.prefix_iff_getElem?.mpr fun i hi => ?_
    have hi' : i < f.base := hbase.symm ▸ hi
    rw [h.slots i hi' hi']
    exact List.getElem?_eq_getElem hi
  have hdoes : c.Does 0 stack.length (do Engine.pushNils proto.localCount.toNat; bind)
      fun _ pc' n' => pc' = 0 ∧ n' = stack.length + proto.localCount.toNat :=
    Region.Does.bind (does_pushNils proto.localCount.toNat stack.length) fun _ pc' n' ⟨hpc, hn⟩ => by
      rw [hpc, hn]
      exact hbind c (fun _ hk => hk) 0 _
  refine hdoes.elim hat (fun _ pc n s ⟨hpc, hn⟩ h => ?_)
    fun pc n s h => ⟨hbelow h, by rw [h.frames]; exact List.suffix_cons .., h.bits, h.good⟩
  refine ⟨⟨proto, 0, hproto, ?_, fun hlt => ?_⟩, hreturns, hbase.symm, hbelow h, ?_, h.bits,
    h.good⟩
  · rw [h.length, hn, hbase]
    rfl
  · rw [hf] at hlt ⊢
    exact ⟨0, L.entry hproto (List.ne_nil_of_length_pos hlt), le_rfl, fun _ => rfl⟩
  · rw [h.frames, hpc, ← hf]
    rfl

theorem meets_pushCallFrame (stack : List OwnedSlot) (frames : List CallFrame) :
    Exec.Meets (L.Resting stack frames) (Engine.pushCallFrame program closure args 1)
      (fun _ s => ∃ f, L.Entered f stack frames s)
      fun _ s => L.Beyond stack frames s := by
  have hfind : Exec.Meets (L.Resting stack frames)
      (Engine.orPanic program.prototypes[closure.protoIdx]?)
      (fun proto s => program.prototypes[closure.protoIdx]? = some proto ∧
        L.Resting stack frames s)
      fun _ s => L.Beyond stack frames s := by
    intro s hs
    rw [Engine.run_orPanic]
    cases program.prototypes[closure.protoIdx]? with
    | none => exact hs.beyond
    | some proto => exact ⟨rfl, hs⟩
  refine hfind.bind fun proto => Exec.Meets.at_state fun s ⟨hproto, hs⟩ => ?_
  refine Exec.Meets.mono ((meets_lift (.trackAlloc (AllocSize.stackFrame proto.localCount)) stack
    frames).bind fun _ => Exec.Meets.get_bind fun s hs => ?_) (fun s' heq => heq ▸ hs)
    (fun _ _ h => h) fun _ _ h => h
  intro s' heq
  subst heq
  rw [Exec.run_bind, Engine.run_pushFrame]
  let f : CallFrame := ⟨closure.protoIdx, 0, s'.stack.length, closure.upvalues, 1⟩
  have hlocals := meets_locals (f := f) (s := s') hproto rfl rfl hs (congrArg List.length hs.stack)
    fun c hkeep => quiet_bindArgs hkeep (min proto.paramCount.toNat proto.localCount.toNat) 0 args
  exact Exec.Meets.mono hlocals (fun _ h => h) (fun _ _ h => ⟨f, h⟩) (fun _ _ h => h) _ rfl

end Enter

section Calls

variable {H : Type} {inner : Run H LuaValue}

theorem meets_recordCall (callee : LuaValue) (args : List LuaValue) :
    Exec.Meets (L.Resting stack frames) (Engine.recordCall callee args)
      (fun _ => L.Resting stack frames)
      fun _ s => L.Beyond stack frames s := by
  intro s hs
  rw [Engine.run_recordCall]
  exact hs.core rfl fun e he => (List.mem_cons.mp he).elim (fun heq => .inr (heq ▸ trivial)) .inl

theorem restores_callComparator (hinner : L.EndsFrame inner) (comp a b : LuaValue) :
    L.Restores (Run.callComparator program inner comp a b) := by
  intro stack frames hheld
  have henter : Exec.Meets (L.Resting stack frames)
      (do
        let closure ← Engine.liftLua comp.asFunction
        Engine.recordCall comp [a, b]
        Engine.pushCallFrame program closure [a, b] 1)
      (fun _ s => ∃ f, L.Entered f stack frames s)
      fun _ s => L.Beyond stack frames s :=
    (meets_lift (.liftLua _) stack frames).bind fun _ =>
      (meets_recordCall comp [a, b]).bind fun _ => meets_pushCallFrame stack frames
  refine (meets_embed henter).bind fun _ => ?_
  have hrun : Exec.Meets (fun s : System H => ∃ f, L.Entered f stack frames s.machine) inner
      (fun _ s => L.Resting stack frames s.machine)
      fun _ s => L.Beyond stack frames s.machine :=
    Exec.Meets.at_state fun s ⟨f, hs⟩ => (hinner f stack frames hheld).at_one hs
  exact hrun.bind fun _ => Exec.Meets.pure fun _ hs => hs

theorem restores_sortValues (hinner : L.EndsFrame inner) (args arr : List LuaValue) :
    L.Restores (Run.sortValues program inner args arr) := by
  have hless : L.Restores
      (Run.embed (Engine.lift (mergeSort Vm.defaultLess arr.length arr)) : Run H _) :=
    .lift (mergeSort_closed (Q := Vm.Composed) .pure (fun hm hf => .bind hm fun b _ => hf b)
      Vm.defaultLess_composed ..)
  unfold Run.sortValues
  split
  · exact hless
  · exact hless
  · exact mergeSort_closed (Q := L.Restores) .pure .bind
      (fun a b => restores_callComparator hinner _ a b) arr.length arr

theorem restores_doTableSort (hinner : L.EndsFrame inner) (args : List LuaValue) :
    L.Restores (Run.doTableSort program inner args) := by
  refine .bind (.lift (.liftError (Run.sortTable_mild args))) fun t =>
    .bind (.lift (.getTable t)) fun content => ?_
  dsimp only
  split_ifs
  · exact .pure ()
  · exact .bind (.lift (.charge _)) fun _ => .bind (.lift (Vm.arrayValues_composed ..)) fun arr =>
      .bind (restores_sortValues hinner args arr) fun _ => .lift (Vm.writeBack_composed ..)

theorem restores_builtin (hinner : L.EndsFrame inner) (id : BuiltinId) (args : List LuaValue) :
    L.Restores (Run.builtin program inner id args) := by
  have hother : L.Restores (Run.callBuiltin id args : Run H LuaValue) :=
    .lift (.bind (Vm.callBuiltin_composed id args) fun _ _ => .pure _)
  cases id with
  | tableSort => exact .bind (restores_doTableSort hinner args) fun _ => .pure _
  | _ => exact hother

theorem Beyond.core (h : L.Beyond stack frames s) {core : Core}
    (hbits : core.target.wordBits = s.core.target.wordBits)
    (hgood : ∀ e ∈ core.history, e ∈ s.core.history ∨ e.IsSilent) :
    L.Beyond stack frames { s with core } :=
  ⟨h.stack, h.frames, hbits.trans h.bits,
    fun e he => (hgood e he).elim (h.good e) good_of_silent⟩

/-- An error that is caught takes the stack and the frames back to where they were. -/
theorem meets_protect {pre : System H → Prop} {m : Run H LuaValue}
    (h : Exec.Meets pre m (fun _ s => L.Resting stack frames s.machine)
      fun _ s => L.Beyond stack frames s.machine) :
    Exec.Meets pre (Run.protect stack.length frames.length m)
      (fun _ s => L.Resting stack frames s.machine)
      fun _ s => L.Beyond stack frames s.machine := by
  intro s hs
  have h := h s hs
  rw [Run.run_protect]
  rcases hrun : m.run s with ⟨(e | _ | _) | v, s'⟩
  · rw [hrun] at h
    have hbeyond := h
    dsimp only
    split_ifs
    · exact hbeyond
    have hunwind := hbeyond.core (Vm.Composed.wordBits (.charge GasCost.pcallUnwind) _)
      (Vm.Composed.silent (.charge GasCost.pcallUnwind) _)
    rw [Run.embed_bind, Exec.run_bind, Engine.charge, Run.run_embed (Engine.run_lift _ _)]
    rcases hcharge : (Vm.charge GasCost.pcallUnwind).run s'.machine.core with ⟨e' | _, core⟩
    all_goals rw [hcharge] at hunwind
    · exact hunwind
    · refine ⟨?_, ?_, hunwind.bits, hunwind.good⟩
      · exact (List.prefix_iff_eq_take.mp hunwind.stack).symm
      · exact (List.suffix_iff_eq_drop.mp hunwind.frames).symm
  · rw [hrun] at h
    exact h
  · rw [hrun] at h
    exact h
  · rw [hrun] at h
    exact h

theorem restores_protectedCall (hinner : L.EndsFrame inner) (func : LuaValue)
    (args : List LuaValue) : L.Restores (Run.protectedCall program inner func args) := by
  refine fun stack frames hheld => Exec.Meets.get_bind fun s hs => ?_
  have hstack : s.machine.stack.length = stack.length := congrArg _ hs.stack
  have hframes : s.machine.frames.length = frames.length := congrArg _ hs.frames
  cases func with
  | builtin id =>
    dsimp only
    rw [hstack, hframes]
    exact (meets_protect (restores_builtin hinner id args stack frames hheld)).at_one hs
  | function closure =>
    dsimp only
    rw [hstack, hframes]
    split_ifs
    · exact Exec.Meets.pure fun _ heq => heq ▸ hs
    · refine Exec.Meets.at_one ((meets_embed (meets_pushCallFrame stack frames)).bind fun _ => ?_) hs
      exact meets_protect (Exec.Meets.at_state fun s' ⟨f, hs'⟩ => (hinner f stack frames hheld).at_one hs')
  | _ => exact Exec.Meets.pure fun _ heq => heq ▸ hs

theorem restores_askTool [HostInterface H] (name : Bytes) (args : LuaTable LuaValue) :
    L.Restores (Run.askTool name args : Run H (LuaTable LuaValue)) := by
  refine fun stack frames _ => Exec.Meets.get_bind fun s hs => ?_
  have hcall := ToolRegistry.run_call name args s.machine.config
    ⟨s.registry, s.transcript, s.machine.core⟩
  intro s' heq
  rw [heq, Exec.run_zoom]
  dsimp only
  rw [hcall]
  dsimp only
  cases ToolRegistry.accept s.registry s.machine.core.heap args s.machine.config with
  | error e => exact hs.beyond
  | ok argsCanonical =>
    dsimp only
    let asked := ToolRegistry.ask name args
      (ToolRegistry.counted argsCanonical.length ⟨s.registry, s.transcript, s.machine.core⟩)
    have hasked : L.Resting stack frames { s.machine with core := asked.2.core } :=
      hs.core rfl fun e he => (List.mem_cons.mp he).elim (fun heq => .inr (heq ▸ trivial)) .inl
    have hext := ToolRegistry.settle_extends name argsCanonical s.machine.config asked.1 asked.2
    have hsettled := hasked.core (congrArg Target.wordBits hext.grows.target) hext.silent
    rcases hsettle : ToolRegistry.settle name argsCanonical s.machine.config asked.1 asked.2 with
      ⟨e | response, out⟩
    all_goals rw [hsettle] at hsettled
    · exact hsettled.beyond
    · exact hsettled

end Calls

end Layout

namespace Region

variable {c : Region} {pc n : Nat} {s s' : Machine}

/-- The frame may be gone, or others may be on top of it. -/
structure Left (c : Region) (s : Machine) : Prop where
  frames : c.rest <:+ s.frames
  floor : c.floor ≤ s.stack.length
  slots : ∀ i < c.floor, c.keep i → s.stack[i]? = c.stack[i]?
  bits : s.core.target.wordBits = c.bits
  good : ∀ e ∈ s.core.history, c.good e

theorem At.left (h : c.At pc n s) : c.Left s :=
  ⟨by rw [h.frames]; exact List.suffix_cons .., h.length ▸ h.floor, h.slots, h.bits, h.good⟩

theorem Does.left {α β : Type} {m : Engine α} {k : α → Engine β} {mid : α → Nat → Nat → Prop}
    {post : β → Machine → Prop} (hm : c.Does pc n m mid)
    (hk : ∀ a pc' n', mid a pc' n' → Exec.Meets (c.At pc' n') (k a) post
      fun _ s => c.Left s) :
    Exec.Meets (c.At pc n) (m >>= k) post fun _ s => c.Left s := by
  intro s hs
  have hdoes := hm s hs
  rw [Exec.run_bind]
  rcases hrun : m.run s with ⟨stop | a, s'⟩
  all_goals rw [hrun] at hdoes
  · obtain ⟨pc', n', hs'⟩ := hdoes
    exact hs'.left
  · obtain ⟨pc', n', hmid, hs'⟩ := hdoes
    exact hk a pc' n' hmid s' hs'

/-- From a position and a number of slots a computation of the whole system stays above the
floor. -/
def Runs {H α : Type} (c : Region) (pc n : Nat) (m : Run H α) (post : α → Machine → Prop) : Prop :=
  Exec.Meets (fun s => c.At pc n s.machine) m (fun a s => post a s.machine)
    fun _ s => c.Left s.machine

section Runs

variable {H α β : Type} {post : β → Machine → Prop}

theorem does_then {m : Engine α} {k : α → Run H β} {mid : α → Nat → Nat → Prop}
    (hm : c.Does pc n m mid)
    (hk : ∀ a pc' n', mid a pc' n' → c.Runs pc' n' (k a) post) :
    c.Runs pc n (Run.embed m >>= k) post := by
  intro s hs
  have hdoes := hm s.machine hs
  rw [Exec.run_bind]
  rcases hrun : m.run s.machine with ⟨stop | a, machine⟩
  all_goals
    rw [hrun] at hdoes
    rw [Run.run_embed hrun]
  · obtain ⟨pc', n', hs'⟩ := hdoes
    exact hs'.left
  · obtain ⟨pc', n', hmid, hs'⟩ := hdoes
    exact hk a pc' n' hmid _ hs'

theorem runs_embed {m : Engine β} {mid : β → Nat → Nat → Prop}
    (hm : c.Does pc n m mid)
    (hpost : ∀ a pc' n' s, mid a pc' n' → c.At pc' n' s →
      post a s) : c.Runs pc n (Run.embed m : Run H β) post := by
  intro s hs
  have hdoes := hm s.machine hs
  rcases hrun : m.run s.machine with ⟨stop | a, machine⟩
  all_goals
    rw [hrun] at hdoes
    rw [Run.run_embed hrun]
  · obtain ⟨pc', n', hs'⟩ := hdoes
    exact hs'.left
  · obtain ⟨pc', n', hmid, hs'⟩ := hdoes
    exact hpost a pc' n' _ hmid hs'

theorem quiet_then {m : Engine α} {k : α → Run H β}
    (hm : c.Quiet m)
    (hk : ∀ a, c.Runs pc n (k a) post) :
    c.Runs pc n (Run.embed m >>= k) post :=
  does_then (hm pc n) fun a _ _ ⟨hpc, hn⟩ => by
    rw [hpc, hn]
    exact hk a

theorem get_then {k : System H → Run H β}
    (hk : ∀ s, c.Runs pc n (k s) post) :
    c.Runs pc n (Exec.get >>= k) post :=
  fun s hs => hk s s hs

theorem raise_runs (hc : c.Sound) (e : VmError) :
    c.Runs pc n (Run.embed (Engine.raise e) : Run H β) post := by
  intro s hs
  rw [Run.run_embed (Engine.run_raise s.machine e)]
  exact (hs.noteRaise hc e).left

end Runs

end Region

namespace Layout

variable {program : CompiledProgram} {L : Layout program} {stack : List OwnedSlot}
  {f : CallFrame} {rest : List CallFrame} {floor pc n : Nat} {keep : Nat → Prop} {s s' : Machine}

theorem resting_of_at (h : (L.region stack f rest floor keep).At pc n s) :
    L.Resting s.stack ({ f with pc } :: rest) s := ⟨rfl, h.frames, h.bits, h.good⟩

theorem Resting.at_region (h : (L.region stack f rest floor keep).At pc n s)
    (h' : L.Resting s.stack ({ f with pc } :: rest) s') :
    (L.region stack f rest floor keep).At pc n s' :=
  ⟨h'.frames, by rw [h'.stack, h.length], h.floor, by rw [h'.stack]; exact h.slots, h'.bits, h'.good⟩

theorem Beyond.left (h : (L.region stack f rest floor keep).At pc n s)
    (h' : L.Beyond s.stack ({ f with pc } :: rest) s') :
    (L.region stack f rest floor keep).Left s' where
  frames := (List.suffix_cons ..).trans h'.frames
  floor := (h.length ▸ h.floor).trans h'.stack.length_le
  slots i hi hkeep := by
    rw [← h.slots i hi hkeep]
    have hlt : i < s.stack.length := hi.trans_le (h.length ▸ h.floor)
    rw [List.prefix_iff_getElem?.mp h'.stack i hlt, List.getElem?_eq_getElem hlt]
  bits := h'.bits
  good := h'.good

section Dispatch

open Region (does_then runs_embed quiet_then get_then raise_runs)

variable {H α β : Type} {post : β → Machine → Prop} {inner : Run H LuaValue}

theorem restores_then {proto : FunctionProto} {m : Run H α} {k : α → Run H β}
    (hproto : program.prototypes[f.protoIdx]? = some proto)
    (hfloor : f.base + proto.localCount.toNat ≤ floor) (hm : L.Restores m)
    (hk : ∀ a, (L.region stack f rest floor keep).Runs pc n (k a) post) :
    (L.region stack f rest floor keep).Runs pc n (m >>= k) post := by
  intro s hs
  have hheld : Held program s.machine.stack ({ f with pc } :: rest) :=
    ⟨_, rest, proto, rfl, hproto, hfloor.trans (hs.length ▸ hs.floor)⟩
  have hrestores := hm _ _ hheld s (resting_of_at hs)
  rw [Exec.run_bind]
  rcases hrun : m.run s with ⟨stop | a, s'⟩
  all_goals rw [hrun] at hrestores
  · exact hrestores.left hs
  · exact hk a s' (hrestores.at_region hs)

/-- The call of a function puts its frame on top of what the arguments leave. -/
theorem pushCallFrame_runs (closure : LuaClosure) (args : List LuaValue) :
    (L.region stack f rest floor keep).Runs pc n
      (Run.embed (Engine.pushCallFrame program closure args 1) : Run H Unit) fun _ s' =>
        ∃ g below, L.Entered g below ({ f with pc } :: rest) s' ∧ below.length = n ∧
          ∀ i < floor, keep i → below[i]? = stack[i]? := by
  intro s hs
  have hmeets : Exec.Meets (L.Resting s.machine.stack ({ f with pc } :: rest))
      (Engine.pushCallFrame program closure args 1)
      (fun _ s' => ∃ g, L.Entered g s.machine.stack ({ f with pc } :: rest) s')
      fun _ s' => L.Beyond s.machine.stack ({ f with pc } :: rest) s' := meets_pushCallFrame _ _
  have hpush := meets_embed (H := H) hmeets s (resting_of_at hs)
  rcases hrun : (Run.embed (Engine.pushCallFrame program closure args 1) : Run H Unit).run s with
    ⟨stop | _, s'⟩
  all_goals rw [hrun] at hpush
  · exact hpush.left hs
  · obtain ⟨g, hentered⟩ := hpush
    exact ⟨g, s.machine.stack, hentered, hs.length, hs.slots⟩

variable {proto : FunctionProto}

/-- A function was called, whose frame is on top of what its arguments left. -/
def Called (L : Layout program) (c : Region) (pc n : Nat) (s' : Machine) : Prop :=
  ∃ g below, L.Entered g below ({ c.frame with pc } :: c.rest) s' ∧ below.length = n ∧
    ∀ i < c.floor, c.keep i → below[i]? = c.stack[i]?

theorem does_takeCall {c : Region} (hc : c.Sound) (argc : UInt8) (hn : c.floor ≤ n) :
    c.Does pc (n + (argc.toNat + 1)) (Engine.takeCall argc) (Region.Becomes pc n) := by
  have hnext : n + (argc.toNat + 1) = n + 1 + argc.toNat := by omega
  rw [hnext]
  refine Region.popValues_then hc _ (by omega) fun args _ => Region.popValue_then hc hn fun v =>
    (Region.quiet_resolveSentinel v).then_does fun func => ?_
  exact (Region.quiet_recordCall hc func args).then_does fun _ => .pure ⟨rfl, rfl⟩

theorem call_runs (hproto : program.prototypes[f.protoIdx]? = some proto)
    (hfloor : f.base + proto.localCount.toNat ≤ floor) (hinner : L.EndsFrame inner) (argc : UInt8)
    (hn : floor ≤ n) :
    (L.region stack f rest floor keep).Runs pc (n + (argc.toNat + 1))
      (Run.call program inner argc) fun _ s' =>
        (L.region stack f rest floor keep).At pc (n + 1) s' ∨
          L.Called (L.region stack f rest floor keep) pc n s' := by
  have hc : (L.region stack f rest floor keep).Sound := sound_region hproto hfloor
  refine quiet_then (Region.quiet_charge hc _) fun _ => get_then fun s => ?_
  dsimp only
  split_ifs
  · exact raise_runs hc _
  refine does_then (does_takeCall hc argc hn) fun out pc' n' ⟨hpc, hn'⟩ => ?_
  obtain ⟨func, args⟩ := out
  rw [hpc, hn']
  cases func with
  | builtin id =>
    refine restores_then hproto hfloor (restores_builtin hinner id args) fun v => ?_
    refine runs_embed (Region.does_push v) fun _ pc' n' s ⟨hpc, hn'⟩ hs => .inl ?_
    rwa [hpc, hn'] at hs
  | function closure =>
    exact (pushCallFrame_runs closure args).mono (fun _ hs => hs) (fun _ _ h => .inr h)
      fun _ _ h => h
  | _ => exact raise_runs hc _

/-- What keeps above a higher floor keeps above a lower one. -/
theorem At.lower {pc' n' floor' : Nat} (h : (L.region stack f rest floor keep).At pc n s)
    (h' : (L.region s.stack f rest floor' fun _ => True).At pc' n' s') (hfloor : floor ≤ floor') :
    (L.region stack f rest floor keep).At pc' n' s' :=
  ⟨h'.frames, h'.length, hfloor.trans h'.floor,
    fun i hi hkeep => (h'.slots i (lt_of_lt_of_le hi hfloor) trivial).trans (h.slots i hi hkeep),
    h'.bits, h'.good⟩

theorem Left.lower {floor' : Nat} (h : (L.region stack f rest floor keep).At pc n s)
    (h' : (L.region s.stack f rest floor' fun _ => True).Left s') (hfloor : floor ≤ floor') :
    (L.region stack f rest floor keep).Left s' :=
  ⟨h'.frames, hfloor.trans h'.floor,
    fun i hi hkeep => (h'.slots i (lt_of_lt_of_le hi hfloor) trivial).trans (h.slots i hi hkeep),
    h'.bits, h'.good⟩

theorem stack_eq_take (h : (L.region stack f rest n fun _ => True).At pc n s) :
    s.stack = stack.take n := by
  refine List.ext_getElem? fun i => ?_
  by_cases hi : i < n
  · rw [List.getElem?_take_of_lt hi, h.slots i hi trivial]
    rfl
  · rw [List.getElem?_eq_none (h.length ▸ not_lt.mp hi),
      List.getElem?_eq_none ((List.length_take_le n stack).trans (not_lt.mp hi))]

theorem run_pushTwo (v w : LuaValue) (s : Machine) : ∃ ghost,
    (do Engine.push v; Engine.push w : Engine Unit).run s =
      (.ok (), { s with
        stack := s.stack ++ [⟨s.ghost.nextOwner, .value v⟩, ⟨s.ghost.nextOwner + 1, .value w⟩]
        ghost }) := by
  refine ⟨{ s.ghost with nextOwner := s.ghost.nextOwner + 1 + 1 }, ?_⟩
  refine (Exec.run_bind_ok (Engine.run_pushSlot s (.value v))).trans ?_
  rw [Engine.push, Engine.run_pushSlot, List.append_assoc, List.singleton_append]

/-- The flag and the value are pushed, whatever the outcome. -/
theorem run_pushOutcome (outcome : Except VmError LuaValue) (s : System H) :
    ∃ top ghost, top.map OwnedSlot.slot = outcomeSlots outcome ∧
      (Run.pushOutcome outcome).run s =
        (.ok (), { s with machine := { s.machine with stack := s.machine.stack ++ top, ghost } }) := by
  cases outcome with
  | ok v =>
    obtain ⟨ghost, hrun⟩ := run_pushTwo (.boolean true) v s.machine
    exact ⟨_, ghost, rfl, Run.run_embed hrun⟩
  | error e =>
    obtain ⟨ghost, hrun⟩ := run_pushTwo (.boolean false) (Engine.errorToLuaValue e) s.machine
    exact ⟨_, ghost, rfl, Run.run_embed hrun⟩

theorem pcall_runs (hproto : program.prototypes[f.protoIdx]? = some proto)
    (hfloor : f.base + proto.localCount.toNat ≤ floor) (hinner : L.EndsFrame inner) (argc : UInt8)
    (hn : floor ≤ n) :
    (L.region stack f rest floor keep).Runs pc (n + (argc.toNat + 1))
      (Run.pcall program inner argc) fun _ s' =>
        (L.region stack f rest floor keep).At pc (n + 2) s' := by
  have hc : (L.region stack f rest floor keep).Sound := sound_region hproto hfloor
  refine quiet_then (Region.quiet_charge hc _) fun _ => Exec.Meets.get_bind fun s hs => ?_
  have hc' : (L.region s.machine.stack f rest n fun _ => True).Sound :=
    sound_region hproto (hfloor.trans hn)
  have hat : (L.region s.machine.stack f rest n fun _ => True).At pc (n + (argc.toNat + 1))
      s.machine := ⟨hs.frames, hs.length, Nat.le_add_right .., fun _ _ _ => rfl, hs.bits, hs.good⟩
  have hrest : (L.region s.machine.stack f rest n fun _ => True).Runs pc (n + (argc.toNat + 1))
      (do
        let call ← Run.embed (Engine.takeCall argc)
        let outcome ← Run.protectedCall program inner call.1 call.2
        Run.pushOutcome outcome
        let after := (← Exec.get).machine
        Run.embed (Engine.record (.pcall argc.toNat s.machine.frames s.machine.stack outcome
          after.frames after.stack)) : Run H Unit)
      fun _ s' => (L.region s.machine.stack f rest n fun _ => True).At pc (n + 2) s' := by
    refine does_then (does_takeCall hc' argc le_rfl) fun out _ _ hpost => ?_
    obtain ⟨hpc, hn'⟩ := hpost
    rw [hpc, hn']
    refine restores_then hproto (hfloor.trans hn) (restores_protectedCall hinner out.1 out.2) fun outcome s₁ hs₁ => ?_
    obtain ⟨top, ghost, htop, hrun⟩ := run_pushOutcome outcome s₁
    have hlength : top.length = 2 := by
      rw [← List.length_map (f := OwnedSlot.slot), htop]
      cases outcome <;> rfl
    have hstack : s₁.machine.stack = s.machine.stack.take n := stack_eq_take hs₁
    rw [Exec.run_bind_ok hrun]
    have hlen : (s₁.machine.stack ++ top).length = n + 2 := by
      rw [List.length_append, hs₁.length, hlength]
    refine ⟨hs₁.frames, hlen, Nat.le_add_right .., fun i hi hkeep => ?_, hs₁.bits, fun e he => ?_⟩
    · rw [← hs₁.slots i hi hkeep]
      exact List.getElem?_append_left (hs₁.length.symm ▸ hi)
    · rcases List.mem_cons.mp he with rfl | he
      · refine ⟨hs₁.frames.trans hs.frames.symm, ?_, top, ?_, htop⟩
        · rw [hs.length]
          omega
        · dsimp only
          rw [hs.length, Nat.add_sub_cancel, hstack]
      · exact hs₁.good e he
  exact (hrest.at_one hat).mono (fun _ h => h) (fun _ _ h => At.lower hs h hn)
    fun _ _ h => Left.lower hs h hn

theorem toolCall_runs [HostInterface H] (hproto : program.prototypes[f.protoIdx]? = some proto)
    (hfloor : f.base + proto.localCount.toNat ≤ floor) (hn : floor ≤ n) :
    (L.region stack f rest floor keep).Runs pc (n + 2) (Run.toolCall : Run H Unit) fun _ s' =>
      (L.region stack f rest floor keep).At pc (n + 1) s' := by
  have hc : (L.region stack f rest floor keep).Sound := sound_region hproto hfloor
  have hargs : (L.region stack f rest floor keep).Does pc (n + 2) Run.toolArgs
      (Region.Becomes pc n) := by
    refine Region.popValue_then hc (Nat.le_succ_of_le hn) fun args =>
      Region.popValue_then hc hn fun name => ?_
    cases name with
    | string name =>
      cases args with
      | table t => exact (Region.quiet_lift hc (.getTable t)).then_does fun _ => .pure ⟨rfl, rfl⟩
      | _ => exact Region.does_raise hc _
    | _ => exact Region.does_raise hc _
  refine does_then hargs fun out _ _ ⟨hpc, hn'⟩ => ?_
  rw [hpc, hn']
  refine restores_then hproto hfloor (restores_askTool out.1 out.2) fun response => ?_
  refine runs_embed ((Region.quiet_lift hc (.allocResponse _)).then_does fun t =>
    Region.does_push (.table t)) fun _ _ _ _ ⟨hpc, hn'⟩ hs => ?_
  rwa [hpc, hn'] at hs

/-- The frame is gone, and the stack is what was below it, with a value on top of it unless the
frame was the last. -/
structure Returned (c : Region) (out : Option LuaValue) (s' : Machine) : Prop where
  frames : s'.frames = c.rest
  last : out.isSome ↔ c.rest = []
  length : s'.stack.length = c.frame.base + if out.isSome then 0 else 1
  slots : ∀ i < c.frame.base, c.keep i → s'.stack[i]? = c.stack[i]?
  bits : s'.core.target.wordBits = c.bits
  good : ∀ e ∈ s'.core.history, c.good e

theorem run_doReturn {c : Region} (hc : c.Sound) (hbase : c.frame.base ≤ c.floor)
    (hreturns : c.frame.expectedReturns = 1) (k : Nat) (hn : c.floor ≤ n) :
    Exec.Meets (c.At pc (n + k)) (Engine.doReturn k) (fun out s' => Returned c out s')
      fun _ s' => c.Left s' := by
  refine (Region.does_popValues hc k (by omega)).left fun vs pc' n' ⟨_, hpc, hn'⟩ s hs => ?_
  obtain rfl : n' = n := by omega
  rw [hpc] at hs
  rw [Exec.run_bind, Engine.run_topFrame, hs.frames]
  have hslots : ∀ i < c.frame.base, c.keep i →
      (s.stack.take c.frame.base)[i]? = c.stack[i]? := fun i hi hkeep =>
    (List.getElem?_take_of_lt hi).trans (hs.slots i (hi.trans_le hbase) hkeep)
  have hlength : (s.stack.take c.frame.base).length = c.frame.base :=
    List.length_take_of_le (by rw [hs.length]; omega)
  simp only [List.head?_cons, Exec.run_bind, Engine.popFrame, Engine.truncateStack,
    Exec.run_modify, Exec.run_get, hs.frames, List.tail_cons]
  by_cases hrest : c.rest = []
  · rw [if_pos hrest]
    exact ⟨rfl, by simp [hrest], hlength, hslots, hs.bits, hs.good⟩
  · rw [if_neg hrest, if_pos hreturns.ge]
    refine ⟨rfl, by simp [hrest], ?_, fun i hi hkeep => ?_, hs.bits, hs.good⟩
    · rw [List.length_append, hlength]
      rfl
    · rw [← hslots i hi hkeep]
      exact List.getElem?_append_left (hlength.symm ▸ hi)

/-- What an instruction of a frame leads to: another position, a frame on top, or the frame's
end. -/
inductive Dispatched (L : Layout program) (c : Region) (pc n : Nat) (instr : Instruction) :
    Option LuaValue → Machine → Prop
  | goes {pc' n' s'} (hgoes : instr.Goes c.bits pc n pc' n') (hat : c.At pc' n' s') :
    Dispatched L c pc n instr none s'
  | called {argc m s'} (hinstr : instr = .call argc) (hn : n = m + (argc.toNat + 1))
    (hcalled : L.Called c pc m s') : Dispatched L c pc n instr none s'
  | returned {k out s'} (hinstr : instr = .ret k) (hreturned : Returned c out s') :
    Dispatched L c pc n instr out s'

theorem dispatch_runs [HostInterface H] (hproto : program.prototypes[f.protoIdx]? = some proto)
    (hfloor : f.base + proto.localCount.toNat ≤ floor) (hreturns : f.expectedReturns = 1)
    (hinner : L.EndsFrame inner) {instr : Instruction} (hn : floor + instr.pops ≤ n)
    (htouched : ∀ slot ∈ instr.touched program, ¬keep (f.base + slot.toNat)) :
    (L.region stack f rest floor keep).Runs pc n (Run.dispatch program inner instr)
      (L.Dispatched (L.region stack f rest floor keep) pc n instr) := by
  have hc : (L.region stack f rest floor keep).Sound := sound_region hproto hfloor
  obtain ⟨k, rfl⟩ : ∃ k, n = k + instr.pops := ⟨n - instr.pops, by omega⟩
  have hk : floor ≤ k := by omega
  have hturn : (L.region stack f rest floor keep).Quiet (do
      Engine.charge GasCost.baseInstruction
      Engine.record .charged) :=
    (Region.quiet_charge hc _).bind fun _ => Region.quiet_record (hc.silent _ trivial)
  have hnone {m : Run H Unit} {mid : Unit → Machine → Prop}
      (hm : (L.region stack f rest floor keep).Runs pc (k + instr.pops) m mid)
      (hmid : ∀ s', mid () s' →
        L.Dispatched (L.region stack f rest floor keep) pc (k + instr.pops) instr none s') :
      (L.region stack f rest floor keep).Runs pc (k + instr.pops)
        (m >>= fun _ => pure (none : Option LuaValue))
        (L.Dispatched (L.region stack f rest floor keep) pc (k + instr.pops) instr) :=
    Exec.Meets.bind hm fun _ => Exec.Meets.pure fun s hs => hmid s.machine hs
  refine quiet_then hturn fun _ => ?_
  have hperform (hperformed : instr.IsPerformed) :
      (L.region stack f rest floor keep).Runs pc (k + instr.pops)
        (Run.embed (Engine.perform program instr) >>= fun _ => pure none : Run H _)
        (L.Dispatched (L.region stack f rest floor keep) pc (k + instr.pops) instr) :=
    does_then (Region.does_perform hc hperformed hn htouched) fun _ pc' n' hgoes =>
      Exec.Meets.pure fun s hs => .goes hgoes hs
  cases instr with
  | call argc =>
    exact hnone (call_runs hproto hfloor hinner argc hk) fun s' hs' =>
      hs'.elim (fun hat => .goes ⟨rfl, Nat.add_right_comm ..⟩ hat) fun hcalled =>
        .called rfl rfl hcalled
  | pcall argc =>
    exact hnone (pcall_runs hproto hfloor hinner argc hk) fun s' hat =>
      .goes ⟨rfl, Nat.add_right_comm ..⟩ hat
  | toolCall =>
    exact hnone (toolCall_runs hproto hfloor hk) fun s' hat => .goes ⟨rfl, rfl⟩ hat
  | ret m =>
    dsimp only
    rw [Run.embed_bind]
    refine quiet_then (Region.quiet_charge hc _) fun _ => ?_
    have hreturn : Exec.Meets ((L.region stack f rest floor keep).At pc (k + m.toNat))
        (Engine.doReturn m.toNat) (Returned (L.region stack f rest floor keep))
        fun _ s' => (L.region stack f rest floor keep).Left s' :=
      run_doReturn hc ((Nat.le_add_right ..).trans hfloor) hreturns m.toNat hk
    exact (meets_embed hreturn).mono (fun _ h => h) (fun _ _ h => .returned rfl h) fun _ _ h => h
  | _ => exact hperform trivial

end Dispatch

end Layout

end Proveno
