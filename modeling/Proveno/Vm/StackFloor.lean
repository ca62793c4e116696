import Proveno.Lib.Triple
import Proveno.Vm.DispatchComposed

/-! What an instruction does to the stack: how many slots it takes off it and puts on it,
where its frame goes on, and that nothing happens below a floor that it does not pop through
except to the slots that it names. -/

namespace Proveno

/-- The events that say nothing about the stack. -/
def Event.IsSilent : Event → Prop
  | .dispatch .. | .pop .. | .pcall .. => False
  | _ => True

theorem Event.IsStored.isSilent {e : Event} (h : e.IsStored) : e.IsSilent := by
  cases e with
  | store | response => trivial
  | _ => exact h.elim

theorem Vm.Composed.wordBits {α : Type} {m : Vm α} (h : Composed m) (c : Core) :
    (m.run c).2.target.wordBits = c.target.wordBits :=
  congrArg Target.wordBits (h.extends c).grows.target

theorem Vm.Extends.silent {α : Type} {r : Except Stop α} {c c' : Core} (h : Extends c r c') :
    ∀ e ∈ c'.history, e ∈ c.history ∨ e.IsSilent := by
  obtain ⟨es, hes, hstored⟩ := h.history
  intro e he
  rw [hes, List.mem_append, List.mem_append] at he
  rcases he with (he | he) | he
  · refine .inr ?_
    unfold fatalMark at he
    split at he
    · split_ifs at he
      · rw [List.mem_singleton.mp he]
        trivial
      · cases he
    · cases he
  · exact .inr (hstored e he).isSilent
  · exact .inl he

theorem Vm.Composed.silent {α : Type} {m : Vm α} (h : Composed m) (c : Core) :
    ∀ e ∈ (m.run c).2.history, e ∈ c.history ∨ e.IsSilent := (h.extends c).silent

namespace Instruction

/-- How many slots an instruction needs on the stack. -/
def pops : Instruction → Nat
  | pop | dup | storeLocal _ | storeUp _ | getField _ | neg | not | len | log | error => 1
  | jmpIf _ | jmpIfNot _ | and _ | or _ => 1
  | iterInitSorted _ | iterInitArray _ | iterNext _ => 1
  | getTable | setField _ | toolCall => 2
  | add | sub | mul | iDiv | mod | eq | ne | lt | le | gt | ge => 2
  | setTable => 3
  | concat n | ret n => n.toNat
  | call argc | pcall argc => argc.toNat + 1
  | _ => 0

/-- How many slots an instruction that does not branch leaves for those it needs. -/
def pushes : Instruction → Nat
  | dup | pcall _ => 2
  | nop | pop | storeLocal _ | storeUp _ | setTable | setField _ | log | error | ret _ | jmp _ => 0
  | _ => 1

/-- The slots of the frame that an instruction may give a value or share. -/
def touched (program : CompiledProgram) : Instruction → List UInt8
  | storeLocal slot => [slot]
  | closure idx =>
    match program.prototypes[idx.toNat]? with
    | some proto => proto.upvalues.filterMap fun
      | .local slot => some slot
      | .upvalue _ => none
    | none => []
  | _ => []

/-- Where a jump from before this position leads. -/
def jumpDest (bits pc : Nat) (off : Int16) : Nat :=
  let target := (pc : Int) + off.toInt
  if 0 ≤ target then target.toNat else (target % 2 ^ bits).toNat

/-- The instructions that do not call, return or ask the host. -/
def IsPerformed : Instruction → Prop
  | call _ | pcall _ | toolCall | ret _ => False
  | _ => True

/-- The position and the number of slots after an instruction, whose position the frame has
moved past. -/
def Goes (bits : Nat) (instr : Instruction) (pc n pc' n' : Nat) : Prop :=
  match instr with
  | jmp off => pc' = jumpDest bits pc off ∧ n' = n
  | jmpIf off | jmpIfNot off => (pc' = pc ∨ pc' = jumpDest bits pc off) ∧ n' + 1 = n
  | and off | or off => (pc' = pc ∨ pc' = jumpDest bits pc off) ∧ n' = n
  | iterInitSorted off | iterInitArray off =>
    pc' = pc ∧ n' = n ∨ pc' = jumpDest bits pc off ∧ n' + 1 = n
  | iterNext off => pc' = pc ∧ n' = n + 2 ∨ pc' = jumpDest bits pc off ∧ n' + 1 = n
  | ret _ | error => False
  | instr => pc' = pc ∧ n' + instr.pops = n + instr.pushes

end Instruction

/-- A frame, the frames around it, and the part of the stack below a floor. -/
structure Region where
  stack : List OwnedSlot
  frame : CallFrame
  rest : List CallFrame
  floor : Nat
  keep : Nat → Prop
  bits : Nat
  good : Event → Prop

namespace Region

variable {c : Region} {pc n : Nat} {s : Machine}

/-- The machine is in the frame, with so many slots on the stack, of which those below the
floor that are to be kept are as they were. -/
structure At (c : Region) (pc n : Nat) (s : Machine) : Prop where
  frames : s.frames = { c.frame with pc } :: c.rest
  length : s.stack.length = n
  floor : c.floor ≤ n
  slots : ∀ i < c.floor, c.keep i → s.stack[i]? = c.stack[i]?
  bits : s.core.target.wordBits = c.bits
  good : ∀ e ∈ s.core.history, c.good e

/-- The events of computations that stay above the floor are good. -/
structure Sound (c : Region) : Prop where
  silent : ∀ e, e.IsSilent → c.good e
  pop : ∀ pc k, c.floor ≤ k → c.good (.pop ({ c.frame with pc } :: c.rest) k)

/-- From a position and a number of slots the computation stays above the floor. -/
def Does {α : Type} (c : Region) (pc n : Nat) (m : Engine α) (post : α → Nat → Nat → Prop) : Prop :=
  Exec.Meets (c.At pc n) m (fun a s => ∃ pc' n', post a pc' n' ∧ c.At pc' n' s)
    fun _ s => ∃ pc' n', c.At pc' n' s

theorem At.core (h : c.At pc n s) {core : Core}
    (hbits : core.target.wordBits = s.core.target.wordBits)
    (hgood : ∀ e ∈ core.history, e ∈ s.core.history ∨ c.good e) : c.At pc n { s with core } :=
  ⟨h.frames, h.length, h.floor, h.slots, hbits.trans h.bits,
    fun e he => (hgood e he).elim (h.good e) id⟩

theorem At.record (h : c.At pc n s) {e : Event} (he : c.good e) :
    c.At pc n { s with core := s.core.record e } :=
  h.core rfl fun _ he' => (List.mem_cons.mp he').elim (fun heq => .inr (heq ▸ he)) .inl

theorem At.noteRaise (h : c.At pc n s) (hc : c.Sound) (e : VmError) :
    c.At pc n { s with core := s.core.noteRaise e } := by
  unfold Core.noteRaise
  split_ifs
  · exact h.record (hc.silent _ trivial)
  · exact h

theorem At.push (h : c.At pc n s) (slot : OwnedSlot) (ghost : Ghost) :
    c.At pc (n + 1) { s with stack := s.stack ++ [slot], ghost } where
  frames := h.frames
  length := by rw [List.length_append, h.length]; rfl
  floor := h.floor.trans (Nat.le_succ n)
  slots i hi hkeep := by
    rw [← h.slots i hi hkeep]
    exact List.getElem?_append_left (by rw [h.length]; exact hi.trans_le h.floor)
  bits := h.bits
  good := h.good

theorem At.pop (h : c.At pc (n + 1) s) (hfloor : c.floor ≤ n) :
    c.At pc n { s with stack := s.stack.dropLast } where
  frames := h.frames
  length := by rw [List.length_dropLast, h.length]; rfl
  floor := hfloor
  slots i hi hkeep := by
    rw [← h.slots i hi hkeep, List.dropLast_eq_take, h.length]
    exact List.getElem?_take_of_lt (hi.trans_le hfloor)
  bits := h.bits
  good := h.good

theorem At.set (h : c.At pc n s) {idx : Nat} (hidx : ¬c.keep idx) (slot : OwnedSlot)
    (ghost : Ghost) : c.At pc n { s with stack := s.stack.set idx slot, ghost } where
  frames := h.frames
  length := by rw [List.length_set, h.length]
  floor := h.floor
  slots i hi hkeep := by
    have hne : idx ≠ i := by
      rintro rfl
      exact hidx hkeep
    exact (List.getElem?_set_ne hne).trans (h.slots i hi hkeep)
  bits := h.bits
  good := h.good

theorem At.jump (h : c.At pc n s) (pc' : Nat) :
    c.At pc' n { s with frames := { c.frame with pc := pc' } :: c.rest } :=
  ⟨rfl, h.length, h.floor, h.slots, h.bits, h.good⟩

namespace Does

variable {α β : Type} {m : Engine α} {post : α → Nat → Nat → Prop}

theorem pure {a : α} (h : post a pc n) : c.Does pc n (Pure.pure a) post :=
  Exec.Meets.pure fun _ hs => ⟨pc, n, h, hs⟩

theorem bind {f : α → Engine β} {post' : β → Nat → Nat → Prop} (hm : c.Does pc n m post)
    (hf : ∀ a pc' n', post a pc' n' → c.Does pc' n' (f a) post') :
    c.Does pc n (m >>= f) post' :=
  Exec.Meets.bind hm fun a => fun s ⟨pc', n', hpost, hs⟩ => hf a pc' n' hpost s hs

theorem mono (h : c.Does pc n m post) {post' : α → Nat → Nat → Prop}
    (hpost : ∀ a pc' n', post a pc' n' → post' a pc' n') : c.Does pc n m post' :=
  Exec.Meets.mono h (fun _ hs => hs) (fun _ _ ⟨pc', n', hp, hs⟩ => ⟨pc', n', hpost _ _ _ hp, hs⟩)
    fun _ _ hfailed => hfailed

/-- What follows for the state that the computation starts from. -/
theorem elim (h : c.Does pc n m post) (hs : c.At pc n s) {post' : α → Machine → Prop}
    {failed : Machine → Prop} (hpost : ∀ a pc' n' s', post a pc' n' → c.At pc' n' s' → post' a s')
    (hfailed : ∀ pc' n' s', c.At pc' n' s' → failed s') :
    Exec.Meets (· = s) m post' fun _ s' => failed s' := by
  rintro _ rfl
  have h := h _ hs
  rcases hrun : m.run _ with ⟨stop | a, s'⟩
  · rw [hrun] at h
    obtain ⟨pc', n', hs'⟩ := h
    exact hfailed pc' n' s' hs'
  · rw [hrun] at h
    obtain ⟨pc', n', hp, hs'⟩ := h
    exact hpost a pc' n' s' hp hs'

end Does

/-- The position and the number of slots are the ones given. -/
def Stays {α : Type} (pc n : Nat) : α → Nat → Nat → Prop := fun _ pc' n' => pc' = pc ∧ n' = n

/-- The computation leaves the position and the number of slots as they are. -/
def Quiet {α : Type} (c : Region) (m : Engine α) : Prop := ∀ pc n, c.Does pc n m (Stays pc n)

namespace Quiet

variable {α β : Type} {m : Engine α} {f : α → Engine β}

theorem pure (a : α) : c.Quiet (Pure.pure a) := fun _ _ => .pure ⟨rfl, rfl⟩

theorem then_does {post : β → Nat → Nat → Prop} (hm : c.Quiet m)
    (hf : ∀ a, c.Does pc n (f a) post) : c.Does pc n (m >>= f) post :=
  (hm pc n).bind fun a _ _ ⟨hpc, hn⟩ => by
    rw [hpc, hn]
    exact hf a

theorem bind (hm : c.Quiet m) (hf : ∀ a, c.Quiet (f a)) : c.Quiet (m >>= f) :=
  fun pc n => hm.then_does fun a => hf a pc n

end Quiet

section Primitive

variable {α : Type}

theorem quiet_lift (hc : c.Sound) {m : Vm α} (hm : Vm.Composed m) : c.Quiet (Engine.lift m) := by
  intro pc n s hs
  have hat : c.At pc n { s with core := (m.run s.core).2 } :=
    hs.core (hm.wordBits s.core) fun e he => (hm.silent s.core e he).imp_right (hc.silent e)
  rw [Engine.run_lift]
  cases (m.run s.core).1 with
  | ok a => exact ⟨pc, n, ⟨rfl, rfl⟩, hat⟩
  | error stop => exact ⟨pc, n, hat⟩

theorem does_raise (hc : c.Sound) (e : VmError) {post : α → Nat → Nat → Prop} :
    c.Does pc n (Engine.raise e) post := by
  intro s hs
  rw [Engine.run_raise]
  exact ⟨pc, n, hs.noteRaise hc e⟩

theorem quiet_raise (hc : c.Sound) (e : VmError) : c.Quiet (Engine.raise e : Engine α) :=
  fun _ _ => does_raise hc e

theorem quiet_charge (hc : c.Sound) (k : Nat) : c.Quiet (Engine.charge k) :=
  quiet_lift hc (.charge k)

theorem quiet_liftLua (hc : c.Sound) (r : Except LuaError α) : c.Quiet (Engine.liftLua r) :=
  quiet_lift hc (.liftLua r)

theorem does_orPanic {o : Option α} {post : α → Nat → Nat → Prop}
    (h : ∀ a, o = some a → post a pc n) : c.Does pc n (Engine.orPanic o) post := by
  intro s hs
  rw [Engine.run_orPanic]
  cases o with
  | some a => exact ⟨pc, n, h a rfl, hs⟩
  | none => exact ⟨pc, n, hs⟩

theorem quiet_orPanic (o : Option α) : c.Quiet (Engine.orPanic o) :=
  fun _ _ => does_orPanic fun _ _ => ⟨rfl, rfl⟩

theorem quiet_read (f : Machine → α) : c.Quiet ⟨fun s => (.ok (f s), s)⟩ :=
  fun pc n _ hs => ⟨pc, n, ⟨rfl, rfl⟩, hs⟩

theorem quiet_get : c.Quiet Exec.get := quiet_read id

theorem quiet_record {e : Event} (he : c.good e) : c.Quiet (Engine.record e) := by
  intro pc n s hs
  rw [Engine.run_record]
  exact ⟨pc, n, ⟨rfl, rfl⟩, hs.record he⟩

theorem quiet_recordCall (hc : c.Sound) (callee : LuaValue) (args : List LuaValue) :
    c.Quiet (Engine.recordCall callee args) :=
  quiet_get.bind fun _ => quiet_record (hc.silent _ trivial)

theorem does_topFrame :
    c.Does pc n Engine.topFrame fun f pc' n' => f = { c.frame with pc } ∧ pc' = pc ∧ n' = n := by
  intro s hs
  rw [Engine.run_topFrame, hs.frames]
  exact ⟨pc, n, ⟨rfl, rfl, rfl⟩, hs⟩

theorem quiet_topFrame : c.Quiet Engine.topFrame :=
  fun _ _ => does_topFrame.mono fun _ _ _ ⟨_, hpc, hn⟩ => ⟨hpc, hn⟩

/-- A computation that begins by looking at the innermost frame. -/
theorem topFrame_then {β : Type} {f : CallFrame → Engine β} {post : β → Nat → Nat → Prop}
    (h : c.Does pc n (f { c.frame with pc }) post) : c.Does pc n (Engine.topFrame >>= f) post :=
  does_topFrame.bind fun frame _ _ ⟨hframe, hpc, hn⟩ => by
    rw [hframe, hpc, hn]
    exact h

theorem quiet_slotValue (hc : c.Sound) (slot : StackSlot) : c.Quiet (Engine.slotValue slot) := by
  cases slot with
  | value v => exact .pure v
  | shared cell => exact quiet_lift hc (.getCell cell)
  | iterHandle handle => exact quiet_raise hc _

theorem does_pushSlot (slot : StackSlot) :
    c.Does pc n (Engine.pushSlot slot) fun _ pc' n' => pc' = pc ∧ n' = n + 1 := by
  intro s hs
  rw [Engine.run_pushSlot]
  exact ⟨pc, n + 1, ⟨rfl, rfl⟩, hs.push ..⟩

theorem does_push (v : LuaValue) :
    c.Does pc n (Engine.push v) fun _ pc' n' => pc' = pc ∧ n' = n + 1 := does_pushSlot _

theorem does_popSlot (hc : c.Sound) (hn : c.floor < n) :
    c.Does pc n Engine.popSlot fun o pc' n' => o.isSome ∧ pc' = pc ∧ n' + 1 = n := by
  intro s hs
  obtain ⟨k, rfl⟩ : ∃ k, n = k + 1 := ⟨n - 1, by omega⟩
  have hne : s.stack ≠ [] := List.ne_nil_of_length_pos (by rw [hs.length]; omega)
  rw [Engine.run_popSlot, List.getLast?_eq_some_getLast hne]
  refine ⟨pc, k, ⟨rfl, rfl, rfl⟩, (hs.pop (by omega)).record ?_⟩
  rw [hs.frames, hs.length]
  exact hc.pop pc _ (by omega)

theorem does_popValue (hc : c.Sound) (hn : c.floor < n) :
    c.Does pc n Engine.popValue fun _ pc' n' => pc' = pc ∧ n' + 1 = n :=
  (does_popSlot hc hn).bind fun o pc' n' ⟨hsome, hpc, hn'⟩ => by
    obtain ⟨slot, rfl⟩ := Option.isSome_iff_exists.mp hsome
    refine (quiet_slotValue hc slot _ _).mono fun _ _ _ ⟨hpc', hn''⟩ => ?_
    exact ⟨hpc'.trans hpc, by omega⟩

theorem does_popValues (hc : c.Sound) (k : Nat) (hn : c.floor + k ≤ n) :
    c.Does pc n (Engine.popValues k) fun vs pc' n' => vs.length = k ∧ pc' = pc ∧ n' + k = n := by
  induction k generalizing pc n with
  | zero => exact .pure ⟨rfl, rfl, rfl⟩
  | succ k ih =>
    refine (does_popValue hc (by omega)).bind fun v pc' n' ⟨hpc, hn'⟩ => ?_
    refine (ih (by omega)).bind fun vs pc'' n'' ⟨hvs, hpc', hn''⟩ => .pure ⟨?_, ?_, ?_⟩
    · rw [List.length_append, hvs]
      rfl
    · exact hpc'.trans hpc
    · omega

theorem quiet_topSlot (hc : c.Sound) : c.Quiet Engine.topSlot :=
  quiet_get.bind fun s => by
    cases s.stack.getLast? with
    | none => exact quiet_raise hc _
    | some top => exact .pure top

theorem does_dup (hc : c.Sound) :
    c.Does pc n Engine.dup fun _ pc' n' => pc' = pc ∧ n' = n + 1 :=
  (quiet_topSlot hc).then_does fun top s hs => ⟨pc, n + 1, ⟨rfl, rfl⟩, hs.push top s.ghost⟩

theorem quiet_stackAt (idx : Nat) : c.Quiet (Engine.stackAt idx) :=
  quiet_get.bind fun _ => quiet_orPanic _

theorem quiet_bindSlot {idx : Nat} (hidx : ¬c.keep idx) (v : LuaValue) :
    c.Quiet (Engine.bindSlot idx v) :=
  (quiet_stackAt idx).bind fun _ pc n s hs => ⟨pc, n, ⟨rfl, rfl⟩, hs.set hidx _ s.ghost⟩

theorem quiet_assignSlot (hc : c.Sound) {idx : Nat} (hidx : ¬c.keep idx) (declares : Bool)
    (v : LuaValue) : c.Quiet (Engine.assignSlot idx declares v) := by
  intro pc n s hs
  rw [Engine.run_assignSlot]
  cases s.stack[idx]? with
  | none => exact ⟨pc, n, hs⟩
  | some entry =>
    rcases entry with ⟨owner, slot⟩
    cases slot with
    | shared cell =>
      refine ⟨pc, n, ⟨rfl, rfl⟩, (hs.set hidx _ _).core rfl fun e he => ?_⟩
      exact (List.mem_cons.mp he).elim (fun heq => .inr (heq ▸ hc.silent _ trivial)) .inl
    | value | iterHandle => exact ⟨pc, n, ⟨rfl, rfl⟩, hs.set hidx ..⟩

theorem quiet_captureSlot (hc : c.Sound) {idx : Nat} (hidx : ¬c.keep idx) :
    c.Quiet (Engine.captureSlot idx) := by
  intro pc n s hs
  rw [Engine.run_captureSlot]
  cases s.stack[idx]? with
  | none => exact ⟨pc, n, hs⟩
  | some entry =>
    rcases entry with ⟨owner, slot⟩
    cases slot with
    | shared cell => exact ⟨pc, n, ⟨rfl, rfl⟩, hs.record (hc.silent _ trivial)⟩
    | value v =>
      refine ⟨pc, n, ⟨rfl, rfl⟩, (hs.set hidx _ s.ghost).core rfl fun e he => ?_⟩
      exact (List.mem_cons.mp he).elim (fun heq => .inr (heq ▸ hc.silent _ trivial)) .inl
    | iterHandle handle => exact quiet_raise hc Engine.iterHandleCapture pc n s hs

theorem does_setPc (pc' : Nat) :
    c.Does pc n (Engine.setPc pc') fun _ pc'' n' => pc'' = pc' ∧ n' = n := by
  intro s hs
  rw [Engine.run_setPc, hs.frames]
  exact ⟨pc', n, ⟨rfl, rfl⟩, hs.jump pc'⟩

theorem does_jumpBy (off : Int16) :
    c.Does pc n (Engine.jumpBy off) fun _ pc' n' =>
      pc' = Instruction.jumpDest c.bits pc off ∧ n' = n := by
  refine topFrame_then fun s hs => ?_
  have hrun := does_setPc (c := c) (n := n) (Instruction.jumpDest c.bits pc off) s hs
  rw [← hs.bits] at hrun
  rw [← hs.bits]
  exact hrun

end Primitive

section Perform

variable {α : Type} {program : CompiledProgram} {post : α → Nat → Nat → Prop}

/-- The position stays, and the number of slots becomes another. -/
def Becomes {α : Type} (pc m : Nat) : α → Nat → Nat → Prop := fun _ pc' n' => pc' = pc ∧ n' = m

theorem popValue_then (hc : c.Sound) {f : LuaValue → Engine α} (hn : c.floor ≤ n)
    (h : ∀ v, c.Does pc n (f v) post) : c.Does pc (n + 1) (Engine.popValue >>= f) post :=
  (does_popValue hc (by omega)).bind fun v pc' n' ⟨hpc, hn'⟩ => by
    obtain rfl : n' = n := by omega
    rw [hpc]
    exact h v

theorem popValues_then (hc : c.Sound) {f : List LuaValue → Engine α} (k : Nat) (hn : c.floor ≤ n)
    (h : ∀ vs, vs.length = k → c.Does pc n (f vs) post) :
    c.Does pc (n + k) (Engine.popValues k >>= f) post :=
  (does_popValues hc k (by omega)).bind fun vs pc' n' ⟨hvs, hpc, hn'⟩ => by
    obtain rfl : n' = n := by omega
    rw [hpc]
    exact h vs hvs

theorem popSlot_then (hc : c.Sound) {f : Option StackSlot → Engine α} (hn : c.floor ≤ n)
    (h : ∀ o, c.Does pc n (f o) post) : c.Does pc (n + 1) (Engine.popSlot >>= f) post :=
  (does_popSlot hc (by omega)).bind fun o pc' n' ⟨_, hpc, hn'⟩ => by
    obtain rfl : n' = n := by omega
    rw [hpc]
    exact h o

theorem pushSlot_then {f : Unit → Engine α} (slot : StackSlot)
    (h : c.Does pc (n + 1) (f ()) post) : c.Does pc n (Engine.pushSlot slot >>= f) post :=
  (does_pushSlot slot).bind fun _ _ _ ⟨hpc, hn⟩ => by
    rw [hpc, hn]
    exact h

theorem quiet_constant (idx : UInt16) : c.Quiet (Engine.constant program idx) :=
  quiet_topFrame.bind fun _ => (quiet_orPanic _).bind fun _ => quiet_orPanic _

theorem quiet_stringKey (hc : c.Sound) (idx : UInt16) : c.Quiet (Engine.stringKey program idx) :=
  (quiet_constant idx).bind fun k => by
    split
    · exact .pure _
    · exact quiet_raise hc _

theorem quiet_resolveSentinel (v : LuaValue) : c.Quiet (Engine.resolveSentinel v) := by
  cases v with
  | string s =>
    unfold Engine.resolveSentinel
    dsimp only
    split_ifs
    · exact quiet_get.bind fun _ => .pure _
    · exact .pure _
  | _ => exact .pure _

theorem quiet_stringMethod (hc : c.Sound) (key : LuaKey) : c.Quiet (Engine.stringMethod key) :=
  quiet_get.bind fun _ => by
    dsimp only
    split
    · exact .pure _
    · exact quiet_raise hc _

theorem quiet_upvalueCell (idx : UInt8) : c.Quiet (Engine.upvalueCell idx) :=
  quiet_topFrame.bind fun _ => quiet_orPanic _

theorem does_binary (hc : c.Sound) (op : LuaValue → LuaValue → Except LuaError LuaValue)
    (hn : c.floor ≤ n) : c.Does pc (n + 2) (Engine.binary op) (Becomes pc (n + 1)) :=
  popValue_then hc (by omega) fun _ => popValue_then hc hn fun _ =>
    (quiet_liftLua hc _).then_does fun v => does_push v

theorem does_unary (hc : c.Sound) (op : LuaValue → Except LuaError LuaValue)
    (hn : c.floor ≤ n) : c.Does pc (n + 1) (Engine.unary op) (Becomes pc (n + 1)) :=
  popValue_then hc hn fun _ => (quiet_liftLua hc _).then_does fun v => does_push v

theorem does_loadLocal (hc : c.Sound) (slot : UInt8) :
    c.Does pc n (Engine.loadLocal slot) (Becomes pc (n + 1)) :=
  quiet_topFrame.then_does fun _ => (quiet_stackAt _).then_does fun _ =>
    (quiet_slotValue hc _).then_does fun v => does_push v

theorem does_storeLocal (hc : c.Sound) {slot : UInt8} (hn : c.floor ≤ n)
    (hslot : ¬c.keep (c.frame.base + slot.toNat)) :
    c.Does pc (n + 1) (Engine.storeLocal slot) (Becomes pc n) :=
  popValue_then hc hn fun v => topFrame_then <|
    quiet_get.then_does fun _ => quiet_assignSlot hc hslot _ v pc n

theorem does_loadUp (hc : c.Sound) (idx : UInt8) :
    c.Does pc n (Engine.loadUp idx) (Becomes pc (n + 1)) :=
  (quiet_upvalueCell idx).then_does fun _ => (quiet_lift hc (.getCell _)).then_does fun v =>
    does_push v

theorem does_storeUp (hc : c.Sound) (idx : UInt8) (hn : c.floor ≤ n) :
    c.Does pc (n + 1) (Engine.storeUp idx) (Becomes pc n) :=
  popValue_then hc hn fun _ => (quiet_upvalueCell idx).then_does fun _ =>
    quiet_lift hc (.setCell ..) pc n

theorem does_newTable (hc : c.Sound) : c.Does pc n Engine.newTable (Becomes pc (n + 1)) :=
  (quiet_charge hc _).then_does fun _ => (quiet_lift hc (.trackAlloc _)).then_does fun _ =>
    (quiet_lift hc .newTable).then_does fun _ => does_push _

theorem does_getTable (hc : c.Sound) (hn : c.floor ≤ n) :
    c.Does pc (n + 2) Engine.getTable (Becomes pc (n + 1)) :=
  (quiet_charge hc _).then_does fun _ => popValue_then hc (by omega) fun _ =>
    (quiet_liftLua hc _).then_does fun _ => popValue_then hc hn fun _ =>
      (quiet_resolveSentinel _).then_does fun _ => (quiet_liftLua hc _).then_does fun _ =>
        (quiet_lift hc (.getOrNil ..)).then_does fun v => does_push v

theorem does_setTable (hc : c.Sound) (hn : c.floor ≤ n) :
    c.Does pc (n + 3) Engine.setTable (Becomes pc n) :=
  popValue_then hc (by omega) fun _ => popValue_then hc (by omega) fun _ =>
    (quiet_liftLua hc _).then_does fun _ => popValue_then hc hn fun _ =>
      (quiet_liftLua hc _).then_does fun _ => quiet_lift hc (.doRawset ..) pc n

theorem does_getField (hc : c.Sound) (idx : UInt16) (hn : c.floor ≤ n) :
    c.Does pc (n + 1) (Engine.getField program idx) (Becomes pc (n + 1)) := by
  refine (quiet_charge hc _).then_does fun _ => (quiet_stringKey hc idx).then_does fun key =>
    popValue_then hc hn fun _ => (quiet_resolveSentinel _).then_does fun v => ?_
  cases v with
  | string s => exact (quiet_stringMethod hc key).then_does fun v => does_push v
  | _ =>
    exact (quiet_liftLua hc _).then_does fun _ =>
      (quiet_lift hc (.getOrNil ..)).then_does fun v => does_push v

theorem does_setField (hc : c.Sound) (idx : UInt16) (hn : c.floor ≤ n) :
    c.Does pc (n + 2) (Engine.setField program idx) (Becomes pc n) :=
  popValue_then hc (by omega) fun _ => (quiet_stringKey hc idx).then_does fun _ =>
    popValue_then hc hn fun _ => (quiet_liftLua hc _).then_does fun _ =>
      quiet_lift hc (.doRawset ..) pc n

theorem does_shortCircuit (hc : c.Sound) (truth : Bool) (off : Int16) :
    c.Does pc n (Engine.shortCircuit truth off) fun _ pc' n' =>
      (pc' = pc ∨ pc' = Instruction.jumpDest c.bits pc off) ∧ n' = n := by
  refine (quiet_topSlot hc).then_does fun _ => (quiet_slotValue hc _).then_does fun v => ?_
  split_ifs
  · exact (does_jumpBy off).mono fun _ _ _ ⟨hpc, hn⟩ => ⟨.inr hpc, hn⟩
  · exact .pure ⟨.inl rfl, rfl⟩

theorem does_jumpWhen (hc : c.Sound) (truth : Bool) (off : Int16) (hn : c.floor ≤ n) :
    c.Does pc (n + 1) (Engine.jumpWhen truth off) fun _ pc' n' =>
      (pc' = pc ∨ pc' = Instruction.jumpDest c.bits pc off) ∧ n' = n := by
  refine popValue_then hc hn fun v => ?_
  split_ifs
  · exact (does_jumpBy off).mono fun _ _ _ ⟨hpc, hn⟩ => ⟨.inr hpc, hn⟩
  · exact .pure ⟨.inl rfl, rfl⟩

theorem does_concat (hc : c.Sound) (k : UInt8) (hn : c.floor ≤ n) :
    c.Does pc (n + k.toNat) (Engine.concat k) (Becomes pc (n + 1)) :=
  popValues_then hc k.toNat hn fun _ _ => (quiet_orPanic _).then_does fun _ =>
    (quiet_liftLua hc _).then_does fun _ => (quiet_charge hc _).then_does fun _ =>
      (quiet_lift hc (.trackAlloc _)).then_does fun _ => does_push _

theorem does_len (hc : c.Sound) (hn : c.floor ≤ n) :
    c.Does pc (n + 1) Engine.len (Becomes pc (n + 1)) :=
  (quiet_charge hc _).then_does fun _ => popValue_then hc hn fun _ =>
    (quiet_lift hc (Vm.luaLen_composed _)).then_does fun v => does_push v

theorem quiet_capture (hc : c.Sound) {desc : UpvalueDesc}
    (h : ∀ slot, desc = .local slot → ¬c.keep (c.frame.base + slot.toNat)) :
    c.Quiet (Engine.capture desc) := fun pc n => topFrame_then <| by
  cases desc with
  | «local» slot => exact quiet_captureSlot hc (h slot rfl) pc n
  | upvalue idx => exact quiet_orPanic _ pc n

theorem quiet_captureAll (hc : c.Sound) {descs : List UpvalueDesc}
    (h : ∀ slot, .local slot ∈ descs → ¬c.keep (c.frame.base + slot.toNat)) :
    c.Quiet (Engine.captureAll descs) := by
  induction descs with
  | nil => exact .pure _
  | cons desc descs ih =>
    refine (quiet_capture hc fun slot hdesc => h slot (hdesc ▸ List.mem_cons_self)).bind fun _ => ?_
    exact (ih fun slot hslot => h slot (List.mem_cons_of_mem _ hslot)).bind fun _ => .pure _

theorem does_closure (hc : c.Sound) {idx : UInt16}
    (h : ∀ slot ∈ (Instruction.closure idx).touched program,
      ¬c.keep (c.frame.base + slot.toNat)) :
    c.Does pc n (Engine.closure program idx) (Becomes pc (n + 1)) := by
  have hfind : c.Does pc n (Engine.orPanic program.prototypes[idx.toNat]?) fun proto pc' n' =>
      program.prototypes[idx.toNat]? = some proto ∧ pc' = pc ∧ n' = n :=
    does_orPanic fun _ hproto => ⟨hproto, rfl, rfl⟩
  refine hfind.bind fun proto _ _ ⟨hproto, hpc, hn⟩ => ?_
  rw [hpc, hn]
  refine (quiet_lift hc (.trackAlloc _)).then_does fun _ =>
    (quiet_captureAll hc fun slot hslot => h slot ?_).then_does fun _ => does_push _
  rw [Instruction.touched, hproto]
  exact List.mem_filterMap.mpr ⟨_, hslot, rfl⟩

theorem quiet_logMessage (hc : c.Sound) (msg : Bytes) : c.Quiet (Engine.logMessage msg) := by
  intro pc n s hs
  rw [Engine.run_logMessage]
  refine ⟨pc, n, ⟨rfl, rfl⟩, hs.core rfl fun e he => ?_⟩
  exact (List.mem_cons.mp he).elim (fun heq => .inr (heq ▸ hc.silent _ trivial)) .inl

theorem does_log (hc : c.Sound) (hn : c.floor ≤ n) :
    c.Does pc (n + 1) Engine.log (Becomes pc n) :=
  popValue_then hc hn fun _ => (quiet_charge hc _).then_does fun _ => quiet_logMessage hc _ pc n

theorem does_error (hc : c.Sound) (hn : c.floor ≤ n) {post : Unit → Nat → Nat → Prop} :
    c.Does pc (n + 1) Engine.error post :=
  popValue_then hc hn fun _ => (quiet_charge hc _).then_does fun _ => does_raise hc _

theorem does_iterInitSorted (hc : c.Sound) (off : Int16) (hn : c.floor ≤ n) :
    c.Does pc (n + 1) (Engine.iterInitSorted off) fun _ pc' n' =>
      pc' = pc ∧ n' = n + 1 ∨ pc' = Instruction.jumpDest c.bits pc off ∧ n' = n := by
  refine popValue_then hc hn fun _ => (quiet_liftLua hc _).then_does fun _ =>
    (quiet_lift hc (.getTable _)).then_does fun _ => (quiet_charge hc _).then_does fun _ => ?_
  split_ifs
  · exact (does_jumpBy off).mono fun _ _ _ h => .inr h
  · exact (does_pushSlot _).mono fun _ _ _ h => .inl h

theorem does_iterInitArray (hc : c.Sound) (off : Int16) (hn : c.floor ≤ n) :
    c.Does pc (n + 1) (Engine.iterInitArray off) fun _ pc' n' =>
      pc' = pc ∧ n' = n + 1 ∨ pc' = Instruction.jumpDest c.bits pc off ∧ n' = n := by
  refine popValue_then hc hn fun _ => (quiet_liftLua hc _).then_does fun _ =>
    (quiet_charge hc _).then_does fun _ => (quiet_lift hc (.getTable _)).then_does fun _ => ?_
  split_ifs
  · exact (does_jumpBy off).mono fun _ _ _ h => .inr h
  · exact (does_pushSlot _).mono fun _ _ _ h => .inl h

theorem does_iterNext (hc : c.Sound) (off : Int16) (hn : c.floor ≤ n) :
    c.Does pc (n + 1) (Engine.iterNext off) fun _ pc' n' =>
      pc' = pc ∧ n' = n + 3 ∨ pc' = Instruction.jumpDest c.bits pc off ∧ n' = n := by
  refine quiet_get.then_does fun s => ?_
  split
  · refine popSlot_then hc hn fun _ => ?_
    split
    · split
      · exact (does_jumpBy off).mono fun _ _ _ h => .inr h
      · exact (quiet_lift hc (.getOrNil ..)).then_does fun _ => (quiet_charge hc _).then_does
          fun _ => pushSlot_then _ <| pushSlot_then _ <| (does_push _).mono fun _ _ _ h => .inl h
    · refine (quiet_lift hc (.getOrNil ..)).then_does fun _ => ?_
      split_ifs
      · exact (does_jumpBy off).mono fun _ _ _ h => .inr h
      · exact (quiet_charge hc _).then_does fun _ => quiet_get.then_does fun _ =>
          (quiet_orPanic _).then_does fun _ =>
            pushSlot_then _ <| pushSlot_then _ <| (does_push _).mono fun _ _ _ h => .inl h
  · exact does_raise hc _

theorem does_perform (hc : c.Sound) {instr : Instruction} (hperformed : instr.IsPerformed)
    (hn : c.floor + instr.pops ≤ n)
    (htouched : ∀ slot ∈ instr.touched program, ¬c.keep (c.frame.base + slot.toNat)) :
    c.Does pc n (Engine.perform program instr) fun _ pc' n' => instr.Goes c.bits pc n pc' n' := by
  obtain ⟨k, rfl⟩ : ∃ k, n = k + instr.pops := ⟨n - instr.pops, by omega⟩
  have hk : c.floor ≤ k := by omega
  have hplain {m : Engine Unit} {j : Nat} (h : c.Does pc (k + instr.pops) m (Becomes pc j))
      (hgoes : instr.Goes c.bits pc (k + instr.pops) pc j) :
      c.Does pc (k + instr.pops) m fun _ pc' n' => instr.Goes c.bits pc (k + instr.pops) pc' n' :=
    h.mono fun _ pc' n' ⟨hpc, hn'⟩ => by rwa [hpc, hn']
  cases instr with
  | call _ | pcall _ | toolCall | ret _ => exact hperformed.elim
  | nop => exact .pure ⟨rfl, rfl⟩
  | pushK idx =>
    exact hplain (j := k + 1) ((quiet_constant idx).then_does fun _ => does_push _) ⟨rfl, rfl⟩
  | pushNil | pushTrue | pushFalse => exact hplain (j := k + 1) (does_push _) ⟨rfl, rfl⟩
  | pop => exact hplain (j := k) (popSlot_then hc hk fun _ => .pure ⟨rfl, rfl⟩) ⟨rfl, rfl⟩
  | dup => exact hplain (j := k + 2) (does_dup hc) ⟨rfl, rfl⟩
  | loadLocal slot => exact hplain (j := k + 1) (does_loadLocal hc slot) ⟨rfl, rfl⟩
  | storeLocal slot =>
    exact hplain (j := k) (does_storeLocal hc hk (htouched slot List.mem_cons_self)) ⟨rfl, rfl⟩
  | loadUp idx => exact hplain (j := k + 1) (does_loadUp hc idx) ⟨rfl, rfl⟩
  | storeUp idx => exact hplain (j := k) (does_storeUp hc idx hk) ⟨rfl, rfl⟩
  | newTable => exact hplain (j := k + 1) (does_newTable hc) ⟨rfl, rfl⟩
  | getTable => exact hplain (j := k + 1) (does_getTable hc hk) ⟨rfl, rfl⟩
  | setTable => exact hplain (j := k) (does_setTable hc hk) ⟨rfl, rfl⟩
  | getField idx => exact hplain (j := k + 1) (does_getField hc idx hk) ⟨rfl, rfl⟩
  | setField idx => exact hplain (j := k) (does_setField hc idx hk) ⟨rfl, rfl⟩
  | add | sub | mul | iDiv | mod | eq | ne | lt | le | gt | ge =>
    exact hplain (j := k + 1) (does_binary hc _ hk) ⟨rfl, rfl⟩
  | neg | not => exact hplain (j := k + 1) (does_unary hc _ hk) ⟨rfl, rfl⟩
  | and off | or off => exact does_shortCircuit hc _ off
  | concat m =>
    refine hplain (j := k + 1) (does_concat hc m hk) ⟨rfl, ?_⟩
    change k + 1 + m.toNat = k + m.toNat + 1
    omega
  | len => exact hplain (j := k + 1) (does_len hc hk) ⟨rfl, rfl⟩
  | jmp off => exact does_jumpBy off
  | jmpIf off | jmpIfNot off =>
    exact (does_jumpWhen hc _ off hk).mono fun _ _ _ ⟨hpc, hn'⟩ => ⟨hpc, by rw [hn']; rfl⟩
  | closure idx => exact hplain (j := k + 1) (does_closure hc htouched) ⟨rfl, rfl⟩
  | log => exact hplain (j := k) (does_log hc hk) ⟨rfl, rfl⟩
  | error => exact does_error hc hk
  | iterInitSorted off =>
    exact (does_iterInitSorted hc off hk).mono fun _ _ _ h =>
      h.imp_right fun ⟨hpc, hn'⟩ => ⟨hpc, by rw [hn']; rfl⟩
  | iterInitArray off =>
    exact (does_iterInitArray hc off hk).mono fun _ _ _ h =>
      h.imp_right fun ⟨hpc, hn'⟩ => ⟨hpc, by rw [hn']; rfl⟩
  | iterNext off =>
    exact (does_iterNext hc off hk).mono fun _ _ _ h =>
      h.imp_right fun ⟨hpc, hn'⟩ => ⟨hpc, by rw [hn']; rfl⟩

end Perform

end Region

end Proveno
