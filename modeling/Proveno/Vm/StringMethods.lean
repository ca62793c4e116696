import Proveno.Lib.Triple
import Proveno.Types.TableRebuild
import Proveno.Vm.Indifferent
import Proveno.Vm.RunBounds
import Proveno.Vm.Segments

/-! Method calls on strings and calls of the string module. A field of a string is a function
of the module unless the string is one of the names that module access is compiled to. -/

namespace Proveno

variable {H : Type}

/-- The two systems show a program and its host the same. -/
structure System.SameEffects (s s' : System H) : Prop where
  core : s.machine.core.SameFace s'.machine.core
  registry : s.registry = s'.registry
  transcript : s.transcript = s'.transcript

def Machine.result (s : Machine) : Option StackSlot := s.stack.getLast?.map OwnedSlot.slot

/-- The same value or the same error, and the same effects. -/
structure SameOutcome (r r' : Except Stop Unit × System H) : Prop where
  ends : r.1 = r'.1
  effects : r.2.SameEffects r'.2
  value : r.1 = .ok () → r.2.machine.result = r'.2.machine.result

def System.withGas (s : System H) (k : Nat) : System H :=
  { s with machine.core.gas.remaining := s.machine.core.gas.remaining + k }

def Engine.pushAll : List LuaValue → Engine Unit
  | [] => pure ()
  | v :: rest => do
    push v
    pushAll rest

namespace Run

section Calls

variable [HostInterface H] (program : CompiledProgram) (inner : Run H LuaValue)

def carryOut : List Instruction → Run H Unit
  | [] => pure ()
  | instr :: rest => do
    let _ ← dispatch program inner instr
    carryOut rest

/-- What `s:m(args)` does before its call: the method, the string and the arguments. -/
def methodSetup (tmp : UInt8) (name : UInt16) (s : Bytes) (args : List LuaValue) :
    Run H Unit := do
  embed (Engine.push (.string s))
  carryOut program inner [.dup, .storeLocal tmp, .getField name, .loadLocal tmp]
  embed (Engine.pushAll args)

/-- The code of `s:m(args)` on the values of its parts. -/
def methodCall (tmp : UInt8) (name : UInt16) (argc : UInt8) (s : Bytes) (args : List LuaValue) :
    Run H Unit := do
  methodSetup program inner tmp name s args
  carryOut program inner [.call argc]

/-- What `string.m(s, args)` does before its call. -/
def moduleSetup (modl name : UInt16) (s : Bytes) (args : List LuaValue) : Run H Unit := do
  carryOut program inner [.pushK modl, .getField name]
  embed (Engine.pushAll (.string s :: args))

/-- The code of `string.m(s, args)` on the values of its arguments. -/
def moduleCall (modl name : UInt16) (argc : UInt8) (s : Bytes) (args : List LuaValue) :
    Run H Unit := do
  moduleSetup program inner modl name s args
  carryOut program inner [.call argc]

end Calls

end Run

/-- The globals of the machine are in place, and the function that runs has the two names among
its constants and the slot among its locals. -/
structure Callable (program : CompiledProgram) (tmp : UInt8) (modl name : UInt16) (m : Bytes)
    (s : Machine) : Prop where
  globals : ∃ heap : Heap, s.globals = (Globals.build heap).1 ∧
    ∀ i entry, Globals.modules[i]? = some entry →
      s.core.heap.table (heap.tables.length + i) = entry.2
  code : ∃ frame rest proto, s.frames = frame :: rest ∧
    program.prototypes[frame.protoIdx]? = some proto ∧
    proto.constants[modl.toNat]? = some (.string (ascii "__string")) ∧
    proto.constants[name.toNat]? = some (.string m) ∧
    ∃ entry, s.stack[frame.base + tmp.toNat]? = some entry ∧
      ∀ cell, entry.slot = .shared cell → cell < s.core.heap.cells.length

/-- Method calls on a string agree with calls of the string module, up to the gas of the two
instructions more that they take. -/
structure MethodsAgree (s : Bytes) : Prop where
  agree : ∀ {H : Type} [HostInterface H] (program : CompiledProgram) (inner : Run H LuaValue)
    (tmp : UInt8) (modl name : UInt16) (argc : UInt8) (m : Bytes) (args : List LuaValue)
    (σ : System H), Callable program tmp modl name m σ.machine →
    (Globals.stringModule.get (.string m)).isSome → args.length + 1 = argc.toNat →
    SameOutcome
      ((Run.methodCall program inner tmp name argc s args).run
        (σ.withGas (2 * GasCost.baseInstruction)))
      ((Run.moduleCall program inner modl name argc s args).run σ)
  lacking : ∀ {H : Type} [HostInterface H] (program : CompiledProgram) (inner : Run H LuaValue)
    (tmp : UInt8) (modl name : UInt16) (argc : UInt8) (m : Bytes) (args : List LuaValue)
    (σ : System H), Callable program tmp modl name m σ.machine →
    Globals.stringModule.get (.string m) = none → args.length + 1 = argc.toNat →
    ∃ e σ', (Run.methodCall program inner tmp name argc s args).run σ = (.error (.raised e), σ')

namespace Globals

/-- The names that stand for globals in compiled code. -/
def sentinels : List Bytes := (coreFunctions.map Prod.fst ++ modules.map Prod.fst).map ascii

/-- The last field of a name. -/
def fieldOf (fields : List (String × LuaValue)) (s : Bytes) : Option LuaValue :=
  fields.foldl (fun found field => if s = ascii field.1 then some field.2 else found) none

theorem get_rawset_string (t : LuaTable LuaValue) (k s : Bytes) {v : LuaValue} (hv : v ≠ .nil) :
    (t.rawset (.string k) v).2.get (.string s) =
      if s = k then some v else t.get (.string s) := by
  have hnil : HasNil.isNil v = false := by simpa [HasNil.isNil] using hv
  have hstore : (t.rawset (.string k) v).2 = (t.store (.string k) v).2 := by
    simp only [LuaTable.rawset, LuaTable.rawsetTracked, hnil, Bool.false_eq_true, if_false,
      reduceCtorEq]
    split_ifs <;> rfl
  have hkey : t.HashKey (.string k) := trivial
  have hget := LuaTable.get_storeHash v hkey (.string s)
  rw [hstore, show t.store (.string k) v = t.storeHash (.string k) v from rfl, hget]
  simp

theorem get_tableOf {fields : List (String × LuaValue)} (h : ∀ field ∈ fields, field.2 ≠ .nil)
    (s : Bytes) : (tableOf fields).get (.string s) = fieldOf fields s := by
  have hfold (t : LuaTable LuaValue) (found : Option LuaValue) (ht : t.get (.string s) = found) :
      (fields.foldl (fun t field => (t.rawset (.string (ascii field.1)) field.2).2) t).get
          (.string s) =
        fields.foldl (fun found field => if s = ascii field.1 then some field.2 else found)
          found := by
    induction fields generalizing t found with
    | nil => exact ht
    | cons field fields ih =>
      refine ih (fun f hf => h f (List.mem_cons_of_mem _ hf)) _ _ ?_
      rw [get_rawset_string t _ s (h field (List.mem_cons_self ..)), ht]
  exact hfold LuaTable.new none rfl

def globalFields (heap : Heap) : List (String × LuaValue) :=
  coreFunctions ++ modules.zipIdx.map fun entry =>
    (entry.1.1, LuaValue.table (heap.tables.length + entry.2))

theorem globalFields_ne_nil (heap : Heap) : ∀ field ∈ globalFields heap, field.2 ≠ .nil := by
  intro field hfield
  have hvalues : ∀ field ∈ coreFunctions, field.2 ≠ .nil := by decide
  rcases List.mem_append.mp hfield with hcore | hmodule
  · exact hvalues field hcore
  · obtain ⟨entry, -, rfl⟩ := List.mem_map.mp hmodule
    exact LuaValue.noConfusion

theorem get_build (heap : Heap) (s : Bytes) :
    (build heap).1.get (.string s) = fieldOf (globalFields heap) s := by
  rw [← get_tableOf (globalFields_ne_nil heap) s]
  unfold build globalFields
  dsimp only

/-- Only a sentinel names a global. -/
theorem get_build_none (heap : Heap) {s : Bytes} (h : s ∉ sentinels) :
    (build heap).1.get (.string s) = none := by
  rw [get_build, fieldOf]
  simp only [sentinels, coreFunctions, modules, List.map_cons, List.map_nil, List.cons_append,
    List.nil_append, List.mem_cons, List.not_mem_nil, or_false, not_or] at h
  obtain ⟨h1, h2, h3, h4, h5, h6, h7, h8, h9, h10⟩ := h
  simp [globalFields, coreFunctions, modules, List.zipIdx_cons, h1, h2, h3, h4, h5, h6, h7, h8, h9, h10]

theorem get_build_string (heap : Heap) :
    (build heap).1.get (.string (ascii "__string")) = some (.table heap.tables.length) := by
  rw [get_build]
  simp +decide [fieldOf, globalFields, coreFunctions, modules, List.zipIdx_cons]

theorem fieldOf_mem (fields : List (String × LuaValue)) {s : Bytes} {v : LuaValue}
    (h : fieldOf fields s = some v) : ∃ field ∈ fields, field.2 = v := by
  unfold fieldOf at h
  induction fields using List.reverseRecOn with
  | nil => cases h
  | append_singleton fields field ih =>
    rw [List.foldl_append, List.foldl_cons, List.foldl_nil] at h
    split_ifs at h with hs
    · exact ⟨field, by simp, Option.some.inj h⟩
    · obtain ⟨f, hf, hv⟩ := ih h
      exact ⟨f, List.mem_append_left _ hf, hv⟩

theorem stringModule_get {m : Bytes} {f : LuaValue} (h : stringModule.get (.string m) = some f) :
    ∃ id ∈ stringIds, f = .builtin id := by
  rw [stringModule, get_tableOf (by decide)] at h
  obtain ⟨field, hfield, rfl⟩ := fieldOf_mem _ h
  revert hfield field
  simp [stringIds]

end Globals

/-- What a machine has besides its stack and its variables, with those variables and slots. -/
structure Shows (b : Machine) (cells : List LuaValue) (slots : List StackSlot) (s : Machine) :
    Prop where
  core : b.core.SameFace s.core
  cells : s.core.heap.cells = cells
  config : s.config = b.config
  globals : s.globals = b.globals
  frames : s.frames = b.frames
  slots : s.stack.map OwnedSlot.slot = slots

def Machine.paid (b : Machine) (k : Nat) : Machine :=
  { b with core.gas.remaining := b.core.gas.remaining - k }

/-- The state after gas has run out. -/
def Core.spent (c : Core) : Core := { c with gas.remaining := 0 }

/-- From states of a kind to states of another kind, unless it fails. -/
abbrev Lands {α : Type} (failed : Stop → Machine → Prop) (pre : Machine → Prop) (m : Engine α)
    (post : α → Machine → Prop) : Prop :=
  Exec.Meets pre m post failed

namespace Lands

variable {failed : Stop → Machine → Prop} {b : Machine} {cells : List LuaValue}
  {slots : List StackSlot} {α : Type} {post : α → Machine → Prop}

theorem record_then (e : Event) {f : Unit → Engine α}
    (h : Lands failed (Shows b cells slots) (f ()) post) :
    Lands failed (Shows b cells slots) (Engine.record e >>= f) post :=
  Exec.Meets.through (fun _ => Shows b cells slots)
    (fun _ hs => ⟨hs.core.symm.record_left e |>.symm, hs.cells, hs.config, hs.globals, hs.frames,
      hs.slots⟩) fun _ => h

theorem charge_then {k : Nat} (hfailed : b.core.gas.remaining < k →
    ∀ s : Machine, b.core.spent.SameFace s.core → failed (.raised .gasExhausted) s)
    {f : Unit → Engine α}
    (h : k ≤ b.core.gas.remaining → Lands failed (Shows (b.paid k) cells slots) (f ()) post) :
    Lands failed (Shows b cells slots) (Engine.charge k >>= f) post := by
  intro s hs
  have hgas := hs.core.gas
  rw [Exec.run_bind, Engine.charge, Engine.run_lift, Vm.run_charge]
  by_cases hk : k > s.core.gas.remaining
  · rw [if_pos hk]
    refine hfailed (by rw [hgas]; exact hk) _ ⟨hs.core.target, ?_, hs.core.mem, hs.core.tables,
      hs.core.logs⟩
    simp [Core.spent, hgas, Core.record]
  · rw [if_neg hk]
    refine h (by rw [hgas]; omega) _ ⟨⟨hs.core.target, ?_, hs.core.mem, hs.core.tables,
      hs.core.logs⟩, hs.cells, hs.config, hs.globals, hs.frames, hs.slots⟩
    simp [Machine.paid, hgas]

theorem push_then (v : LuaValue) {f : Unit → Engine α}
    (h : Lands failed (Shows b cells (slots ++ [.value v])) (f ()) post) :
    Lands failed (Shows b cells slots) (Engine.push v >>= f) post := by
  intro s hs
  rw [Exec.run_bind, Engine.push, Engine.run_pushSlot]
  refine h _ ⟨hs.core, hs.cells, hs.config, hs.globals, hs.frames, ?_⟩
  rw [List.map_append, hs.slots]
  rfl

theorem popValue_then (v : LuaValue) {f : LuaValue → Engine α}
    (h : Lands failed (Shows b cells slots) (f v) post) :
    Lands failed (Shows b cells (slots ++ [.value v])) (Engine.popValue >>= f) post := by
  intro s hs
  have hslots := hs.slots
  obtain ⟨stack, last, hstack, hinit, hlast⟩ := List.map_eq_append_iff.mp hslots
  obtain ⟨top, rfl, htop⟩ := List.map_eq_singleton_iff.mp hlast
  rw [Exec.run_bind, Engine.popValue, Exec.run_bind, Engine.run_popSlot, hstack,
    List.getLast?_concat]
  dsimp only
  rw [htop, List.dropLast_concat]
  exact h _ ⟨hs.core.symm.record_left _ |>.symm, hs.cells, hs.config, hs.globals, hs.frames,
    hinit⟩

theorem topFrame_then {frame : CallFrame} {rest : List CallFrame} (hframes : b.frames = frame :: rest)
    {f : CallFrame → Engine α} (h : Lands failed (Shows b cells slots) (f frame) post) :
    Lands failed (Shows b cells slots) (Engine.topFrame >>= f) post := by
  intro s hs
  rw [Exec.run_bind, Engine.run_topFrame, hs.frames, hframes]
  exact h s hs

theorem orPanic_then {β : Type} {o : Option β} {x : β} (ho : o = some x) {f : β → Engine α}
    (h : Lands failed (Shows b cells slots) (f x) post) :
    Lands failed (Shows b cells slots) (Engine.orPanic o >>= f) post := by
  intro s hs
  rw [Exec.run_bind, Engine.run_orPanic, ho]
  exact h s hs

theorem get_then {f : Machine → Engine α}
    (h : ∀ s, Shows b cells slots s → Lands failed (Shows b cells slots) (f s) post) :
    Lands failed (Shows b cells slots) (Exec.get >>= f) post :=
  fun s hs => h s hs s hs

end Lands

/-- The slots after a store to one of them, which keeps its cell if it has one. -/
def storedSlots (slots : List StackSlot) (idx : Nat) (v : LuaValue) : List StackSlot :=
  match slots[idx]? with
  | some (.shared _) => slots
  | _ => slots.set idx (.value v)

def storedCells (slots : List StackSlot) (cells : List LuaValue) (idx : Nat) (v : LuaValue) :
    List LuaValue :=
  match slots[idx]? with
  | some (.shared cell) => cells.set cell v
  | _ => cells

/-- What a slot reads as. -/
def ReadsAs (slots : List StackSlot) (cells : List LuaValue) (idx : Nat) (v : LuaValue) : Prop :=
  slots[idx]? = some (.value v) ∨
    ∃ cell, slots[idx]? = some (.shared cell) ∧ cells.getD cell .nil = v

theorem storedSlots_append {slots : List StackSlot} {idx : Nat} (h : idx < slots.length)
    (v : LuaValue) (x : StackSlot) :
    storedSlots (slots ++ [x]) idx v = storedSlots slots idx v ++ [x] := by
  unfold storedSlots
  rw [List.getElem?_append_left h]
  split
  · rfl
  · rw [List.set_append_left _ _ h]

theorem storedCells_append {slots : List StackSlot} {idx : Nat} (h : idx < slots.length)
    (cells : List LuaValue) (v : LuaValue) (x : StackSlot) :
    storedCells (slots ++ [x]) cells idx v = storedCells slots cells idx v := by
  unfold storedCells
  rw [List.getElem?_append_left h]

theorem ReadsAs.append {slots : List StackSlot} {cells : List LuaValue} {idx : Nat} {v : LuaValue}
    (h : ReadsAs slots cells idx v) (more : List StackSlot) :
    ReadsAs (slots ++ more) cells idx v := by
  have hget {x : StackSlot} (hx : slots[idx]? = some x) : (slots ++ more)[idx]? = some x := by
    rw [List.getElem?_append_left (List.getElem?_eq_some_iff.mp hx).1, hx]
  exact h.imp hget fun ⟨cell, hcell, hv⟩ => ⟨cell, hget hcell, hv⟩

/-- A slot reads as what was stored. -/
theorem readsAs_stored {slots : List StackSlot} {cells : List LuaValue} {idx : Nat}
    (h : idx < slots.length) (hcell : ∀ cell, slots[idx]? = some (.shared cell) → cell < cells.length)
    (v : LuaValue) :
    ReadsAs (storedSlots slots idx v) (storedCells slots cells idx v) idx v := by
  unfold storedSlots storedCells
  split
  · rename_i cell hslot
    exact .inr ⟨cell, hslot, by simp [hcell cell hslot]⟩
  · exact .inl (by simp [h])

section Instructions

variable {program : CompiledProgram} {failed : Stop → Machine → Prop} {b : Machine}
  {cells : List LuaValue} {slots : List StackSlot} {frame : CallFrame} {rest : List CallFrame}
  {proto : FunctionProto}

theorem lands_push (v : LuaValue) :
    Lands failed (Shows b cells slots) (Engine.push v)
      fun _ => Shows b cells (slots ++ [.value v]) :=
  Lands.push_then v (Exec.Meets.pure fun _ hs => hs)

theorem lands_pushAll (vs : List LuaValue) :
    Lands failed (Shows b cells slots) (Engine.pushAll vs)
      fun _ => Shows b cells (slots ++ vs.map .value) := by
  induction vs generalizing slots with
  | nil => exact Exec.Meets.pure fun _ hs => by simpa using hs
  | cons v vs ih =>
    rw [List.map_cons, List.append_cons]
    exact Lands.push_then v ih

theorem lands_dup (x : StackSlot) :
    Lands failed (Shows b cells (slots ++ [x])) Engine.dup
      fun _ => Shows b cells (slots ++ [x] ++ [x]) := by
  intro s hs
  obtain ⟨stack, last, hstack, hinit, hlast⟩ := List.map_eq_append_iff.mp hs.slots
  obtain ⟨top, rfl, htop⟩ := List.map_eq_singleton_iff.mp hlast
  rw [Engine.run_dup, hstack, List.getLast?_concat]
  refine ⟨hs.core, hs.cells, hs.config, hs.globals, hs.frames, ?_⟩
  simp [hinit, htop]

theorem lands_storeLocal (hframes : b.frames = frame :: rest) {slot : UInt8}
    (hidx : frame.base + slot.toNat < slots.length) (v : LuaValue) :
    Lands failed (Shows b cells (slots ++ [.value v])) (Engine.storeLocal slot) fun _ =>
      Shows b (storedCells slots cells (frame.base + slot.toNat) v)
        (storedSlots slots (frame.base + slot.toNat) v) := by
  refine Lands.popValue_then v (Lands.topFrame_then hframes (Lands.get_then fun m _ => ?_))
  intro s hs
  have hlt : frame.base + slot.toNat < s.stack.length := by
    rwa [← hs.slots, List.length_map] at hidx
  have hentry := List.getElem?_eq_getElem hlt
  have hslot : slots[frame.base + slot.toNat]? = some (s.stack[frame.base + slot.toNat]).slot := by
    rw [← hs.slots, List.getElem?_map, hentry]
    rfl
  rw [Engine.run_assignSlot, hentry]
  dsimp only
  unfold storedSlots storedCells
  rw [hslot]
  cases hkind : (s.stack[frame.base + slot.toNat]).slot with
  | shared cell =>
    refine ⟨⟨hs.core.target, hs.core.gas, hs.core.mem, hs.core.tables, hs.core.logs⟩, ?_,
      hs.config, hs.globals, hs.frames, ?_⟩
    · rw [← hs.cells]
      rfl
    · obtain ⟨_, hget⟩ := List.getElem?_eq_some_iff.mp hslot
      have hset : slots.set (frame.base + slot.toNat) (.shared cell) = slots := by
        rw [← hkind, ← hget, List.set_getElem_self]
      rw [List.map_set, hs.slots, hset]
  | value w =>
    refine ⟨hs.core, hs.cells, hs.config, hs.globals, hs.frames, ?_⟩
    rw [List.map_set, hs.slots]
  | iterHandle handle =>
    refine ⟨hs.core, hs.cells, hs.config, hs.globals, hs.frames, ?_⟩
    rw [List.map_set, hs.slots]

theorem lands_loadLocal (hframes : b.frames = frame :: rest) {slot : UInt8} {v : LuaValue}
    (hreads : ReadsAs slots cells (frame.base + slot.toNat) v) :
    Lands failed (Shows b cells slots) (Engine.loadLocal slot) fun _ =>
      Shows b cells (slots ++ [.value v]) := by
  refine Lands.topFrame_then hframes ?_
  intro s hs
  obtain ⟨x, hx⟩ : ∃ x, slots[frame.base + slot.toNat]? = some x :=
    hreads.elim (fun h => ⟨_, h⟩) fun ⟨_, h, _⟩ => ⟨_, h⟩
  have hx' := hx
  rw [← hs.slots, List.getElem?_map] at hx'
  obtain ⟨entry, hentry, rfl⟩ := Option.map_eq_some_iff.mp hx'
  have hpush : Lands failed (Shows b cells slots) (Engine.push v) fun _ =>
    Shows b cells (slots ++ [.value v]) := lands_push v
  rw [Exec.run_bind, Engine.run_stackAt, hentry]
  dsimp only
  rcases hreads with hvalue | ⟨cell, hcell, hv⟩
  · rw [hx, Option.some.injEq] at hvalue
    have hread : (Engine.slotValue entry.slot).run s = (.ok v, s) := by
      rw [hvalue]
      rfl
    rw [Exec.run_bind, hread]
    exact hpush s hs
  · rw [hx, Option.some.injEq] at hcell
    have hread : (Engine.slotValue entry.slot).run s = (.ok v, s) := by
      rw [hcell, Engine.slotValue, Engine.run_lift, ← hv, ← hs.cells]
      rfl
    rw [Exec.run_bind, hread]
    exact hpush s hs

theorem lands_constant (hframes : b.frames = frame :: rest)
    (hproto : program.prototypes[frame.protoIdx]? = some proto) {idx : UInt16} {k : Constant}
    (hk : proto.constants[idx.toNat]? = some k) :
    Lands failed (Shows b cells slots) (Engine.constant program idx) fun x s =>
      x = k ∧ Shows b cells slots s := by
  refine Lands.topFrame_then hframes (Lands.orPanic_then hproto ?_)
  intro s hs
  rw [Engine.run_orPanic, hk]
  exact ⟨rfl, hs⟩

theorem lands_pushK (hframes : b.frames = frame :: rest)
    (hproto : program.prototypes[frame.protoIdx]? = some proto) {idx : UInt16} {k : Constant}
    (hk : proto.constants[idx.toNat]? = some k) :
    Lands failed (Shows b cells slots) (Engine.perform program (.pushK idx)) fun _ =>
      Shows b cells (slots ++ [.value (Engine.constantToValue k)]) := by
  exact (lands_constant hframes hproto hk).bind fun x => Exec.Meets.at_state fun s ⟨hx, hs⟩ =>
    hx ▸ Exec.Meets.at_one (lands_push _) hs

end Instructions

section Fields

variable {program : CompiledProgram} {failed : Stop → Machine → Prop} {b : Machine}
  {cells : List LuaValue} {slots : List StackSlot} {frame : CallFrame} {rest : List CallFrame}
  {proto : FunctionProto} {post : Unit → Machine → Prop}

/-- What a value stands for. -/
def resolved (globals : LuaTable LuaValue) : LuaValue → LuaValue
  | .string s =>
    if (ascii "__").isPrefixOf s then (globals.get (.string s)).getD (.string s) else .string s
  | v => v

theorem run_resolveSentinel (v : LuaValue) (s : Machine) :
    (Engine.resolveSentinel v).run s = (.ok (resolved s.globals v), s) := by
  cases v with
  | string k =>
    unfold Engine.resolveSentinel resolved
    dsimp only
    split_ifs <;> rfl
  | _ => rfl

/-- The field of a value that stands for itself. -/
def Engine.fieldOn (v : LuaValue) (key : LuaKey) : Engine Unit := do
  match v with
  | .string _ => push (← stringMethod key)
  | other => do
    let t ← tableOf other
    push (← getOrNil t key)

theorem lands_getField (hframes : b.frames = frame :: rest)
    (hproto : program.prototypes[frame.protoIdx]? = some proto) {idx : UInt16} {m : Bytes}
    (hk : proto.constants[idx.toNat]? = some (.string m)) (v : LuaValue)
    (hfailed : b.core.gas.remaining < GasCost.tableGet →
      ∀ s : Machine, b.core.spent.SameFace s.core → failed (.raised .gasExhausted) s)
    (h : GasCost.tableGet ≤ b.core.gas.remaining →
      Lands failed (Shows (b.paid GasCost.tableGet) cells slots)
        (Engine.fieldOn (resolved b.globals v) (.string m)) post) :
    Lands failed (Shows b cells (slots ++ [.value v])) (Engine.perform program (.getField idx))
      post := by
  refine Lands.charge_then hfailed fun hgas => ?_
  have hkey : Lands failed (Shows (b.paid GasCost.tableGet) cells (slots ++ [.value v]))
      (Engine.stringKey program idx) fun x s => x = .string m ∧
        Shows (b.paid GasCost.tableGet) cells (slots ++ [.value v]) s := by
    refine (lands_constant (b := b.paid GasCost.tableGet) hframes hproto hk).bind fun x => ?_
    exact Exec.Meets.at_state fun s ⟨hx, hs⟩ => hx ▸ Exec.Meets.of_run rfl ⟨rfl, hs⟩
  refine hkey.bind fun x => Exec.Meets.at_state fun s ⟨hx, hs⟩ => hx ▸ Exec.Meets.at_one ?_ hs
  refine Lands.popValue_then v ?_
  intro s hs
  rw [Exec.run_bind, run_resolveSentinel, hs.globals]
  exact h hgas s hs

theorem lands_fieldOn_string {n : TableRef}
    (hmodule : b.globals.get (.string (ascii "__string")) = some (.table n)) {m : Bytes}
    {f : LuaValue} (hf : (b.core.heap.table n).get (.string m) = some f) (k : Bytes) :
    Lands failed (Shows b cells slots) (Engine.fieldOn (.string k) (.string m)) fun _ =>
      Shows b cells (slots ++ [.value f]) := by
  intro s hs
  have htable : s.core.heap.table n = b.core.heap.table n := by
    unfold Heap.table
    rw [hs.core.tables]
  have hread : (Engine.stringMethod (.string m)).run s = (.ok f, s) := by
    rw [Engine.stringMethod, Exec.run_bind, Exec.run_get]
    dsimp only
    rw [hs.globals, hmodule]
    dsimp only
    rw [htable, hf]
    rfl
  have hpush : Lands failed (Shows b cells slots) (Engine.push f) fun _ =>
    Shows b cells (slots ++ [.value f]) := lands_push f
  rw [Engine.fieldOn, Exec.run_bind, hread]
  exact hpush s hs

theorem fieldOn_lacking {n : TableRef}
    (hmodule : b.globals.get (.string (ascii "__string")) = some (.table n)) {m : Bytes}
    (hf : (b.core.heap.table n).get (.string m) = none) (k : Bytes) :
    Exec.Meets (Shows b cells slots) (Engine.fieldOn (.string k) (.string m)) (fun _ _ => False)
      fun e _ => ∃ err, e = .raised err := by
  intro s hs
  have htable : s.core.heap.table n = b.core.heap.table n := by
    unfold Heap.table
    rw [hs.core.tables]
  obtain ⟨err, s', hread⟩ : ∃ err s', (Engine.stringMethod (.string m)).run s = (.error (.raised err), s') := by
    rw [Engine.stringMethod, Exec.run_bind, Exec.run_get]
    dsimp only
    rw [hs.globals, hmodule]
    dsimp only
    rw [htable, hf]
    exact ⟨_, _, rfl⟩
  rw [Engine.fieldOn, Exec.run_bind, hread]
  exact ⟨err, rfl⟩

theorem lands_fieldOn_table (n : TableRef) (m : Bytes) :
    Lands failed (Shows b cells slots) (Engine.fieldOn (.table n) (.string m)) fun _ =>
      Shows b cells (slots ++ [.value (((b.core.heap.table n).get (.string m)).getD .nil)]) := by
  intro s hs
  have htable : s.core.heap.table n = b.core.heap.table n := by
    unfold Heap.table
    rw [hs.core.tables]
  have hread : (Engine.getOrNil n (.string m)).run s =
      (.ok (((b.core.heap.table n).get (.string m)).getD .nil), s) := by
    rw [← htable]
    rfl
  have hpush : Lands failed (Shows b cells slots)
      (Engine.push (((b.core.heap.table n).get (.string m)).getD .nil)) fun _ =>
    Shows b cells (slots ++ [.value (((b.core.heap.table n).get (.string m)).getD .nil)]) := lands_push _
  have htableOf : (Engine.tableOf (.table n)).run s = (.ok n, s) := rfl
  unfold Engine.fieldOn
  dsimp only
  rw [Exec.run_bind, htableOf]
  dsimp only
  rw [Exec.run_bind, hread]
  exact hpush s hs

end Fields

/-- So much gas has been paid, and the rest is as in `Shows`. -/
structure Spent (b : Machine) (k : Nat) (cells : List LuaValue) (slots : List StackSlot)
    (s : Machine) : Prop where
  paid : k ≤ b.core.gas.remaining
  shows : Shows (b.paid k) cells slots s

/-- The failure covers gas running out within so much. -/
def CoversGas (failed : Stop → Machine → Prop) (b : Machine) (total : Nat) : Prop :=
  ∀ n ≤ total, b.core.gas.remaining < n → ∀ s : Machine, b.core.spent.SameFace s.core →
    failed (.raised .gasExhausted) s

section Setup

variable {program : CompiledProgram} {failed : Stop → Machine → Prop} {b : Machine}
  {cells cells' : List LuaValue} {slots slots' : List StackSlot} {frame : CallFrame}
  {rest : List CallFrame} {proto : FunctionProto} {k total : Nat} {α : Type}
  {post : α → Machine → Prop}

theorem spent_charge_then {j : Nat} (hcovers : CoversGas failed b total) (hle : k + j ≤ total)
    {f : Unit → Engine α} (h : Lands failed (Spent b (k + j) cells slots) (f ()) post) :
    Lands failed (Spent b k cells slots) (Engine.charge j >>= f) post := by
  refine Exec.Meets.at_state fun s ⟨hpaid, hs⟩ => Exec.Meets.at_one (Lands.charge_then ?_ ?_) hs
  · intro hlt s hs
    have hlt : b.core.gas.remaining - k < j := hlt
    exact hcovers (k + j) hle (by omega) s hs
  · intro hj s hs
    have hj : j ≤ b.core.gas.remaining - k := hj
    have hpaid' : (b.paid k).paid j = b.paid (k + j) := by
      simp [Machine.paid, Nat.sub_sub]
    exact h s ⟨by omega, hpaid' ▸ hs⟩

theorem Lands.spent {m : Engine Unit}
    (h : Lands failed (Shows (b.paid k) cells slots) m fun _ => Shows (b.paid k) cells' slots') :
    Lands failed (Spent b k cells slots) m fun _ => Spent b k cells' slots' :=
  Exec.Meets.at_state fun _ ⟨hpaid, hs⟩ => (h.at_one hs).mono (fun _ hs => hs)
    (fun _ _ hs => ⟨hpaid, hs⟩) fun _ _ hs => hs

theorem spent_getField (hcovers : CoversGas failed b total) (hle : k + GasCost.tableGet ≤ total)
    (hframes : b.frames = frame :: rest) (hproto : program.prototypes[frame.protoIdx]? = some proto)
    {idx : UInt16} {m : Bytes} (hk : proto.constants[idx.toNat]? = some (.string m)) {v f : LuaValue}
    (hfield : Lands failed (Shows (b.paid (k + GasCost.tableGet)) cells slots)
      (Engine.fieldOn (resolved b.globals v) (.string m))
      fun _ => Shows (b.paid (k + GasCost.tableGet)) cells (slots ++ [.value f])) :
    Lands failed (Spent b k cells (slots ++ [.value v])) (Engine.perform program (.getField idx))
      fun _ => Spent b (k + GasCost.tableGet) cells (slots ++ [.value f]) := by
  have hpaid' : (b.paid k).paid GasCost.tableGet = b.paid (k + GasCost.tableGet) := by
    simp [Machine.paid, Nat.sub_sub]
  refine Exec.Meets.at_state fun s ⟨hpaid, hs⟩ => Exec.Meets.at_one
    (lands_getField (b := b.paid k) hframes hproto hk v ?_ ?_) hs
  · intro hlt s hs
    have hlt : b.core.gas.remaining - k < GasCost.tableGet := hlt
    exact hcovers (k + GasCost.tableGet) hle (by omega) s hs
  · intro hgas
    have hgas : GasCost.tableGet ≤ b.core.gas.remaining - k := hgas
    rw [hpaid']
    exact hfield.mono (fun _ hs => hs) (fun _ _ hs => ⟨by omega, hs⟩) fun _ _ hs => hs

/-- A machine of a system whose host is as it was. -/
structure On (σ : System H) (P : Machine → Prop) (s : System H) : Prop where
  machine : P s.machine
  registry : s.registry = σ.registry
  transcript : s.transcript = σ.transcript

theorem Lands.embed {σ : System H} {pre : Machine → Prop} {m : Engine α}
    (h : Lands failed pre m post) :
    Exec.Meets (On σ pre) (Run.embed m) (fun a => On σ (post a)) fun e => On σ (failed e) := by
  intro s hs
  have h := h s.machine hs.machine
  rcases hrun : m.run s.machine with ⟨e | a, machine⟩
  · rw [hrun] at h
    rw [Run.run_embed hrun]
    exact ⟨h, hs.registry, hs.transcript⟩
  · rw [hrun] at h
    rw [Run.run_embed hrun]
    exact ⟨h, hs.registry, hs.transcript⟩

variable [HostInterface H] {inner : Run H LuaValue} {σ : System H}

theorem carryOut_cons {instr : Instruction} (hinstr : instr.IsPerformed) {more : List Instruction}
    (hcovers : CoversGas failed b total) (hle : k + 1 ≤ total) {mid : Machine → Prop}
    (hperform : Lands failed (Spent b (k + 1) cells slots) (Engine.perform program instr)
      fun _ => mid)
    {post : Unit → System H → Prop}
    (hmore : Exec.Meets (On σ mid) (Run.carryOut program inner more) post fun e => On σ (failed e)) :
    Exec.Meets (On σ (Spent b k cells slots)) (Run.carryOut program inner (instr :: more)) post
      fun e => On σ (failed e) := by
  have hcharge : Lands failed (Spent b k cells slots) (do
      Engine.charge GasCost.baseInstruction
      Engine.record .charged) fun _ => Spent b (k + 1) cells slots := by
    refine spent_charge_then hcovers hle (Lands.spent ?_)
    exact Lands.record_then (f := pure) _ (Exec.Meets.pure fun _ hs => hs)
  have hdispatch : Exec.Meets (On σ (Spent b k cells slots))
      (Run.dispatch program inner instr) (fun _ => On σ mid) fun e => On σ (failed e) := by
    rw [Run.dispatch_performed hinstr]
    exact hcharge.embed.bind fun _ => hperform.embed.bind fun _ => Exec.Meets.pure fun _ hs => hs
  exact hdispatch.bind fun _ => hmore

variable (inner slots) in
/-- The method, the string and the arguments are on the stack, and the string is in its slot. -/
theorem methodSetup_meets (hcovers : CoversGas failed b 6) (hframes : b.frames = frame :: rest)
    (hproto : program.prototypes[frame.protoIdx]? = some proto) {tmp : UInt8} {name : UInt16}
    {m : Bytes} (hname : proto.constants[name.toNat]? = some (.string m))
    (htmp : frame.base + tmp.toNat < slots.length)
    (hcell : ∀ cell, slots[frame.base + tmp.toNat]? = some (.shared cell) → cell < cells.length)
    {s : Bytes} {f : LuaValue} (hfield : ∀ k cells slots, Lands failed (Shows (b.paid k) cells slots)
      (Engine.fieldOn (resolved b.globals (.string s)) (.string m))
      fun _ => Shows (b.paid k) cells (slots ++ [.value f])) (args : List LuaValue) :
    Exec.Meets (On σ (Spent b 0 cells slots)) (Run.methodSetup program inner tmp name s args)
      (fun _ => On σ (Spent b 6
        (storedCells slots cells (frame.base + tmp.toNat) (.string s))
        (storedSlots slots (frame.base + tmp.toNat) (.string s) ++
          ([f, .string s] ++ args).map .value))) fun e => On σ (failed e) := by
  have hreads := (readsAs_stored htmp hcell (.string s)).append [.value f]
  have hlow : frame.base + tmp.toNat < (slots ++ [StackSlot.value (.string s)]).length := by
    rw [List.length_append]
    omega
  have hstore : Lands failed
      (Shows (b.paid 2) cells (slots ++ [.value (.string s)] ++ [.value (.string s)]))
      (Engine.storeLocal tmp) _ :=
    lands_storeLocal (b := b.paid 2) hframes hlow (.string s)
  rw [storedSlots_append htmp, storedCells_append htmp] at hstore
  have hload : Lands failed _ (Engine.loadLocal tmp) _ :=
    lands_loadLocal (b := b.paid 6) hframes hreads
  refine (Lands.embed (lands_push (.string s)).spent).bind fun _ => ?_
  refine Exec.Meets.through (fun _ => On σ (Spent b 6
    (storedCells slots cells (frame.base + tmp.toNat) (.string s))
    (storedSlots slots (frame.base + tmp.toNat) (.string s) ++ [.value f] ++
      [.value (.string s)]))) ?_ fun _ => ?_
  · refine carryOut_cons (by trivial) hcovers (by decide) (lands_dup _).spent ?_
    refine carryOut_cons (by trivial) hcovers (by decide) hstore.spent ?_
    refine carryOut_cons (by trivial) hcovers (by decide)
      (spent_getField hcovers (by decide) hframes hproto hname (hfield _ _ _)) ?_
    refine carryOut_cons (by trivial) hcovers (by decide) hload.spent ?_
    exact Exec.Meets.pure fun _ hs => hs
  · have hslots (low : List StackSlot) : low ++ ([f, .string s] ++ args).map .value =
        low ++ [.value f] ++ [.value (.string s)] ++ args.map .value := by simp
    rw [hslots]
    exact (lands_pushAll args).spent.embed

variable (inner) in
/-- The function of the module, the string and the arguments are on the stack. -/
theorem moduleSetup_meets (hcovers : CoversGas failed b 4) (hframes : b.frames = frame :: rest)
    (hproto : program.prototypes[frame.protoIdx]? = some proto) {modl name : UInt16} {m k : Bytes}
    (hmodl : proto.constants[modl.toNat]? = some (.string k))
    (hname : proto.constants[name.toNat]? = some (.string m)) {f : LuaValue}
    (hfield : ∀ j cells slots, Lands failed (Shows (b.paid j) cells slots)
      (Engine.fieldOn (resolved b.globals (.string k)) (.string m))
      fun _ => Shows (b.paid j) cells (slots ++ [.value f])) (s : Bytes) (args : List LuaValue) :
    Exec.Meets (On σ (Spent b 0 cells slots)) (Run.moduleSetup program inner modl name s args)
      (fun _ => On σ (Spent b 4 cells (slots ++ ([f, .string s] ++ args).map .value)))
      fun e => On σ (failed e) := by
  have hconst : Lands failed (Shows (b.paid 1) cells slots) (Engine.perform program (.pushK modl))
    _ := lands_pushK (b := b.paid 1) hframes hproto hmodl
  refine Exec.Meets.through (fun _ => On σ (Spent b 4 cells (slots ++ [.value f]))) ?_ fun _ => ?_
  · refine carryOut_cons (by trivial) hcovers (by decide) hconst.spent ?_
    refine carryOut_cons (by trivial) hcovers (by decide)
      (spent_getField hcovers (by decide) hframes hproto hname (hfield _ _ _)) ?_
    exact Exec.Meets.pure fun _ hs => hs
  · have hslots : slots ++ ([f, .string s] ++ args).map .value =
        slots ++ [.value f] ++ (.string s :: args).map .value := by simp
    rw [hslots]
    exact (lands_pushAll (.string s :: args)).spent.embed

end Setup

/-- Two machines that look the same, with the same slots on top of what may differ. -/
structure Machine.Beside (top : List StackSlot) (s s' : Machine) : Prop where
  core : s.core.SameFace s'.core
  config : s.config = s'.config
  frames : s.frames = s'.frames
  left : ∃ low, s.stack.map OwnedSlot.slot = low ++ top
  right : ∃ low, s'.stack.map OwnedSlot.slot = low ++ top

/-- Two computations of machines side by side, which when they fail look the same still. -/
abbrev Pair {α : Type} (top : List StackSlot) (m : Engine α) (post : α → Machine → Machine → Prop) :
    Prop :=
  Exec.Paired (Machine.Beside top) m m post fun s s' => s.core.SameFace s'.core

namespace Pair

variable {top : List StackSlot} {α : Type}

theorem lift {m : Vm α} (h : Vm.Indifferent m) :
    Pair top (Engine.lift m) fun _ => Machine.Beside top := by
  intro s s' hs
  obtain ⟨hvalue, hface⟩ := h _ _ hs.core
  refine ⟨hvalue, ?_⟩
  rw [Engine.run_lift, Engine.run_lift]
  dsimp only
  cases hrun : (m.run s.core).1 with
  | error e =>
    rw [hrun] at hface
    exact hface
  | ok a =>
    rw [hrun] at hface
    exact ⟨hface, hs.config, hs.frames, hs.left, hs.right⟩

theorem raise (e : VmError) : Pair top (Engine.raise e : Engine α) fun _ _ _ => False :=
  fun _ _ hs => ⟨rfl, hs.core.noteRaise e⟩

theorem record (e : Machine → Event) :
    Pair top (Exec.get >>= fun s => Engine.record (e s)) fun _ => Machine.Beside top :=
  fun _ _ hs => ⟨rfl, hs.core.record _ _, hs.config, hs.frames, hs.left, hs.right⟩

theorem push (v : LuaValue) :
    Pair top (Engine.push v) fun _ => Machine.Beside (top ++ [.value v]) := by
  intro s s' hs
  obtain ⟨low, hlow⟩ := hs.left
  obtain ⟨low', hlow'⟩ := hs.right
  refine ⟨rfl, hs.core, hs.config, hs.frames, ⟨low, ?_⟩, low', ?_⟩
  · simp [Engine.push, Engine.run_pushSlot, hlow]
  · simp [Engine.push, Engine.run_pushSlot, hlow']

theorem run_popValue {s : Machine} {low : List StackSlot} {v : LuaValue}
    (h : s.stack.map OwnedSlot.slot = low ++ [.value v]) :
    ∃ stack e, Engine.popValue.run s = (.ok v, { s with stack, core := s.core.record e }) ∧
      stack.map OwnedSlot.slot = low := by
  obtain ⟨stack, last, hstack, hinit, hlast⟩ := List.map_eq_append_iff.mp h
  obtain ⟨x, rfl, hx⟩ := List.map_eq_singleton_iff.mp hlast
  refine ⟨stack, .pop s.frames ((stack ++ [x]).length - 1), ?_, hinit⟩
  rw [Engine.popValue, Exec.run_bind, Engine.run_popSlot, hstack, List.getLast?_concat]
  dsimp only
  rw [hx, List.dropLast_concat]
  rfl

theorem popValue (v : LuaValue) :
    Pair (top ++ [.value v]) Engine.popValue fun x s s' => x = v ∧ Machine.Beside top s s' := by
  intro s s' hs
  obtain ⟨low, hlow⟩ := hs.left
  obtain ⟨low', hlow'⟩ := hs.right
  rw [← List.append_assoc] at hlow hlow'
  obtain ⟨stack, e, hrun, hstack⟩ := run_popValue hlow
  obtain ⟨stack', e', hrun', hstack'⟩ := run_popValue hlow'
  rw [hrun, hrun']
  exact ⟨rfl, rfl, hs.core.record _ _, hs.config, hs.frames, ⟨low, hstack⟩, low', hstack'⟩

theorem popValues (vs : List LuaValue) :
    Pair (top ++ vs.map .value) (Engine.popValues vs.length) fun xs s s' =>
      xs = vs ∧ Machine.Beside top s s' := by
  induction vs using List.reverseRecOn with
  | nil =>
    refine Exec.Paired.pure fun s s' hs => ⟨rfl, ?_⟩
    simpa using hs
  | append_singleton vs v ih =>
    rw [List.map_append, ← List.append_assoc, List.length_append]
    refine (popValue v).bind fun x => ?_
    refine Exec.Paired.through (fun xs s s' => x = v ∧ xs = vs ∧ Machine.Beside top s s')
      ?_ fun xs => Exec.Paired.pure ?_
    · intro s s' ⟨hx, hs⟩
      obtain ⟨hvalue, hstate⟩ := ih s s' hs
      refine ⟨hvalue, ?_⟩
      cases hrun : ((Engine.popValues vs.length).run s).1 with
      | error e =>
        rw [hrun] at hstate
        exact hstate
      | ok xs =>
        rw [hrun] at hstate
        exact ⟨hx, hstate⟩
    · rintro s s' ⟨rfl, rfl, hs⟩
      exact ⟨rfl, hs⟩

theorem takeCall {argc : UInt8} {vs : List LuaValue} (hargc : vs.length = argc.toNat)
    (id : BuiltinId) :
    Pair (top ++ [.value (.builtin id)] ++ vs.map .value) (Engine.takeCall argc) fun call s s' =>
      call = (.builtin id, vs) ∧ Machine.Beside top s s' := by
  unfold Engine.takeCall
  rw [← hargc]
  refine (popValues vs).bind fun xs => ?_
  refine Exec.Paired.through (fun func s s' => func = .builtin id ∧ xs = vs ∧
    Machine.Beside top s s') ?_ fun func => ?_
  · intro s s' ⟨hxs, hs⟩
    obtain ⟨hvalue, hstate⟩ := popValue (.builtin id) s s' hs
    refine ⟨hvalue, ?_⟩
    cases hrun : (Engine.popValue.run s).1 with
    | error e =>
      rw [hrun] at hstate
      exact hstate
    | ok x =>
      rw [hrun] at hstate
      exact ⟨hstate.1, hxs, hstate.2⟩
  · intro s s' ⟨hfunc, hxs, hs⟩
    subst hfunc hxs
    exact ⟨rfl, rfl, hs.core.record _ _, hs.config, hs.frames, hs.left, hs.right⟩

end Pair

/-- Two systems with the same host. -/
structure System.Beside (P : Machine → Machine → Prop) (s s' : System H) : Prop where
  machine : P s.machine s'.machine
  registry : s.registry = s'.registry
  transcript : s.transcript = s'.transcript

section PairedCalls

variable {top : List StackSlot} {α : Type}

theorem Pair.embed {m : Engine α} {P : Machine → Machine → Prop}
    {post : α → Machine → Machine → Prop}
    (h : Exec.Paired P m m post fun s s' => s.core.SameFace s'.core) :
    Exec.Paired (System.Beside (H := H) P) (Run.embed m) (Run.embed m)
      (fun a => System.Beside (post a)) System.SameEffects := by
  intro s s' hs
  obtain ⟨hvalue, hstate⟩ := h s.machine s'.machine hs.machine
  refine ⟨hvalue, ?_⟩
  rw [show ((Run.embed m : Run H α).run s).1 = (m.run s.machine).1 from rfl]
  cases hrun : (m.run s.machine).1 with
  | error e =>
    rw [hrun] at hstate
    exact ⟨hstate, hs.registry, hs.transcript⟩
  | ok a =>
    rw [hrun] at hstate
    exact ⟨hstate, hs.registry, hs.transcript⟩

variable {program : CompiledProgram} {inner : Run H LuaValue}

theorem call_paired {argc : UInt8} {vs : List LuaValue} (hargc : vs.length = argc.toNat)
    {id : BuiltinId} (hid : id ∈ Globals.stringIds) :
    Exec.Paired (System.Beside (H := H) (Machine.Beside (.value (.builtin id) :: vs.map .value)))
      (Run.call program inner argc) (Run.call program inner argc)
      (fun _ => System.Beside fun s s' => ∃ v, Machine.Beside [.value v] s s')
      System.SameEffects := by
  have hbuiltin (args : List LuaValue) :
      Run.builtin program inner id args = Run.callBuiltin id args := by
    unfold Run.builtin
    split
    · exact absurd hid (by decide)
    · rfl
  refine (Pair.embed (Pair.lift (.charge _))).bind fun _ => ?_
  refine Exec.Paired.get_bind fun s s' hs => ?_
  dsimp only
  rw [hs.machine.frames, hs.machine.config]
  refine Exec.Paired.at_states ?_ hs
  split_ifs
  · exact (Pair.embed (Pair.raise _)).mono (fun _ _ hs => hs)
      (fun _ _ _ hs => hs.machine.elim) fun _ _ hs => hs
  · refine (Pair.embed (@Pair.takeCall [] _ _ hargc id)).bind fun func => ?_
    rintro s s' ⟨⟨rfl, hs⟩, hregistry, htranscript⟩
    have hcalled : Exec.Paired (System.Beside (H := H) (Machine.Beside []))
        (Run.builtin program inner id vs >>= fun result => Run.embed (Engine.push result))
        (Run.builtin program inner id vs >>= fun result => Run.embed (Engine.push result))
        (fun _ => System.Beside fun s s' => ∃ v, Machine.Beside [.value v] s s')
        System.SameEffects := by
      rw [hbuiltin]
      refine (Pair.embed (Pair.lift ((Vm.callBuiltin_indifferent hid vs).bind fun _ =>
        .pure _))).bind fun v => ?_
      exact (Pair.embed (Pair.push v)).mono (fun _ _ hs => hs)
        (fun _ _ _ hs => ⟨⟨v, hs.machine⟩, hs.registry, hs.transcript⟩) fun _ _ hs => hs
    exact hcalled s s' ⟨hs, hregistry, htranscript⟩

/-- A call of a function of the string module does the same on both. -/
theorem carryOut_call_paired [HostInterface H] {argc : UInt8} {vs : List LuaValue} (hargc : vs.length = argc.toNat)
    {id : BuiltinId} (hid : id ∈ Globals.stringIds) :
    Exec.Paired (System.Beside (H := H) (Machine.Beside (.value (.builtin id) :: vs.map .value)))
      (Run.carryOut program inner [.call argc]) (Run.carryOut program inner [.call argc])
      (fun _ => System.Beside fun s s' => ∃ v, Machine.Beside [.value v] s s')
      System.SameEffects := by
  have hcharge : Pair (.value (.builtin id) :: vs.map .value) (do
      Engine.charge GasCost.baseInstruction
      Engine.record .charged) fun _ => Machine.Beside (.value (.builtin id) :: vs.map .value) :=
    (Pair.lift (.charge _)).bind fun _ => Pair.record fun _ => .charged
  refine Exec.Paired.through (fun _ => System.Beside fun s s' =>
    ∃ v, Machine.Beside [.value v] s s') ?_ fun _ => Exec.Paired.pure fun _ _ hs => hs
  exact (Pair.embed hcharge).bind fun _ => (call_paired hargc hid).bind fun _ =>
    Exec.Paired.pure fun _ _ hs => hs

end PairedCalls

section Agreement

variable {program : CompiledProgram} {inner : Run H LuaValue} {σ : System H} {tmp : UInt8}
  {modl name : UInt16} {argc : UInt8} {m s : Bytes} {args : List LuaValue}

theorem Machine.Beside.result {s s' : Machine} {v : LuaValue}
    (h : Machine.Beside [.value v] s s') : s.result = s'.result := by
  obtain ⟨low, hlow⟩ := h.left
  obtain ⟨low', hlow'⟩ := h.right
  unfold Machine.result
  rw [← List.getLast?_map, ← List.getLast?_map, hlow, hlow', List.getLast?_concat,
    List.getLast?_concat]

/-- The failure of both when there is too little gas for what comes before the call. -/
structure RanOut (σ : System H) (e : Stop) (s : Machine) : Prop where
  short : σ.machine.core.gas.remaining < 4
  error : e = .raised .gasExhausted
  core : σ.machine.core.spent.SameFace s.core

theorem coversGas_module (σ : System H) : CoversGas (RanOut σ) σ.machine 4 :=
  fun _ hn hlt _ hs => ⟨lt_of_lt_of_le hlt hn, rfl, hs⟩

theorem coversGas_method (σ : System H) :
    CoversGas (RanOut σ) (σ.withGas (2 * GasCost.baseInstruction)).machine 6 := by
  intro n hn hlt s hs
  have hlt : σ.machine.core.gas.remaining + 2 < n := hlt
  exact ⟨by omega, rfl, hs.target, hs.gas, hs.mem, hs.tables, hs.logs⟩

theorem spent_self (b : Machine) : Spent b 0 b.core.heap.cells (b.stack.map OwnedSlot.slot) b :=
  ⟨Nat.zero_le _, .refl _, rfl, rfl, rfl, rfl, rfl⟩

/-- Both setups leave machines that look the same, with the call on top of their stacks. -/
theorem beside_of_spent {τ τ' : System H} {cells cells' : List LuaValue}
    {slots slots' top : List StackSlot}
    (h : On (σ.withGas (2 * GasCost.baseInstruction))
      (Spent (σ.withGas (2 * GasCost.baseInstruction)).machine 6 cells (slots ++ top)) τ)
    (h' : On σ (Spent σ.machine 4 cells' (slots' ++ top)) τ') :
    System.Beside (Machine.Beside top) τ τ' := by
  obtain ⟨⟨hpaid, hs⟩, hregistry, htranscript⟩ := h
  obtain ⟨⟨hpaid', hs'⟩, hregistry', htranscript'⟩ := h'
  have hface : ((σ.withGas (2 * GasCost.baseInstruction)).machine.paid 6).core.SameFace
      (σ.machine.paid 4).core := by
    refine ⟨rfl, ?_, rfl, rfl, rfl⟩
    simp only [Machine.paid, System.withGas, GasCost.baseInstruction, GasMeter.mk.injEq, and_true]
    omega
  exact ⟨⟨hs.core.symm.trans (hface.trans hs'.core), hs.config.trans hs'.config.symm,
    hs.frames.trans hs'.frames.symm, ⟨slots, hs.slots⟩, slots', hs'.slots⟩,
    hregistry.trans hregistry'.symm, htranscript.trans htranscript'.symm⟩

/-- Where both ways find the same function of the module, they agree. -/
theorem sameOutcome_of_field [HostInterface H] {frame : CallFrame} {rest : List CallFrame} {proto : FunctionProto}
    (hframes : σ.machine.frames = frame :: rest)
    (hproto : program.prototypes[frame.protoIdx]? = some proto)
    (hmodl : proto.constants[modl.toNat]? = some (.string (ascii "__string")))
    (hname : proto.constants[name.toNat]? = some (.string m))
    (htmp : frame.base + tmp.toNat < σ.machine.stack.length)
    (hcell : ∀ cell, (σ.machine.stack.map OwnedSlot.slot)[frame.base + tmp.toNat]? =
      some (.shared cell) → cell < σ.machine.core.heap.cells.length)
    {id : BuiltinId} (hid : id ∈ Globals.stringIds) (hargc : args.length + 1 = argc.toNat)
    (hmethod : ∀ k cells slots, Lands (RanOut σ)
      (Shows ((σ.withGas (2 * GasCost.baseInstruction)).machine.paid k) cells slots)
      (Engine.fieldOn (resolved σ.machine.globals (.string s)) (.string m))
      fun _ => Shows ((σ.withGas (2 * GasCost.baseInstruction)).machine.paid k) cells
        (slots ++ [.value (.builtin id)]))
    (hmodule : ∀ k cells slots, Lands (RanOut σ) (Shows (σ.machine.paid k) cells slots)
      (Engine.fieldOn (resolved σ.machine.globals (.string (ascii "__string"))) (.string m))
      fun _ => Shows (σ.machine.paid k) cells (slots ++ [.value (.builtin id)])) :
    SameOutcome
      ((Run.methodCall program inner tmp name argc s args).run
        (σ.withGas (2 * GasCost.baseInstruction)))
      ((Run.moduleCall program inner modl name argc s args).run σ) := by
  have hleft := methodSetup_meets (σ.machine.stack.map OwnedSlot.slot) inner (coversGas_method σ)
    hframes hproto hname (by simpa using htmp) hcell hmethod args
    (σ.withGas (2 * GasCost.baseInstruction)) ⟨spent_self _, rfl, rfl⟩
  have hright := moduleSetup_meets inner (coversGas_module σ) hframes hproto hmodl hname
    hmodule s args σ ⟨spent_self _, rfl, rfl⟩
  unfold Run.methodCall Run.moduleCall
  rw [Exec.run_bind, Exec.run_bind]
  rcases hrunLeft : (Run.methodSetup program inner tmp name s args).run
    (σ.withGas (2 * GasCost.baseInstruction)) with ⟨e | u, τ⟩
  · rw [hrunLeft] at hleft
    obtain ⟨⟨hshort, rfl, hface⟩, hregistry, htranscript⟩ := hleft
    rcases hrunRight : (Run.moduleSetup program inner modl name s args).run σ with ⟨e | u, τ'⟩
    · rw [hrunRight] at hright
      obtain ⟨⟨-, rfl, hface'⟩, hregistry', htranscript'⟩ := hright
      exact ⟨rfl, ⟨hface.symm.trans hface', hregistry.trans hregistry'.symm,
        htranscript.trans htranscript'.symm⟩, nofun⟩
    · rw [hrunRight] at hright
      exact absurd hright.machine.paid (not_le.mpr hshort)
  · rw [hrunLeft] at hleft
    rcases hrunRight : (Run.moduleSetup program inner modl name s args).run σ with ⟨e | u, τ'⟩
    · rw [hrunRight] at hright
      have hpaid : 6 ≤ σ.machine.core.gas.remaining + 2 := hleft.machine.paid
      have hshort := hright.machine.short
      omega
    · rw [hrunRight] at hright
      have hcall : Exec.Paired (System.Beside (Machine.Beside
          (.value (.builtin id) :: (.string s :: args).map .value))) (Run.carryOut program inner [.call argc])
          (Run.carryOut program inner [.call argc]) _ _ :=
        carryOut_call_paired (by exact hargc) hid
      obtain ⟨hends, hstate⟩ := hcall τ τ' (beside_of_spent hleft hright)
      dsimp only
      refine ⟨hends, ?_, fun hok => ?_⟩
      · cases hrun : ((Run.carryOut program inner [.call argc]).run τ).1 with
        | error e =>
          rw [hrun] at hstate
          exact hstate
        | ok u =>
          rw [hrun] at hstate
          obtain ⟨v, hv⟩ := hstate.machine
          exact ⟨hv.core, hstate.registry, hstate.transcript⟩
      · rw [hok] at hstate
        obtain ⟨v, hv⟩ := hstate.machine
        exact hv.result

/-- An error of the machine. -/
def IsRaised (e : Stop) (_ : Machine) : Prop := ∃ err, e = .raised err

theorem coversGas_raised (b : Machine) (total : Nat) : CoversGas IsRaised b total :=
  fun _ _ _ _ _ => ⟨_, rfl⟩

theorem Lands.popValues_then {failed : Stop → Machine → Prop} {b : Machine}
    {cells : List LuaValue} {slots : List StackSlot} {α : Type} {post : α → Machine → Prop}
    (vs : List LuaValue) {f : List LuaValue → Engine α}
    (h : Lands failed (Shows b cells slots) (f vs) post) :
    Lands failed (Shows b cells (slots ++ vs.map .value)) (Engine.popValues vs.length >>= f)
      post := by
  induction vs using List.reverseRecOn generalizing f with
  | nil =>
    rw [List.map_nil, List.append_nil]
    exact h
  | append_singleton vs v ih =>
    rw [List.map_append, ← List.append_assoc, List.length_append]
    show Lands failed _ ((Engine.popValue >>= fun v => Engine.popValues vs.length >>= fun rest =>
      pure (rest ++ [v])) >>= f) post
    rw [Exec.bind_assoc]
    refine Lands.popValue_then v ?_
    rw [Exec.bind_assoc]
    exact ih h

/-- The call of a value that is nothing to call. -/
theorem call_nil_fails {b : Machine} {cells : List LuaValue} {slots : List StackSlot}
    {vs : List LuaValue} (hargc : vs.length = argc.toNat) {k : Nat} :
    Exec.Meets (On σ (Spent b k cells (slots ++ .value .nil :: vs.map .value)))
      (Run.call program inner argc) (fun _ _ => False) fun e => On σ (IsRaised e) := by
  have hcharge : Lands IsRaised (Spent b k cells (slots ++ .value .nil :: vs.map .value))
      (Engine.charge GasCost.functionCall) fun _ =>
        Spent b (k + GasCost.functionCall) cells (slots ++ .value .nil :: vs.map .value) := by
    rw [← Exec.bind_pure (Engine.charge GasCost.functionCall)]
    exact spent_charge_then (coversGas_raised b _) le_rfl (Exec.Meets.pure fun _ hs => hs)
  have hraise (e : VmError) {P : Machine → Prop} : Lands IsRaised P (Engine.raise e : Engine Unit)
      fun _ _ => False := fun _ _ => ⟨e, rfl⟩
  refine hcharge.embed.bind fun _ => Exec.Meets.get_bind fun s hs => ?_
  dsimp only
  split_ifs
  · exact Exec.Meets.at_one ((hraise _).embed.mono (fun _ hs => hs)
      (fun _ _ hs => hs.machine) fun _ _ hs => hs) hs
  · have htake : Lands IsRaised
        (Spent b (k + GasCost.functionCall) cells (slots ++ .value .nil :: vs.map .value))
        (Engine.takeCall argc) fun call _ => call = (.nil, vs) := by
      refine Exec.Meets.at_state fun s hs => Exec.Meets.at_one ?_ hs.shows
      rw [List.append_cons]
      unfold Engine.takeCall
      rw [← hargc]
      refine Lands.popValues_then vs ?_
      have hnil : Lands IsRaised (Shows (b.paid (k + GasCost.functionCall)) cells slots)
          (Engine.resolveSentinel .nil) fun x _ => x = .nil := fun _ _ => rfl
      refine Lands.popValue_then .nil (hnil.bind fun x => ?_)
      rintro s rfl
      rfl
    refine Exec.Meets.at_one (htake.embed.bind fun call => ?_) hs
    rintro s ⟨hcall, hregistry, htranscript⟩
    rw [hcall]
    exact ⟨⟨_, rfl⟩, hregistry, htranscript⟩

theorem carryOut_call_nil_fails [HostInterface H] {b : Machine} {cells : List LuaValue}
    {slots : List StackSlot} {vs : List LuaValue} (hargc : vs.length = argc.toNat) {k : Nat} :
    Exec.Meets (On σ (Spent b k cells (slots ++ .value .nil :: vs.map .value)))
      (Run.carryOut program inner [.call argc]) (fun _ _ => False) fun e => On σ (IsRaised e) := by
  have hcharge : Lands IsRaised (Spent b k cells (slots ++ .value .nil :: vs.map .value)) (do
      Engine.charge GasCost.baseInstruction
      Engine.record .charged) fun _ =>
        Spent b (k + 1) cells (slots ++ .value .nil :: vs.map .value) := by
    refine spent_charge_then (coversGas_raised _ _) le_rfl (Lands.spent ?_)
    rw [← Exec.bind_pure (Engine.record .charged)]
    exact Lands.record_then _ (Exec.Meets.pure fun _ hs => hs)
  refine Exec.Meets.through (fun _ _ => False) ?_ fun _ _ hs => hs.elim
  refine hcharge.embed.bind fun _ => ?_
  exact (call_nil_fails hargc).bind fun _ _ hs => hs.elim

theorem resolved_plain (heap : Heap) (h : s ∉ Globals.sentinels) :
    resolved (Globals.build heap).1 (.string s) = .string s := by
  rw [resolved, Globals.get_build_none heap h, Option.getD_none, ite_self]

theorem resolved_module (heap : Heap) :
    resolved (Globals.build heap).1 (.string (ascii "__string")) = .table heap.tables.length := by
  rw [resolved, Globals.get_build_string, if_pos (by decide), Option.getD_some]

/-- The strings whose fields are the functions of the string module. -/
def HasMethods (s : Bytes) : Prop := s = ascii "__string" ∨ s ∉ Globals.sentinels

instance (s : Bytes) : Decidable (HasMethods s) := inferInstanceAs (Decidable (_ ∨ _))

/-- A method of a string that has them is the function of the module. -/
theorem lands_method {failed : Stop → Machine → Prop} {b : Machine} {cells : List LuaValue}
    {slots : List StackSlot} {heap : Heap} (hglobals : b.globals = (Globals.build heap).1)
    (hmodule : b.core.heap.table heap.tables.length = Globals.stringModule)
    {f : LuaValue} (hf : Globals.stringModule.get (.string m) = some f) (h : HasMethods s) :
    Lands failed (Shows b cells slots) (Engine.fieldOn (resolved b.globals (.string s)) (.string m))
      fun _ => Shows b cells (slots ++ [.value f]) := by
  rw [hglobals]
  rcases h with rfl | h
  · have hfield : Lands failed (Shows b cells slots)
        (Engine.fieldOn (.table heap.tables.length) (.string m)) _ :=
      lands_fieldOn_table heap.tables.length m
    rw [hmodule, hf] at hfield
    rw [resolved_module]
    exact hfield
  · rw [resolved_plain heap h]
    refine lands_fieldOn_string (n := heap.tables.length) ?_ ?_ s
    · rw [hglobals, Globals.get_build_string]
    · rw [hmodule, hf]

theorem HasMethods.agree [HostInterface H] (h : HasMethods s)
    (hcallable : Callable program tmp modl name m σ.machine)
    (hm : (Globals.stringModule.get (.string m)).isSome) (hargc : args.length + 1 = argc.toNat) :
    SameOutcome
      ((Run.methodCall program inner tmp name argc s args).run
        (σ.withGas (2 * GasCost.baseInstruction)))
      ((Run.moduleCall program inner modl name argc s args).run σ) := by
  obtain ⟨f, hf⟩ := Option.isSome_iff_exists.mp hm
  obtain ⟨id, hid, rfl⟩ := Globals.stringModule_get hf
  obtain ⟨heap, hglobals, htables⟩ := hcallable.globals
  have hmodule : σ.machine.core.heap.table heap.tables.length = Globals.stringModule :=
    htables 0 _ rfl
  obtain ⟨frame, rest, proto, hframes, hproto, hmodl, hname, entry, hentry, hcell⟩ :=
    hcallable.code
  have hslot : (σ.machine.stack.map OwnedSlot.slot)[frame.base + tmp.toNat]? = some entry.slot := by
    rw [List.getElem?_map, hentry]
    rfl
  refine sameOutcome_of_field hframes hproto hmodl hname (List.getElem?_eq_some_iff.mp hentry).1 ?_
    hid hargc ?_ ?_
  · intro cell hshared
    exact hcell cell (Option.some.inj (hslot.symm.trans hshared))
  · exact fun k _ _ => lands_method (b := (σ.withGas (2 * GasCost.baseInstruction)).machine.paid k)
      hglobals hmodule hf h
  · exact fun k _ _ => lands_method (b := σ.machine.paid k) hglobals hmodule hf (.inl rfl)

/-- A string that has methods has no more than the module. -/
theorem lands_lacking {b : Machine} {cells : List LuaValue} {slots : List StackSlot} {heap : Heap}
    (hglobals : b.globals = (Globals.build heap).1)
    (hmodule : b.core.heap.table heap.tables.length = Globals.stringModule)
    (hm : Globals.stringModule.get (.string m) = none) (h : HasMethods s) :
    Lands IsRaised (Shows b cells slots)
      (Engine.fieldOn (resolved b.globals (.string s)) (.string m))
      fun _ => Shows b cells (slots ++ [.value .nil]) := by
  rw [hglobals]
  rcases h with rfl | h
  · have hfield : Lands IsRaised (Shows b cells slots)
        (Engine.fieldOn (.table heap.tables.length) (.string m)) _ :=
      lands_fieldOn_table heap.tables.length m
    rw [hmodule, hm] at hfield
    rw [resolved_module]
    exact hfield
  · rw [resolved_plain heap h]
    refine (fieldOn_lacking (n := heap.tables.length) ?_ ?_ s).mono (fun _ hs => hs)
      (fun _ _ hs => hs.elim) fun _ _ hs => hs
    · rw [hglobals, Globals.get_build_string]
    · rw [hmodule, hm]

theorem HasMethods.lacking [HostInterface H] (h : HasMethods s)
    (hcallable : Callable program tmp modl name m σ.machine)
    (hm : Globals.stringModule.get (.string m) = none) (hargc : args.length + 1 = argc.toNat) :
    ∃ e σ', (Run.methodCall program inner tmp name argc s args).run σ =
      (.error (.raised e), σ') := by
  obtain ⟨heap, hglobals, htables⟩ := hcallable.globals
  have hmodule : σ.machine.core.heap.table heap.tables.length = Globals.stringModule :=
    htables 0 _ rfl
  obtain ⟨frame, rest, proto, hframes, hproto, -, hname, entry, hentry, hcell⟩ := hcallable.code
  have hslot : (σ.machine.stack.map OwnedSlot.slot)[frame.base + tmp.toNat]? = some entry.slot := by
    rw [List.getElem?_map, hentry]
    rfl
  have hsetup := methodSetup_meets (σ := σ) (σ.machine.stack.map OwnedSlot.slot) inner
    (coversGas_raised σ.machine 6) hframes hproto hname
    (by simpa using (List.getElem?_eq_some_iff.mp hentry).1)
    (fun cell hshared => hcell cell (Option.some.inj (hslot.symm.trans hshared)))
    (fun k _ _ => lands_lacking (b := σ.machine.paid k) hglobals hmodule hm h) args
  have hcall := hsetup.bind (f := fun _ => Run.carryOut program inner [.call argc]) fun _ =>
    carryOut_call_nil_fails (by exact hargc)
  have hend := hcall σ ⟨spent_self _, rfl, rfl⟩
  unfold Run.methodCall
  rcases hrun : (Run.methodSetup program inner tmp name s args >>= fun _ =>
    Run.carryOut program inner [.call argc]).run σ with ⟨e | u, σ'⟩
  · rw [hrun] at hend
    obtain ⟨⟨err, rfl⟩, -, -⟩ := hend
    exact ⟨err, σ', rfl⟩
  · rw [hrun] at hend
    exact hend.elim

end Agreement

theorem Globals.build_tables (heap : Heap) {i : Nat} {entry : String × LuaTable LuaValue}
    (h : Globals.modules[i]? = some entry) :
    (Globals.build heap).2.table (heap.tables.length + i) = entry.2 := by
  simp [Globals.build, Heap.table, List.getElem?_append_right, h]

/-- A function with the names of the string module and of one of its functions. -/
def lengthProgram : CompiledProgram :=
  ⟨[{ FunctionProto.new 0 with
    localCount := 1, constants := [.string (ascii "__string"), .string (ascii "len")] }]⟩

/-- The machine where this function runs. -/
def lengthSystem : System NoopHost :=
  { System.plain .default with machine := { (System.plain .default).machine with
    frames := [⟨0, 0, 0, [], 0⟩], stack := [⟨0, .value .nil⟩] } }

theorem callable_length : Callable lengthProgram 0 0 1 (ascii "len") lengthSystem.machine where
  globals := ⟨Heap.empty, rfl, fun _ _ h => Globals.build_tables _ h⟩
  code := ⟨_, _, _, rfl, rfl, rfl, rfl, _, rfl, nofun⟩

/-- `s:len()` on this machine. -/
def lengthMethod (s : Bytes) : Except Stop Unit × System NoopHost :=
  (Run.methodCall lengthProgram (Exec.throw .panicked) 0 1 1 s []).run
    (lengthSystem.withGas (2 * GasCost.baseInstruction))

/-- `string.len(s)` on this machine. -/
def lengthModule (s : Bytes) : Except Stop Unit × System NoopHost :=
  (Run.moduleCall lengthProgram (Exec.throw .panicked) 0 1 1 s []).run lengthSystem

theorem MethodsAgree.length {s : Bytes} (h : MethodsAgree s) :
    SameOutcome (lengthMethod s) (lengthModule s) :=
  h.agree lengthProgram (Exec.throw .panicked) 0 0 1 1 (ascii "len") [] lengthSystem
    callable_length (by decide) rfl

/-- `("__math"):len()` calls a nil value, and `string.len("__math")` is 6. -/
theorem not_methodsAgree_math :
    ¬MethodsAgree (ascii "__math") ∧
      (lengthMethod (ascii "__math")).1 =
        .error (.raised (.typeError (ascii "attempt to call a nil value"))) ∧
      (lengthModule (ascii "__math")).2.machine.result = some (.value (.integer 6)) := by
  have hmethod : (lengthMethod (ascii "__math")).1 =
      .error (.raised (.typeError (ascii "attempt to call a nil value"))) := by decide
  have hmodule : (lengthModule (ascii "__math")).1 = .ok () := by decide
  refine ⟨fun h => ?_, hmethod, by decide⟩
  have hends := h.length.ends
  rw [hmethod, hmodule] at hends
  cases hends

/-- Methods of a string agree with the module exactly when it has them. -/
theorem methodsAgree_iff (s : Bytes) : MethodsAgree s ↔ HasMethods s := by
  have hdiffer : ∀ s ∈ Globals.sentinels, ¬HasMethods s →
      (lengthMethod s).1 ≠ (lengthModule s).1 := by decide
  refine ⟨fun h => ?_, fun h => ⟨fun _ _ _ _ _ _ _ _ _ => h.agree, fun _ _ _ _ _ _ _ _ _ =>
    h.lacking⟩⟩
  by_contra hmethods
  have hsentinel : s ∈ Globals.sentinels := by
    by_contra hs
    exact hmethods (.inr hs)
  exact hdiffer s hsentinel hmethods h.length.ends

end Proveno
