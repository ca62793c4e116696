import Proveno.Semantics.Expressions
import Proveno.Vm.Activations

/-! The ways through the code of a function that runs, with gas and memory enough: from one
position to another, or to an error. -/

namespace Proveno

/-- A function that runs, and the loop that it runs in. -/
structure Activation where
  program : CompiledProgram
  proto : FunctionProto
  frame : CallFrame
  around : List CallFrame
  heap : Heap
  /-- Whether the loop is one within an instruction. -/
  nested : Bool
  known : program.prototypes[frame.protoIdx]? = some proto

namespace Activation

variable (a : Activation)

def setting : Setting := ⟨True, a.heap⟩

def frameAt (pc : Nat) : CallFrame := { a.frame with pc }

/-- The function is at this position, with these slots and so much gas at least. -/
def At (pc : Nat) (slots : List StackSlot) (gas : Nat) : Machine → Prop :=
  Sits a.setting (a.frameAt pc :: a.around) slots gas

/-- With gas for it the function comes from one position to another. -/
def Goes (pc : Nat) (slots : List StackSlot) (pc' : Nat) (slots' : List StackSlot) : Prop :=
  ∃ turns cost, turns ≤ cost ∧ ∀ gas m, a.At pc slots (gas + cost) m →
    ∃ m', a.At pc' slots' gas m' ∧ Turns a.program a.nested turns m m'

/-- With gas for it the function comes to an error. -/
def Stops (pc : Nat) (slots : List StackSlot) (e : VmError) : Prop :=
  ∃ turns cost, turns < cost ∧ ∀ m, a.At pc slots cost m →
    ∃ mid m' f instr, Turns a.program a.nested turns m mid ∧ Performs a.program f instr mid ∧
      (Engine.performTurn a.program a.nested f instr).run mid = (.error (.raised e), m')

variable {a} {pc pc' pc'' k gas : Nat} {slots slots' slots'' : List StackSlot} {e : VmError}
  {instr : Instruction}

theorem At.mono {m : Machine} {gas' : Nat} (h : a.At pc slots gas m) (hle : gas' ≤ gas) :
    a.At pc slots gas' m :=
  ⟨h.heap, h.frames, h.running, h.slots, fun hample => hle.trans (h.gas hample), h.mem⟩

theorem Goes.refl (pc : Nat) (slots : List StackSlot) : a.Goes pc slots pc slots :=
  ⟨0, 0, le_rfl, fun _ m h => ⟨m, h, .refl m⟩⟩

theorem Goes.trans (h : a.Goes pc slots pc' slots') (h' : a.Goes pc' slots' pc'' slots'') :
    a.Goes pc slots pc'' slots'' := by
  obtain ⟨turns, cost, hle, h⟩ := h
  obtain ⟨turns', cost', hle', h'⟩ := h'
  refine ⟨turns + turns', cost' + cost, by omega, fun gas m hat => ?_⟩
  rw [← Nat.add_assoc] at hat
  obtain ⟨mid, hmid, hturns⟩ := h _ m hat
  obtain ⟨m', hat', hturns'⟩ := h' gas mid hmid
  exact ⟨m', hat', hturns.trans hturns'⟩

theorem Goes.stops (h : a.Goes pc slots pc' slots') (h' : a.Stops pc' slots' e) :
    a.Stops pc slots e := by
  obtain ⟨turns, cost, hle, h⟩ := h
  obtain ⟨turns', cost', hlt, h'⟩ := h'
  refine ⟨turns + turns', cost' + cost, by omega, fun m hat => ?_⟩
  obtain ⟨mid, hmid, hturns⟩ := h cost' m hat
  obtain ⟨mid', m', f, instr, hturns', hrest⟩ := h' mid hmid
  exact ⟨mid', m', f, instr, hturns.trans hturns', hrest⟩

section Turn

variable {failed : Stop → Machine → Prop} {post : Machine → Prop}

/-- Nothing fails for want of gas or memory. -/
theorem meets_ample {α : Type} {pre : Machine → Prop} {m : Engine α} {post : α → Machine → Prop}
    (h : Exec.Meets pre m post fun _ => Starved a.setting) : Exec.Meets pre m post failed :=
  h.mono (fun _ => id) (fun _ _ => id) fun _ _ hstarved => (hstarved.short trivial).elim

/-- A computation that is sure to have a value, before another. -/
theorem meets_then {α β : Type} {pre mid : Machine → Prop} {m : Engine α} {x : α}
    {f : α → Engine β} {post : β → Machine → Prop} (hm : Attains (Starved a.setting) pre m x mid)
    (hf : Exec.Meets mid (f x) post failed) : Exec.Meets pre (m >>= f) post failed :=
  (meets_ample hm).bind fun _ => Exec.Meets.at_state fun _ ⟨hx, hs⟩ => hx ▸ hf.at_one hs

theorem meets_advance (pc : Nat) :
    Exec.Meets (a.At pc slots gas) (Engine.advance a.nested (a.frameAt pc))
      (fun _ => a.At (pc + 1) slots gas) failed := by
  have hadvance : Exec.Meets (a.At pc slots gas) (Engine.advance a.nested (a.frameAt pc))
      (fun _ => a.At (pc + 1) slots gas) fun _ => Starved a.setting := by
    refine Exec.Meets.get_bind fun s hs => Exec.Meets.at_one ?_ hs
    refine Exec.Meets.bind (attains_record _) fun _ => ?_
    refine Exec.Meets.at_state fun s ⟨_, hs⟩ => Exec.Meets.at_one ?_ hs
    refine Exec.Meets.bind (attains_setPc _ a.around (pc + 1)) fun _ => ?_
    exact Exec.Meets.pure fun _ hs => hs.2
  exact meets_ample hadvance

theorem meets_performTurn
    (h : Exec.Meets (a.At (pc + 1) slots k) (Engine.perform a.program instr) (fun _ => post) failed)
    (hpost : ∀ m e, post m → post { m with core := m.core.record e }) :
    Exec.Meets (a.At pc slots (k + 1)) (Engine.performTurn a.program a.nested (a.frameAt pc) instr)
      (fun _ => post) failed := by
  refine Exec.Meets.bind (meets_advance pc) fun turn => ?_
  refine Exec.Meets.bind (meets_then (attains_charge 1) (meets_then (attains_record _) h)) fun _ => ?_
  exact Exec.Meets.get_bind fun s hs => Exec.Meets.modify fun s' hs' => hpost s' _ (hs' ▸ hs)

theorem performs_at (hinstr : a.proto.code[pc]? = some instr) (hperformed : instr.IsPerformed)
    {m : Machine} (hat : a.At pc slots gas m) : Performs a.program (a.frameAt pc) instr m :=
  ⟨by rw [hat.frames]; rfl, ⟨a.proto, a.known, hinstr⟩, hperformed⟩

/-- An instruction that takes so much gas leads on. -/
theorem Goes.step (hinstr : a.proto.code[pc]? = some instr) (hperformed : instr.IsPerformed)
    (h : ∀ gas, Attains (Starved a.setting) (a.At (pc + 1) slots (gas + k))
      (Engine.perform a.program instr) () (a.At pc' slots' gas)) :
    a.Goes pc slots pc' slots' := by
  refine ⟨1, k + 1, by omega, fun gas m hat => ?_⟩
  have hperform : Exec.Meets (a.At (pc + 1) slots (gas + k)) (Engine.perform a.program instr)
      (fun _ => a.At pc' slots' gas) fun _ _ => False :=
    (meets_ample (h gas)).mono (fun _ => id) (fun _ _ hs => hs.2) fun _ _ => id
  have hmeets := meets_performTurn hperform
    (fun m e hat => ⟨hat.heap, hat.frames, hat.running, hat.slots, hat.gas, hat.mem⟩) m
    (by rwa [← Nat.add_assoc] at hat)
  rcases hrun : (Engine.performTurn a.program a.nested (a.frameAt pc) instr).run m with ⟨e | _, m'⟩
  · rw [hrun] at hmeets
    exact hmeets.elim
  · rw [hrun] at hmeets
    have hdepth : m'.frames.length = m.frames.length := by
      rw [hmeets.frames, hat.frames, List.length_cons, List.length_cons]
    exact ⟨m', hmeets, .turn (performs_at hinstr hperformed hat) hrun hdepth (.refl m')⟩

/-- The computation raises the error. -/
def Raises {α : Type} (pre : Machine → Prop) (m : Engine α) (e : VmError) : Prop :=
  Exec.Meets pre m (fun _ _ => False) fun stop _ => stop = .raised e

/-- An instruction that raises an error ends the way there. -/
theorem Stops.step (hinstr : a.proto.code[pc]? = some instr) (hperformed : instr.IsPerformed)
    (h : Raises (a.At (pc + 1) slots k) (Engine.perform a.program instr) e) :
    a.Stops pc slots e := by
  refine ⟨0, k + 1, Nat.succ_pos k, fun m hat => ?_⟩
  have hmeets := meets_performTurn h (fun _ _ => id) m hat
  rcases hrun : (Engine.performTurn a.program a.nested (a.frameAt pc) instr).run m with
    ⟨stop | _, m'⟩
  · rw [hrun] at hmeets
    obtain rfl : stop = .raised e := hmeets
    exact ⟨m, m', a.frameAt pc, instr, .refl m, performs_at hinstr hperformed hat, hrun⟩
  · rw [hrun] at hmeets
    exact hmeets.elim

end Turn

/-- The way to what an operation gives: on, with its result on the stack, or to its error. -/
def Gives {α : Type} (a : Activation) (pc : Nat) (slots : List StackSlot) (pc' : Nat)
    (onto : α → List StackSlot) : Except LuaError α → Prop
  | .ok x => a.Goes pc slots pc' (onto x)
  | .error e => a.Stops pc slots (.ofLuaError e)

namespace Gives

variable {α β : Type} {onto : α → List StackSlot} {onto' : β → List StackSlot}
  {r : Except LuaError α} {f : α → Except LuaError β}

theorem bind (h : a.Gives pc slots pc' onto r)
    (hf : ∀ x, r = .ok x → a.Gives pc' (onto x) pc'' onto' (f x)) :
    a.Gives pc slots pc'' onto' (r >>= f) := by
  cases r with
  | error e => exact h
  | ok x =>
    have hx := hf x rfl
    change a.Gives pc slots pc'' onto' (f x)
    cases hfx : f x with
    | error e =>
      rw [hfx] at hx
      exact Goes.stops h hx
    | ok y =>
      rw [hfx] at hx
      exact Goes.trans h hx

theorem after (h : a.Goes pc slots pc' slots') (hr : a.Gives pc' slots' pc'' onto r) :
    a.Gives pc slots pc'' onto r := by
  cases r with
  | error e => exact h.stops hr
  | ok x => exact h.trans hr

end Gives

section Instructions

variable {op : LuaValue → LuaValue → Except LuaError LuaValue}

theorem attains_liftLua {α : Type} {c : Setting} {frames : List CallFrame} (x : α) :
    Attains (Starved c) (Sits c frames slots gas) (Engine.liftLua (.ok x)) x
      (Sits c frames slots gas) := .pure x

theorem raises_liftLua {α : Type} {pre : Machine → Prop} (e : LuaError) :
    Raises pre (Engine.liftLua (.error e) : Engine α) (.ofLuaError e) :=
  fun _ _ => rfl

theorem goes_push {v : LuaValue} (hinstr : a.proto.code[pc]? = some instr)
    (hperformed : instr.IsPerformed) (hperform : Engine.perform a.program instr = Engine.push v) :
    a.Goes pc slots (pc + 1) (slots ++ [.value v]) :=
  .step (k := 0) hinstr hperformed fun _ => hperform ▸ attains_push v

theorem goes_pushK {idx : UInt16} {k : Constant} (hinstr : a.proto.code[pc]? = some (.pushK idx))
    (hk : a.proto.constants[idx.toNat]? = some k) :
    a.Goes pc slots (pc + 1) (slots ++ [.value (Engine.constantToValue k)]) := by
  refine .step (k := 0) hinstr trivial fun gas => ?_
  exact ((attains_topFrame _ _).bind ((attains_orPanic a.proto a.known).bind
    (attains_orPanic k hk))).bind (attains_push _)

theorem goes_loadLocal {slot : UInt8} {v : LuaValue}
    (hinstr : a.proto.code[pc]? = some (.loadLocal slot))
    (hslot : slots[a.frame.base + slot.toNat]? = some (.value v)) :
    a.Goes pc slots (pc + 1) (slots ++ [.value v]) :=
  .step (k := 0) hinstr trivial fun _ => attains_loadLocal hslot

theorem goes_loadShared {slot : UInt8} {cell : CellRef}
    (hinstr : a.proto.code[pc]? = some (.loadLocal slot))
    (hslot : slots[a.frame.base + slot.toNat]? = some (.shared cell)) :
    a.Goes pc slots (pc + 1) (slots ++ [.value (a.heap.cell cell)]) := by
  refine .step (k := 0) hinstr trivial fun gas => ?_
  have hread : Attains (Starved a.setting) (a.At (pc + 1) slots gas)
      (Engine.slotValue (.shared cell)) (a.heap.cell cell) (a.At (pc + 1) slots gas) := by
    intro s hs
    have hheap : s.core.heap = a.heap := hs.heap
    rw [← hheap]
    exact ⟨rfl, hs⟩
  refine (attains_topFrame _ _).bind (Exec.Meets.bind (attains_stackAt hslot) fun entry => ?_)
  refine Exec.Meets.at_state fun s ⟨hentry, hs⟩ => ?_
  rw [hentry]
  exact Exec.Meets.at_one (hread.bind (attains_push _)) hs

theorem goes_loadUp {idx : UInt8} {cell : CellRef} (hinstr : a.proto.code[pc]? = some (.loadUp idx))
    (hcell : a.frame.upvalues[idx.toNat]? = some cell) :
    a.Goes pc slots (pc + 1) (slots ++ [.value (a.heap.cell cell)]) :=
  .step (k := 0) hinstr trivial fun _ => attains_loadUp hcell

theorem attains_popSlot {c : Setting} {frames : List CallFrame} (slot : StackSlot) :
    Attains (Starved c) (Sits c frames (slots ++ [slot]) gas) Engine.popSlot (some slot)
      (Sits c frames slots gas) := by
  intro s hs
  have hslots := hs.slots
  rw [List.map_eq_append_iff] at hslots
  obtain ⟨stack, last, hstack, hinit, hlast⟩ := hslots
  obtain ⟨top, rfl, htop⟩ := List.map_eq_singleton_iff.mp hlast
  rw [Engine.run_popSlot, hstack, List.getLast?_concat]
  refine ⟨congrArg some htop, hs.heap, hs.frames, hs.running, ?_, hs.gas, hs.mem⟩
  rw [List.dropLast_concat]
  exact hinit

theorem goes_pop {slot : StackSlot} (hinstr : a.proto.code[pc]? = some .pop) :
    a.Goes pc (slots ++ [slot]) (pc + 1) slots :=
  .step (k := 0) hinstr trivial fun _ => (attains_popSlot slot).bind (.pure ())

/-- A store into a slot that no function shares. -/
theorem goes_storeLocal {slot : UInt8} {v w : LuaValue}
    (hinstr : a.proto.code[pc]? = some (.storeLocal slot))
    (hslot : slots[a.frame.base + slot.toNat]? = some (.value w)) :
    a.Goes pc (slots ++ [.value v]) (pc + 1) (slots.set (a.frame.base + slot.toNat) (.value v)) := by
  refine .step (k := 0) hinstr trivial fun gas => ?_
  refine (attains_popValue v).bind ((attains_topFrame _ _).bind (Attains.get_bind fun s hs => ?_))
  have hstore : Attains (Starved a.setting) (a.At (pc + 1) slots gas)
      (Engine.assignSlot (a.frame.base + slot.toNat)
        (s.ghost.declares (a.frameAt (pc + 1)).protoIdx ((a.frameAt (pc + 1)).pc - 1)) v) ()
      (a.At (pc + 1) (slots.set (a.frame.base + slot.toNat) (.value v)) gas) := by
    intro s hs
    rw [← hs.slots, List.getElem?_map] at hslot
    obtain ⟨entry, hentry, hvalue⟩ := Option.map_eq_some_iff.mp hslot
    rw [Engine.run_assignSlot, hentry]
    dsimp only
    rw [hvalue]
    refine ⟨rfl, hs.heap, hs.frames, hs.running, ?_, hs.gas, hs.mem⟩
    rw [List.map_set, hs.slots]
  exact hstore.at_one hs

theorem gives_binary (hinstr : a.proto.code[pc]? = some instr) (hperformed : instr.IsPerformed)
    (hperform : Engine.perform a.program instr = Engine.binary op) (x y : LuaValue) :
    a.Gives pc (slots ++ [.value x] ++ [.value y]) (pc + 1) (fun v => slots ++ [.value v])
      (op x y) := by
  cases hop : op x y with
  | ok v =>
    refine Goes.step (k := 0) hinstr hperformed fun gas => ?_
    rw [hperform]
    refine (attains_popValue y).bind ((attains_popValue x).bind ?_)
    rw [hop]
    exact (attains_liftLua v).bind (attains_push v)
  | error e =>
    refine Stops.step (k := 0) hinstr hperformed ?_
    rw [hperform]
    refine meets_then (attains_popValue y) (meets_then (attains_popValue x) ?_)
    rw [hop]
    exact (raises_liftLua e).bind fun _ _ => False.elim

theorem gives_unary {op : LuaValue → Except LuaError LuaValue}
    (hinstr : a.proto.code[pc]? = some instr) (hperformed : instr.IsPerformed)
    (hperform : Engine.perform a.program instr = Engine.unary op) (x : LuaValue) :
    a.Gives pc (slots ++ [.value x]) (pc + 1) (fun v => slots ++ [.value v]) (op x) := by
  cases hop : op x with
  | ok v =>
    refine Goes.step (k := 0) hinstr hperformed fun gas => ?_
    rw [hperform]
    refine (attains_popValue x).bind ?_
    rw [hop]
    exact (attains_liftLua v).bind (attains_push v)
  | error e =>
    refine Stops.step (k := 0) hinstr hperformed ?_
    rw [hperform]
    refine meets_then (attains_popValue x) ?_
    rw [hop]
    exact (raises_liftLua e).bind fun _ _ => False.elim

theorem gives_len (hinstr : a.proto.code[pc]? = some .len) (x : LuaValue) :
    a.Gives pc (slots ++ [.value x]) (pc + 1) (fun v => slots ++ [.value v])
      (lengthOf a.heap x) := by
  have hlen {gas : Nat} {v : LuaValue} (hv : lengthOf a.heap x = .ok v) :
      Attains (Starved a.setting) (a.At (pc + 1) slots gas) (Engine.lift (Vm.luaLen x)) v
        (a.At (pc + 1) slots gas) := by
    cases x with
    | string s =>
      cases hv
      exact .pure _
    | table t =>
      cases hv
      intro s hs
      have hheap : s.core.heap = a.heap := hs.heap
      exact ⟨by rw [← hheap], hs⟩
    | _ => cases hv
  have hraise {gas : Nat} {e : LuaError} (he : lengthOf a.heap x = .error e) :
      Raises (a.At (pc + 1) slots gas) (Engine.lift (Vm.luaLen x)) (.ofLuaError e) := by
    cases x with
    | string s => cases he
    | table t => cases he
    | _ =>
      cases he
      exact fun _ _ => rfl
  cases hop : lengthOf a.heap x with
  | ok v =>
    refine Goes.step (k := 1) hinstr trivial fun gas => ?_
    exact (attains_charge 1).bind ((attains_popValue x).bind ((hlen hop).bind (attains_push v)))
  | error e =>
    refine Stops.step (k := 1 + 0) hinstr trivial ?_
    refine meets_then (attains_charge 1) (meets_then (attains_popValue x) ?_)
    exact (hraise hop).bind fun _ _ => False.elim

/-- The bytes that a chain is charged for. -/
def textLength : LuaValue → Nat
  | .string s => s.length
  | _ => 0

theorem attains_popParts {c : Setting} {frames : List CallFrame} (vs : List LuaValue) :
    Attains (Starved c) (Sits c frames (slots ++ vs.map .value) gas) (Engine.popValues vs.length) vs
      (Sits c frames slots gas) := by
  induction vs using List.reverseRecOn generalizing slots with
  | nil =>
    rw [List.map_nil, List.append_nil]
    exact .pure []
  | append_singleton vs v ih =>
    rw [List.map_append, List.map_singleton, ← List.append_assoc, List.length_append,
      List.length_singleton]
    exact (attains_popValue v).bind (ih.bind (.pure _))

theorem gives_concat {n : UInt8} (hinstr : a.proto.code[pc]? = some (.concat n))
    (vs : List LuaValue) (hn : n.toNat = vs.length) (hne : vs ≠ []) :
    a.Gives pc (slots ++ vs.map .value) (pc + 1) (fun v => slots ++ [.value v]) (joined vs) := by
  obtain ⟨first, rest, rfl⟩ := List.exists_cons_of_ne_nil hne
  have hfirst (gas : Nat) : Attains (Starved a.setting) (a.At (pc + 1) slots gas)
      (Engine.orPanic (first :: rest).head?) first (a.At (pc + 1) slots gas) :=
    attains_orPanic first rfl
  cases hop : joined (first :: rest) with
  | ok v =>
    refine Goes.step (k := textLength v) hinstr trivial fun gas => ?_
    rw [Engine.perform, Engine.concat, hn]
    refine (attains_popParts _).bind ((hfirst _).bind ?_)
    rw [show (first :: rest).tail.foldlM LuaValue.luaConcat first = .ok v from hop]
    exact (attains_liftLua v).bind ((attains_charge (textLength v)).bind ((attains_trackAlloc _).bind
      (attains_push v)))
  | error e =>
    refine Stops.step (k := 0) hinstr trivial ?_
    rw [Engine.perform, Engine.concat, hn]
    refine meets_then (attains_popParts _) (meets_then (hfirst _) ?_)
    rw [show (first :: rest).tail.foldlM LuaValue.luaConcat first = .error e from hop]
    exact (raises_liftLua e).bind fun _ _ => False.elim

/-- A jump leads to its target. -/
theorem attains_jumpBy {off : Int16} {target : Nat} (htarget : (target : Int) = pc + off.toInt) :
    Attains (Starved a.setting) (a.At pc slots gas) (Engine.jumpBy off) ()
      (a.At target slots gas) := by
  refine (attains_topFrame _ _).bind (Attains.get_bind fun s hs => ?_)
  rw [show ((a.frameAt pc).pc : Int) + off.toInt = target from htarget.symm]
  dsimp only
  rw [if_pos (Int.natCast_nonneg target), Int.toNat_natCast]
  exact (attains_setPc (a.frameAt pc) a.around target).at_one hs

theorem goes_jmp {off : Int16} {target : Nat} (hinstr : a.proto.code[pc]? = some (.jmp off))
    (htarget : (target : Int) = (pc + 1 : Nat) + off.toInt) : a.Goes pc slots target slots :=
  .step (k := 0) hinstr trivial fun _ => attains_jumpBy htarget

theorem goes_jumpWhen {truth : Bool} {off : Int16} {target : Nat}
    (hinstr : a.proto.code[pc]? = some instr) (hperformed : instr.IsPerformed)
    (hperform : Engine.perform a.program instr = Engine.jumpWhen truth off)
    (htarget : (target : Int) = (pc + 1 : Nat) + off.toInt) (v : LuaValue) :
    a.Goes pc (slots ++ [.value v]) (if v.isTruthy = truth then target else pc + 1) slots := by
  refine .step (k := 0) hinstr hperformed fun gas => ?_
  rw [hperform]
  refine (attains_popValue v).bind ?_
  split_ifs
  · exact attains_jumpBy htarget
  · exact .pure ()

theorem goes_shortCircuit {truth : Bool} {off : Int16} {target : Nat}
    (hinstr : a.proto.code[pc]? = some instr) (hperformed : instr.IsPerformed)
    (hperform : Engine.perform a.program instr = Engine.shortCircuit truth off)
    (htarget : (target : Int) = (pc + 1 : Nat) + off.toInt) (v : LuaValue) :
    a.Goes pc (slots ++ [.value v]) (if v.isTruthy = truth then target else pc + 1)
      (slots ++ [.value v]) := by
  have htop {gas : Nat} : Exec.Meets (a.At (pc + 1) (slots ++ [.value v]) gas) Engine.topSlot
      (fun entry s => entry.slot = .value v ∧ a.At (pc + 1) (slots ++ [.value v]) gas s)
      fun _ => Starved a.setting := by
    intro s hs
    have hslots := hs.slots
    rw [List.map_eq_append_iff] at hslots
    obtain ⟨stack, last, hstack, -, hlast⟩ := hslots
    obtain ⟨top, rfl, htop⟩ := List.map_eq_singleton_iff.mp hlast
    rw [Engine.run_topSlot, hstack, List.getLast?_concat]
    exact ⟨htop, hs⟩
  refine .step (k := 0) hinstr hperformed fun gas => ?_
  rw [hperform]
  refine Exec.Meets.bind htop fun top => Exec.Meets.at_state fun s ⟨hslot, hs⟩ => ?_
  rw [hslot]
  refine Exec.Meets.at_one (Attains.bind (.pure v) ?_) hs
  split_ifs
  · exact attains_jumpBy htarget
  · exact .pure ()

end Instructions

end Activation

end Proveno
