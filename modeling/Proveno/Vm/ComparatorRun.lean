import Proveno.Vm.SortOutcomes
import Proveno.Vm.Segments

/-! A comparator that puts a value behind all others, `function(a, b) return a ~= u end`, and
its run. -/

namespace Proveno

/-- The heap that a run of the comparator leaves as it is, and whether gas and memory are to be
enough for it. -/
structure Setting where
  ample : Prop
  heap : Heap

/-- The frames and the slots are these, and there is so much gas and no memory is too much, if
that is asked for. -/
structure Sits (c : Setting) (frames : List CallFrame) (slots : List StackSlot) (gas : Nat)
    (s : Machine) : Prop where
  heap : s.core.heap = c.heap
  frames : s.frames = frames
  running : s.frames ≠ []
  slots : s.stack.map OwnedSlot.slot = slots
  gas : c.ample → gas ≤ s.core.gas.remaining
  mem : c.ample → s.core.mem.limit = MemoryMeter.u64Max

/-- What a failure for want of gas or memory leaves. -/
structure Starved (c : Setting) (s : Machine) : Prop where
  short : ¬c.ample
  heap : s.core.heap = c.heap
  running : s.frames ≠ []

/-- From states of a kind the computation has a value, in states of another kind, or it
fails. -/
def Attains {ε S α : Type} (failed : S → Prop) (pre : S → Prop) (m : Exec ε S α) (a : α)
    (post : S → Prop) : Prop :=
  Exec.Meets pre m (fun b s => b = a ∧ post s) fun _ => failed

section

variable {ε S α β : Type} {failed pre mid post : S → Prop} {m : Exec ε S α}
  {f : α → Exec ε S β} {a : α} {b : β}

theorem Attains.bind (hm : Attains failed pre m a mid) (hf : Attains failed mid (f a) b post) :
    Attains failed pre (m >>= f) b post :=
  Exec.Meets.bind hm fun _ => Exec.Meets.at_state fun _ ⟨hx, hs⟩ => hx ▸ hf.at_one hs

/-- A computation that begins by looking at the state. -/
theorem Attains.get_bind {f : S → Exec ε S β}
    (h : ∀ s, pre s → Attains failed (· = s) (f s) b post) :
    Attains failed pre (Exec.get >>= f) b post :=
  Exec.Meets.get_bind h

theorem Attains.pure (a : α) : Attains failed pre (Pure.pure a : Exec ε S α) a pre :=
  Exec.Meets.pure fun _ hs => ⟨rfl, hs⟩

end

theorem Attains.run {ε S α : Type} {failed pre post : S → Prop} {m : Exec ε S α} {a : α}
    (h : Attains failed pre m a post) (hfailed : ∀ s, ¬failed s) {s : S} (hs : pre s) :
    ∃ s', m.run s = (.ok a, s') ∧ post s' := by
  have h := h s hs
  rcases hrun : m.run s with ⟨e | b, s'⟩
  · rw [hrun] at h
    exact absurd h (hfailed s')
  · rw [hrun] at h
    exact ⟨s', by rw [h.1], h.2⟩

theorem Attains.embed {H α : Type} {failed pre post : Machine → Prop} {m : Engine α} {a : α}
    (h : Attains failed pre m a post) :
    Attains (fun s : System H => failed s.machine) (fun s => pre s.machine) (Run.embed m) a
      fun s => post s.machine :=
  Layout.meets_embed h

abbrev System.Sits {H : Type} (c : Setting) (frames : List CallFrame) (slots : List StackSlot)
    (gas : Nat) (s : System H) : Prop :=
  Proveno.Sits c frames slots gas s.machine

/-- A computation with the host from frames and slots to a value, frames and slots. -/
abbrev Reaches {H α : Type} (c : Setting) (pre : System H → Prop) (m : Run H α) (a : α)
    (post : System H → Prop) : Prop :=
  Attains (fun s => Starved c s.machine) pre m a post

section Primitive

variable {c : Setting} {frames : List CallFrame} {slots : List StackSlot} {gas : Nat}

theorem attains_record (e : Event) :
    Attains (Starved c) (Sits c frames slots gas) (Engine.record e) () (Sits c frames slots gas) :=
  fun _ hs => ⟨rfl, hs.heap, hs.frames, hs.running, hs.slots, hs.gas, hs.mem⟩

theorem attains_charge (k : Nat) :
    Attains (Starved c) (Sits c frames slots (gas + k)) (Engine.charge k) ()
      (Sits c frames slots gas) := by
  intro s hs
  rw [Engine.charge, Engine.run_lift, Vm.run_charge]
  split_ifs with hpaid
  · exact ⟨fun hample => by have := hs.gas hample; omega, hs.heap, hs.running⟩
  · exact ⟨rfl, hs.heap, hs.frames, hs.running, hs.slots,
      fun hample => Nat.le_sub_of_add_le (hs.gas hample), hs.mem⟩

theorem attains_trackAlloc (k : Nat) :
    Attains (Starved c) (Sits c frames slots gas) (Engine.lift (Vm.trackAlloc k)) ()
      (Sits c frames slots gas) := by
  intro s hs
  rw [Engine.run_lift, Vm.run_trackAlloc]
  dsimp only
  split_ifs with hover
  · refine ⟨fun hample => ?_, hs.heap, hs.running⟩
    rw [hs.mem hample] at hover
    exact absurd hover (not_lt.mpr (min_le_right ..))
  · exact ⟨rfl, hs.heap, hs.frames, hs.running, hs.slots, hs.gas, hs.mem⟩

theorem attains_pushSlot (slot : StackSlot) :
    Attains (Starved c) (Sits c frames slots gas) (Engine.pushSlot slot) ()
      (Sits c frames (slots ++ [slot]) gas) := by
  intro s hs
  rw [Engine.run_pushSlot]
  refine ⟨rfl, hs.heap, hs.frames, hs.running, ?_, hs.gas, hs.mem⟩
  rw [List.map_append, hs.slots]
  rfl

theorem attains_push (v : LuaValue) :
    Attains (Starved c) (Sits c frames slots gas) (Engine.push v) ()
      (Sits c frames (slots ++ [.value v]) gas) := attains_pushSlot _

theorem attains_popValue (v : LuaValue) :
    Attains (Starved c) (Sits c frames (slots ++ [.value v]) gas) Engine.popValue v
      (Sits c frames slots gas) := by
  intro s hs
  obtain ⟨stack, last, hstack⟩ : ∃ stack last, s.stack = stack ++ [last] := by
    refine ⟨s.stack.dropLast, s.stack.getLast ?_, (List.dropLast_append_getLast _).symm⟩
    intro hnil
    have hslots := hs.slots
    rw [hnil] at hslots
    simp at hslots
  have hslots := hs.slots
  rw [hstack, List.map_append, List.map_singleton] at hslots
  obtain ⟨hinit, hlast⟩ := List.append_inj' hslots rfl
  have hvalue : last.slot = .value v := (List.cons.inj hlast).1
  rw [Engine.popValue, Exec.run_bind, Engine.run_popSlot, hstack, List.getLast?_concat]
  dsimp only
  rw [hvalue, List.dropLast_concat]
  exact ⟨rfl, hs.heap, hs.frames, hs.running, hinit, hs.gas, hs.mem⟩

theorem attains_topFrame (f : CallFrame) (rest : List CallFrame) :
    Attains (Starved c) (Sits c (f :: rest) slots gas) Engine.topFrame f
      (Sits c (f :: rest) slots gas) := by
  intro s hs
  rw [Engine.run_topFrame, hs.frames]
  exact ⟨rfl, hs⟩

theorem attains_setPc (f : CallFrame) (rest : List CallFrame) (pc : Nat) :
    Attains (Starved c) (Sits c (f :: rest) slots gas) (Engine.setPc pc) ()
      (Sits c ({ f with pc } :: rest) slots gas) := by
  intro s hs
  rw [Engine.run_setPc, hs.frames]
  exact ⟨rfl, hs.heap, rfl, List.cons_ne_nil _ _, hs.slots, hs.gas, hs.mem⟩

theorem attains_orPanic {α : Type} (a : α) {o : Option α} (h : o = some a) :
    Attains (Starved c) (Sits c frames slots gas) (Engine.orPanic o) a
      (Sits c frames slots gas) := by
  intro s hs
  rw [Engine.run_orPanic, h]
  exact ⟨rfl, hs⟩

theorem attains_popValues (v : LuaValue) :
    Attains (Starved c) (Sits c frames (slots ++ [.value v]) gas) (Engine.popValues 1) [v]
      (Sits c frames slots gas) :=
  (attains_popValue v).bind (.pure [v])

theorem attains_stackAt {idx : Nat} {slot : StackSlot} (h : slots[idx]? = some slot) :
    Exec.Meets (Sits c frames slots gas) (Engine.stackAt idx)
      (fun entry s => entry.slot = slot ∧ Sits c frames slots gas s) fun _ => Starved c := by
  intro s hs
  rw [← hs.slots, List.getElem?_map] at h
  obtain ⟨entry, hentry, hslot⟩ := Option.map_eq_some_iff.mp h
  rw [Engine.run_stackAt, hentry]
  exact ⟨hslot, hs⟩

theorem attains_bindSlot {idx : Nat} (h : idx < slots.length) (v : LuaValue) :
    Attains (Starved c) (Sits c frames slots gas) (Engine.bindSlot idx v) ()
      (Sits c frames (slots.set idx (.value v)) gas) := by
  intro s hs
  have hidx : idx < s.stack.length := by rwa [← hs.slots, List.length_map] at h
  rw [Engine.run_bindSlot, List.getElem?_eq_getElem hidx]
  refine ⟨rfl, hs.heap, hs.frames, hs.running, ?_, hs.gas, hs.mem⟩
  rw [List.map_set, hs.slots]

theorem attains_pushNils (n : Nat) :
    Attains (Starved c) (Sits c frames slots gas) (Engine.pushNils n) ()
      (Sits c frames (slots ++ List.replicate n (.value .nil)) gas) := by
  induction n generalizing slots with
  | zero =>
    rw [List.replicate_zero, List.append_nil]
    exact .pure ()
  | succ n ih =>
    rw [List.replicate_succ, List.append_cons]
    exact (attains_push .nil).bind ih

theorem attains_loadLocal {f : CallFrame} {rest : List CallFrame} {slot : UInt8} {v : LuaValue}
    (h : slots[f.base + slot.toNat]? = some (.value v)) :
    Attains (Starved c) (Sits c (f :: rest) slots gas) (Engine.loadLocal slot) ()
      (Sits c (f :: rest) (slots ++ [.value v]) gas) := by
  refine (attains_topFrame f rest).bind ?_
  refine Exec.Meets.bind (attains_stackAt h) fun entry => ?_
  refine Exec.Meets.at_state fun s ⟨hslot, hs⟩ => ?_
  rw [hslot]
  exact Exec.Meets.at_one (attains_push v) hs

theorem attains_loadUp {f : CallFrame} {rest : List CallFrame} {idx : UInt8} {cell : CellRef}
    (h : f.upvalues[idx.toNat]? = some cell) :
    Attains (Starved c) (Sits c (f :: rest) slots gas) (Engine.loadUp idx) ()
      (Sits c (f :: rest) (slots ++ [.value (c.heap.cell cell)]) gas) := by
  have hread : Attains (Starved c) (Sits c (f :: rest) slots gas) (Engine.lift (Vm.getCell cell))
      (c.heap.cell cell) (Sits c (f :: rest) slots gas) := by
    intro s hs
    rw [← hs.heap]
    exact ⟨rfl, hs.heap, hs.frames, hs.running, hs.slots, hs.gas, hs.mem⟩
  exact ((attains_topFrame f rest).bind (attains_orPanic cell h)).bind
    (hread.bind (attains_push _))

theorem attains_ne (a b : LuaValue) :
    Attains (Starved c) (Sits c frames (slots ++ [.value a] ++ [.value b]) gas)
      (Engine.binary fun a b => .ok (.boolean (a != b))) ()
      (Sits c frames (slots ++ [.value (.boolean (a != b))]) gas) :=
  (attains_popValue b).bind ((attains_popValue a).bind ((Attains.pure _).bind (attains_push _)))

/-- A function returns a value to the frame around it. -/
theorem attains_doReturn {f g : CallFrame} {rest : List CallFrame} {locals : List StackSlot}
    (hbase : f.base = slots.length) (hreturns : f.expectedReturns = 1) (v : LuaValue) :
    Attains (Starved c) (Sits c (f :: g :: rest) (slots ++ locals ++ [.value v]) gas)
      (Engine.doReturn 1) none (Sits c (g :: rest) (slots ++ [.value v]) gas) := by
  have hpop : Attains (Starved c) (Sits c (f :: g :: rest) (slots ++ locals) gas) Engine.popFrame ()
      (Sits c (g :: rest) (slots ++ locals) gas) :=
    by
    intro s hs
    have hframes : s.frames.tail = g :: rest := congrArg List.tail hs.frames
    have hrunning : s.frames.tail ≠ [] := by
      rw [hframes]
      exact List.cons_ne_nil _ _
    exact ⟨rfl, hs.heap, hframes, hrunning, hs.slots, hs.gas, hs.mem⟩
  have hcut : Attains (Starved c) (Sits c (g :: rest) (slots ++ locals) gas)
      (Engine.truncateStack f.base) () (Sits c (g :: rest) slots gas) := by
    intro s hs
    refine ⟨rfl, hs.heap, hs.frames, hs.running, ?_, hs.gas, hs.mem⟩
    rw [List.map_take, hs.slots, hbase, List.take_left]
  refine (attains_popValues v).bind ((attains_topFrame f _).bind (hpop.bind (hcut.bind ?_)))
  refine Attains.get_bind fun s hs => ?_
  rw [if_neg (by rw [hs.frames]; exact List.cons_ne_nil _ _), if_pos hreturns.ge]
  exact ((attains_push v).bind (.pure none)).at_one hs

/-- The arguments of a function are its first locals. -/
theorem attains_pushCallFrame {program : CompiledProgram} {proto : FunctionProto}
    {closure : LuaClosure} (hproto : program.prototypes[closure.protoIdx]? = some proto)
    (hparams : proto.paramCount = 2) (hlocals : proto.localCount = 2) (a b : LuaValue) :
    Attains (Starved c) (Sits c frames slots gas) (Engine.pushCallFrame program closure [a, b] 1) ()
      (Sits c (⟨closure.protoIdx, 0, slots.length, closure.upvalues, 1⟩ :: frames)
        (slots ++ [.value a, .value b]) gas) := by
  let g : CallFrame := ⟨closure.protoIdx, 0, slots.length, closure.upvalues, 1⟩
  refine (attains_orPanic proto hproto).bind ((attains_trackAlloc _).bind ?_)
  refine Attains.get_bind fun s hs => ?_
  have hbase : s.stack.length = slots.length := by rw [← hs.slots, List.length_map]
  rw [hbase, hparams, hlocals]
  have henter : Attains (Starved c) (Sits c frames slots gas) (Engine.pushFrame g) ()
      (Sits c (g :: frames) slots gas) :=
    fun s hs => ⟨rfl, hs.heap, congrArg (g :: ·) hs.frames, List.cons_ne_nil _ _, hs.slots, hs.gas,
      hs.mem⟩
  have hbind (k : Nat) (v : LuaValue) (xs : List StackSlot) (hk : k < 2) (hxs : xs.length = 2) :
      Attains (Starved c) (Sits c (g :: frames) (slots ++ xs) gas)
        (Engine.bindSlot (slots.length + k) v) ()
        (Sits c (g :: frames) (slots ++ xs.set k (.value v)) gas) := by
    have hidx : slots.length + k < (slots ++ xs).length := by
      rw [List.length_append]
      omega
    have hset : (slots ++ xs).set (slots.length + k) (.value v) = slots ++ xs.set k (.value v) := by
      rw [List.set_append_right _ _ (Nat.le_add_right ..), Nat.add_sub_cancel_left]
    exact hset ▸ attains_bindSlot hidx v
  refine Exec.Meets.at_one ?_ hs
  refine henter.bind ((attains_pushNils 2).bind ?_)
  exact (hbind 0 a _ Nat.zero_lt_two rfl).bind
    ((hbind 1 b _ Nat.one_lt_two rfl).bind (.pure ()))

end Primitive

section Turn

variable {H : Type} [HostInterface H] {program : CompiledProgram} {proto : FunctionProto}
  {inner : Run H LuaValue} {c : Setting} {f : CallFrame} {rest frames : List CallFrame}
  {slots slots' : List StackSlot} {gas gas' : Nat}

/-- A turn of a frame does what its instruction does. -/
theorem attains_turn {instr : Instruction} {out : Option LuaValue}
    (hproto : program.prototypes[f.protoIdx]? = some proto)
    (hinstr : proto.code[f.pc]? = some instr)
    (h : Reaches c (System.Sits c ({ f with pc := f.pc + 1 } :: rest) slots gas)
      (Run.dispatch program inner instr) out (System.Sits c frames slots' gas')) :
    Reaches c (System.Sits c (f :: rest) slots gas) (Run.turn program true inner) out
      (System.Sits c frames slots' gas') := by
  have hfetch : Attains (Starved c) (Sits c (f :: rest) slots gas) (Engine.fetch program)
      (f, some instr) (Sits c (f :: rest) slots gas) :=
    (attains_topFrame f rest).bind ((attains_orPanic proto hproto).bind (hinstr ▸ .pure _))
  refine hfetch.embed.bind ?_
  have hadvance : Exec.Meets (Sits c (f :: rest) slots gas) (Engine.advance true f)
      (fun _ s => Sits c ({ f with pc := f.pc + 1 } :: rest) slots gas s)
      fun _ => Starved c := by
    refine Exec.Meets.get_bind fun s hs => ?_
    refine Exec.Meets.at_one ?_ hs
    refine Exec.Meets.bind (attains_record _) fun _ => ?_
    refine Exec.Meets.at_state fun s ⟨_, hs⟩ => Exec.Meets.at_one ?_ hs
    refine Exec.Meets.bind (attains_setPc f rest (f.pc + 1)) fun _ => ?_
    exact Exec.Meets.pure fun _ hs => hs.2
  have hcomplete (turn : Nat × Usage) : Attains (Starved c) (Sits c frames slots' gas')
      (Engine.complete turn) () (Sits c frames slots' gas') :=
    Attains.get_bind fun s hs => (attains_record _).at_one hs
  exact Exec.Meets.bind (Layout.meets_embed hadvance) fun turn =>
    h.bind ((hcomplete turn).embed.bind (.pure out))

theorem attains_charged :
    Attains (Starved c) (Sits c frames slots (gas + 1)) (do
      Engine.charge GasCost.baseInstruction
      Engine.record .charged) () (Sits c frames slots gas) :=
  (attains_charge 1).bind (attains_record _)

theorem attains_performed {instr : Instruction}
    (hproto : program.prototypes[f.protoIdx]? = some proto)
    (hinstr : proto.code[f.pc]? = some instr) (hperformed : instr.IsPerformed)
    (h : Attains (Starved c) (Sits c ({ f with pc := f.pc + 1 } :: rest) slots gas)
      (Engine.perform program instr) () (Sits c frames slots' gas')) :
    Reaches c (System.Sits c (f :: rest) slots (gas + 1))
      (Run.turn program true inner) none (System.Sits c frames slots' gas') := by
  refine attains_turn hproto hinstr ?_
  rw [Run.dispatch_performed hperformed]
  exact attains_charged.embed.bind (h.embed.bind (.pure none))

/-- The inner loop goes on after a turn. -/
theorem attains_runInner {fuel target : Nat} {v : LuaValue} {post : System H → Prop}
    (htarget : target ≤ rest.length)
    (hturn : Reaches c (System.Sits (H := H) c (f :: rest) slots gas)
      (Run.turn program true (Run.runFrame (Run.runInner program fuel))) none
      (System.Sits c frames slots' gas'))
    (h : Reaches c (System.Sits c frames slots' gas')
      (Run.runInner program fuel target) v post) :
    Reaches c (System.Sits c (f :: rest) slots gas)
      (Run.runInner program (fuel + 1) target) v post := by
  rw [Run.runInner_succ]
  refine Attains.get_bind fun s hs => ?_
  rw [if_neg (by rw [hs.frames, List.length_cons]; omega)]
  exact (hturn.bind h).at_one hs

end Turn

section Comparator

/-- `function(a, b) return a ~= u end`, where `u` is captured. -/
def apartProto : FunctionProto where
  code := [.loadUp 0, .loadLocal 0, .ne, .ret 1]
  constants := []
  localCount := 2
  upvalueCount := 1
  paramCount := 2
  lines := []
  maxStack := 2
  upvalues := [.local 0]

/-- A program that has the comparator as its second function. -/
def apartProgram : CompiledProgram := ⟨[FunctionProto.new 0, apartProto]⟩

def apartComparator : LuaValue := .function ⟨1, [0]⟩

variable {H : Type} [HostInterface H] {c : Setting} {f : CallFrame} {rest : List CallFrame}
  {slots : List StackSlot} {gas : Nat}

/-- The comparator says whether its first argument is not the captured value. -/
theorem attains_apart (fuel : Nat) (a b : LuaValue) :
    Reaches c (System.Sits (H := H) c (f :: rest) slots (gas + 9))
      (Run.callComparator apartProgram (Run.runFrame (Run.runInner apartProgram (fuel + 5)))
        apartComparator a b) (c.heap.cell 0 != a) (System.Sits c (f :: rest) slots gas) := by
  let here (pc : Nat) : List CallFrame := ⟨1, pc, slots.length, [0], 1⟩ :: f :: rest
  let locals : List StackSlot := slots ++ [.value a, .value b]
  let u := c.heap.cell 0
  have hproto : apartProgram.prototypes[1]? = some apartProto := rfl
  have hcall : Attains (Starved c) (Sits c (f :: rest) slots (gas + 9)) (do
      let closure ← Engine.liftLua apartComparator.asFunction
      Engine.recordCall apartComparator [a, b]
      Engine.pushCallFrame apartProgram closure [a, b] 1) ()
      (Sits c (here 0) locals (gas + 9)) := by
    have hrecord : Attains (Starved c) (Sits c (f :: rest) slots (gas + 9))
        (Engine.recordCall apartComparator [a, b]) () (Sits c (f :: rest) slots (gas + 9)) :=
      Attains.get_bind fun s hs => (attains_record _).at_one hs
    have hclosure : Attains (Starved c) (Sits c (f :: rest) slots (gas + 9))
        (Engine.liftLua apartComparator.asFunction) ⟨1, [0]⟩
        (Sits c (f :: rest) slots (gas + 9)) := .pure _
    exact hclosure.bind (hrecord.bind (attains_pushCallFrame hproto rfl rfl a b))
  have hload : Attains (Starved c) (Sits c (here 1) locals (gas + 8)) (Engine.loadUp 0) ()
      (Sits c (here 1) (locals ++ [.value u]) (gas + 8)) := attains_loadUp rfl
  have hlocal : Attains (Starved c) (Sits c (here 2) (locals ++ [.value u]) (gas + 7))
      (Engine.loadLocal 0) () (Sits c (here 2) (locals ++ [.value u] ++ [.value a]) (gas + 7)) := by
    refine attains_loadLocal ?_
    rw [List.append_assoc, List.getElem?_append_right (Nat.le_add_right ..),
      Nat.add_sub_cancel_left]
    rfl
  have hreturn : Attains (Starved c)
      (Sits c (here 4) (locals ++ [.value (.boolean (u != a))]) (gas + 5)) (do
        Engine.charge GasCost.functionReturn
        Engine.doReturn 1) none
      (Sits c (f :: rest) (slots ++ [.value (.boolean (u != a))]) gas) :=
    (attains_charge 5).bind (attains_doReturn rfl rfl _)
  have hrun : Reaches c (System.Sits (H := H) c (here 0) locals (gas + 9))
      (Run.runInner apartProgram (fuel + 5) (rest.length + 1)) (.boolean (u != a))
      (System.Sits c (f :: rest) slots gas) := by
    have hdepth : rest.length + 1 ≤ (f :: rest).length := le_rfl
    refine attains_runInner hdepth (attains_performed hproto
      (show apartProto.code[0]? = some (.loadUp 0) from rfl) trivial hload) ?_
    refine attains_runInner hdepth (attains_performed hproto
      (show apartProto.code[1]? = some (.loadLocal 0) from rfl) trivial hlocal) ?_
    refine attains_runInner hdepth (attains_performed hproto
      (show apartProto.code[2]? = some .ne from rfl) trivial (attains_ne u a)) ?_
    refine attains_runInner hdepth (attains_turn hproto
      (show apartProto.code[3]? = some (.ret 1) from rfl)
      (attains_charged.embed.bind hreturn.embed)) ?_
    rw [Run.runInner_succ]
    refine Attains.get_bind fun s hs => ?_
    rw [if_pos (by rw [hs.frames, List.length_cons])]
    exact (attains_popValue _).embed.at_one hs
  have hinner : Reaches c (System.Sits (H := H) c (here 0) locals (gas + 9))
      (Run.runFrame (Run.runInner apartProgram (fuel + 5))) (.boolean (u != a))
      (System.Sits c (f :: rest) slots gas) := by
    refine Attains.get_bind fun s hs => ?_
    dsimp only
    rw [hs.frames]
    exact hrun.at_one hs
  refine hcall.embed.bind (hinner.bind ?_)
  rw [show (LuaValue.boolean (u != a)).isTruthy = (u != a) by cases u != a <;> rfl]
  exact .pure _

end Comparator

end Proveno
