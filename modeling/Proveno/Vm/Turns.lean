import Proveno.Vm.Frames
import Proveno.Vm.RunBounds

/-! The loops of the machine, turn by turn: with depths that the instructions keep to, every
frame of a run stays above its locals, and what is called leaves the stack below it alone. -/

namespace Proveno

namespace Run

variable {H : Type}

/-- A computation as the instruction of a turn. -/
def inTurn {α : Type} (nested : Bool) (frame : CallFrame) (m : Run H α) : Run H α := do
  let turn ← embed (Engine.advance nested frame)
  let out ← m
  embed (Engine.complete turn)
  pure out

variable [HostInterface H]

/-- A turn of the inner loop. -/
def turn (program : CompiledProgram) (nested : Bool) (inner : Run H LuaValue) :
    Run H (Option LuaValue) := do
  let (frame, instr) ← embed (Engine.fetch program)
  match instr with
  | none => embed (Engine.implicitReturn nested)
  | some instr => inTurn nested frame (dispatch program inner instr)

theorem runInner_succ (program : CompiledProgram) (fuel target : Nat) :
    (runInner program (fuel + 1) target : Run H LuaValue) = (do
      if (← Exec.get).machine.frames.length ≤ target then embed Engine.popValue
      else
        match ← turn program true (runFrame (runInner program fuel)) with
        | some v => pure v
        | none => runInner program fuel target) := by
  rw [runInner, turn]
  refine congrArg _ (funext fun s => ?_)
  dsimp only
  split_ifs
  · rfl
  · rw [Exec.bind_assoc]
    refine congrArg _ (funext fun out => ?_)
    obtain ⟨frame, instr⟩ := out
    cases instr with
    | none => rfl
    | some instr =>
      simp only [inTurn, Exec.bind_assoc, Exec.pure_bind]
      all_goals rfl

/-- A turn of the loop of `execute`, with the steps traced until after it. -/
def mainTurn (program : CompiledProgram) (inner : Run H LuaValue) (trace : List TraceStep) :
    Run H (Option LuaValue × List TraceStep) := do
  let (frame, instr) ← embed (Engine.fetch program)
  match instr with
  | none => do pure (← embed (Engine.implicitReturn false), trace)
  | some instr => tracedDispatch program inner frame instr trace

theorem mainLoop_succ (program : CompiledProgram) (fuel : Nat) (trace : List TraceStep) :
    (mainLoop program (fuel + 1) trace : Run H (LuaValue × List TraceStep)) = (do
      let (done, trace) ← mainTurn program (runFrame (runInner program fuel)) trace
      match done with
      | some v => pure (v, trace)
      | none =>
        if (← Exec.get).machine.frames = [] then pure (.nil, trace)
        else mainLoop program fuel trace) := by
  rw [mainLoop, mainTurn, Exec.bind_assoc]
  refine congrArg _ (funext fun out => ?_)
  obtain ⟨frame, instr⟩ := out
  cases instr with
  | none =>
    dsimp only
    rw [Exec.bind_assoc]
    all_goals rfl
  | some instr => rfl

theorem tracedDispatch_eq (program : CompiledProgram) (inner : Run H LuaValue) (frame : CallFrame)
    (instr : Instruction) (trace : List TraceStep) :
    tracedDispatch program inner frame instr trace = (do
      let before := (← Exec.get).machine
      let proto ← embed (Engine.orPanic program.prototypes[frame.protoIdx]?)
      let done ← inTurn false frame (withLine proto frame.pc (dispatch program inner instr))
      let after := (← Exec.get).machine
      if before.config.recordTrace then
        pure (done, trace ++ [Trace.step program frame instr before after])
      else pure (done, trace)) := by
  rw [tracedDispatch]
  refine congrArg _ (funext fun s => congrArg _ (funext fun proto => ?_))
  simp only [inTurn, Exec.bind_assoc, Exec.pure_bind]

end Run

namespace Instruction

/-- What an instruction does to the number of slots does not depend on the slots below those
that it needs. -/
theorem Goes.shift {instr : Instruction} {bits pc b a pc' n' : Nat}
    (h : instr.Goes bits pc (b + a) pc' n') (ha : instr.pops ≤ a) :
    ∃ a', n' = b + a' ∧ instr.Goes bits pc a pc' a' := by
  have hb : b ≤ n' := by
    unfold Goes pops pushes at h
    unfold pops at ha
    cases instr <;> dsimp only at h ha <;> omega
  obtain ⟨a', rfl⟩ := Nat.exists_eq_add_of_le hb
  refine ⟨a', rfl, ?_⟩
  unfold Goes pops pushes at h ⊢
  unfold pops at ha
  cases instr <;> dsimp only at h ha ⊢ <;> omega

end Instruction

namespace Region

variable {c : Region} {pc n : Nat} {program : CompiledProgram} {proto : FunctionProto}

theorem does_fetch (hproto : program.prototypes[c.frame.protoIdx]? = some proto) :
    c.Does pc n (Engine.fetch program) fun out pc' n' =>
      out = ({ c.frame with pc }, proto.code[pc]?) ∧ pc' = pc ∧ n' = n := by
  have hfind : c.Does pc n (Engine.orPanic program.prototypes[c.frame.protoIdx]?)
      fun proto' pc' n' => proto' = proto ∧ pc' = pc ∧ n' = n :=
    does_orPanic fun _ h => ⟨Option.some.inj (h.symm.trans hproto), rfl, rfl⟩
  refine topFrame_then (hfind.bind fun proto' _ _ ⟨hproto', hpc, hn⟩ => ?_)
  rw [hproto', hpc, hn]
  exact .pure ⟨rfl, rfl, rfl⟩

theorem does_advance (nested : Bool)
    (hgood : ∀ s, c.At pc n s → c.good (.dispatch nested s.frames s.stack)) :
    c.Does pc n (Engine.advance nested { c.frame with pc }) fun _ pc' n' =>
      pc' = pc + 1 ∧ n' = n := by
  intro s hs
  have hset := does_setPc (pc + 1) _ (hs.record (hgood s hs))
  rw [Engine.advance, Exec.run_bind, Exec.run_get]
  dsimp only
  rw [Exec.run_bind, Engine.run_record]
  dsimp only
  rw [Exec.run_bind]
  rcases hrun : (Engine.setPc (pc + 1)).run { s with
      core := s.core.record (.dispatch nested s.frames s.stack) } with ⟨stop | _, s'⟩
  all_goals
    rw [hrun] at hset
    exact hset

variable {H α : Type} {m : Run H α} {post : α → Machine → Prop}

/-- A turn does what its instruction does. -/
theorem inTurn_runs {nested : Bool}
    (hgood : ∀ s, c.At pc n s → c.good (.dispatch nested s.frames s.stack))
    (hm : c.Runs (pc + 1) n m post)
    (hpost : ∀ a s e, e.IsSilent → post a s → post a { s with core := s.core.record e }) :
    c.Runs pc n (Run.inTurn nested { c.frame with pc } m) post := by
  refine does_then (does_advance nested hgood) fun turn pc' n' ⟨hpc, hn⟩ => ?_
  rw [hpc, hn]
  exact Exec.Meets.bind hm fun out s hs => hpost out s.machine _ trivial hs

theorem runs_withLine (h : c.Runs pc n m post) (proto : FunctionProto) (line : Nat) :
    c.Runs pc n (Run.withLine proto line m) post := by
  intro s hs
  have h := h s hs
  rw [Run.run_withLine]
  rcases hrun : m.run s with ⟨(e | _ | _) | a, s'⟩
  all_goals
    rw [hrun] at h
    exact h

end Region

namespace Layout

open Region (does_then quiet_then get_then does_fetch inTurn_runs runs_withLine)

variable {program : CompiledProgram} {L : Layout program} {stack : List OwnedSlot}
  {f : CallFrame} {rest : List CallFrame} {floor pc n : Nat} {keep : Nat → Prop} {s s' : Machine}

/-- The frame goes on as the instruction does. -/
theorem Live.goes {proto : FunctionProto} {instr : Instruction} {pc' n' : Nat} (h : L.Live f n)
    (hproto : program.prototypes[f.protoIdx]? = some proto)
    (hinstr : proto.code[f.pc]? = some instr) (hgoes : instr.Goes L.bits (f.pc + 1) n pc' n') :
    L.Live { f with pc := pc' } n' := by
  obtain ⟨proto', a, hproto', rfl, hdepth⟩ := h
  obtain rfl : proto' = proto := Option.some.inj (hproto'.symm.trans hproto)
  obtain ⟨d, hd, hle, hexact⟩ := hdepth (List.getElem?_eq_some_iff.mp hinstr).1
  have hneeds := L.needs hproto hinstr hd
  have hsplit : f.base + proto'.localCount.toNat + a =
      f.base + proto'.localCount.toNat + (a - d) + d := by omega
  rw [hsplit] at hgoes
  obtain ⟨d', rfl, hgoes'⟩ := hgoes.shift hneeds
  refine ⟨proto', a - d + d', hproto, Nat.add_assoc .., fun hpc' => ?_⟩
  obtain ⟨d₀, hd₀, hle₀, hexact₀⟩ := L.goes hproto hinstr hd hgoes' hpc'
  exact ⟨d₀, hd₀, by omega, fun h => by have := hexact h; have := hexact₀ h; omega⟩

/-- What an instruction of a live frame needs is above the locals of the frame. -/
theorem Live.needs {proto : FunctionProto} {instr : Instruction} (h : L.Live f n)
    (hproto : program.prototypes[f.protoIdx]? = some proto)
    (hinstr : proto.code[f.pc]? = some instr) :
    f.base + proto.localCount.toNat + instr.pops ≤ n ∧ ∃ d, L.depth f.protoIdx f.pc = some d := by
  obtain ⟨proto', a, hproto', rfl, hdepth⟩ := h
  obtain rfl : proto' = proto := Option.some.inj (hproto'.symm.trans hproto)
  obtain ⟨d, hd, hle, -⟩ := hdepth (List.getElem?_eq_some_iff.mp hinstr).1
  have hneeds := L.needs hproto hinstr hd
  exact ⟨by omega, d, hd⟩

theorem Entered.record (h : L.Entered f stack rest s) {e : Event} (he : e.IsSilent) :
    L.Entered f stack rest { s with core := s.core.record e } where
  live := h.live
  returns := h.returns
  base := h.base
  stack := h.stack
  frames := h.frames
  bits := h.bits
  good := List.forall_mem_cons.mpr ⟨good_of_silent he, h.good⟩

theorem Dispatched.record {c : Region} {instr : Instruction} {out : Option LuaValue}
    (h : L.Dispatched c pc n instr out s) {e : Event} (he : e.IsSilent) (hc : c.good e) :
    L.Dispatched c pc n instr out { s with core := s.core.record e } := by
  cases h with
  | goes hgoes hat => exact .goes hgoes (hat.record hc)
  | called hinstr hn hcalled =>
    obtain ⟨g, below, hentered, hbelow⟩ := hcalled
    exact .called hinstr hn ⟨g, below, hentered.record he, hbelow⟩
  | returned hinstr hreturned =>
    exact .returned hinstr ⟨hreturned.frames, hreturned.last, hreturned.length, hreturned.slots,
      hreturned.bits, List.forall_mem_cons.mpr ⟨hc, hreturned.good⟩⟩

section Turn

variable {H : Type} {inner : Run H LuaValue} {proto : FunctionProto}

/-- The dispatch of a live frame. -/
theorem good_dispatch (nested : Bool) (hlive : L.Live { f with pc } n)
    (hdepth : ∃ d, L.depth f.protoIdx pc = some d) (s : Machine)
    (hs : (L.region stack f rest floor keep).At pc n s) :
    L.Good (.dispatch nested s.frames s.stack) :=
  ⟨{ f with pc }, rest, hs.frames, hs.length.symm ▸ hlive, hdepth⟩

/-- A frame goes through an instruction, or comes to its end. -/
inductive Turned (L : Layout program) (c : Region) (proto : FunctionProto) (pc n : Nat) :
    Option LuaValue → Machine → Prop
  | instr {instr out s'} (hinstr : proto.code[pc]? = some instr)
    (h : L.Dispatched c (pc + 1) n instr out s') : Turned L c proto pc n out s'
  | ended {out s'} (hend : proto.code.length ≤ pc) (h : Returned c out s') :
    Turned L c proto pc n out s'

theorem implicitReturn_runs {nested : Bool} (hproto : program.prototypes[f.protoIdx]? = some proto)
    (hfloor : f.base + proto.localCount.toNat ≤ floor) (hreturns : f.expectedReturns = 1)
    (hn : floor ≤ n) :
    (L.region stack f rest floor keep).Runs pc n
      (Run.embed (Engine.implicitReturn nested) : Run H _)
      (Returned (L.region stack f rest floor keep)) := by
  have hc : (L.region stack f rest floor keep).Sound := sound_region hproto hfloor
  rw [Engine.implicitReturn, Run.embed_bind]
  refine quiet_then (Region.quiet_record (hc.silent _ trivial)) fun _ => ?_
  have hreturn : Exec.Meets ((L.region stack f rest floor keep).At pc (n + 0))
      (Engine.doReturn 0) (Returned (L.region stack f rest floor keep))
      fun _ s' => (L.region stack f rest floor keep).Left s' :=
    run_doReturn hc ((Nat.le_add_right ..).trans hfloor) hreturns 0 hn
  exact meets_embed hreturn

variable [HostInterface H]

section Instr

variable {instr : Instruction} (hproto : program.prototypes[f.protoIdx]? = some proto)
  (hfloor : f.base + proto.localCount.toNat ≤ floor) (hreturns : f.expectedReturns = 1)
  (hinner : L.EndsFrame inner) (hlive : L.Live { f with pc } n)
  (hinstr : proto.code[pc]? = some instr) (hn : floor + instr.pops ≤ n)
  (htouched : ∀ slot ∈ instr.touched program, ¬keep (f.base + slot.toNat))

include hproto hfloor hreturns hinner hlive hinstr hn htouched

theorem instr_runs (nested : Bool) :
    (L.region stack f rest floor keep).Runs pc n
      (Run.inTurn nested { f with pc } (Run.dispatch program inner instr))
      (L.Dispatched (L.region stack f rest floor keep) (pc + 1) n instr) :=
  inTurn_runs (good_dispatch nested hlive (hlive.needs hproto hinstr).2)
    (dispatch_runs hproto hfloor hreturns hinner hn htouched)
    fun _ _ _ he h => h.record he (good_of_silent he)

theorem tracedDispatch_runs (trace : List TraceStep) :
    (L.region stack f rest floor keep).Runs pc n
      (Run.tracedDispatch program inner { f with pc } instr trace) fun out =>
        L.Dispatched (L.region stack f rest floor keep) (pc + 1) n instr out.1 := by
  rw [Run.tracedDispatch_eq]
  refine get_then fun s => quiet_then (Region.quiet_orPanic _) fun proto' => ?_
  refine Exec.Meets.bind (inTurn_runs (good_dispatch false hlive (hlive.needs hproto hinstr).2)
    (runs_withLine (dispatch_runs hproto hfloor hreturns hinner hn htouched) proto' pc)
    fun _ _ _ he h => h.record he (good_of_silent he)) fun done => ?_
  refine Exec.Meets.get_bind fun s' hs' => ?_
  dsimp only
  split_ifs
  · exact Exec.Meets.pure fun _ heq => heq ▸ hs'
  · exact Exec.Meets.pure fun _ heq => heq ▸ hs'

end Instr

/-- A turn of a live frame, above a floor that its instruction does not go below. -/
theorem turn_runs (hproto : program.prototypes[f.protoIdx]? = some proto)
    (hfloor : f.base + proto.localCount.toNat ≤ floor) (hreturns : f.expectedReturns = 1)
    (hinner : L.EndsFrame inner) (hlive : L.Live { f with pc } n) (hn : floor ≤ n)
    (hinstr : ∀ instr, proto.code[pc]? = some instr → floor + instr.pops ≤ n ∧
      ∀ slot ∈ instr.touched program, ¬keep (f.base + slot.toNat)) (nested : Bool) :
    (L.region stack f rest floor keep).Runs pc n (Run.turn program nested inner)
      (L.Turned (L.region stack f rest floor keep) proto pc n) := by
  refine does_then (does_fetch hproto) fun out pc' n' ⟨hout, hpc, hn'⟩ => ?_
  rw [hout, hpc, hn']
  dsimp only
  cases hcode : proto.code[pc]? with
  | none =>
    exact (implicitReturn_runs hproto hfloor hreturns hn).mono (fun _ h => h)
      (fun _ _ h => .ended (List.getElem?_eq_none_iff.mp hcode) h) fun _ _ h => h
  | some instr =>
    obtain ⟨hpops, htouched⟩ := hinstr instr hcode
    exact (instr_runs hproto hfloor hreturns hinner hlive hcode hpops htouched nested).mono
      (fun _ h => h) (fun _ _ h => .instr hcode h) fun _ _ h => h

end Turn

/-- The frames that a run has on top of those that it began with, and what they have put on
the stack. -/
structure Running (L : Layout program) (stack : List OwnedSlot) (rest ups : List CallFrame)
    (s : Machine) : Prop where
  frames : s.frames = ups ++ rest
  chain : L.Chain stack.length ups s.stack.length
  stack : stack <+: s.stack
  bits : s.core.target.wordBits = L.bits
  good : ∀ e ∈ s.core.history, L.Good e

/-- What a run is left with after a turn: more to do, or what it began with. -/
def Next (L : Layout program) (stack : List OwnedSlot) (rest : List CallFrame) :
    Option LuaValue → Machine → Prop
  | none, s => ∃ ups, L.Running stack rest ups s
  | some _, s => L.Resting stack rest s

theorem Entered.running (h : L.Entered f stack rest s) : L.Running stack rest [f] s :=
  ⟨h.frames, ⟨h.live, h.returns, h.base.le, by rw [h.base]; rfl⟩, h.stack, h.bits, h.good⟩

namespace Running

variable {ups : List CallFrame} {proto : FunctionProto}

/-- The innermost frame above its base. -/
theorem at_top (h : L.Running stack rest (f :: ups) s)
    (hproto : program.prototypes[f.protoIdx]? = some proto) :
    (L.region s.stack f (ups ++ rest) (f.base + proto.localCount.toNat) (· < f.base)).At f.pc
      s.stack.length s := by
  obtain ⟨⟨proto', a, hproto', hlength, -⟩, -⟩ := h.chain
  obtain rfl : proto' = proto := Option.some.inj (hproto'.symm.trans hproto)
  exact ⟨h.frames, rfl, hlength.symm ▸ Nat.le_add_right .., fun _ _ _ => rfl, h.bits, h.good⟩

theorem prefix_of_slots {stack' : List OwnedSlot} (h : L.Running stack rest (f :: ups) s)
    (hslots : ∀ i < f.base, stack'[i]? = s.stack[i]?) : stack <+: stack' := by
  refine List.prefix_iff_getElem?.mpr fun i hi => ?_
  rw [hslots i (hi.trans_le h.chain.2.2.1), List.prefix_iff_getElem?.mp h.stack i hi]

theorem left (h : L.Running stack rest (f :: ups) s)
    (h' : (L.region s.stack f (ups ++ rest) (f.base + proto.localCount.toNat) (· < f.base)).Left s') :
    L.Beyond stack rest s' where
  stack := h.prefix_of_slots fun i hi => h'.slots i (hi.trans_le (Nat.le_add_right ..)) hi
  frames := (List.suffix_append ..).trans h'.frames
  bits := h'.bits
  good := h'.good

theorem returned (h : L.Running stack rest (f :: ups) s) {out : Option LuaValue}
    (h' : Returned (L.region s.stack f (ups ++ rest) (f.base + proto.localCount.toNat) (· < f.base))
      out s') : L.Next stack rest out s' := by
  have hpre : stack <+: s'.stack := h.prefix_of_slots fun i hi => h'.slots i hi hi
  have hframes : s'.frames = ups ++ rest := h'.frames
  have hlength := h'.length
  cases out with
  | none => exact ⟨ups, hframes, hlength ▸ h.chain.2.2.2, hpre, h'.bits, h'.good⟩
  | some v =>
    have hnil : ups ++ rest = [] := h'.last.mp rfl
    obtain ⟨rfl, rfl⟩ := List.append_eq_nil_iff.mp hnil
    have hbase : f.base + 1 = stack.length + 1 := h.chain.2.2.2
    have hstack : s'.stack.length = stack.length := hlength.trans (Nat.succ.inj hbase)
    exact ⟨(hpre.eq_of_length hstack.symm).symm, hframes, h'.bits, h'.good⟩

theorem dispatched (h : L.Running stack rest (f :: ups) s) {instr : Instruction}
    (hproto : program.prototypes[f.protoIdx]? = some proto)
    (hinstr : proto.code[f.pc]? = some instr) {out : Option LuaValue}
    (h' : L.Dispatched
      (L.region s.stack f (ups ++ rest) (f.base + proto.localCount.toNat) (· < f.base)) (f.pc + 1)
      s.stack.length instr out s') : L.Next stack rest out s' := by
  obtain ⟨hlive, hreturns, hbase, hchain⟩ := h.chain
  cases h' with
  | @goes pc' n' _ hgoes hat =>
    refine ⟨{ f with pc := pc' } :: ups, hat.frames, ⟨?_, hreturns, hbase, hchain⟩,
      h.prefix_of_slots fun i hi => hat.slots i (hi.trans_le (Nat.le_add_right ..)) hi,
      hat.bits, hat.good⟩
    rw [hat.length]
    exact hlive.goes hproto hinstr hgoes
  | @called argc m _ hcall hn hcalled =>
    obtain ⟨g, below, hentered, hbelow, hslots⟩ := hcalled
    have hfloor := (hlive.needs hproto hinstr).1
    rw [hcall, hn] at hfloor
    have hm : f.base ≤ m := by
      have hpops : (Instruction.call argc).pops = argc.toNat + 1 := rfl
      omega
    have hgoes : instr.Goes L.bits (f.pc + 1) s.stack.length (f.pc + 1) (m + 1) := by
      rw [hcall, hn]
      exact ⟨rfl, Nat.add_right_comm ..⟩
    have hlive' := hlive.goes hproto hinstr hgoes
    have hgbase : m = g.base := hbelow.symm.trans hentered.base
    refine ⟨g :: { f with pc := f.pc + 1 } :: ups, hentered.frames, ?_, ?_, hentered.bits,
      hentered.good⟩
    · exact ⟨hentered.live, hentered.returns, (hbase.trans hm).trans hgbase.le,
        hgbase ▸ hlive', hreturns, hbase, hchain⟩
    · have hstack : stack <+: below :=
        h.prefix_of_slots fun i hi => hslots i (hi.trans_le (Nat.le_add_right ..)) hi
      exact hstack.trans hentered.stack
  | returned _ hreturned => exact h.returned hreturned

theorem turned (h : L.Running stack rest (f :: ups) s)
    (hproto : program.prototypes[f.protoIdx]? = some proto) {out : Option LuaValue}
    (h' : L.Turned
      (L.region s.stack f (ups ++ rest) (f.base + proto.localCount.toNat) (· < f.base)) proto f.pc
      s.stack.length out s') : L.Next stack rest out s' := by
  cases h' with
  | instr hinstr h' => exact h.dispatched hproto hinstr h'
  | ended _ h' => exact h.returned h'

end Running

section Loop

variable {H : Type} [HostInterface H] {inner : Run H LuaValue} {ups : List CallFrame}
  {proto : FunctionProto}

theorem running_turn (hinner : L.EndsFrame inner) (nested : Bool) {s : System H}
    (h : L.Running stack rest (f :: ups) s.machine) :
    Exec.Meets (· = s) (Run.turn program nested inner)
      (fun out s' => L.Next stack rest out s'.machine)
      fun _ s' => L.Beyond stack rest s'.machine := by
  obtain ⟨hlive, hreturns, -⟩ := h.chain
  obtain ⟨proto, a, hproto, hlength, -⟩ := id hlive
  have hat := h.at_top hproto
  let c := L.region s.machine.stack f (ups ++ rest) (f.base + proto.localCount.toNat) (· < f.base)
  have hturn : c.Runs f.pc s.machine.stack.length (Run.turn program nested inner)
      (L.Turned c proto f.pc s.machine.stack.length) :=
    turn_runs hproto le_rfl hreturns hinner hlive hat.floor
      (fun instr hinstr => ⟨(hlive.needs hproto hinstr).1, fun _ _ => by omega⟩) nested
  exact (hturn.at_one hat).mono (fun _ h => h) (fun _ _ h' => h.turned hproto h')
    fun _ _ h' => h.left h'

/-- The value of the frame that has ended is taken off the stack. -/
theorem resting_popValue (hheld : Held program stack rest) :
    Exec.Meets (L.Running stack rest []) Engine.popValue (fun _ => L.Resting stack rest)
      fun _ => L.Beyond stack rest := by
  obtain ⟨g, rest', proto, rfl, hproto, hfloor⟩ := hheld
  refine Exec.Meets.at_state fun s h => ?_
  have hlength : s.stack.length = stack.length + 1 := h.chain
  have hne : s.stack ≠ [] := List.ne_nil_of_length_pos (by omega)
  have hpop := Engine.run_popSlot s
  rw [List.getLast?_eq_some_getLast hne] at hpop
  have hresting : L.Resting stack (g :: rest') { s with
      stack := s.stack.dropLast
      core := s.core.record (.pop s.frames (s.stack.length - 1)) } := {
    stack := by
      rw [List.dropLast_eq_take, hlength, Nat.add_sub_cancel]
      exact (List.prefix_iff_eq_take.mp h.stack).symm
    frames := h.frames
    bits := h.bits
    good := by
      refine List.forall_mem_cons.mpr ⟨⟨g, rest', proto, h.frames, hproto, ?_⟩, h.good⟩
      rw [hlength]
      exact hfloor }
  intro s' heq
  rw [heq, Engine.popValue, Exec.run_bind, hpop]
  exact meets_slotValue _ stack (g :: rest') _ hresting

omit [HostInterface H] in
/-- A loop that ends the frames on top of those it is to leave ends one frame. -/
theorem endsFrame_runFrame {loop : Nat → Run H LuaValue}
    (h : ∀ {stack rest}, Held program stack rest →
      Exec.Meets (fun s : System H => ∃ ups, L.Running stack rest ups s.machine) (loop rest.length)
        (fun _ s => L.Resting stack rest s.machine) fun _ s => L.Beyond stack rest s.machine) :
    L.EndsFrame (Run.runFrame loop) := by
  refine fun f stack rest hheld => Exec.Meets.get_bind fun s hs => ?_
  have hlength : s.machine.frames.length - 1 = rest.length := by
    rw [hs.frames]
    rfl
  dsimp only
  rw [hlength]
  exact (h hheld).at_one ⟨[f], hs.running⟩

/-- The inner loop of any fuel ends the frames on top of those it is to leave. -/
theorem running_runInner (hheld : Held program stack rest) (fuel : Nat) :
    Exec.Meets (fun s : System H => ∃ ups, L.Running stack rest ups s.machine)
      (Run.runInner program fuel rest.length) (fun _ s => L.Resting stack rest s.machine)
      fun _ s => L.Beyond stack rest s.machine := by
  induction fuel generalizing stack rest with
  | zero =>
    exact Exec.Meets.throw fun s ⟨ups, h⟩ =>
      ⟨h.stack, h.frames ▸ List.suffix_append .., h.bits, h.good⟩
  | succ fuel ih =>
    rw [Run.runInner_succ]
    refine Exec.Meets.get_bind fun s ⟨ups, h⟩ => ?_
    split_ifs with hdepth
    · have hups : ups = [] := by
        rw [h.frames, List.length_append] at hdepth
        exact List.eq_nil_of_length_eq_zero (by omega)
      exact (meets_embed (resting_popValue hheld)).at_one (hups ▸ h)
    · have hinner : L.EndsFrame (Run.runFrame (Run.runInner program fuel) : Run H LuaValue) :=
        endsFrame_runFrame fun hheld => ih hheld
      cases ups with
      | nil => exact absurd (h.frames ▸ le_rfl) hdepth
      | cons f ups =>
        refine (running_turn hinner true h).bind fun out => ?_
        cases out with
        | some v => exact Exec.Meets.pure fun _ hs => hs
        | none => exact ih hheld

/-- What is left of a run that keeps to the depths, however it ends. -/
abbrev AllGood (L : Layout program) (s : System H) : Prop := ∀ e ∈ s.machine.core.history, L.Good e

/-- A turn of the loop of `execute`. -/
theorem running_mainTurn (hinner : L.EndsFrame inner) (trace : List TraceStep) {s : System H}
    (h : L.Running stack rest (f :: ups) s.machine) :
    Exec.Meets (· = s) (Run.mainTurn program inner trace)
      (fun out s' => L.Next stack rest out.1 s'.machine)
      fun _ s' => L.Beyond stack rest s'.machine := by
  obtain ⟨hlive, hreturns, -⟩ := h.chain
  obtain ⟨proto, a, hproto, hlength, -⟩ := id hlive
  have hat := h.at_top hproto
  let c := L.region s.machine.stack f (ups ++ rest) (f.base + proto.localCount.toNat) (· < f.base)
  have hturn : c.Runs f.pc s.machine.stack.length
      (Run.mainTurn program inner trace)
      fun out s' => L.Turned c proto f.pc s.machine.stack.length out.1 s' := by
    refine does_then (does_fetch hproto) fun out pc' n' ⟨hout, hpc, hn'⟩ => ?_
    rw [hout, hpc, hn']
    dsimp only
    cases hcode : proto.code[f.pc]? with
    | none =>
      refine Exec.Meets.bind (implicitReturn_runs hproto le_rfl hreturns hat.floor) fun out => ?_
      exact Exec.Meets.pure fun _ h => .ended (List.getElem?_eq_none_iff.mp hcode) h
    | some instr =>
      exact (tracedDispatch_runs hproto le_rfl hreturns hinner hlive hcode
        (hlive.needs hproto hcode).1 (fun _ _ => by omega) trace).mono
        (fun _ h => h) (fun _ _ h => .instr hcode h) fun _ _ h => h
  exact (hturn.at_one hat).mono (fun _ h => h) (fun _ _ h' => h.turned hproto h')
    fun _ _ h' => h.left h'

theorem allGood_mainLoop (fuel : Nat) (trace : List TraceStep) :
    Exec.Meets (fun s : System H => ∃ f ups, L.Running stack [] (f :: ups) s.machine)
      (Run.mainLoop program fuel trace) (fun _ => L.AllGood) fun _ => L.AllGood := by
  induction fuel generalizing trace with
  | zero => exact Exec.Meets.throw fun s ⟨_, _, h⟩ => h.good
  | succ fuel ih =>
    have hinner : L.EndsFrame (Run.runFrame (Run.runInner program fuel) : Run H LuaValue) :=
      endsFrame_runFrame fun hheld => running_runInner hheld fuel
    refine Exec.Meets.at_state fun s ⟨f, ups, h⟩ => ?_
    rw [Run.mainLoop_succ]
    refine Exec.Meets.bind ((running_mainTurn hinner trace h).mono (fun _ h => h)
      (fun _ _ h => h) fun _ _ h => h.good) fun ⟨done, trace'⟩ => ?_
    cases done with
    | some v => exact Exec.Meets.pure fun _ hs => hs.good
    | none =>
      refine Exec.Meets.get_bind fun s' ⟨ups', h'⟩ => ?_
      split_ifs with hempty
      · exact Exec.Meets.pure fun _ heq => heq ▸ h'.good
      · cases ups' with
        | nil => exact absurd h'.frames hempty
        | cons g ups' => exact (ih trace').at_one ⟨g, ups', h'⟩

omit [HostInterface H] in
theorem meets_enterMain {input : LuaValue} (hproto : program.prototypes[0]? = some proto) :
    Exec.Meets (L.Resting [] []) (Run.enterMain proto input)
      (fun _ s => ∃ f, L.Entered f [] [] s) fun _ => L.Beyond [] [] := by
  intro s hs
  let f : CallFrame := ⟨0, 0, 0, [], 1⟩
  let bindInput : Engine Unit :=
    if proto.paramCount ≥ 1 ∧ proto.localCount ≥ 1 then Engine.bindSlot 0 input else pure ()
  have hbind : ∀ c : Region, (∀ i, c.keep i → i < f.base) → c.Quiet bindInput := by
    intro c hkeep
    unfold bindInput
    split_ifs
    · exact Region.quiet_bindSlot (fun hk => Nat.not_lt_zero _ (hkeep 0 hk)) input
    · exact .pure ()
  have hlocals := meets_locals (f := f) (s := s) hproto rfl rfl hs rfl hbind
  rw [Run.enterMain, Exec.run_bind, Engine.run_pushFrame]
  exact Exec.Meets.mono hlocals (fun _ h => h) (fun _ _ h => ⟨f, h⟩) (fun _ _ h => h) _ rfl

/-- Every event of a run keeps to the depths, however the run ends. -/
theorem allGood_execute (L : Layout program) (input : LuaValue) (s : System H)
    (hbits : s.machine.core.target.wordBits = L.bits) :
    L.AllGood ((Run.execute program input).run s).2 := by
  have hcleared : L.Resting [] [] (Run.cleared s).machine := ⟨rfl, rfl, hbits, List.forall_mem_nil _⟩
  cases hproto : program.prototypes[0]? with
  | none =>
    have hempty : program.prototypes = [] := by simpa using hproto
    rw [Run.execute_of_empty program input s hempty]
    exact hcleared.good
  | some proto =>
    rw [Run.execute_of_proto program input s hproto]
    have hrun : Exec.Meets (fun s : System H => L.Resting [] [] s.machine)
        (do Run.embed (Engine.lift (Vm.trackAlloc (AllocSize.stackFrame proto.localCount)))
            Run.runMain program proto input) (fun _ => L.AllGood) fun _ => L.AllGood := by
      refine ((meets_embed (meets_lift (.trackAlloc _) [] [])).mono (fun _ h => h) (fun _ _ h => h)
        fun _ _ h => h.good).bind fun _ => ?_
      refine ((meets_embed (meets_enterMain hproto)).mono (fun _ h => h) (fun _ _ h => h)
        fun _ _ h => h.good).bind fun _ => ?_
      refine Exec.Meets.get_bind fun s' ⟨f, hs'⟩ => ?_
      refine ((allGood_mainLoop (Run.fuelFor _) []).at_one ⟨f, [], hs'.running⟩).bind fun out => ?_
      exact Exec.Meets.get_bind fun s'' hs'' => Exec.Meets.pure fun _ heq => heq ▸ hs''
    have h := hrun _ hcleared
    rcases hend : (do Run.embed (Engine.lift (Vm.trackAlloc (AllocSize.stackFrame proto.localCount)))
                      Run.runMain program proto input : Run H VmOutput).run (Run.cleared s) with
      ⟨stop | out, s'⟩
    all_goals
      rw [hend] at h
      exact h

end Loop

end Layout

end Proveno
