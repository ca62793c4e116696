import Proveno.Vm.ComparatorRun

/-! One activation of a function, from position to position of its code, while it calls
nothing: the instructions that the machine carries out on its own, the turns of a loop that
they make, and what a run then does. -/

namespace Proveno

namespace Engine

/-- An instruction that the machine carries out on its own, with its price. -/
def performed (program : CompiledProgram) (instr : Instruction) : Engine Unit := do
  charge GasCost.baseInstruction
  record .charged
  perform program instr

/-- The turn of a loop that carries it out. -/
def performTurn (program : CompiledProgram) (nested : Bool) (frame : CallFrame)
    (instr : Instruction) : Engine Unit := do
  let turn ← advance nested frame
  performed program instr
  complete turn

variable {m : Machine} {frame : CallFrame} {program : CompiledProgram} {nested : Bool}
  {instr : Instruction}

theorem run_advance (nested : Bool) (h : m.frames.head? = some frame) :
    ∃ turn mid, (advance nested frame).run m = (.ok turn, mid) := by
  cases hframes : m.frames with
  | nil =>
    rw [hframes] at h
    cases h
  | cons f rest =>
    refine ⟨(m.core.history.length, m.core.usage), { m with
      core := m.core.record (.dispatch nested m.frames m.stack)
      frames := { f with pc := frame.pc + 1 } :: rest }, ?_⟩
    rw [advance, Exec.run_bind_ok (Exec.run_get m), Exec.run_bind_ok (run_record m _),
      Exec.run_bind, run_setPc]
    dsimp only
    rw [hframes]
    rfl

theorem run_complete (turn : Nat × Usage) (m : Machine) :
    ∃ mid, (complete turn).run m = (.ok (), mid) :=
  ⟨_, rfl⟩

end Engine

/-- The innermost frame is at an instruction that the machine carries out on its own. -/
structure Performs (program : CompiledProgram) (f : CallFrame) (instr : Instruction)
    (m : Machine) : Prop where
  top : m.frames.head? = some f
  fetched : ∃ proto, program.prototypes[f.protoIdx]? = some proto ∧
    proto.code[f.pc]? = some instr
  performed : instr.IsPerformed

/-- So many turns that carry out instructions one after the other. -/
inductive Turns (program : CompiledProgram) (nested : Bool) : Nat → Machine → Machine → Prop
  | refl (m : Machine) : Turns program nested 0 m m
  | turn {n : Nat} {m mid m' : Machine} {f : CallFrame} {instr : Instruction}
      (hat : Performs program f instr m)
      (hrun : (Engine.performTurn program nested f instr).run m = (.ok (), mid))
      (hdepth : mid.frames.length = m.frames.length) (h : Turns program nested n mid m') :
      Turns program nested (n + 1) m m'

namespace Turns

variable {program : CompiledProgram} {nested : Bool} {n n' : Nat} {m mid m' : Machine}

theorem trans (h : Turns program nested n m mid) (h' : Turns program nested n' mid m') :
    Turns program nested (n + n') m m' := by
  induction h with
  | refl => rwa [Nat.zero_add]
  | turn hat hrun hdepth _ ih =>
    rw [Nat.add_right_comm]
    exact .turn hat hrun hdepth (ih h')

theorem depth (h : Turns program nested n m m') : m'.frames.length = m.frames.length := by
  induction h with
  | refl => rfl
  | turn _ _ hdepth _ ih => exact ih.trans hdepth

end Turns

namespace Run

variable {H : Type} [HostInterface H] {program : CompiledProgram} {f : CallFrame}
  {instr : Instruction} (inner : Run H LuaValue) {m m' : Machine} {e : VmError} {s : System H}

theorem run_fetch_of_performs (h : Performs program f instr m) :
    (Engine.fetch program).run m = (.ok (f, some instr), m) := by
  obtain ⟨proto, hproto, hinstr⟩ := h.fetched
  have htop : Engine.topFrame.run m = (.ok f, m) := by rw [Engine.run_topFrame, h.top]
  have hknown : (Engine.orPanic program.prototypes[f.protoIdx]?).run m = (.ok proto, m) := by
    rw [Engine.run_orPanic, hproto]
  rw [Engine.fetch, Exec.run_bind_ok htop, Exec.run_bind_ok hknown, hinstr]
  rfl

theorem dispatch_eq_performed (h : instr.IsPerformed) :
    dispatch program inner instr =
      embed (Engine.performed program instr) >>= fun _ => pure none := by
  rw [dispatch_performed h, ← Exec.bind_assoc, ← embed_bind, Exec.bind_assoc]
  rfl

theorem run_dispatch (h : instr.IsPerformed) {r : Except Stop Unit}
    (hrun : (Engine.performed program instr).run s.machine = (r, m')) :
    (dispatch program inner instr).run s = (r.map fun _ => none, { s with machine := m' }) := by
  rw [dispatch_eq_performed inner h, Exec.run_bind, run_embed hrun]
  cases r <;> rfl

/-- A turn that carries out such an instruction, from its parts. -/
theorem run_performTurn {nested : Bool} {r : Except Stop Unit}
    (hat : Performs program f instr m)
    (hrun : (Engine.performTurn program nested f instr).run m = (r, m')) :
    ∃ turn mid after, (Engine.advance nested f).run m = (.ok turn, mid) ∧
      (Engine.performed program instr).run mid = (r, after) ∧
      match r with
      | .ok _ => (Engine.complete turn).run after = (.ok (), m')
      | .error _ => after = m' := by
  obtain ⟨turn, mid, hadvance⟩ := Engine.run_advance nested hat.top
  rw [Engine.performTurn, Exec.run_bind_ok hadvance, Exec.run_bind] at hrun
  refine ⟨turn, mid, ?_⟩
  rcases hperformed : (Engine.performed program instr).run mid with ⟨e | _, after⟩
  · rw [hperformed] at hrun
    cases hrun
    exact ⟨_, hadvance, rfl, rfl⟩
  · rw [hperformed] at hrun
    obtain ⟨m'', hcomplete⟩ := Engine.run_complete turn after
    dsimp only at hrun
    rw [hcomplete] at hrun
    cases hrun
    exact ⟨_, hadvance, rfl, hcomplete⟩

/-- A turn of the inner loop. -/
theorem run_turn {r : Except Stop Unit} (hat : Performs program f instr s.machine)
    (hrun : (Engine.performTurn program true f instr).run s.machine = (r, m')) :
    (turn program true inner).run s = (r.map fun _ => none, { s with machine := m' }) := by
  obtain ⟨turn, mid, after, hadvance, hperformed, hafter⟩ := run_performTurn hat hrun
  rw [Run.turn, Exec.run_bind_ok (run_embed (run_fetch_of_performs hat))]
  dsimp only
  rw [inTurn, Exec.run_bind_ok (run_embed hadvance), Exec.run_bind, run_dispatch inner hat.performed hperformed]
  cases r with
  | error e =>
    cases hafter
    rfl
  | ok _ =>
    dsimp only [Except.map]
    rw [Exec.run_bind_ok (run_embed hafter)]
    rfl

/-- A turn of the loop of `execute`: a step may be traced, and an error has its line. -/
theorem run_mainTurn_ok (hat : Performs program f instr s.machine) (trace : List TraceStep)
    (hrun : (Engine.performTurn program false f instr).run s.machine = (.ok (), m')) :
    ∃ trace', (mainTurn program inner trace).run s = (.ok (none, trace'), { s with machine := m' }) := by
  obtain ⟨turn, mid, after, hadvance, hperformed, hafter⟩ := run_performTurn hat hrun
  obtain ⟨proto, hproto, -⟩ := hat.fetched
  have hknown : (embed (Engine.orPanic program.prototypes[f.protoIdx]?)).run s = (.ok proto, s) :=
    run_embed (by rw [Engine.run_orPanic, hproto])
  have hline : (withLine proto f.pc (dispatch program inner instr)).run { s with machine := mid } =
      (.ok none, { s with machine := after }) := by
    rw [run_withLine, run_dispatch inner hat.performed hperformed]
    rfl
  rw [mainTurn, Exec.run_bind_ok (run_embed (run_fetch_of_performs hat))]
  dsimp only
  rw [tracedDispatch, Exec.run_bind_ok (Exec.run_get s), Exec.run_bind_ok hknown,
    Exec.run_bind_ok (run_embed hadvance), Exec.run_bind_ok hline,
    Exec.run_bind_ok (run_embed hafter), Exec.run_bind_ok (Exec.run_get _)]
  dsimp only
  split_ifs
  · exact ⟨_, rfl⟩
  · exact ⟨_, rfl⟩

end Run

namespace Turns

variable {H : Type} [HostInterface H] {program : CompiledProgram} {n : Nat} {s : System H}
  {m' : Machine}

/-- The loop of `execute` is then where the turns lead. -/
theorem mainLoop (h : Turns program false n s.machine m') (hframes : s.machine.frames ≠ [])
    (fuel : Nat) (trace : List TraceStep) :
    ∃ trace', (Run.mainLoop program (fuel + n) trace).run s =
      (Run.mainLoop program fuel trace').run { s with machine := m' } := by
  generalize hm : s.machine = m at *
  induction h generalizing s trace with
  | refl m =>
    cases hm
    exact ⟨trace, rfl⟩
  | @turn n m mid m' f instr hat hrun hdepth h ih =>
    cases hm
    have hmid : mid.frames ≠ [] := by
      intro hnil
      rw [hnil, List.length_nil] at hdepth
      exact hframes (List.length_eq_zero_iff.mp hdepth.symm)
    obtain ⟨trace₁, hturn⟩ := Run.run_mainTurn_ok
      (Run.runFrame (Run.runInner program (fuel + n))) hat trace hrun
    obtain ⟨trace₂, hloop⟩ := ih (s := { s with machine := mid }) trace₁ rfl hmid
    refine ⟨trace₂, ?_⟩
    rw [← Nat.add_assoc, Run.mainLoop_succ, Exec.run_bind_ok hturn]
    dsimp only
    rw [Exec.run_bind_ok (Exec.run_get _), if_neg hmid]
    exact hloop

/-- And so is a loop within an instruction. -/
theorem runInner (h : Turns program true n s.machine m') (fuel target : Nat)
    (hdepth : target < s.machine.frames.length) :
    (Run.runInner program (fuel + n) target).run s =
      (Run.runInner program fuel target).run { s with machine := m' } := by
  generalize hm : s.machine = m at *
  induction h generalizing s with
  | refl m =>
    cases hm
    rfl
  | @turn n m mid m' f instr hat hrun hlength h ih =>
    cases hm
    have hturn := Run.run_turn (Run.runFrame (Run.runInner program (fuel + n))) hat hrun
    rw [← Nat.add_assoc, Run.runInner_succ, Exec.run_bind_ok (Exec.run_get _),
      if_neg (Nat.not_le_of_lt hdepth), Exec.run_bind_ok hturn]
    exact ih (s := { s with machine := mid }) rfl (by rwa [hlength])

end Turns

end Proveno
