import Proveno.Vm.OutputLimit

/-! A machine that is used again. The meters are not reset, so that any memory an earlier
run was charged for shows in the next one. -/

namespace Proveno

namespace Run

variable {H : Type} [HostInterface H]

/-- Calls of `execute` on one machine, one after another. -/
def executeAll (calls : List (CompiledProgram × LuaValue)) (s : System H) : System H :=
  calls.foldl (fun s call => ((execute call.1 call.2).run s).2) s

/-- What a caller sees of a run: its outcome, the logs, the meters and the transcript. -/
structure SameRun (out out' : Except Stop VmOutput × System H) : Prop where
  outcome : out.1 = out'.1
  logs : out.2.machine.core.logs = out'.2.machine.core.logs
  gasUsed : out.2.machine.core.gas.used = out'.2.machine.core.gas.used
  memoryUsed : out.2.machine.core.mem.used = out'.2.machine.core.mem.used
  transcript : out.2.transcript = out'.2.transcript

/-- A function without code, which returns at once. -/
def emptyFunction : CompiledProgram := ⟨[FunctionProto.new 0]⟩

omit [HostInterface H] in
theorem cleared_new (config : VmConfig) (target : Target) (heap : Heap) (host : H)
    (declares : Nat → Nat → Bool) :
    cleared (.new config target heap host declares) = .new config target heap host declares := by
  rw [System.new]
  generalize Globals.build heap = globals
  rfl

theorem runMain_emptyFunction_mem (s : System H) (hframes : s.machine.frames = []) :
    ((runMain emptyFunction (FunctionProto.new 0) .nil).run s).2.machine.core.mem =
      s.machine.core.mem := by
  rcases s with ⟨⟨config, core, stack, frames, globals, ghost⟩, registry, transcript⟩
  obtain rfl : frames = [] := hframes
  rfl

omit [HostInterface H] in
theorem run_trackAlloc_mem (n : Nat) (s : System H) :
    ∃ r core, (embed (Engine.lift (Vm.trackAlloc n))).run s =
        ((r : Except Stop Unit), { s with machine := { s.machine with core } }) ∧
      core.mem.allocated = min (s.machine.core.mem.allocated + n) MemoryMeter.u64Max := by
  refine ⟨_, _, rfl, ?_⟩
  rw [Vm.run_trackAlloc]
  dsimp only
  split_ifs <;> rfl

theorem execute_emptyFunction_mem (s : System H) :
    ((execute emptyFunction .nil).run s).2.machine.core.mem.allocated =
      min (s.machine.core.mem.allocated + AllocSize.stackFrame 0) MemoryMeter.u64Max := by
  have hproto : emptyFunction.prototypes[0]? = some (FunctionProto.new 0) := rfl
  obtain ⟨r, core, hrun, hmem⟩ :=
    run_trackAlloc_mem (AllocSize.stackFrame (FunctionProto.new 0).localCount) (cleared s)
  rw [execute_of_proto emptyFunction .nil s hproto]
  cases r with
  | error e =>
    rw [Exec.run_bind_error hrun]
    exact hmem
  | ok =>
    rw [Exec.run_bind_ok hrun, runMain_emptyFunction_mem _ rfl]
    exact hmem

/-- A run of a program that has any function is charged for the frame. -/
theorem execute_mem_pos (program : CompiledProgram) (input : LuaValue) (s : System H)
    (h : program.prototypes ≠ [] ∨ 0 < s.machine.core.mem.allocated) :
    0 < ((execute program input).run s).2.machine.core.mem.allocated := by
  rcases h with hne | hpos
  · obtain ⟨proto, rest, hprotos⟩ := List.exists_cons_of_ne_nil hne
    obtain ⟨r, core, hrun, hmem⟩ :=
      run_trackAlloc_mem (AllocSize.stackFrame proto.localCount) (cleared s)
    have hpaid : 0 < core.mem.allocated := by
      rw [hmem, AllocSize.stackFrame, MemoryMeter.u64Max]
      omega
    have hproto : program.prototypes[0]? = some proto := by rw [hprotos]; rfl
    rw [execute_of_proto program input s hproto]
    cases r with
    | error e =>
      rw [Exec.run_bind_error hrun]
      exact hpaid
    | ok =>
      rw [Exec.run_bind_ok hrun]
      exact (Moves.runMain proto input rfl).advances.core.mem_pos hpaid
  · exact (execute_advances program input s).core.mem_pos hpos

theorem executeAll_mem_pos (calls : List (CompiledProgram × LuaValue)) (s : System H)
    (h : 0 < s.machine.core.mem.allocated ∨ ∃ call ∈ calls, call.1.prototypes ≠ []) :
    0 < (executeAll calls s).machine.core.mem.allocated := by
  induction calls generalizing s with
  | nil => exact h.resolve_right (by simp)
  | cons call calls ih =>
    refine ih _ ?_
    rcases h with hpos | ⟨call', hmem, hne⟩
    · exact .inl (execute_mem_pos call.1 call.2 s (.inr hpos))
    rcases List.mem_cons.mp hmem with rfl | hmem
    · exact .inl (execute_mem_pos call'.1 call'.2 s (.inl hne))
    · exact .inr ⟨call', hmem, hne⟩

theorem executeAll_of_empty (calls : List (CompiledProgram × LuaValue)) (s : System H)
    (hs : cleared s = s) (h : ∀ call ∈ calls, call.1.prototypes = []) :
    executeAll calls s = s := by
  induction calls with
  | nil => rfl
  | cons call calls ih =>
    have hcall := execute_of_empty call.1 call.2 s (h call (.head _))
    rw [executeAll, List.foldl_cons, hcall, hs]
    exact ih fun call' hmem => h call' (.tail _ hmem)

/-- Whatever is run next, a machine that has been used gives what a new one gives with the
same host exactly when no earlier program had a function to run. -/
theorem executeAll_sameRun_iff (config : VmConfig) (target : Target) (heap : Heap) (host : H)
    (declares : Nat → Nat → Bool) (calls : List (CompiledProgram × LuaValue)) :
    let used := executeAll calls (.new config target heap host declares)
    let fresh : System H := .new config target heap used.registry.host declares
    (∀ program input, SameRun ((execute program input).run used)
      ((execute program input).run fresh)) ↔ ∀ call ∈ calls, call.1.prototypes = [] := by
  intro used fresh
  constructor
  · intro hsame
    by_contra hcalls
    have hpos : 0 < used.machine.core.mem.allocated :=
      executeAll_mem_pos calls _ (.inr (by simpa using hcalls))
    have hmem := (hsame emptyFunction .nil).memoryUsed
    rw [MemoryMeter.used, MemoryMeter.used, execute_emptyFunction_mem,
      execute_emptyFunction_mem] at hmem
    have hfresh : fresh.machine.core.mem.allocated = 0 := rfl
    rw [hfresh, AllocSize.stackFrame, MemoryMeter.u64Max] at hmem
    have hzero : (0 : UInt8).toNat = 0 := rfl
    omega
  · intro hempty program input
    have hused : used = .new config target heap host declares :=
      executeAll_of_empty calls _ (cleared_new ..) hempty
    have hfresh : fresh = used := by
      rw [show fresh = .new config target heap used.registry.host declares from rfl, hused]
      rfl
    rw [hfresh]
    exact ⟨rfl, rfl, rfl, rfl, rfl⟩

/-- The same function run twice uses 64 bytes, and then 128. -/
theorem rerun_differs :
    ¬∀ (calls : List (CompiledProgram × LuaValue)) (program : CompiledProgram) (input : LuaValue),
      SameRun ((execute program input).run (executeAll calls (System.plain .default)))
        ((execute program input).run (System.plain .default)) :=
  fun h => absurd (h [(emptyFunction, .nil)] emptyFunction .nil).memoryUsed (by decide)

end Run

end Proveno
