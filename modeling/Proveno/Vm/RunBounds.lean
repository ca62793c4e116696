import Proveno.Vm.CallsAdvance

/-! The loops advance with the fuel they are given, and so does a whole run: gas bounds
it, an unrecoverable error ends it, and the limit on frames holds in it up to the sorts
that are called past the limit. -/

namespace Proveno

/-- A machine as its callers have it: new, or after any number of runs. -/
inductive System.Reachable {H : Type} [HostInterface H] (config : VmConfig) : System H → Prop
  | new (target : Target) (heap : Heap) (host : H) (declares : Nat → Nat → Bool) :
      Reachable config (.new config target heap host declares)
  | execute {s : System H} (h : Reachable config s) (program : CompiledProgram)
      (input : LuaValue) : Reachable config ((Run.execute program input).run s).2

theorem System.hasRoom_zero {H : Type} (s : System H) : s.HasRoom 0 :=
  (Nat.eq_zero_or_pos s.maxCallDepth).imp .inl id

theorem Advances.covers_turn {H α : Type} {main : Bool} {s s' : System H} {a : α}
    (h : Advances main s (.ok a : Except Stop α) s') {before : Usage}
    (hbefore : before = s.machine.core.usage) (hacc : s'.machine.core.Accountable) :
    s'.machine.core.grown + before.used ≤ before.grown + s'.machine.core.mem.allocated :=
  hbefore ▸ (h.covered (IsFatal.not_ok a) hacc).growth

namespace Moves

variable {H : Type} [HostInterface H] {main : Bool} {s : System H} {program : CompiledProgram}

omit [HostInterface H] in
theorem fetch :
    Moves main s (Run.embed (Engine.fetch program)) fun _ s' => s'.depth = s.depth ∧ 0 < s.depth := by
  refine .of_embed (.bind .topFrame fun _ => .bind (.orPanic _) fun _ => .pure _)
    fun out machine hrun hframes => ⟨hframes, ?_⟩
  obtain ⟨frame, mid, htop, -⟩ := Exec.run_bind_eq_ok.mp hrun
  rw [Engine.run_topFrame] at htop
  cases hhead : s.machine.frames with
  | nil => simp [hhead] at htop
  | cons frame rest => simp [System.depth, hhead]

omit [HostInterface H] in
/-- A turn of a loop that the history is told of, the main loop only where it may run. -/
theorem recordTurn {e : Event} (hadmitted : e.Admitted main) (hcharged : e.isCharged = false)
    (hlive : ∀ n ∈ e.liveFrames, n = s.depth) (hlogging : ∀ logs msg, e ≠ .logging logs msg)
    (hmetered : s.machine.core.Accountable → e.Metered) :
    Moves main s (Run.embed (Engine.record e)) fun _ s' =>
      s'.depth = s.depth ∧ s'.machine.core.usage = s.machine.core.usage := by
  have hcharges : charges [e] = 0 := by simp [charges, hcharged]
  refine .of_run rfl (.of_events [] [e] (.record ..) rfl (.of_ok _) rfl (.ok _)
    (fun e' he => List.mem_singleton.mp he ▸ hadmitted) ?_ ?_ ?_
    (·.of_logs [e] rfl rfl fun e' he => List.mem_singleton.mp he ▸ hlogging)
    (fun _ _ => .of_eq rfl rfl) fun hacc e' he => ?_) fun _ _ => ⟨rfl, rfl⟩
  · rw [hcharges, Nat.zero_add]
    exact le_rfl
  · exact fun hs => hs.imp_right fun hkept => hkept.now
  · intro hkept _ e' he n hn
    obtain rfl := List.mem_singleton.mp he
    exact (hlive n hn).trans_le hkept.now
  · obtain rfl := List.mem_singleton.mp he
    exact hmetered (hacc.before (.record ..) (List.suffix_cons ..))

omit [HostInterface H] in
theorem advance (nested : Bool) (hnested : nested = false → main = true) (frame : CallFrame) :
    Moves main s (Run.embed (Engine.advance nested frame)) fun turn s' =>
      s'.depth ≤ s.depth ∧ turn.2 = s'.machine.core.usage := by
  refine embed_get_bind ?_
  rw [Run.embed_bind]
  refine (recordTurn (e := .dispatch nested s.machine.frames s.machine.stack)
    ⟨rfl, fun h => hnested (by simpa [Event.isMain] using h)⟩ rfl
    (fun n hn => List.mem_singleton.mp hn) nofun fun _ => trivial).bind
      fun _ s₁ _ ⟨hdepth₁, husage₁⟩ => ?_
  refine .of_embed (.bind (.setPc _) fun _ => .pure _) fun turn machine hrun hframes => ?_
  obtain ⟨⟨⟩, mid, hset, hpure⟩ := Exec.run_bind_eq_ok.mp hrun
  cases hpure
  refine ⟨hframes.le.trans hdepth₁.le, husage₁.symm.trans ?_⟩
  rw [Engine.run_setPc] at hset
  rcases hframes₁ : s₁.machine.frames with - | ⟨top, rest⟩
  · rw [hframes₁] at hset
    cases hset
  · rw [hframes₁] at hset
    cases hset
    rfl

omit [HostInterface H] in
/-- The instruction of a turn is complete once the meter has counted what it stored. -/
theorem complete (turn : Nat × Usage)
    (h : s.machine.core.Accountable →
      s.machine.core.grown + turn.2.used ≤ turn.2.grown + s.machine.core.mem.allocated) :
    Moves main s (Run.embed (Engine.complete turn)) fun _ s' => s'.depth = s.depth := by
  have hrecord : Moves main s (Run.embed (Engine.record
      (.completed turn.1 turn.2 s.machine.core.usage))) fun _ s' =>
        s'.depth = s.depth ∧ s'.machine.core.usage = s.machine.core.usage :=
    recordTurn (.of_inner rfl rfl) rfl nofun nofun h
  exact embed_get_bind (hrecord.mono fun _ _ _ hpost => hpost.1)

/-- A turn of a loop brings the run closer to its end, and ends it only when no frames are
left: an instruction costs gas and pushes one frame at most, the end of a function costs a
frame. -/
def Turned (s : System H) (done : Option LuaValue) (s' : System H) : Prop :=
  2 * s'.gas + s'.depth < 2 * s.gas + s.depth ∧ (done.isSome → s'.depth = 0)

omit [HostInterface H] in
/-- After a turn a loop ends with the value of the run or goes on. -/
theorem after_turn {α : Type} {m : Run H α} {f : LuaValue → α} {done : Option LuaValue}
    {post : α → System H → Prop} (h : Turned s done s') (hend : ∀ v, s'.depth = 0 → post (f v) s')
    (hnext : 2 * s'.gas + s'.depth < 2 * s.gas + s.depth → Moves main s' m post) :
    Moves main s' (match done with
      | some v => Pure.pure (f v)
      | none => m) post := by
  cases done with
  | some v => exact .pure (hend v (h.2 rfl))
  | none => exact hnext h.1

omit [HostInterface H] in
theorem implicitReturn (nested : Bool) (hnested : nested = false → main = true)
    (h : 0 < s.depth) :
    Moves main s (Run.embed (Engine.implicitReturn nested)) (Turned s) := by
  rw [Engine.implicitReturn, Run.embed_bind]
  refine (recordTurn (e := .fallOff nested)
    ⟨rfl, fun h => hnested (by simpa [Event.isMain] using h)⟩ rfl nofun nofun
    fun _ => trivial).bind fun _ s₁ h₁ ⟨hdepth₁, _⟩ => ?_
  have hgas₁ := h₁.gas
  exact (doReturn 0).mono fun _ _ hadv ⟨hdepth, hdone⟩ =>
    ⟨by have := hadv.gas; omega, hdone⟩

omit [HostInterface H] in
theorem endsFrame_runFrame {fuel : Nat} {loop : Nat → Run H LuaValue}
    (h : ∀ (s : System H) target, 2 * s.gas + s.depth < fuel →
      Moves main s (loop target) fun _ s' => s'.depth ≤ target) :
    EndsFrame main fuel (Run.runFrame loop) :=
  fun s hs => get_bind (h s _ hs)

theorem runInner (fuel target : Nat) (h : 2 * s.gas + s.depth < fuel) :
    Moves main s (Run.runInner program fuel target) fun _ s' => s'.depth ≤ target := by
  induction fuel generalizing target s with
  | zero => omega
  | succ fuel ih =>
    have hinner := endsFrame_runFrame fun s target hs => ih (s := s) target hs
    rw [Run.runInner]
    refine get_bind ?_
    dsimp only
    split_ifs with htarget
    · exact (embed .popValue).mono fun _ _ _ hdepth => hdepth.trans htarget
    refine fetch.bind fun out s₁ h₁ hfetched => ?_
    obtain ⟨hdepth₁, hpos⟩ := hfetched
    have hgas₁ := h₁.gas
    obtain ⟨frame, instr⟩ := out
    have hnext {done : Option LuaValue} {s₂ : System H} (h₂ : Turned s₁ done s₂) :=
      after_turn h₂ (f := id) (fun _ h => h.trans_le (Nat.zero_le target)) fun hless =>
        ih (s := s₂) target (by omega)
    cases instr with
    | none => exact (implicitReturn true (fun h => by cases h) (by omega)).bind fun _ _ _ => hnext
    | some instr =>
      refine (advance true (fun h => by cases h) frame).bind fun turn s₂ h₂ hadvance => ?_
      obtain ⟨hdepth₂, husage₂⟩ := hadvance
      have hgas₂ := h₂.gas
      refine (dispatch hinner instr (by omega)).bind fun done s₃ h₃ hdispatch => ?_
      obtain ⟨hgas₃, hdepth₃, hdone⟩ := hdispatch
      refine (complete turn (h₃.covers_turn husage₂)).bind fun _ s₄ h₄ hdepth₄ => ?_
      have hgas₄ := h₄.gas
      exact hnext ⟨by omega, fun hsome => hdepth₄.trans (hdone hsome)⟩

theorem tracedDispatch {inner : Run H LuaValue} {fuel : Nat} (hinner : EndsFrame true fuel inner)
    (frame : CallFrame) (instr : Instruction) (trace : List TraceStep)
    (h : 2 * s.gas + s.depth ≤ fuel) :
    Moves true s (Run.tracedDispatch program inner frame instr trace) fun out => Turned s out.1 := by
  refine get_bind ((embed (.orPanic _)).bind fun proto s₁ h₁ hdepth₁ => ?_)
  refine (advance false (fun _ => rfl) frame).bind fun turn s₂ h₂ ⟨hdepth₂, husage₂⟩ => ?_
  have hgas₁ := h₁.gas
  have hgas₂ := h₂.gas
  refine ((dispatch hinner instr (by omega)).withLine proto frame.pc).bind
    fun done s₃ h₃ ⟨hgas₃, hdepth₃, hdone⟩ => ?_
  refine (complete turn (h₃.covers_turn husage₂)).bind fun _ s₄ h₄ hdepth₄ => get_bind ?_
  have hgas₄ := h₄.gas
  have hturned : Turned s done s₄ := ⟨by omega, fun hsome => hdepth₄.trans (hdone hsome)⟩
  dsimp only
  split_ifs
  · exact .pure hturned
  · exact .pure hturned

theorem mainLoop (fuel : Nat) (trace : List TraceStep) (h : 2 * s.gas + s.depth < fuel) :
    Moves true s (Run.mainLoop program fuel trace) fun _ _ => True := by
  induction fuel generalizing trace s with
  | zero => omega
  | succ fuel ih =>
    rw [Run.mainLoop]
    refine fetch.bind fun out s₁ h₁ hfetched => ?_
    obtain ⟨hdepth₁, hpos⟩ := hfetched
    have hgas₁ := h₁.gas
    obtain ⟨frame, instr⟩ := out
    have hnext {done : Option LuaValue} (trace : List TraceStep) {s₂ : System H}
        (h₂ : Turned s₁ done s₂) := after_turn h₂ (f := (·, trace)) (fun _ _ => trivial) fun hless => by
      have hrest : Moves true s₂ (do
          if (← Exec.get).machine.frames = [] then Pure.pure (.nil, trace)
          else Run.mainLoop program fuel trace) fun _ _ => True := by
        refine get_bind ?_
        split_ifs
        · exact .pure trivial
        · exact ih trace (by omega)
      exact hrest
    cases instr with
    | none => exact (implicitReturn false (fun _ => rfl) (by omega)).bind fun _ _ _ => hnext trace
    | some instr =>
      exact (tracedDispatch (endsFrame_runFrame fun _ => runInner fuel) frame instr trace (by omega)).bind
        fun out _ _ => hnext out.2

omit [HostInterface H] in
theorem enterMain (proto : FunctionProto) (input : LuaValue) (hroom : s.HasRoom s.depth) :
    Moves main s (Run.embed (Run.enterMain proto input)) fun _ s' => s'.depth ≤ s.depth + 1 := by
  rw [Run.enterMain, Run.embed_bind]
  refine (pushFrame _ hroom).bind fun _ s₁ _ hdepth₁ => ?_
  have hbind : Engine.Composed (if proto.paramCount ≥ 1 ∧ proto.localCount ≥ 1 then
      Engine.bindSlot 0 input else Pure.pure ()) := by
    split_ifs
    · exact .bindSlot ..
    · exact .pure _
  refine (embed (.bind (Engine.pushNils_composed _) fun _ => hbind)).mono fun _ _ _ hdepth₂ => ?_
  omega

theorem runMain (proto : FunctionProto) (input : LuaValue) (hdepth : s.depth = 0) :
    Moves true s (Run.runMain program proto input) fun out s' =>
      out.gasUsed = s'.machine.core.gas.used := by
  refine (enterMain proto input (hdepth.symm ▸ s.hasRoom_zero)).bind fun _ s₁ _ hdepth₁ => .get_bind ?_
  refine (Moves.mainLoop (Run.fuelFor s₁.gas) [] ?_).bind fun _ s₂ _ _ => .get_bind (.pure rfl)
  rw [Run.fuelFor]
  omega

end Moves

namespace Run

variable {H : Type} [HostInterface H] (program : CompiledProgram) (input : LuaValue)
  (s : System H)

/-- The state in which a run begins. -/
def cleared (s : System H) : System H := ((reset : Run H Unit).run s).2

theorem execute_of_empty (h : program.prototypes = []) :
    (execute program input).run s = (.error .panicked, cleared s) := by
  rw [execute, Exec.run_bind_ok (show reset.run s = (.ok (), cleared s) from rfl), h]
  rfl

theorem execute_of_proto {proto : FunctionProto} (h : program.prototypes[0]? = some proto) :
    (execute program input).run s =
      (do embed (Engine.lift (Vm.trackAlloc (AllocSize.stackFrame proto.localCount)))
          runMain program proto input).run (cleared s) := by
  rw [execute, Exec.run_bind_ok (show reset.run s = (.ok (), cleared s) from rfl), h]
  rfl

/-- A run advances from the state in which it begins. -/
theorem execute_moves :
    ∃ m : Run H VmOutput, (execute program input).run s = m.run (cleared s) ∧
      Moves true (cleared s) m fun out s' => out.gasUsed = s'.machine.core.gas.used := by
  cases hproto : program.prototypes[0]? with
  | none =>
    have hempty : program.prototypes = [] := by simpa using hproto
    refine ⟨embed (Engine.orPanic none), execute_of_empty program input s hempty, ?_⟩
    exact .of_embed (.orPanic none) fun _ _ h => by cases h
  | some proto =>
    refine ⟨_, execute_of_proto program input s hproto, ?_⟩
    refine (Moves.embed (.lift (.trackAlloc _))).bind fun _ s₁ h₁ hdepth₁ => ?_
    exact .runMain proto input (Nat.le_zero.mp hdepth₁)

theorem execute_advances :
    Advances true (cleared s) ((execute program input).run s).1 ((execute program input).run s).2 := by
  obtain ⟨m, hrun, hmoves⟩ := execute_moves program input s
  exact hrun ▸ hmoves.advances

end Run

section Claims

variable {H : Type} [HostInterface H] {config : VmConfig} {s : System H}

theorem System.Reachable.gas (h : s.Reachable config) :
    s.machine.core.gas.limit = config.gasLimit ∧ s.gas ≤ config.gasLimit := by
  induction h with
  | new => exact ⟨rfl, le_rfl⟩
  | @execute s h program input ih =>
    have hcore := (Run.execute_advances program input s).core
    exact ⟨hcore.gasLimit.trans ih.1, hcore.gas.trans ih.2⟩

/-- Every run ends, after no more instructions than its gas pays for. -/
theorem Run.execute_gas (program : CompiledProgram) (input : LuaValue) (h : s.Reachable config) :
    let (outcome, s') := (execute program input).run s
    outcome ≠ .error .outOfFuel ∧ charges s'.history ≤ config.gasLimit ∧
      s'.machine.core.gas.used ≤ config.gasLimit ∧
      (∀ out, outcome = .ok out → out.gasUsed = s'.machine.core.gas.used) ∧
      ∀ e, outcome = .error (.raised e) → e.cause = .gasExhausted →
        s'.machine.core.gas.used = config.gasLimit := by
  obtain ⟨m, hrun, hadv, hpost⟩ := execute_moves program input s
  obtain ⟨hlimit, hgas⟩ := h.gas
  rw [hrun]
  obtain ⟨mark, es, hhist, hmark, -, hcharges⟩ := hadv.history
  have hlimit' : ((m.run (cleared s)).2.machine.core.gas.limit) = config.gasLimit :=
    hadv.core.gasLimit.trans hlimit
  refine ⟨hadv.settled.fuel, ?_, ?_, hpost, fun e he hcause => ?_⟩
  · have hle : charges es ≤ s.gas := (Nat.le_add_right ..).trans hcharges
    have hall : charges (m.run (cleared s)).2.history = charges es := by
      rw [hhist, charges, List.countP_append, List.countP_append,
        List.countP_eq_zero.mpr fun e he => by simp [hmark.isCharged e he], Nat.zero_add]
      rfl
    exact hall.trans_le (hle.trans hgas)
  · exact (Nat.sub_le ..).trans hlimit'.le
  · rw [GasMeter.used, hadv.settled.exhausted e he hcause, hlimit', Nat.sub_zero]

omit [HostInterface H] in
theorem Advances.ends_at_fatal {α : Type} {main : Bool} {r : Except Stop α} {s' : System H}
    (h : Advances main s r s') (hs : s.history = []) {e : VmError} {heap : Heap} {logs : List Bytes}
    (hmem : .fatal e heap logs ∈ s'.history) :
    (∃ before, s'.history = .fatal e heap logs :: before ∧ ∀ e' ∈ before, e'.isFatal = false) ∧
      s'.machine.core.heap = heap ∧ s'.machine.core.logs = logs ∧
      ∃ e', r = .error (.raised e') ∧ e'.cause = e.cause := by
  obtain ⟨mark, es, hhist, hmark, hadmitted, -⟩ := h.history
  rw [hs, List.append_nil] at hhist
  rw [hhist, List.mem_append] at hmem
  rcases hmem with hmem | hmem
  · cases hmark with
    | clean h => cases hmem
    | fatal hcause he =>
      cases List.mem_singleton.mp hmem
      exact ⟨⟨es, hhist, fun e' he' => (hadmitted e' he').mild⟩, rfl, rfl, _, rfl, hcause.symm⟩
  · simpa [Event.isFatal] using (hadmitted _ hmem).mild

/-- A machine of 64 bits with a host that knows no tools, as a build with overflow checks
makes it. -/
def System.plain (config : VmConfig) : System NoopHost :=
  .new config ⟨64, true, 2 ^ 32⟩ Heap.empty ⟨⟩ fun _ _ => false

theorem Run.execute_gas_empty :
    let (outcome, s') := (execute ⟨[]⟩ .nil).run (.plain .default)
    outcome ≠ .error .outOfFuel ∧ charges s'.history ≤ VmConfig.default.gasLimit ∧
      s'.machine.core.gas.used ≤ VmConfig.default.gasLimit ∧
      (∀ out, outcome = .ok out → out.gasUsed = s'.machine.core.gas.used) ∧
      ∀ e, outcome = .error (.raised e) → e.cause = .gasExhausted →
        s'.machine.core.gas.used = VmConfig.default.gasLimit :=
  execute_gas ⟨[]⟩ .nil (.new ..)

/-- Once an unrecoverable error is raised nothing happens any more: it is the last event,
the heap and the logs stay as they are, and the run ends with that error. -/
theorem Run.execute_fatal (program : CompiledProgram) (input : LuaValue) (s : System H)
    (e : VmError) (heap : Heap) (logs : List Bytes) :
    let out := (execute program input).run s
    .fatal e heap logs ∈ out.2.history →
      (∃ before, out.2.history = .fatal e heap logs :: before ∧
        ∀ e' ∈ before, e'.isFatal = false) ∧
      out.2.machine.core.heap = heap ∧ out.2.machine.core.logs = logs ∧
      ∃ e', out.1 = .error (.raised e') ∧ e'.cause = e.cause :=
  fun hmem => (execute_advances program input s).ends_at_fatal rfl hmem

theorem Run.execute_fatal_gasless :
    let s := System.plain { VmConfig.default with gasLimit := 0 }
    let out := (execute ⟨[{ FunctionProto.new 0 with code := [.ret 0] }]⟩ .nil).run s
    (∃ before, out.2.history = .fatal .gasExhausted s.machine.core.heap [] :: before ∧
        ∀ e' ∈ before, e'.isFatal = false) ∧
      out.2.machine.core.heap = s.machine.core.heap ∧ out.2.machine.core.logs = [] ∧
      ∃ e', out.1 = .error (.raised e') ∧ e'.cause = .gasExhausted :=
  execute_fatal _ _ _ .gasExhausted _ [] (.head _)

/-- Where no sort is called past the limit, there are never more frames than it says. -/
theorem Run.execute_depth (program : CompiledProgram) (input : LuaValue) (s : System H)
    (hmax : 1 ≤ s.maxCallDepth) :
    let s' := ((execute program input).run s).2
    (∀ e ∈ s'.history, ¬e.SortsPastLimit s.maxCallDepth) →
      s'.depth ≤ s.maxCallDepth ∧
        ∀ e ∈ s'.history, ∀ n ∈ e.liveFrames, n ≤ s.maxCallDepth := by
  intro s' hsorts
  have hadv := execute_advances program input s
  have hlimit := hadv.maxCallDepth
  rcases hadv.limit (.inr ⟨Nat.zero_le _, List.forall_mem_nil _⟩) with (hzero | ⟨e, he, hsorted⟩) | hkept
  · rw [hlimit] at hzero
    exact absurd hmax (by rw [show s.maxCallDepth = 0 from hzero]; decide)
  · exact absurd (hlimit ▸ hsorted) (hsorts e he)
  · exact ⟨hlimit ▸ hkept.now, fun e he n hn => hlimit ▸ hkept.before e he n hn⟩

/-- Sorts a table of two elements by a function, in a protected call. -/
def sortingProgram : CompiledProgram where
  prototypes := [
    { FunctionProto.new 0 with
      code := [.pushK 0, .getField 1, .newTable, .dup, .pushK 2, .pushK 3, .setTable, .dup,
        .pushK 3, .pushK 2, .setTable, .closure 1, .pcall 2, .pop, .ret 1]
      constants := [.string (ascii "__table"), .string (ascii "sort"), .integer 1, .integer 2] },
    { FunctionProto.new 2 with
      code := [.loadLocal 0, .loadLocal 1, .lt, .ret 1]
      localCount := 2 }]

/-- A machine that allows so many frames. -/
def System.limited (maxCallDepth : Nat) : System NoopHost :=
  .plain { VmConfig.default with maxCallDepth }

theorem Run.execute_depth_two :
    let s' := ((execute sortingProgram .nil).run (.limited 2)).2
    s'.depth ≤ 2 ∧ ∀ e ∈ s'.history, ∀ n ∈ e.liveFrames, n ≤ 2 :=
  execute_depth sortingProgram .nil (.limited 2) (by decide) (by decide)

/-- The comparator of a sort in a protected call runs above a limit of one frame. -/
theorem Run.comparator_exceeds :
    ¬∀ (program : CompiledProgram) (input : LuaValue) (s : System NoopHost),
      1 ≤ s.maxCallDepth →
      ∀ e ∈ ((execute program input).run s).2.history, ∀ n ∈ e.liveFrames, n ≤ s.maxCallDepth :=
  fun h => absurd (h sortingProgram .nil (.limited 1) (by decide)) (by decide)

end Claims

end Proveno
