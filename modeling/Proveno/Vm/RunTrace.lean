import Proveno.Vm.RunBounds

/-! The trace of a run against its history. The loop of `execute` traces what it
dispatches, and the loop within it, for protected calls and comparators, traces nothing. -/

namespace Proveno

/-- What a trace tells of: an instruction that the innermost of the frames has carried
out, or a return that no instruction makes. -/
inductive Mark
  | step (frames : List CallFrame)
  | fallOff

def Mark.isStep : Mark → Bool
  | step _ => true
  | fallOff => false

namespace Event

def completes (turn : Nat) : Event → Bool
  | completed turn' _ _ => turn' == turn
  | _ => false

/-- The mark of an event, of a dispatch only when it has been carried out. -/
def mark (done : Bool) : Event → Option Mark
  | dispatch _ frames _ => if done then some (.step frames) else none
  | fallOff _ => some .fallOff
  | _ => none

theorem Admitted.mark_step {e : Event} (h : e.Admitted false) {m : Mark}
    (hm : e.mark e.isMain = some m) : m = .fallOff := by
  have hmain : e.isMain = false := by simpa using h.inside
  rw [hmain] at hm
  cases e with
  | dispatch => cases hm
  | fallOff => exact (Option.some.inj hm).symm
  | _ => cases hm

end Event

/-- What a history tells of, in order of dispatch. -/
def marks (history : List Event) : List Mark :=
  history.reverse.zipIdx.filterMap fun (e, turn) => e.mark (history.any (·.completes turn))

/-- The step of an instruction that the innermost of the frames is at. -/
structure TraceStep.Of (program : CompiledProgram) (frames : List CallFrame) (step : TraceStep) :
    Prop where
  instr : ∃ frame rest proto instr, frames = frame :: rest ∧
    program.prototypes[frame.protoIdx]? = some proto ∧ proto.code[frame.pc]? = some instr ∧
    step.pc = Trace.globalPc program frame ∧ step.opcode = instr.opcodeId ∧
    step.operand = instr.operand

/-- One step for each instruction, and each step leads to the next one unless there is a
return between them that no instruction makes. -/
def Linked (program : CompiledProgram) : Option Nat → List Mark → List TraceStep → Prop
  | next, [], steps => steps = [] ∧ ∀ pc ∈ next, pc = 0
  | _, .fallOff :: marks, steps => Linked program none marks steps
  | next, .step frames :: marks, steps => ∃ step rest, steps = step :: rest ∧
      step.Of program frames ∧ (∀ pc ∈ next, pc = step.pc) ∧
      Linked program (some step.nextPc) marks rest

/-- The trace tells of every instruction that was carried out, in order of dispatch. -/
def CompleteTrace (program : CompiledProgram) (history : List Event) (trace : List TraceStep) :
    Prop :=
  Linked program none (marks history) trace

/-- The instruction of a turn has been carried out. -/
def Completes (history : List Event) (turn : Nat) : Prop :=
  ∃ before after, .completed turn before after ∈ history

/-- Some instruction of a protected call or of a comparator has been carried out. -/
def CarriedOutWithin (history : List Event) : Prop :=
  ∃ turn frames stack, history.reverse[turn]? = some (.dispatch true frames stack) ∧
    Completes history turn

namespace Linked

variable {program : CompiledProgram} {next : Option Nat} {ms : List Mark} {steps : List TraceStep}

theorem forget (h : Linked program next ms steps) : Linked program none ms steps := by
  cases ms with
  | nil => exact ⟨h.1, nofun⟩
  | cons m ms =>
    cases m with
    | step frames =>
      obtain ⟨step, rest, hsteps, hof, -, hrest⟩ := h
      exact ⟨step, rest, hsteps, hof, nofun, hrest⟩
    | fallOff => exact h

theorem skip {before : List Mark} (hbefore : ∀ m ∈ before, m = .fallOff)
    (h : Linked program next ms steps) : Linked program next (before ++ ms) steps := by
  cases before with
  | nil => exact h
  | cons m before =>
    obtain rfl := hbefore m (.head _)
    refine (?_ : Linked program none (before ++ ms) steps)
    induction before with
    | nil => exact h.forget
    | cons m before ih =>
      obtain rfl := hbefore m (.tail _ (.head _))
      exact ih fun m' hmem => (List.mem_cons.mp hmem).elim id
        fun hmem => hbefore m' (.tail _ (.tail _ hmem))

theorem length (h : Linked program next ms steps) : steps.length = ms.countP Mark.isStep := by
  induction ms generalizing next steps with
  | nil => rw [h.1]; rfl
  | cons m ms ih =>
    cases m with
    | step frames =>
      obtain ⟨step, rest, rfl, -, -, hrest⟩ := h
      rw [List.length_cons, ih hrest, List.countP_cons_of_pos rfl]
    | fallOff =>
      rw [List.countP_cons_of_neg Bool.false_ne_true]
      exact ih h

end Linked

/-- What the loop of `execute` tells of, were nothing carried out within it. -/
def mainMarks (events : List Event) : List Mark := events.filterMap fun e => e.mark e.isMain

theorem mainMarks_append (events events' : List Event) :
    mainMarks (events ++ events') = mainMarks events ++ mainMarks events' :=
  List.filterMap_append

theorem mainMarks_of_admitted {events : List Event} (h : ∀ e ∈ events, e.Admitted false) :
    ∀ m ∈ mainMarks events.reverse, m = .fallOff := by
  intro m hm
  obtain ⟨e, he, hmark⟩ := List.mem_filterMap.mp hm
  exact (h e (List.mem_reverse.mp he)).mark_step hmark

theorem any_completes_iff {history : List Event} {turn : Nat} :
    history.any (·.completes turn) = true ↔ Completes history turn := by
  rw [List.any_eq_true]
  constructor
  · rintro ⟨e, he, hcompletes⟩
    cases e with
    | completed turn' before after => exact ⟨before, after, beq_iff_eq.mp hcompletes ▸ he⟩
    | _ => cases hcompletes
  · exact fun ⟨_, _, h⟩ => ⟨_, h, beq_self_eq_true turn⟩

theorem dispatch_notMem_of_admitted {events : List Event} (h : ∀ e ∈ events, e.Admitted false)
    (frames : List CallFrame) (stack : List OwnedSlot) : .dispatch false frames stack ∉ events :=
  fun hmem => Bool.false_ne_true ((h _ hmem).inside rfl)

/-- Every instruction that the loop of `execute` has dispatched in a history has been
carried out in the whole of it. -/
def MainCompleted (history whole : List Event) : Prop :=
  ∀ turn frames stack, history.reverse[turn]? = some (.dispatch false frames stack) →
    Completes whole turn

theorem Completes.mono {history history' : List Event} {turn : Nat} (h : Completes history turn)
    (hsub : history ⊆ history') : Completes history' turn :=
  h.imp fun _ h => h.imp fun _ hmem => hsub hmem

namespace MainCompleted

variable {history whole whole' : List Event}

theorem nil : MainCompleted [] whole := by
  intro turn frames stack hturn
  cases hturn

theorem mono (h : MainCompleted history whole) (hsub : whole ⊆ whole') :
    MainCompleted history whole' :=
  fun turn frames stack hturn => (h turn frames stack hturn).mono hsub

theorem append {events : List Event} (h : MainCompleted history whole)
    (hevents : ∀ frames stack, .dispatch false frames stack ∉ events) :
    MainCompleted (events ++ history) whole := by
  intro turn frames stack hturn
  rw [List.reverse_append, List.getElem?_append] at hturn
  split_ifs at hturn
  · exact h turn frames stack hturn
  · exact absurd (List.mem_reverse.mp (List.mem_of_getElem? hturn)) (hevents frames stack)

theorem cons_dispatch {frames : List CallFrame} {stack : List OwnedSlot}
    (h : MainCompleted history whole) (hdone : Completes whole history.length) :
    MainCompleted (.dispatch false frames stack :: history) whole := by
  intro turn frames' stack' hturn
  rw [List.reverse_cons, List.getElem?_append] at hturn
  split_ifs at hturn with hlt
  · exact h turn frames' stack' hturn
  · have hlast : turn = history.length := by
      have hbound := (List.getElem?_eq_some_iff.mp hturn).1
      rw [List.length_reverse] at hlt hbound
      rw [List.length_singleton] at hbound
      omega
    exact hlast ▸ hdone

end MainCompleted

theorem mainMarks_eq (history : List Event) :
    mainMarks history.reverse =
      history.reverse.zipIdx.filterMap fun (e, _) => e.mark e.isMain := by
  rw [mainMarks]
  conv_lhs => rw [← List.zipIdx_map_fst 0 history.reverse, List.filterMap_map]
  rfl

theorem marks_of_completed {history : List Event} (h : MainCompleted history history)
    (hwithin : ¬CarriedOutWithin history) : marks history = mainMarks history.reverse := by
  rw [mainMarks_eq, marks]
  refine List.filterMap_congr ?_
  rintro ⟨e, turn⟩ hentry
  have hturn := List.mem_zipIdx_iff_getElem?.mp hentry
  cases e with
  | dispatch nested frames stack =>
    refine congrArg (Event.mark · _) (Bool.eq_iff_iff.mpr ?_)
    rw [any_completes_iff]
    cases nested with
    | false => exact iff_of_true (h turn frames stack hturn) rfl
    | true => exact iff_of_false (fun hdone => hwithin ⟨turn, frames, stack, hturn, hdone⟩) nofun
  | _ => rfl

theorem countP_lt_countP {α : Type} {p q : α → Bool} {l : List α} {a : α}
    (himp : ∀ b ∈ l, p b → q b) (ha : a ∈ l) (hp : p a = false) (hq : q a = true) :
    l.countP p < l.countP q := by
  obtain ⟨front, back, rfl⟩ := List.append_of_mem ha
  have hfront := List.countP_mono_left fun b hb => himp b (List.mem_append_left _ hb)
  have hback := List.countP_mono_left fun b hb =>
    himp b (List.mem_append_right _ (List.mem_cons_of_mem _ hb))
  rw [List.countP_append, List.countP_append, List.countP_cons_of_neg (by simp [hp]),
    List.countP_cons_of_pos hq]
  omega

theorem mainMarks_length_lt {history : List Event} (h : MainCompleted history history)
    (hwithin : CarriedOutWithin history) :
    (mainMarks history.reverse).countP Mark.isStep < (marks history).countP Mark.isStep := by
  obtain ⟨turn, frames, stack, hturn, hdone⟩ := hwithin
  rw [mainMarks_eq, marks, List.countP_filterMap, List.countP_filterMap]
  have hentry : (.dispatch true frames stack, turn) ∈ history.reverse.zipIdx :=
    List.mem_zipIdx_iff_getElem?.mpr hturn
  refine countP_lt_countP ?_ hentry rfl ?_
  · rintro ⟨e, turn⟩ hentry hmain
    have hturn := List.mem_zipIdx_iff_getElem?.mp hentry
    cases e with
    | dispatch nested frames stack =>
      cases nested with
      | false => simp [Event.mark, any_completes_iff.mpr (h turn frames stack hturn), Mark.isStep]
      | true => cases hmain
    | _ => exact hmain
  · simp [Event.mark, any_completes_iff.mpr hdone, Mark.isStep]

theorem Moves.of_ok {H α : Type} {main : Bool} {m : Run H α} {post : α → System H → Prop} {a : α}
    {s s' : System H} (h : Moves main s m post) (hrun : m.run s = (.ok a, s')) :
    Advances main s (.ok a : Except Stop α) s' ∧ post a s' := by
  have hadv := h.advances
  have hpost := h.post a (by rw [hrun])
  rw [hrun] at hadv hpost
  exact ⟨hadv, hpost⟩

namespace Run

variable {H : Type} [HostInterface H] {program : CompiledProgram}

omit [HostInterface H] in
theorem run_advance {nested : Bool} {frame : CallFrame} {s s' : System H} {turn : Nat × Usage}
    (hrun : (embed (Engine.advance nested frame)).run s = (.ok turn, s')) :
    turn.1 = s.history.length ∧
      s'.history = .dispatch nested s.machine.frames s.machine.stack :: s.history ∧
      s'.machine.config = s.machine.config := by
  rw [embed, Exec.run_zoom, Engine.advance] at hrun
  simp only [Exec.run_bind, Exec.run_get, Engine.run_record, Engine.run_setPc] at hrun
  rcases hframes : s.machine.frames with - | ⟨top, rest⟩
  · rw [hframes] at hrun
    cases hrun
  · rw [hframes] at hrun
    cases hrun
    exact ⟨rfl, rfl, rfl⟩

omit [HostInterface H] in
theorem run_fetch {frame : CallFrame} {instr : Option Instruction} {s s' : System H}
    (hrun : (embed (Engine.fetch program)).run s = (.ok (frame, instr), s')) :
    s' = s ∧ ∃ rest proto, s.machine.frames = frame :: rest ∧
      program.prototypes[frame.protoIdx]? = some proto ∧ instr = proto.code[frame.pc]? := by
  rw [embed, Exec.run_zoom, Engine.fetch] at hrun
  simp only [Exec.run_bind, Engine.run_topFrame] at hrun
  rcases hframes : s.machine.frames with - | ⟨top, rest⟩
  · rw [hframes] at hrun
    cases hrun
  rw [hframes] at hrun
  simp only [List.head?_cons, Engine.run_orPanic] at hrun
  cases hproto : program.prototypes[top.protoIdx]? with
  | none =>
    rw [hproto] at hrun
    cases hrun
  | some proto =>
    rw [hproto] at hrun
    cases hrun
    exact ⟨rfl, rest, proto, rfl, hproto, rfl⟩

omit [HostInterface H] in
theorem events_of_ok {α : Type} {main : Bool} {a : α} {s s' : System H}
    (h : Advances main s (.ok a : Except Stop α) s') :
    ∃ es, s'.history = es ++ s.history ∧ ∀ e ∈ es, e.Admitted main := by
  obtain ⟨mark, es, hes, hmark, hadmitted, -⟩ := h.history
  exact ⟨es, by rw [hes, hmark.eq_nil, List.nil_append], hadmitted⟩

omit [HostInterface H] in
theorem run_withLine_ok {α : Type} {proto : FunctionProto} {pc : Nat} {m : Run H α}
    {s s' : System H} {a : α} (h : (withLine proto pc m).run s = (.ok a, s')) :
    m.run s = (.ok a, s') := by
  rw [run_withLine] at h
  rcases hm : m.run s with ⟨(_ | _ | _) | _, _⟩
  all_goals
    rw [hm] at h
    cases h
  rfl

theorem run_tracedDispatch {inner : Run H LuaValue} {fuel : Nat}
    (hinner : EndsFrame false fuel inner) {frame : CallFrame} {instr : Instruction}
    {trace trace' : List TraceStep} {s s' : System H} {done : Option LuaValue}
    (hfuel : 2 * s.gas + s.depth ≤ fuel) (hrecord : s.machine.config.recordTrace = true)
    (hrun : (tracedDispatch program inner frame instr trace).run s = (.ok (done, trace'), s')) :
    trace' = trace ++ [Trace.step program frame instr s.machine s'.machine] ∧
      ∃ es, s'.history = es ++ .dispatch false s.machine.frames s.machine.stack :: s.history ∧
        (∀ e ∈ es, e.Admitted false) ∧ Completes es s.history.length := by
  obtain ⟨before, s₀, hget, hrun⟩ := Exec.run_bind_eq_ok.mp hrun
  cases hget
  obtain ⟨proto, s₁, hproto, hrun⟩ := Exec.run_bind_eq_ok.mp hrun
  obtain rfl : s₁ = s := by
    rw [embed, Exec.run_zoom, Engine.run_orPanic] at hproto
    exact (Prod.ext_iff.mp hproto).2.symm
  obtain ⟨turn, s₂, hadvance, hrun⟩ := Exec.run_bind_eq_ok.mp hrun
  obtain ⟨hturn, hhist₂, -⟩ := run_advance hadvance
  obtain ⟨hadv₂, hdepth₂, -⟩ := (Moves.advance false (fun _ => rfl) frame).of_ok hadvance
  have hgas₂ := hadv₂.gas
  obtain ⟨done', s₃, hdispatch, hrun⟩ := Exec.run_bind_eq_ok.mp hrun
  obtain ⟨hadv₃, -⟩ := (Moves.dispatch hinner instr (by omega)).of_ok (run_withLine_ok hdispatch)
  obtain ⟨es, hes, hadmitted⟩ := events_of_ok hadv₃
  obtain ⟨⟨⟩, s₄, hrecorded, hrun⟩ := Exec.run_bind_eq_ok.mp hrun
  cases hrecorded
  obtain ⟨after, s₅, hget, hrun⟩ := Exec.run_bind_eq_ok.mp hrun
  cases hget
  rw [if_pos hrecord] at hrun
  cases hrun
  have hdone : Completes (.completed turn.1 turn.2 s₃.machine.core.usage :: es)
      s₁.history.length := ⟨turn.2, s₃.machine.core.usage, by rw [hturn]; exact .head _⟩
  refine ⟨rfl, .completed turn.1 turn.2 s₃.machine.core.usage :: es, ?_, ?_, hdone⟩
  · rw [hhist₂] at hes
    exact congrArg (.completed turn.1 turn.2 s₃.machine.core.usage :: ·) hes
  · exact fun e he => (List.mem_cons.mp he).elim (fun heq => heq ▸ .of_inner rfl rfl) (hadmitted e)

/-- The position that the innermost frame is at, 0 when there is none. -/
def position (program : CompiledProgram) (s : System H) : Nat :=
  (s.machine.frames.head?.map (Trace.globalPc program)).getD 0

/-- What a part of the loop of `execute` adds to the trace and to the history: steps that
go before any trace that is linked from where it ends. -/
structure Traces (program : CompiledProgram) (s : System H) (steps : List TraceStep)
    (s' : System H) : Prop where
  linked : ∃ es, s'.history = es ++ s.history ∧ ∀ next ms rest,
    (∀ pc ∈ next, pc = position program s) →
    (∀ next', (∀ pc ∈ next', pc = position program s') → Linked program next' ms rest) →
    Linked program next (mainMarks es.reverse ++ ms) (steps ++ rest)
  completed : MainCompleted s.history s.history → MainCompleted s'.history s'.history

namespace Traces

variable {s s' s'' : System H} {steps steps' : List TraceStep}

omit [HostInterface H] in
theorem refl (s : System H) : Traces program s [] s where
  linked := ⟨[], rfl, fun next _ _ hnext hrest => hrest next hnext⟩
  completed := id

omit [HostInterface H] in
theorem trans (h : Traces program s steps s') (h' : Traces program s' steps' s'') :
    Traces program s (steps ++ steps') s'' where
  linked := by
    obtain ⟨es, hes, hlinked⟩ := h.linked
    obtain ⟨es', hes', hlinked'⟩ := h'.linked
    refine ⟨es' ++ es, by rw [hes', hes, List.append_assoc], fun next ms rest hnext hrest => ?_⟩
    rw [List.reverse_append, mainMarks_append, List.append_assoc, List.append_assoc]
    exact hlinked next _ _ hnext fun next' hnext' => hlinked' next' ms rest hnext' hrest
  completed := h'.completed ∘ h.completed

omit [HostInterface H] in
theorem of_admitted {α : Type} {a : α} (h : Advances false s (.ok a : Except Stop α) s')
    (hposition : position program s' = position program s) : Traces program s [] s' := by
  obtain ⟨es, hes, hadmitted⟩ := events_of_ok h
  have hmarks := mainMarks_of_admitted hadmitted
  refine ⟨⟨es, hes, fun next ms rest hnext hrest => ?_⟩, fun hmain => ?_⟩
  · exact .skip hmarks (hrest next (hposition ▸ hnext))
  · rw [hes]
    exact (hmain.mono (List.subset_append_right ..)).append (dispatch_notMem_of_admitted hadmitted)

omit [HostInterface H] in
theorem implicitReturn {done : Option LuaValue}
    (hrun : (embed (Engine.implicitReturn false)).run s = (.ok done, s')) :
    Traces program s [] s' := by
  rw [Engine.implicitReturn, embed_bind] at hrun
  obtain ⟨⟨⟩, s₁, hrecord, hrun⟩ := Exec.run_bind_eq_ok.mp hrun
  cases hrecord
  have hadv : Advances false _ (.ok done : Except Stop _) s' := ((Moves.doReturn 0).of_ok hrun).1
  obtain ⟨es, hes, hadmitted⟩ := events_of_ok hadv
  have hmarks := mainMarks_of_admitted hadmitted
  refine ⟨⟨es ++ [Event.fallOff false], ?_, fun next ms rest _ hrest => ?_⟩, fun hmain => ?_⟩
  · rw [hes, List.append_assoc]
    rfl
  · rw [List.reverse_append, mainMarks_append, List.append_assoc]
    have hlinked : Linked program none (mainMarks es.reverse ++ ms) rest :=
      .skip hmarks (hrest none fun pc hpc => by cases hpc)
    exact hlinked
  · rw [hes]
    refine MainCompleted.append ?_ (dispatch_notMem_of_admitted hadmitted)
    have hfallOff : ∀ frames stack, .dispatch false frames stack ∉ [Event.fallOff false] := by
      simp
    exact (hmain.mono fun e he => List.mem_append_right _ (.tail _ he)).append hfallOff

theorem tracedDispatch {inner : Run H LuaValue} {fuel : Nat} (hinner : EndsFrame false fuel inner)
    {frame : CallFrame} {rest : List CallFrame} {proto : FunctionProto} {instr : Instruction}
    {trace trace' : List TraceStep} {done : Option LuaValue}
    (hfuel : 2 * s.gas + s.depth ≤ fuel) (hrecord : s.machine.config.recordTrace = true)
    (hframes : s.machine.frames = frame :: rest)
    (hproto : program.prototypes[frame.protoIdx]? = some proto)
    (hinstr : proto.code[frame.pc]? = some instr)
    (hrun : (Run.tracedDispatch program inner frame instr trace).run s = (.ok (done, trace'), s')) :
    trace' = trace ++ [Trace.step program frame instr s.machine s'.machine] ∧
      Traces program s [Trace.step program frame instr s.machine s'.machine] s' := by
  obtain ⟨htrace, es, hes, hadmitted, hdone⟩ := run_tracedDispatch hinner hfuel hrecord hrun
  have hmarks := mainMarks_of_admitted hadmitted
  refine ⟨htrace, ⟨es ++ [Event.dispatch false s.machine.frames s.machine.stack], ?_,
    fun next ms steps hnext hrest => ?_⟩, fun hmain => ?_⟩
  · rw [hes, List.append_assoc]
    rfl
  · rw [List.reverse_append, mainMarks_append, List.append_assoc]
    have hposition : position program s = Trace.globalPc program frame := by
      rw [position, hframes]
      rfl
    have hlinked : Linked program (some (position program s')) (mainMarks es.reverse ++ ms) steps :=
      .skip hmarks (hrest _ fun pc hpc => (Option.mem_some.mp hpc).symm)
    exact ⟨_, steps, rfl, ⟨frame, rest, proto, instr, hframes, hproto, hinstr, rfl, rfl, rfl⟩,
      fun pc hpc => (hnext pc hpc).trans hposition, hlinked⟩
  · rw [hes]
    refine MainCompleted.append ?_ (dispatch_notMem_of_admitted hadmitted)
    refine MainCompleted.cons_dispatch ?_ (hdone.mono (List.subset_append_left ..))
    exact hmain.mono fun e he => List.mem_append_right _ (.tail _ he)

omit [HostInterface H] in
theorem run_afterTurn {α : Type} {m : Run H α} {f : LuaValue → α} {done : Option LuaValue} {out : α}
    (hrun : (match done with
      | some v => Pure.pure (f v)
      | none => m : Run H α).run s = (.ok out, s')) :
    (∃ v, done = some v ∧ out = f v ∧ s' = s) ∨ done = none ∧ m.run s = (.ok out, s') := by
  cases done with
  | some v =>
    cases hrun
    exact .inl ⟨v, rfl, rfl, rfl⟩
  | none => exact .inr ⟨rfl, hrun⟩

theorem mainLoop {fuel : Nat} {trace trace' : List TraceStep} {v : LuaValue}
    (hfuel : 2 * s.gas + s.depth < fuel) (hrecord : s.machine.config.recordTrace = true)
    (hrun : (Run.mainLoop program fuel trace).run s = (.ok (v, trace'), s')) :
    ∃ steps, trace' = trace ++ steps ∧ Traces program s steps s' ∧ position program s' = 0 := by
  induction fuel generalizing trace s with
  | zero => omega
  | succ fuel ih =>
    rw [Run.mainLoop] at hrun
    obtain ⟨⟨frame, instr⟩, s₁, hfetch, hrun⟩ := Exec.run_bind_eq_ok.mp hrun
    obtain ⟨rfl, rest, proto, hframes, hproto, rfl⟩ := run_fetch hfetch
    have hnext (done : Option LuaValue) (trace : List TraceStep) (s₂ : System H)
        (hless : 2 * s₂.gas + s₂.depth < 2 * s₁.gas + s₁.depth)
        (hdone : done.isSome → s₂.depth = 0)
        (hrecord : s₂.machine.config.recordTrace = true)
        (hrun : (∃ v', done = some v' ∧ (v, trace') = (v', trace) ∧ s' = s₂) ∨ done = none ∧
          (do
            if (← Exec.get).machine.frames = [] then Pure.pure (.nil, trace)
            else Run.mainLoop program fuel trace : Run H _).run s₂ = (.ok (v, trace'), s')) :
        ∃ steps, trace' = trace ++ steps ∧ Traces program s₂ steps s' ∧ position program s' = 0 := by
      have hstop (hdepth : s₂.machine.frames = []) :
          ∃ steps, trace = trace ++ steps ∧ Traces program s₂ steps s₂ ∧ position program s₂ = 0 :=
        ⟨[], (List.append_nil _).symm, .refl s₂, by rw [position, hdepth]; rfl⟩
      rcases hrun with ⟨_, rfl, hout, rfl⟩ | ⟨rfl, hrun⟩
      · cases hout
        exact hstop (List.eq_nil_of_length_eq_zero (hdone rfl))
      · obtain ⟨_, s₃, hget, hrun⟩ := Exec.run_bind_eq_ok.mp hrun
        cases hget
        split_ifs at hrun with hempty
        · cases hrun
          exact hstop hempty
        · exact ih (by omega) hrecord hrun
    cases hinstr : proto.code[frame.pc]? with
    | none =>
      rw [hinstr] at hrun
      obtain ⟨done, s₂, hreturn, hrun⟩ := Exec.run_bind_eq_ok.mp hrun
      have hdepth : 0 < s₁.depth := by
        rw [System.depth, hframes]
        exact Nat.zero_lt_succ _
      have hmoves : Moves true s₁ (embed (Engine.implicitReturn false)) (Moves.Turned s₁) :=
        .implicitReturn false (fun _ => rfl) hdepth
      obtain ⟨hadv, hless, hdone⟩ := hmoves.of_ok hreturn
      obtain ⟨steps, htrace, hsteps, hend⟩ :=
        hnext done trace s₂ hless hdone (hadv.config ▸ hrecord) (run_afterTurn hrun)
      exact ⟨steps, htrace, (Traces.implicitReturn hreturn).trans hsteps, hend⟩
    | some instr =>
      rw [hinstr] at hrun
      obtain ⟨⟨done, trace₂⟩, s₂, hdispatch, hrun⟩ := Exec.run_bind_eq_ok.mp hrun
      have hinner (main : Bool) : EndsFrame main fuel (runFrame (runInner program fuel) : Run H _) :=
        Moves.endsFrame_runFrame fun _ => Moves.runInner fuel
      obtain ⟨hadv, hless, hdone⟩ :=
        (Moves.tracedDispatch (hinner true) frame instr trace (by omega)).of_ok hdispatch
      obtain ⟨rfl, hstep⟩ := Traces.tracedDispatch (hinner false) (by omega) hrecord hframes hproto
        hinstr hdispatch
      obtain ⟨steps, htrace, hsteps, hend⟩ :=
        hnext done _ s₂ hless hdone (hadv.config ▸ hrecord) (run_afterTurn hrun)
      exact ⟨_ :: steps, by rw [htrace, List.append_assoc]; rfl, hstep.trans hsteps, hend⟩

end Traces

/-- A run that succeeds traces what its history tells of, were nothing carried out within
protected calls and comparators. -/
theorem execute_linked {input : LuaValue} {s s' : System H} {out : VmOutput}
    (hrecord : s.machine.config.recordTrace = true)
    (hrun : (execute program input).run s = (.ok out, s')) :
    Linked program none (mainMarks s'.history.reverse) out.trace ∧
      MainCompleted s'.history s'.history := by
  cases hproto : program.prototypes[0]? with
  | none =>
    rw [execute_of_empty program input s (by simpa using hproto)] at hrun
    cases hrun
  | some proto =>
    rw [execute_of_proto program input s hproto] at hrun
    obtain ⟨⟨⟩, s₁, halloc, hrun⟩ := Exec.run_bind_eq_ok.mp hrun
    have hmoves₁ : Moves false (cleared s)
      (embed (Engine.lift (Vm.trackAlloc (AllocSize.stackFrame proto.localCount)))) fun _ s' =>
        s'.depth ≤ (cleared s).depth := .embed (.lift (.trackAlloc _))
    obtain ⟨hadv₁, hdepth₁⟩ := hmoves₁.of_ok halloc
    rw [runMain] at hrun
    obtain ⟨⟨⟩, s₂, henter, hrun⟩ := Exec.run_bind_eq_ok.mp hrun
    have hmoves₂ : Moves false s₁ (embed (enterMain proto input)) fun _ s' =>
      s'.depth ≤ s₁.depth + 1 := .enterMain proto input (by
        rw [Nat.le_zero.mp hdepth₁]
        exact s₁.hasRoom_zero)
    obtain ⟨hadv₂, hdepth₂⟩ := hmoves₂.of_ok henter
    obtain ⟨_, s₃, hget, hrun⟩ := Exec.run_bind_eq_ok.mp hrun
    cases hget
    obtain ⟨⟨v, trace⟩, s₄, hloop, hrun⟩ := Exec.run_bind_eq_ok.mp hrun
    obtain ⟨_, s₅, hget, hrun⟩ := Exec.run_bind_eq_ok.mp hrun
    cases hget
    cases hrun
    have hrecord₂ : s₂.machine.config.recordTrace = true := by
      rw [hadv₂.config, hadv₁.config]
      exact hrecord
    have hfuel : 2 * s₂.gas + s₂.depth < fuelFor s₂.gas := by
      have hdepth : (cleared s).depth = 0 := rfl
      rw [fuelFor]
      omega
    obtain ⟨steps, rfl, hsteps, hend⟩ := Traces.mainLoop hfuel hrecord₂ hloop
    obtain ⟨es, hes, hadmitted⟩ := events_of_ok (hadv₁.trans hadv₂)
    rw [show (cleared s).history = [] from rfl, List.append_nil] at hes
    obtain ⟨es', hes', hlinked⟩ := hsteps.linked
    have hlast : Linked program none (mainMarks es'.reverse) trace := by
      have h := hlinked none [] [] (fun pc hpc => by cases hpc) fun next hnext => ⟨rfl, hend ▸ hnext⟩
      rwa [List.append_nil, List.append_nil] at h
    constructor
    · rw [hes', hes, List.reverse_append, mainMarks_append]
      exact .skip (mainMarks_of_admitted hadmitted) hlast
    · refine hsteps.completed ?_
      have hentered : MainCompleted (es ++ []) s₂.history :=
        .append .nil (dispatch_notMem_of_admitted hadmitted)
      rwa [List.append_nil, ← hes] at hentered

/-- The trace of a run that succeeds is complete exactly when no instruction has been
carried out in a protected call or in a comparator. -/
theorem execute_completeTrace_iff (input : LuaValue) (s s' : System H) (out : VmOutput)
    (hrecord : s.machine.config.recordTrace = true)
    (hrun : (execute program input).run s = (.ok out, s')) :
    CompleteTrace program s'.history out.trace ↔ ¬CarriedOutWithin s'.history := by
  obtain ⟨hlinked, hcompleted⟩ := execute_linked hrecord hrun
  constructor
  · intro hcomplete hwithin
    have hlt := mainMarks_length_lt hcompleted hwithin
    rw [← hlinked.length, ← Linked.length hcomplete] at hlt
    exact lt_irrefl _ hlt
  · intro hwithin
    rw [CompleteTrace, marks_of_completed hcompleted hwithin]
    exact hlinked

def tracing : System NoopHost := .plain { VmConfig.default with recordTrace := true }

theorem execute_completeTrace_iff_emptyFunction :
    ∃ out s', (execute ⟨[FunctionProto.new 0]⟩ .nil).run tracing = (.ok out, s') ∧
      (CompleteTrace ⟨[FunctionProto.new 0]⟩ s'.history out.trace ↔
        ¬CarriedOutWithin s'.history) :=
  ⟨_, _, rfl, execute_completeTrace_iff .nil tracing _ _ rfl rfl⟩

/-- Calls a function that returns at once, in a protected call. -/
def pcallProgram : CompiledProgram where
  prototypes := [
    { FunctionProto.new 0 with code := [.closure 1, .pcall 0, .pop, .ret 1] },
    { FunctionProto.new 0 with code := [.ret 0] }]

/-- Five instructions are carried out, of which four are traced. -/
theorem pcall_not_completeTrace :
    ¬∀ (program : CompiledProgram) (input : LuaValue) (s s' : System NoopHost) (out : VmOutput),
      s.machine.config.recordTrace = true →
      (execute program input).run s = (.ok out, s') →
      CompleteTrace program s'.history out.trace := by
  intro h
  rcases hrun : (execute pcallProgram .nil).run tracing with ⟨r, s'⟩
  have hsteps : ((execute pcallProgram .nil).run tracing).1.toOption.map (·.trace.length) =
    some 4 := by decide
  have hmarks : (marks ((execute pcallProgram .nil).run tracing).2.history).countP Mark.isStep =
    5 := by decide
  rw [hrun] at hsteps hmarks
  cases r with
  | error e => cases hsteps
  | ok out =>
    have hlength := Linked.length (h pcallProgram .nil tracing s' out rfl hrun)
    have hfour : out.trace.length = 4 := Option.some.inj hsteps
    rw [hmarks, hfour] at hlength
    cases hlength

end Run

end Proveno
