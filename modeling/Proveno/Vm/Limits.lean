import Proveno.Vm.Mirrored

/-! A program cannot tell how much gas is left or how much memory it may use. A run that its
limits do not stop is the same run under higher limits. -/

namespace Proveno

/-- The stops that higher limits may do away with. -/
def IsLimit : Stop → Prop
  | .raised e => e.cause = .gasExhausted ∨ e.cause = .memoryExhausted
  | .panicked => False
  | .outOfFuel => True

/-- With so much more gas, and another limit to the memory. -/
def Core.raised (extra limit : Nat) (c : Core) : Core :=
  c.withMeters ⟨c.gas.remaining + extra, c.gas.limit + extra⟩ limit

def Machine.raised (extra limit : Nat) (s : Machine) : Machine :=
  { s with core := s.core.raised extra limit }

/-- The second state is the first with higher limits. -/
def Core.Raises (extra limit : Nat) (c c' : Core) : Prop :=
  c' = c.raised extra limit ∧ c.mem.limit ≤ limit

def Machine.Raises (extra limit : Nat) (s s' : Machine) : Prop :=
  s' = s.raised extra limit ∧ s.core.mem.limit ≤ limit

variable {extra limit : Nat} {α β : Type}

theorem Core.noteRaise_raised (c : Core) (e : VmError) :
    (c.raised extra limit).noteRaise e = (c.noteRaise e).raised extra limit := by
  unfold Core.noteRaise
  split_ifs <;> rfl

namespace Vm

/-- Higher limits make no difference. -/
abbrev Unlimited (extra limit : Nat) (m : Vm α) : Prop :=
  Exec.Mirrors (fun _ => True) IsLimit (Core.Raises extra limit) m m

namespace Unlimited

/-- A computation that leaves the meters alone. -/
theorem of_run {m : Vm α} (h : ∀ c, (m.run (c.raised extra limit)).1 = (m.run c).1 ∧
    (m.run (c.raised extra limit)).2 = (m.run c).2.raised extra limit ∧
      (m.run c).2.mem.limit = c.mem.limit) : Unlimited extra limit m :=
  .of_image (fun _ _ => .rfl) fun c => ⟨(h c).1, (h c).2.1, (h c).2.2.trans_le⟩

theorem raise (e : VmError) : Unlimited extra limit (raise e : Vm α) := by
  refine of_run fun c => ⟨rfl, c.noteRaise_raised e, ?_⟩
  change (c.noteRaise e).mem.limit = c.mem.limit
  rw [c.noteRaise_mem]

theorem liftLua (r : Except LuaError α) : Unlimited extra limit (liftLua r) := by
  cases r with
  | ok a => exact .pure a
  | error e => exact .raise _

theorem charge (n : Nat) : Unlimited extra limit (charge n) := by
  refine ⟨fun _ _ => trivial, ?_⟩
  rintro c _ ⟨rfl, hlimit⟩ - hpass
  by_cases hgas : n > c.gas.remaining
  · rw [run_charge, if_pos hgas] at hpass
    exact absurd (.inl rfl) (hpass _ rfl)
  · have hgas' : ¬n > (c.raised extra limit).gas.remaining :=
      fun h => hgas ((Nat.le_add_right ..).trans_lt h)
    have hleft : c.gas.remaining + extra - n = c.gas.remaining - n + extra := by omega
    have hrun : (Vm.charge n).run c = _ := (run_charge n).trans (if_neg hgas)
    have hrun' : (Vm.charge n).run (c.raised extra limit) = _ := (run_charge n).trans (if_neg hgas')
    rw [hrun, hrun']
    refine ⟨rfl, ?_, hlimit⟩
    simp only [Core.raised, Core.withMeters, hleft]

theorem trackAlloc (n : Nat) : Unlimited extra limit (trackAlloc n) := by
  refine ⟨fun _ _ => trivial, ?_⟩
  rintro c _ ⟨rfl, hlimit⟩ - hpass
  by_cases hmem : min (c.mem.allocated + n) MemoryMeter.u64Max > c.mem.limit
  · rw [run_trackAlloc] at hpass
    dsimp only at hpass
    rw [if_pos hmem] at hpass
    exact absurd (.inr rfl) (hpass _ rfl)
  · have hmem' : ¬min ((c.raised extra limit).mem.allocated + n) MemoryMeter.u64Max >
        (c.raised extra limit).mem.limit := fun h => hmem (hlimit.trans_lt h)
    have hrun : (Vm.trackAlloc n).run c = _ := (run_trackAlloc n).trans (if_neg hmem)
    have hrun' : (Vm.trackAlloc n).run (c.raised extra limit) = _ :=
      (run_trackAlloc n).trans (if_neg hmem')
    rw [hrun, hrun']
    exact ⟨rfl, rfl, hlimit⟩

theorem getTable (r : TableRef) : Unlimited extra limit (getTable r) :=
  of_run fun _ => ⟨rfl, rfl, rfl⟩

theorem record (e : Event) : Unlimited extra limit (record e) := of_run fun _ => ⟨rfl, rfl, rfl⟩

theorem rawsetTracked (r : TableRef) (key : LuaKey) (v : LuaValue) :
    Unlimited extra limit (rawsetTracked r key v) := by
  have hwrite : Unlimited extra limit (Exec.modify fun c => { c with
      heap := c.heap.setTable r ((c.heap.table r).rawsetTracked key v).2
      grown := c.grown + (c.heap.table r).growth key ((c.heap.table r).rawsetTracked key v).2 }) :=
    of_run fun _ => ⟨rfl, rfl, rfl⟩
  have heq : Vm.rawsetTracked r key v = (do
      let t ← Vm.getTable r
      Exec.modify fun c => { c with
        heap := c.heap.setTable r ((c.heap.table r).rawsetTracked key v).2
        grown := c.grown + (c.heap.table r).growth key ((c.heap.table r).rawsetTracked key v).2 }
      Vm.liftLua (t.rawsetTracked key v).1) := rfl
  rw [heq]
  exact (getTable r).bind fun _ => hwrite.bind fun _ => liftLua _

theorem rawset (r : TableRef) (key : LuaKey) (v : LuaValue) :
    Unlimited extra limit (rawset r key v) :=
  (getTable r).bind fun _ => (record _).bind fun _ => (rawsetTracked ..).bind fun _ => .pure _

theorem rawsetCharged (r : TableRef) (key : LuaKey) (v : LuaValue) :
    Unlimited extra limit (rawsetCharged r key v) := by
  refine (getTable r).bind fun _ => (rawsetTracked ..).bind fun result => ?_
  unfold chargeRawsetResult
  split
  · exact .pure _
  · exact .ite (fun _ => trackAlloc _) fun _ => trackAlloc _

theorem doRawset (r : TableRef) (key : LuaKey) (v : LuaValue) :
    Unlimited extra limit (doRawset r key v) := by
  refine (getTable r).bind fun _ => (rawsetTracked ..).bind fun result => ?_
  cases result with
  | updated => exact charge _
  | inserted grew capacity =>
    exact (charge _).bind fun _ => .ite (fun _ => (charge _).bind fun _ => trackAlloc _)
      fun _ => trackAlloc _

theorem get_bind {f : Core → Vm α} (hf : ∀ c, Unlimited extra limit (f c))
    (hblind : ∀ c gas limit, f (c.withMeters gas limit) = f c) :
    Unlimited extra limit (Exec.get >>= f) :=
  .get_bind_of_image (fun _ _ => .rfl) hf fun _ => hblind ..

end Unlimited

theorem Composed.unlimited {m : Vm α} (h : Composed m) : Unlimited extra limit m := by
  induction h with
  | pure a => exact .pure a
  | bind _ _ ihm ihf => exact ihm.bind_of_yields ihf
  | get_bind _ hblind ih => exact .get_bind ih hblind
  | raise _ => exact .raise _
  | panic => exact .throw _
  | charge n => exact .charge n
  | trackAlloc n => exact .trackAlloc n
  | rawset r key v => exact .rawset r key v
  | rawsetCharged r key v => exact .rawsetCharged r key v
  | doRawset r key v => exact .doRawset r key v
  | rawremove r key => exact .of_run fun _ => ⟨rfl, rfl, rfl⟩
  | newTable => exact .of_run fun _ => ⟨rfl, rfl, rfl⟩
  | allocResponse t => exact .of_run fun _ => ⟨rfl, rfl, rfl⟩
  | setCell r v => exact .of_run fun _ => ⟨rfl, rfl, rfl⟩
  | allocCell v => exact .of_run fun _ => ⟨rfl, rfl, rfl⟩

end Vm

namespace Engine

abbrev Unlimited (extra limit : Nat) (m : Engine α) : Prop :=
  Exec.Mirrors (fun _ => True) IsLimit (Machine.Raises extra limit) m m

theorem unlimited_lift {m : Vm α} (h : Vm.Unlimited extra limit m) :
    Unlimited extra limit (lift m) := by
  refine ⟨fun _ _ => trivial, ?_⟩
  rintro s _ ⟨rfl, hlimit⟩ - hpass
  obtain ⟨hvalue, hcore, hlimit'⟩ := h.alike s.core _ ⟨rfl, hlimit⟩ trivial hpass
  refine ⟨hvalue, ?_, hlimit'⟩
  change { s with core := (m.run (s.core.raised extra limit)).2 } = _
  rw [hcore]
  rfl

theorem unlimited_get_bind {f : Machine → Engine α} (hf : ∀ s, Unlimited extra limit (f s))
    (hblind : ∀ s gas limit, f (s.withMeters gas limit) = f s) :
    Unlimited extra limit (Exec.get >>= f) :=
  .get_bind_of_image (fun _ _ => .rfl) hf fun _ => hblind ..

/-- A step that leaves the meters alone. -/
theorem unlimited_of_run {m : Engine α} (h : ∀ s,
    (m.run (s.raised extra limit)).1 = (m.run s).1 ∧
      (m.run (s.raised extra limit)).2 = (m.run s).2.raised extra limit ∧
        (m.run s).2.core.mem.limit = s.core.mem.limit) : Unlimited extra limit m :=
  .of_image (fun _ _ => .rfl) fun s => ⟨(h s).1, (h s).2.1, (h s).2.2.trans_le⟩

theorem unlimited_popSlot : Unlimited extra limit popSlot := by
  refine unlimited_get_bind (fun s => ?_) fun _ _ _ => rfl
  cases s.stack.getLast? with
  | none => exact .pure _
  | some top =>
    have hdrop : Unlimited extra limit
        (Exec.modify fun s => { s with stack := s.stack.dropLast }) :=
      unlimited_of_run fun _ => ⟨rfl, rfl, rfl⟩
    exact hdrop.bind fun _ => (unlimited_lift (.record _)).bind fun _ => .pure _

theorem unlimited_stackAt (idx : Nat) : Unlimited extra limit (stackAt idx) :=
  unlimited_get_bind (fun _ => unlimited_lift (Vm.Composed.orPanic _).unlimited) fun _ _ _ => rfl

theorem unlimited_setStackAt (idx : Nat) (slot : OwnedSlot) :
    Unlimited extra limit (setStackAt idx slot) := unlimited_of_run fun _ => ⟨rfl, rfl, rfl⟩

theorem unlimited_freshOwner : Unlimited extra limit freshOwner :=
  unlimited_of_run fun _ => ⟨rfl, rfl, rfl⟩

theorem unlimited_pushSlot (slot : StackSlot) : Unlimited extra limit (pushSlot slot) :=
  unlimited_of_run fun _ => ⟨rfl, rfl, rfl⟩

theorem unlimited_record (e : Event) : Unlimited extra limit (record e) :=
  unlimited_lift (.record e)

theorem unlimited_topFrame : Unlimited extra limit topFrame :=
  unlimited_get_bind (fun _ => unlimited_lift (Vm.Composed.orPanic _).unlimited) fun _ _ _ => rfl

theorem unlimited_raise (e : VmError) : Unlimited extra limit (raise e : Engine α) :=
  unlimited_lift (.raise e)

theorem unlimited_assignSlot (idx : Nat) (declares : Bool) (v : LuaValue) :
    Unlimited extra limit (assignSlot idx declares v) := by
  refine (unlimited_stackAt idx).bind fun entry => ?_
  have hvalue (owner : Nat) : Unlimited extra limit (setStackAt idx ⟨owner, .value v⟩) :=
    unlimited_setStackAt ..
  have hshared (owner : Nat) (cell : CellRef) : Unlimited extra limit (do
      lift (Vm.setCell cell v)
      record (.assign owner cell declares)
      setStackAt idx ⟨owner, .shared cell⟩) :=
    (unlimited_lift (Vm.Composed.setCell cell v).unlimited).bind fun _ =>
      (unlimited_record _).bind fun _ => unlimited_setStackAt ..
  cases entry.slot with
  | shared cell =>
    exact .ite (fun _ => unlimited_freshOwner.bind fun owner => hshared owner cell)
      fun _ => hshared _ cell
  | _ => exact .ite (fun _ => unlimited_freshOwner.bind hvalue) fun _ => hvalue _

theorem unlimited_captureSlot (idx : Nat) : Unlimited extra limit (captureSlot idx) := by
  refine (unlimited_stackAt idx).bind fun entry => ?_
  cases entry.slot with
  | shared cell => exact (unlimited_record _).bind fun _ => .pure _
  | value v =>
    exact (unlimited_lift (Vm.Composed.allocCell v).unlimited).bind fun _ =>
      (unlimited_setStackAt ..).bind fun _ => (unlimited_record _).bind fun _ => .pure _
  | iterHandle handle => exact unlimited_raise _

theorem Composed.unlimited {m : Engine α} (h : Composed m) : Unlimited extra limit m := by
  induction h with
  | pure a => exact .pure a
  | bind _ _ ihm ihf => exact ihm.bind ihf
  | lift h => exact unlimited_lift h.unlimited
  | get_bind _ hblind ih => exact unlimited_get_bind ih hblind
  | recordCall callee args => exact unlimited_of_run fun _ => ⟨rfl, rfl, rfl⟩
  | pushSlot _ => exact unlimited_pushSlot _
  | dup =>
    have htop : Unlimited extra limit Engine.topSlot :=
      unlimited_get_bind (fun s => by
        cases s.stack.getLast? with
        | none => exact unlimited_raise _
        | some top => exact .pure _) fun _ _ _ => rfl
    exact htop.bind fun _ => unlimited_of_run fun _ => ⟨rfl, rfl, rfl⟩
  | popSlot => exact unlimited_popSlot
  | bindSlot idx v => exact (unlimited_stackAt idx).bind fun _ => unlimited_setStackAt ..
  | assignSlot idx declares v => exact unlimited_assignSlot idx declares v
  | captureSlot idx => exact unlimited_captureSlot idx
  | logMessage msg => exact unlimited_of_run fun _ => ⟨rfl, rfl, rfl⟩
  | setPc pc => exact unlimited_topFrame.bind fun _ => unlimited_of_run fun _ => ⟨rfl, rfl, rfl⟩

theorem Ordinary.unlimited {m : Engine α} (h : m.Ordinary) : Unlimited extra limit m := by
  induction h with
  | composed h => exact h.unlimited
  | bind _ _ ihm ihf => exact ihm.bind ihf
  | get_bind _ hblind ih => exact unlimited_get_bind ih hblind
  | record e => exact unlimited_record e
  | pushFrame frame => exact unlimited_of_run fun _ => ⟨rfl, rfl, rfl⟩
  | popFrame => exact unlimited_of_run fun _ => ⟨rfl, rfl, rfl⟩
  | truncateStack len => exact unlimited_of_run fun _ => ⟨rfl, rfl, rfl⟩
  | truncateFrames len => exact unlimited_of_run fun _ => ⟨rfl, rfl, rfl⟩

end Engine

namespace ToolRegistry

variable {H : Type}

def State.Raises (extra limit : Nat) (s t : State H) : Prop :=
  t = { s with core := s.core.raised extra limit } ∧ s.core.mem.limit ≤ limit

abbrev Unlimited (extra limit : Nat) (m : Call H α) : Prop :=
  Exec.Mirrors (fun _ => True) IsLimit (State.Raises extra limit) m m

theorem unlimited_lift {m : Vm α} (h : Vm.Unlimited extra limit m) :
    Unlimited extra limit (lift m : Call H α) := by
  refine ⟨fun _ _ => trivial, ?_⟩
  rintro s _ ⟨rfl, hlimit⟩ - hpass
  obtain ⟨hvalue, hcore, hlimit'⟩ := h.alike s.core _ ⟨rfl, hlimit⟩ trivial hpass
  refine ⟨hvalue, ?_, hlimit'⟩
  change State.mk _ _ (m.run (s.core.raised extra limit)).2 = _
  rw [hcore]
  rfl

theorem unlimited_of_run {m : Call H α} (h : ∀ s : State H,
    (m.run { s with core := s.core.raised extra limit }).1 = (m.run s).1 ∧
      (m.run { s with core := s.core.raised extra limit }).2 =
        { (m.run s).2 with core := (m.run s).2.core.raised extra limit } ∧
          (m.run s).2.core.mem.limit = s.core.mem.limit) : Unlimited extra limit m :=
  .of_image (fun _ _ => .rfl) fun s => ⟨(h s).1, (h s).2.1, (h s).2.2.trans_le⟩

theorem unlimited_get_bind {f : State H → Call H α} (hf : ∀ s, Unlimited extra limit (f s))
    (hblind : ∀ (s : State H) gas limit, f { s with core := s.core.withMeters gas limit } = f s) :
    Unlimited extra limit (Exec.get >>= f) :=
  .get_bind_of_image (fun _ _ => .rfl) hf fun _ => hblind ..

theorem unlimited_serialize (what : String) (t : LuaTable LuaValue) :
    Unlimited extra limit (serialize what t : Call H Bytes) := by
  refine unlimited_get_bind (fun s => ?_) fun _ _ _ => rfl
  rcases Canonicalize.canonicalSerializeTable s.core.heap t with (_ | _ | _ | _) | bytes
  · exact unlimited_lift (.raise _)
  · exact unlimited_lift (.raise _)
  · exact unlimited_lift (.raise _)
  · exact unlimited_lift (.raise _)
  · exact .pure bytes

theorem unlimited_record (f : Transcript → Transcript) :
    Unlimited extra limit (record f : Call H Unit) := unlimited_of_run fun _ => ⟨rfl, rfl, rfl⟩

variable [HostInterface H]

theorem unlimited_call (name : Bytes) (args : LuaTable LuaValue) (config : VmConfig) :
    Unlimited extra limit (call name args config : Call H _) := by
  refine (unlimited_serialize ..).bind fun argsCanonical =>
    unlimited_get_bind (fun s => ?_) fun _ _ _ => rfl
  refine .ite (fun _ => unlimited_lift (.raise _)) fun _ =>
    .ite (fun _ => unlimited_lift (.raise _)) fun _ => ?_
  have hcount : Unlimited extra limit (countCall argsCanonical.length : Call H Unit) :=
    unlimited_of_run fun _ => ⟨rfl, rfl, rfl⟩
  have hask : Unlimited extra limit (askHost name args : Call H _) :=
    unlimited_of_run fun _ => ⟨rfl, rfl, rfl⟩
  have hattest : Unlimited extra limit (takeAttestation : Call H Bytes) :=
    unlimited_of_run fun _ => ⟨rfl, rfl, rfl⟩
  refine hcount.bind fun _ => hask.bind fun reply => ?_
  cases reply with
  | error msg => exact (unlimited_record _).bind fun _ => unlimited_lift (.raise _)
  | ok response =>
    refine (unlimited_serialize ..).bind fun respCanonical => hattest.bind fun _ =>
      (unlimited_record _).bind fun _ => unlimited_get_bind (fun s => ?_) fun _ _ _ => rfl
    refine .ite (fun _ => unlimited_lift (.raise _)) fun _ => ?_
    have hcount' : Unlimited extra limit (countResponse respCanonical.length : Call H Unit) :=
      unlimited_of_run fun _ => ⟨rfl, rfl, rfl⟩
    exact hcount'.bind fun _ => (unlimited_lift (.charge _)).bind fun _ => .pure _

end ToolRegistry

namespace Run

variable {H : Type} [HostInterface H]

/-- With so much more gas, and another limit to the memory. -/
def raised (extra limit : Nat) (s : System H) : System H :=
  { s with machine := s.machine.raised extra limit }

def Raises (extra limit : Nat) (s t : System H) : Prop :=
  t = raised extra limit s ∧ s.machine.core.mem.limit ≤ limit

omit [HostInterface H] in
theorem mirrors_embed_raised {m : Engine α} (hm : m.Ordinary) :
    Exec.Mirrors (fun _ : System H => True) IsLimit (Raises extra limit) (embed m) (embed m) := by
  refine ⟨fun _ _ => trivial, ?_⟩
  rintro s _ ⟨rfl, hlimit⟩ - hpass
  obtain ⟨hvalue, hmachine, hlimit'⟩ :=
    hm.unlimited.alike s.machine _ ⟨rfl, hlimit⟩ trivial hpass
  refine ⟨hvalue, ?_, hlimit'⟩
  change System.mk (m.run (s.machine.raised extra limit)).2 _ _ = _
  rw [hmachine]
  rfl

theorem mirrors_askTool_raised (name : Bytes) (args : LuaTable LuaValue) :
    Exec.Mirrors (fun _ : System H => True) IsLimit (Raises extra limit) (askTool name args)
      (askTool name args) := by
  refine ⟨fun _ _ => trivial, ?_⟩
  rintro s _ ⟨rfl, hlimit⟩ - hpass
  have hcall : ToolRegistry.Unlimited extra limit
      (ToolRegistry.call name args s.machine.config : ToolRegistry.Call H _) :=
    ToolRegistry.unlimited_call ..
  obtain ⟨hvalue, hstate, hlimit'⟩ :=
    hcall.alike (toolState s) (toolState (raised extra limit s)) ⟨rfl, hlimit⟩ trivial hpass
  have hconfig : (raised extra limit s).machine.config = s.machine.config := rfl
  rw [run_askTool, run_askTool, hconfig]
  refine ⟨hvalue, ?_, hlimit'⟩
  dsimp only
  rw [hstate]
  rfl

theorem reflects_raised :
    Reflects (fun _ : System H => True) IsLimit (Raises (H := H) extra limit) where
  view := by
    rintro s _ ⟨rfl, -⟩
    rfl
  fuel := by
    rintro s _ ⟨rfl, -⟩
    refine ⟨?_, fun _ => trivial⟩
    change 2 * s.gas + 2 ≤ 2 * (s.gas + extra) + 2
    omega
  fatal e h := by
    rw [← e.isUnrecoverable_cause]
    rcases h with h | h <;> rw [h] <;> rfl
  line _ _ h := h
  embed := mirrors_embed_raised
  toolCall := (mirrors_embed_raised (.composed toolArgs_composed)).bind fun _ =>
    (mirrors_askTool_raised ..).bind fun _ =>
      mirrors_embed_raised (.bind (.lift (.allocResponse _)) fun _ => .push _)

/-- A run that neither limit stops goes the same way under higher limits. -/
theorem execute_alike (extra : Nat) (program : CompiledProgram) (input : LuaValue) {s : System H}
    (hmem : s.machine.core.mem.limit ≤ limit)
    (hends : ∀ e, ((execute program input).run s).1 = .error (.raised e) →
      e.cause ≠ .gasExhausted ∧ e.cause ≠ .memoryExhausted) :
    ∃ r : Except Stop (LuaValue × List TraceStep), ∃ s' : System H,
      (execute program input).run s = (r.map (output s'), s') ∧
      (execute program input).run (raised extra limit s) =
        (r.map (output (raised extra limit s')), raised extra limit s') := by
  have : Nonempty H := ⟨s.registry.host⟩
  have hpass : Exec.Passes IsLimit ((execute program input).run s).1 := by
    rintro (e | _ | _) he
    · exact not_or.mpr (hends e he)
    · exact id
    · exact absurd he (execute_advances program input s).settled.fuel
  have hcleared : Raises extra limit (cleared s) (cleared (raised extra limit s)) := ⟨rfl, hmem⟩
  obtain ⟨r, s', t', ⟨ht', -⟩, hs, ht⟩ := reflects_raised.execute input hcleared trivial hpass
  subst ht'
  exact ⟨r, s', hs, ht⟩

/-- A run that neither limit stops is the same run with more gas and memory: the same value
or error, output, trace and transcript, and as much gas and memory used. -/
theorem execute_raised (extra : Nat) (program : CompiledProgram) (input : LuaValue) {s : System H}
    (hmem : s.machine.core.mem.limit ≤ limit)
    (hends : ∀ e, ((execute program input).run s).1 = .error (.raised e) →
      e.cause ≠ .gasExhausted ∧ e.cause ≠ .memoryExhausted) :
    (execute program input).run (raised extra limit s) =
      (((execute program input).run s).1,
        raised extra limit ((execute program input).run s).2) := by
  obtain ⟨r, s', hs, ht⟩ := execute_alike extra program input hmem hends
  rw [ht, hs]
  cases r with
  | error e => rfl
  | ok out =>
    have hused : (s'.machine.core.gas.limit + extra) - (s'.machine.core.gas.remaining + extra) =
        s'.machine.core.gas.limit - s'.machine.core.gas.remaining := Nat.add_sub_add_right ..
    have hout : output (raised extra limit s') out = output s' out :=
      congrArg (fun gasUsed => { output s' out with gasUsed }) hused
    exact Prod.ext (congrArg Except.ok hout) rfl

/-- `return pcall(nil)`. -/
def failingPcall : CompiledProgram :=
  ⟨[{ FunctionProto.new 0 with code := [.pushNil, .pcall 0, .pop, .ret 1] }]⟩

theorem execute_raised_failingPcall :
    ∃ out s', out.returnValue = .boolean false ∧
      (execute failingPcall .nil).run (.plain .default) = (.ok out, s') ∧
      (execute failingPcall .nil).run (raised 1000 (2 ^ 30) (.plain .default)) =
        (.ok out, raised 1000 (2 ^ 30) s') := by
  have hmem : (System.plain .default).machine.core.mem.limit ≤ 2 ^ 30 := by decide
  obtain ⟨out, hout, hvalue⟩ : ∃ out, ((execute failingPcall .nil).run (.plain .default)).1 =
      .ok out ∧ out.returnValue = .boolean false := ⟨_, rfl, rfl⟩
  have hraised := execute_raised 1000 failingPcall .nil hmem fun e he => by
    rw [hout] at he
    cases he
  rw [hout] at hraised
  exact ⟨out, _, hvalue, Prod.ext hout rfl, hraised⟩

end Run

end Proveno
