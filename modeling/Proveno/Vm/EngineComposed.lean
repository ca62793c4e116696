import Proveno.Vm.Engine
import Proveno.Vm.JsonComposed

/-! The instructions that do not involve the host are composed of primitive steps on the
stack, none of which changes how many frames there are. -/

namespace Proveno

/-- The events of steps within an instruction, made while so many frames are live. -/
def Event.Within (depth : Nat) : Event → Prop
  | .pop frames _ => frames.length = depth
  | .call d _ _ _ => d = depth
  | .capture _ _ | .assign _ _ _ | .logging _ _ | .store _ _ _ | .response _ => True
  | _ => False

theorem Event.IsStored.within {e : Event} (h : e.IsStored) (depth : Nat) : e.Within depth := by
  cases e with
  | store | response => trivial
  | _ => exact h.elim

theorem Event.IsStored.ne_logging {e : Event} (h : e.IsStored) (logs : List Bytes) (msg : Bytes) :
    e ≠ .logging logs msg := by
  rintro rfl
  exact h

def Machine.withMeters (s : Machine) (gas : GasMeter) (limit : Nat) : Machine :=
  { s with core := s.core.withMeters gas limit }

namespace Engine

/-- A computation composed of primitive steps. What it reads is not of the meters. -/
inductive Composed : {α : Type} → Engine α → Prop
  | pure {α : Type} (a : α) : Composed (Pure.pure a)
  | bind {α β : Type} {m : Engine α} {f : α → Engine β} (hm : Composed m)
      (hf : ∀ a, Composed (f a)) : Composed (m >>= f)
  | lift {α : Type} {m : Vm α} (h : Vm.Composed m) : Composed (lift m)
  | get_bind {α : Type} {f : Machine → Engine α} (hf : ∀ s, Composed (f s))
      (hblind : ∀ s gas limit, f (s.withMeters gas limit) = f s) :
      Composed (Exec.get >>= f)
  | recordCall (callee : LuaValue) (args : List LuaValue) : Composed (recordCall callee args)
  | pushSlot {slot : StackSlot} (h : ∀ c, slot ≠ .shared c) : Composed (pushSlot slot)
  | dup : Composed dup
  | popSlot : Composed popSlot
  | bindSlot (idx : Nat) (v : LuaValue) : Composed (bindSlot idx v)
  | assignSlot (idx : Nat) (declares : Bool) (v : LuaValue) : Composed (assignSlot idx declares v)
  | captureSlot (idx : Nat) : Composed (captureSlot idx)
  | logMessage (msg : Bytes) : Composed (logMessage msg)
  | setPc (pc : Nat) : Composed (setPc pc)

namespace Composed

theorem raise {α : Type} {e : VmError} (h : e.cause ≠ .gasExhausted) : Composed (raise e : Engine α) :=
  .lift (.raise h)

theorem charge (n : Nat) : Composed (charge n) := .lift (.charge n)

theorem trackAlloc (n : Nat) : Composed (Engine.lift (Vm.trackAlloc n)) :=
  .lift (.trackAlloc n)

theorem liftLua {α : Type} (r : Except LuaError α) : Composed (liftLua r) := .lift (.liftLua r)

theorem orPanic {α : Type} (o : Option α) : Composed (orPanic o) := .lift (.orPanic o)

theorem push (v : LuaValue) : Composed (push v) := .pushSlot nofun

theorem slotValue (slot : StackSlot) : Composed (slotValue slot) := by
  cases slot with
  | value v => exact .pure v
  | shared cell => exact .lift (.getCell cell)
  | iterHandle handle => exact .raise nofun

theorem popValue : Composed popValue :=
  .bind .popSlot fun slot => by
    cases slot with
    | none => exact .raise nofun
    | some slot => exact .slotValue slot

theorem popValues (n : Nat) : Composed (popValues n) := by
  induction n with
  | zero => exact .pure _
  | succ n ih => exact .bind .popValue fun _ => .bind ih fun _ => .pure _

theorem topSlot : Composed topSlot :=
  .get_bind (fun s => by
    split
    · exact .raise nofun
    · exact .pure _) fun _ _ _ => rfl

theorem topFrame : Composed topFrame := .get_bind (fun _ => .orPanic _) fun _ _ _ => rfl

end Composed

/-- What a computation composed of primitive steps leaves as it was, and the events that
it adds to the history. -/
structure Extends {α : Type} (s : Machine) (r : Except Stop α) (s' : Machine) : Prop where
  core : s.core.Grows s'.core
  settled : Settled r s'.core
  frames : s'.frames.length = s.frames.length
  config : s'.config = s.config
  globals : s'.globals = s.globals
  declares : s'.ghost.declares = s.ghost.declares
  logged : s.core.Logged → s'.core.Logged
  covered : ¬IsFatal r → s'.core.Accountable → s.core.Covers s'.core
  history : ∃ es, s'.core.history = fatalMark r s'.core ++ es ++ s.core.history ∧
    ∀ e ∈ es, Event.Within s.frames.length e

namespace Extends

variable {α β : Type} {s s' s'' : Machine}

theorem suffix {r : Except Stop α} (h : Extends s r s') : s.core.history <:+ s'.core.history := by
  obtain ⟨es, hes, -⟩ := h.history
  exact ⟨_, hes.symm⟩

theorem trans {a : α} {r : Except Stop β} (h : Extends s (.ok a) s') (h' : Extends s' r s'') :
    Extends s r s'' where
  core := h.core.trans h'.core
  settled := h'.settled
  frames := h'.frames.trans h.frames
  config := h'.config.trans h.config
  globals := h'.globals.trans h.globals
  declares := h'.declares.trans h.declares
  logged := h'.logged ∘ h.logged
  covered hfatal hacc :=
    (h.covered (IsFatal.not_ok a) (hacc.before h'.core h'.suffix)).trans (h'.covered hfatal hacc)
  history := by
    obtain ⟨es, hes, hwithin⟩ := h.history
    obtain ⟨es', hes', hwithin'⟩ := h'.history
    refine ⟨es' ++ es, by rw [hes', hes, fatalMark_ok]; simp, fun e he => ?_⟩
    rcases List.mem_append.mp he with he | he
    · exact h.frames ▸ hwithin' e he
    · exact hwithin e he

theorem of_error {e : Stop} (h : Extends s (.error e : Except Stop α) s') :
    Extends s (.error e : Except Stop β) s' :=
  ⟨h.core, h.settled.of_error, h.frames, h.config, h.globals, h.declares, h.logged,
    fun hfatal => h.covered fun hfatal' => hfatal hfatal'.of_error, fatalMark_error (α := α) (β := β) e s'.core ▸ h.history⟩

theorem refl (a : α) (s : Machine) : Extends s (.ok a) s :=
  ⟨.refl _, .of_ok a, rfl, rfl, rfl, rfl, id, fun _ _ => .refl _, [], rfl,
    List.forall_mem_nil _⟩

theorem of_panic (s : Machine) : Extends s (.error .panicked : Except Stop α) s :=
  ⟨.refl _, ⟨nofun, nofun⟩, rfl, rfl, rfl, rfl, id, fun _ _ => .refl _, [], rfl,
    List.forall_mem_nil _⟩

/-- A step that changes the stack, and records an event at most. -/
theorem of_stack (s : Machine) {a : α} (es : List Event)
    (hes : ∀ e ∈ es, Event.Within s.frames.length e) {core : Core} (hgrows : s.core.Grows core)
    (hhist : core.history = es ++ s.core.history) {stack : List OwnedSlot} {ghost : Ghost}
    (hghost : ghost.declares = s.ghost.declares)
    (hlogged : s.core.Logged → core.Logged)
    (hgrown : core.grown = s.core.grown) (hmem : core.mem = s.core.mem) :
    Extends s (.ok a) { s with stack, core, ghost } :=
  ⟨hgrows, .of_ok a, rfl, rfl, rfl, hghost, hlogged, fun _ _ => .of_eq hgrown hmem, es, hhist, hes⟩

theorem of_core {r : Except Stop α} {core : Core} (h : Vm.Extends s.core r core) :
    Extends s r { s with core } :=
  ⟨h.grows, h.settled, rfl, rfl, rfl, rfl, fun hs => by
    obtain ⟨es, hes, hstored⟩ := h.history
    refine hs.of_logs _ h.logs hes fun e he => ?_
    exact (List.mem_append.mp he).elim (fatalMark_ne e) fun he => (hstored e he).ne_logging,
    h.covered, by
      obtain ⟨es, hes, hstored⟩ := h.history
      exact ⟨es, hes, fun e he => (hstored e he).within _⟩⟩

theorem of_raise {e : VmError} (h : e.cause ≠ .gasExhausted) (s : Machine) :
    Extends s (.error (.raised e) : Except Stop α) { s with core := s.core.noteRaise e } :=
  .of_core (.of_raise h s.core)

end Extends

theorem extends_assignSlot (idx : Nat) (declares : Bool) (v : LuaValue) (s : Machine) :
    Extends s ((assignSlot idx declares v).run s).1 ((assignSlot idx declares v).run s).2 := by
  rw [run_assignSlot]
  cases s.stack[idx]? with
  | none => exact .of_panic s
  | some entry =>
    rcases entry with ⟨owner, slot⟩
    cases slot with
    | shared cell =>
      exact .of_stack s [.assign _ cell _] (by simp [Event.Within])
        ((Core.Grows.setCell s.core cell v).trans (.record _ _)) rfl rfl
        (·.of_logs [.assign _ cell _] rfl rfl (by simp)) rfl rfl
    | value w => exact .of_stack s [] (List.forall_mem_nil _) (.refl _) rfl rfl id rfl rfl
    | iterHandle h => exact .of_stack s [] (List.forall_mem_nil _) (.refl _) rfl rfl id rfl rfl

theorem extends_captureSlot (idx : Nat) (s : Machine) :
    Extends s ((captureSlot idx).run s).1 ((captureSlot idx).run s).2 := by
  rw [run_captureSlot]
  cases s.stack[idx]? with
  | none => exact .of_panic s
  | some entry =>
    rcases entry with ⟨owner, slot⟩
    cases slot with
    | shared cell =>
      exact .of_stack s [.capture owner cell] (by simp [Event.Within]) (.record _ _) rfl rfl
        (·.of_logs [.capture owner cell] rfl rfl (by simp)) rfl rfl
    | value w =>
      exact .of_stack s [.capture owner _] (by simp [Event.Within])
        ((Core.Grows.allocCell s.core w).trans (.record _ _)) rfl rfl
        (·.of_logs [.capture owner _] rfl rfl (by simp)) rfl rfl
    | iterHandle h =>
      have hne : iterHandleCapture.cause ≠ .gasExhausted := nofun
      exact .of_raise hne s

theorem Composed.extends {α : Type} {m : Engine α} (h : Composed m) (s : Machine) :
    Extends s (m.run s).1 (m.run s).2 := by
  induction h generalizing s with
  | pure a => exact .refl a s
  | @bind α β m f _ _ ihm ihf =>
    have hm := ihm s
    rw [Exec.run_bind]
    rcases hrun : m.run s with ⟨r, s'⟩
    rw [hrun] at hm
    cases r with
    | ok a => exact hm.trans (ihf a s')
    | error e => exact hm.of_error
  | lift h => exact .of_core (h.extends s.core)
  | get_bind _ _ ih => exact ih s s
  | recordCall callee args =>
    exact .of_stack s [.call s.frames.length callee args s.core.heap] (by simp [Event.Within])
      (.record _ _) rfl rfl (·.of_logs [.call _ callee args _] rfl rfl (by simp)) rfl rfl
  | pushSlot h => exact .of_stack s [] (List.forall_mem_nil _) (.refl _) rfl rfl id rfl rfl
  | dup =>
    rw [run_dup]
    cases s.stack.getLast? with
    | none =>
      have hne : stackUnderflow.cause ≠ .gasExhausted := nofun
      exact .of_raise hne s
    | some top => exact .of_stack s [] (List.forall_mem_nil _) (.refl _) rfl rfl id rfl rfl
  | popSlot =>
    rw [run_popSlot]
    cases s.stack.getLast? with
    | none => exact .refl _ s
    | some top =>
      exact .of_stack s [.pop s.frames _] (by simp [Event.Within]) (.record _ _) rfl rfl
        (·.of_logs [.pop s.frames _] rfl rfl (by simp)) rfl rfl
  | bindSlot idx v =>
    rw [run_bindSlot]
    cases s.stack[idx]? with
    | none => exact .of_panic s
    | some entry => exact .of_stack s [] (List.forall_mem_nil _) (.refl _) rfl rfl id rfl rfl
  | assignSlot idx declares v => exact extends_assignSlot idx declares v s
  | captureSlot idx => exact extends_captureSlot idx s
  | logMessage msg =>
    exact ⟨.of_heap rfl rfl rfl (.refl _), .of_ok _, rfl, rfl, rfl, rfl, (·.log msg),
      fun _ _ => .of_eq rfl rfl, [.logging s.core.logs msg], rfl, by simp [Event.Within]⟩
  | setPc pc =>
    rw [run_setPc]
    rcases hframes : s.frames with - | ⟨frame, rest⟩
    · exact .of_panic s
    · exact ⟨.refl _, .of_ok _, by simp [hframes], rfl, rfl, rfl, id, fun _ _ => .refl _, [], rfl,
        List.forall_mem_nil _⟩

end Engine

end Proveno
