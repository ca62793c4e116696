import Proveno.Vm.Calls

/-! What every computation on the meters, the heap and the logs has in common. It is
composed of primitive steps, so that what holds of each step holds of every builtin. -/

namespace Proveno

/-- No error of this outcome is unrecoverable. -/
structure Mild {α : Type} (r : Except VmError α) : Prop where
  recoverable : ∀ e, r = .error e → e.isUnrecoverable = false

namespace Mild

variable {α β : Type}

theorem ok (a : α) : Mild (.ok a) := ⟨fun _ h => by cases h⟩

theorem error {e : VmError} (h : e.isUnrecoverable = false) :
    Mild (.error e : Except VmError α) :=
  ⟨fun _ he => Except.error.inj he ▸ h⟩

theorem runtimeErr (msg : Bytes) : Mild (.error (runtimeErr msg) : Except VmError α) :=
  .error rfl

theorem typeError (msg : Bytes) : Mild (.error (.typeError msg) : Except VmError α) :=
  .error rfl

theorem bind {r : Except VmError α} {f : α → Except VmError β} (hr : Mild r)
    (hf : ∀ a, Mild (f a)) : Mild (r >>= f) := by
  cases r with
  | ok a => exact hf a
  | error e => exact .error (hr.recoverable e rfl)

end Mild

/-- The mark that an outcome leaves in the history, in the state it ends in. -/
def fatalMark {α : Type} (r : Except Stop α) (c : Core) : List Event :=
  match r with
  | .error (.raised e) => if e.isUnrecoverable then [.fatal e c.heap c.logs] else []
  | _ => []

@[simp] theorem fatalMark_ok {α : Type} (a : α) (c : Core) :
    fatalMark (.ok a : Except Stop α) c = [] := rfl

@[simp] theorem fatalMark_raised {α : Type} (e : VmError) (c : Core) :
    fatalMark (.error (.raised e) : Except Stop α) c =
      if e.isUnrecoverable then [.fatal e c.heap c.logs] else [] :=
  rfl

theorem fatalMark_error {α β : Type} (e : Stop) (c : Core) :
    fatalMark (.error e : Except Stop α) c = fatalMark (.error e : Except Stop β) c := by
  cases e <;> rfl

theorem fatalMark_ne {α : Type} {r : Except Stop α} {c : Core} :
    ∀ e ∈ fatalMark r c, ∀ logs msg, e ≠ .logging logs msg := by
  rcases r with (e | _ | _) | a
  · rw [fatalMark_raised]
    split_ifs <;> simp
  all_goals exact List.forall_mem_nil _

theorem Core.noteRaise_history (c : Core) (e : VmError) :
    (c.noteRaise e).history =
      fatalMark (.error (.raised e) : Except Stop Unit) (c.noteRaise e) ++ c.history := by
  rw [fatalMark_raised, Core.noteRaise]
  split_ifs <;> rfl

theorem Core.noteRaise_logs (c : Core) (e : VmError) : (c.noteRaise e).logs = c.logs := by
  rw [Core.noteRaise]
  split_ifs <;> rfl

/-- With other gas and another limit to the memory. -/
def Core.withMeters (c : Core) (gas : GasMeter) (limit : Nat) : Core :=
  { c with gas, mem := { c.mem with limit } }

/-- The last message was logged when the history says so, and each message that the
history knows is there, after those it knows to be before it. -/
structure Core.Logged (c : Core) : Prop where
  kept : ∀ logs msg, .logging logs msg ∈ c.history → logs ++ [msg] <+: c.logs
  last : c.logs ≠ [] → ∃ logs msg, c.logs = logs ++ [msg] ∧ .logging logs msg ∈ c.history

namespace Core.Logged

variable {c c' : Core}

/-- Nothing is logged, whatever else there is in the history. -/
theorem of_logs (h : c.Logged) (es : List Event) (hlogs : c'.logs = c.logs)
    (hhist : c'.history = es ++ c.history) (hes : ∀ e ∈ es, ∀ logs msg, e ≠ .logging logs msg) :
    c'.Logged where
  kept logs msg hmem := by
    rw [hhist, List.mem_append] at hmem
    rcases hmem with hmem | hmem
    · exact absurd rfl (hes _ hmem logs msg)
    · exact hlogs ▸ h.kept logs msg hmem
  last hne := by
    obtain ⟨logs, msg, heq, hmem⟩ := h.last (hlogs ▸ hne)
    exact ⟨logs, msg, hlogs.trans heq, hhist ▸ List.mem_append_right _ hmem⟩

theorem log (h : c.Logged) (msg : Bytes) :
    { c.record (.logging c.logs msg) with logs := c.logs ++ [msg] }.Logged where
  kept logs m hmem := by
    rcases List.mem_cons.mp hmem with heq | hmem
    · cases heq
      exact List.prefix_rfl
    · exact (h.kept logs m hmem).trans (List.prefix_append ..)
  last _ := ⟨c.logs, msg, rfl, .head _⟩

end Core.Logged

namespace Vm

theorem not_yields_raise {α : Type} {e : VmError} {a : α} : ¬(raise e : Vm α).Yields a :=
  fun ⟨_, h⟩ => by cases h

theorem yields_liftError {α : Type} {r : Except VmError α} {a : α}
    (h : (liftError r).Yields a) : r = .ok a := by
  cases r with
  | ok b => rw [Exec.Yields.of_pure h]
  | error e => exact absurd h not_yields_raise

/-- A computation composed of primitive steps. What it reads is not of the meters. -/
inductive Composed : {α : Type} → Vm α → Prop
  | pure {α : Type} (a : α) : Composed (Pure.pure a)
  | bind {α β : Type} {m : Vm α} {f : α → Vm β} (hm : Composed m)
      (hf : ∀ a, m.Yields a → Composed (f a)) : Composed (m >>= f)
  | raise {α : Type} {e : VmError} (h : e.cause ≠ .gasExhausted) : Composed (raise e : Vm α)
  | panic {α : Type} : Composed (panic : Vm α)
  | get_bind {α : Type} {f : Core → Vm α} (hf : ∀ c, Composed (f c))
      (hblind : ∀ c gas limit, f (c.withMeters gas limit) = f c) :
      Composed (Exec.get >>= f)
  | charge (n : Nat) : Composed (charge n)
  | trackAlloc (n : Nat) : Composed (trackAlloc n)
  | rawset (r : TableRef) (key : LuaKey) (value : LuaValue) : Composed (rawset r key value)
  | rawsetCharged (r : TableRef) (key : LuaKey) (value : LuaValue) :
      Composed (rawsetCharged r key value)
  | doRawset (r : TableRef) (key : LuaKey) (value : LuaValue) : Composed (doRawset r key value)
  | rawremove (r : TableRef) (key : LuaKey) : Composed (rawremove r key)
  | newTable : Composed (allocTable LuaTable.new)
  | allocResponse (t : LuaTable LuaValue) : Composed (allocResponse t)
  | setCell (c : CellRef) (v : LuaValue) : Composed (setCell c v)
  | allocCell (v : LuaValue) : Composed (allocCell v)

end Vm

/-- Gas is only spent, memory is not given back, and nothing in the heap is lost. -/
structure Core.Grows (c c' : Core) : Prop where
  target : c'.target = c.target
  gasLimit : c'.gas.limit = c.gas.limit
  memLimit : c'.mem.limit = c.mem.limit
  gas : c'.gas.remaining ≤ c.gas.remaining
  mem : min c.mem.allocated MemoryMeter.u64Max ≤ c'.mem.allocated
  heap : c.heap.Grows c'.heap

namespace Core.Grows

variable {c c' c'' : Core}

theorem refl (c : Core) : c.Grows c := ⟨rfl, rfl, rfl, le_rfl, min_le_left .., le_rfl, le_rfl⟩

theorem trans (h : c.Grows c') (h' : c'.Grows c'') : c.Grows c'' :=
  ⟨h'.target.trans h.target, h'.gasLimit.trans h.gasLimit, h'.memLimit.trans h.memLimit,
    h'.gas.trans h.gas, (le_min h.mem (min_le_right ..)).trans h'.mem, h.heap.trans h'.heap⟩

theorem mem_pos (h : c.Grows c') (hpos : 0 < c.mem.allocated) : 0 < c'.mem.allocated :=
  (lt_min hpos (by decide)).trans_le h.mem

/-- A step that leaves the meters as they are. -/
theorem of_heap {c c' : Core} (htarget : c'.target = c.target) (hgas : c'.gas = c.gas)
    (hmem : c'.mem = c.mem) (hheap : c.heap.Grows c'.heap) : c.Grows c' :=
  ⟨htarget, by rw [hgas], by rw [hmem], by rw [hgas], by rw [hmem]; exact min_le_left ..,
    hheap⟩

theorem record (c : Core) (e : Event) : c.Grows (c.record e) := .of_heap rfl rfl rfl (.refl _)

theorem setTable (c : Core) (r : TableRef) (t : LuaTable LuaValue) (grown : Nat) :
    c.Grows { c with heap := c.heap.setTable r t, grown } :=
  .of_heap rfl rfl rfl ⟨(List.length_set ..).ge, le_rfl⟩

theorem allocTable (c : Core) (t : LuaTable LuaValue) (grown : Nat) :
    c.Grows { c with heap := (c.heap.allocTable t).2, grown } :=
  .of_heap rfl rfl rfl (.allocTable t _)

theorem setCell (c : Core) (cell : CellRef) (v : LuaValue) :
    c.Grows { c with heap := c.heap.setCell cell v } :=
  .of_heap rfl rfl rfl ⟨le_rfl, (List.length_set ..).ge⟩

theorem allocCell (c : Core) (v : LuaValue) : c.Grows { c with heap := (c.heap.allocCell v).2 } :=
  .of_heap rfl rfl rfl ⟨le_rfl, by simp [Heap.allocCell]⟩

theorem noteRaise (c : Core) (e : VmError) : c.Grows (c.noteRaise e) := by
  unfold Core.noteRaise
  split_ifs
  · exact record c _
  · exact refl c

end Core.Grows

/-- How an outcome shows in the state: no fuel is missing, and when gas is exhausted
none is left. -/
structure Settled {α : Type} (r : Except Stop α) (c : Core) : Prop where
  fuel : r ≠ .error .outOfFuel
  exhausted : ∀ e, r = .error (.raised e) → e.cause = .gasExhausted → c.gas.remaining = 0

namespace Settled

variable {α β : Type} {c : Core}

theorem of_ok (a : α) : Settled (.ok a) c := ⟨nofun, nofun⟩

theorem of_error {e : Stop} (h : Settled (.error e : Except Stop α) c) :
    Settled (.error e : Except Stop β) c :=
  ⟨fun he => h.fuel (by cases he; rfl), fun e' he => h.exhausted e' (by cases he; rfl)⟩

theorem of_raise {e : VmError} (h : e.cause = .gasExhausted → c.gas.remaining = 0) :
    Settled (.error (.raised e) : Except Stop α) c :=
  ⟨nofun, fun e' he hcause => h (by cases he; exact hcause)⟩

end Settled

/-- The outcome is an unrecoverable error. -/
def IsFatal {α : Type} (r : Except Stop α) : Prop :=
  ∃ e, r = .error (.raised e) ∧ e.isUnrecoverable = true

namespace IsFatal

variable {α β : Type}

theorem not_ok (a : α) : ¬IsFatal (.ok a : Except Stop α) := nofun

theorem of_error {e : Stop} (h : IsFatal (.error e : Except Stop α)) :
    IsFatal (.error e : Except Stop β) := by
  obtain ⟨e', he, hfatal⟩ := h
  cases he
  exact ⟨e', rfl, hfatal⟩

end IsFatal

namespace Event

/-- What is stored without a charge makes no table grow. -/
def Absorbed : Event → Prop
  | store t key value => t.HasRoom key value
  | reply before (.ok t) after => (installTable t after).2.storage ≤ before.storage
  | reply before (.error _) after => after.storage ≤ before.storage
  | response t => t.storage = 0
  | _ => True

instance (e : Event) : Decidable e.Absorbed :=
  match e with
  | store t key value => inferInstanceAs (Decidable (t.HasRoom key value))
  | reply before (.ok t) after =>
    inferInstanceAs (Decidable ((installTable t after).2.storage ≤ before.storage))
  | reply before (.error _) after => inferInstanceAs (Decidable (after.storage ≤ before.storage))
  | response t => inferInstanceAs (Decidable (t.storage = 0))
  | dispatch .. | completed .. | fallOff .. | charged | enter .. | pop .. | call .. | pcall ..
  | capture .. | assign .. | logging .. | fatal .. => inferInstanceAs (Decidable True)

/-- The events of a computation on the meters, the heap and the logs. -/
def IsStored : Event → Prop
  | store _ _ _ | response _ => True
  | _ => False

/-- An instruction that was carried out has had the meter count what tables grew by. -/
def Metered : Event → Prop
  | completed _ before after => after.grown + before.used ≤ before.grown + after.used
  | _ => True

instance (e : Event) : Decidable e.Metered :=
  match e with
  | completed _ before after =>
    inferInstanceAs (Decidable (after.grown + before.used ≤ before.grown + after.used))
  | dispatch .. | fallOff .. | charged | enter .. | pop .. | call .. | pcall .. | capture ..
  | assign .. | store .. | response .. | logging .. | reply .. | fatal .. =>
    inferInstanceAs (Decidable True)

end Event

/-- Nothing has made a table grow without a charge, and the memory meter has counted all. -/
structure Core.Accountable (c : Core) : Prop where
  absorbed : ∀ e ∈ c.history, e.Absorbed
  unsaturated : c.mem.allocated < MemoryMeter.u64Max

/-- The memory meter has counted as many bytes as tables have grown by, and no more than it
may. -/
structure Core.Covers (c c' : Core) : Prop where
  growth : c'.grown + c.mem.allocated ≤ c.grown + c'.mem.allocated
  limit : c.mem.allocated ≤ c.mem.limit → c'.mem.allocated ≤ c'.mem.limit

namespace Core

variable {c c' c'' : Core}

theorem Accountable.before (h : c'.Accountable) (hgrows : c.Grows c')
    (hsuffix : c.history <:+ c'.history) : c.Accountable := by
  refine ⟨fun e he => h.absorbed e (hsuffix.subset he), ?_⟩
  have hmem := hgrows.mem
  have hmax := h.unsaturated
  omega

theorem Covers.refl (c : Core) : c.Covers c := ⟨le_rfl, id⟩

theorem Covers.trans (h : c.Covers c') (h' : c'.Covers c'') : c.Covers c'' := by
  refine ⟨?_, h'.limit ∘ h.limit⟩
  have hgrowth := h.growth
  have hgrowth' := h'.growth
  omega

theorem Covers.of_eq (hgrown : c'.grown = c.grown) (hmem : c'.mem = c.mem) : c.Covers c' :=
  ⟨by rw [hgrown, hmem], by rw [hmem]; exact id⟩

theorem noteRaise_mem (c : Core) (e : VmError) : (c.noteRaise e).mem = c.mem := by
  unfold Core.noteRaise
  split_ifs <;> rfl

theorem noteRaise_grown (c : Core) (e : VmError) : (c.noteRaise e).grown = c.grown := by
  unfold Core.noteRaise
  split_ifs <;> rfl

end Core

namespace Vm

/-- What a computation does to the state and, by its outcome, to the history. -/
structure Steps {α : Type} (c : Core) (r : Except Stop α) (c' : Core) : Prop where
  grows : c.Grows c'
  settled : Settled r c'
  logs : c'.logs = c.logs
  history : ∃ es, c'.history = fatalMark r c' ++ es ++ c.history ∧ ∀ e ∈ es, e.IsStored

namespace Steps

variable {α β : Type} {c c' c'' : Core}

theorem of_ok {a : α} (h : c.Grows c') (hlogs : c'.logs = c.logs)
    (hhist : c'.history = c.history) : Steps c (.ok a) c' :=
  ⟨h, .of_ok a, hlogs, [], hhist, List.forall_mem_nil _⟩

theorem refl (a : α) (c : Core) : Steps c (.ok a) c := .of_ok (.refl c) rfl rfl

theorem of_raise {e : VmError} (h : e.cause ≠ .gasExhausted) (c : Core) :
    Steps c (.error (.raised e) : Except Stop α) (c.noteRaise e) :=
  ⟨.noteRaise c e, .of_raise fun he => absurd he h, c.noteRaise_logs e, [],
    by rw [List.append_nil]; exact c.noteRaise_history e,
    List.forall_mem_nil _⟩

theorem record {e : Event} (h : e.IsStored) (a : α) (c : Core) : Steps c (.ok a) (c.record e) :=
  ⟨.record c e, .of_ok a, rfl, [e], rfl, fun _ he => List.mem_singleton.mp he ▸ h⟩

theorem trans {a : α} {r : Except Stop β} (h : Steps c (.ok a) c') (h' : Steps c' r c'') :
    Steps c r c'' where
  grows := h.grows.trans h'.grows
  settled := h'.settled
  logs := h'.logs.trans h.logs
  history := by
    obtain ⟨es, hes, hstored⟩ := h.history
    obtain ⟨es', hes', hstored'⟩ := h'.history
    refine ⟨es' ++ es, by rw [hes', hes, fatalMark_ok]; simp, fun e he => ?_⟩
    exact (List.mem_append.mp he).elim (hstored' e) (hstored e)

theorem of_error {e : Stop} (h : Steps c (.error e : Except Stop α) c') :
    Steps c (.error e : Except Stop β) c' :=
  ⟨h.grows, h.settled.of_error, h.logs, fatalMark_error (α := α) (β := β) e c' ▸ h.history⟩

theorem bind {m : Vm α} {f : α → Vm β} (hm : Steps c (m.run c).1 (m.run c).2)
    (hf : ∀ a c', Steps c' ((f a).run c').1 ((f a).run c').2) :
    Steps c ((m >>= f).run c).1 ((m >>= f).run c).2 := by
  rw [Exec.run_bind]
  rcases hrun : m.run c with ⟨e | a, c'⟩
  · rw [hrun] at hm
    exact hm.of_error
  · rw [hrun] at hm
    exact hm.trans (hf a c')

theorem suffix {r : Except Stop α} (h : Steps c r c') : c.history <:+ c'.history := by
  obtain ⟨es, hes, -⟩ := h.history
  exact ⟨_, hes.symm⟩

end Steps

section Primitives

variable {α : Type} (c : Core)

theorem steps_charge (n : Nat) : Steps c ((charge n).run c).1 ((charge n).run c).2 := by
  rw [run_charge]
  split_ifs
  · exact ⟨⟨rfl, rfl, rfl, Nat.zero_le _, min_le_left .., le_rfl, le_rfl⟩, .of_raise fun _ => rfl,
      rfl, [], rfl, List.forall_mem_nil _⟩
  · exact .of_ok ⟨rfl, rfl, rfl, Nat.sub_le _ _, min_le_left .., le_rfl, le_rfl⟩ rfl rfl

theorem steps_trackAlloc (n : Nat) :
    Steps c ((trackAlloc n).run c).1 ((trackAlloc n).run c).2 := by
  rw [run_trackAlloc]
  have hmem : min c.mem.allocated MemoryMeter.u64Max ≤
      min (c.mem.allocated + n) MemoryMeter.u64Max :=
    min_le_min_right _ (Nat.le_add_right ..)
  split_ifs
  · exact ⟨⟨rfl, rfl, rfl, le_rfl, hmem, le_rfl, le_rfl⟩, .of_raise nofun, rfl, [], rfl,
      List.forall_mem_nil _⟩
  · exact .of_ok ⟨rfl, rfl, rfl, le_rfl, hmem, le_rfl, le_rfl⟩ rfl rfl

theorem steps_liftLua (r : Except LuaError α) :
    Steps c ((liftLua r).run c).1 ((liftLua r).run c).2 := by
  cases r with
  | ok a => exact .refl a c
  | error e => exact .of_raise (by cases e <;> nofun) c

theorem steps_rawsetTracked (r : TableRef) (key : LuaKey) (value : LuaValue) :
    Steps c ((rawsetTracked r key value).run c).1 ((rawsetTracked r key value).run c).2 :=
  (Steps.of_ok (a := ()) (.setTable c r _ _) rfl rfl).trans (steps_liftLua _ _)

theorem steps_chargeRawsetResult (result : RawsetResult) (oldCap : Nat) :
    Steps c ((chargeRawsetResult result oldCap).run c).1
      ((chargeRawsetResult result oldCap).run c).2 := by
  unfold chargeRawsetResult
  split
  · exact .refl () c
  · split_ifs <;> exact steps_trackAlloc c _

theorem steps_rawset (r : TableRef) (key : LuaKey) (value : LuaValue) :
    Steps c ((rawset r key value).run c).1 ((rawset r key value).run c).2 := by
  refine .bind (.refl _ c) fun t c' => .bind ?_ fun _ c'' =>
    .bind (steps_rawsetTracked ..) fun _ c''' => .refl () c'''
  have hstored : (Event.store t key value).IsStored := trivial
  exact .record hstored () c'

theorem steps_rawsetCharged (r : TableRef) (key : LuaKey) (value : LuaValue) :
    Steps c ((rawsetCharged r key value).run c).1 ((rawsetCharged r key value).run c).2 :=
  .bind (.refl _ c) fun _ _ => .bind (steps_rawsetTracked ..) fun _ _ =>
    steps_chargeRawsetResult ..

theorem steps_doRawset (r : TableRef) (key : LuaKey) (value : LuaValue) :
    Steps c ((doRawset r key value).run c).1 ((doRawset r key value).run c).2 := by
  refine .bind (.refl _ c) fun _ _ => .bind (steps_rawsetTracked ..) fun result c' => ?_
  cases result with
  | updated => exact steps_charge ..
  | inserted grew capacity =>
    refine .bind (steps_charge ..) fun _ _ => ?_
    split_ifs
    · exact .bind (steps_charge ..) fun _ _ => steps_trackAlloc ..
    · exact steps_trackAlloc ..

end Primitives

/-- What a computation does, with its charges: unless it ends the run, the memory meter has
counted as many bytes as tables have grown by. -/
structure Extends {α : Type} (c : Core) (r : Except Stop α) (c' : Core) : Prop
    extends Steps c r c' where
  covered : ¬IsFatal r → c'.Accountable → c.Covers c'

namespace Extends

variable {α β : Type} {c c' c'' : Core}

/-- No table grows, and the meter stands still. -/
theorem of_steps {r : Except Stop α} (h : Steps c r c') (hgrown : c'.grown = c.grown)
    (hmem : c'.mem = c.mem) : Extends c r c' :=
  ⟨h, fun _ _ => .of_eq hgrown hmem⟩

theorem refl (a : α) (c : Core) : Extends c (.ok a) c := .of_steps (.refl a c) rfl rfl

theorem of_raise {e : VmError} (h : e.cause ≠ .gasExhausted) (c : Core) :
    Extends c (.error (.raised e) : Except Stop α) (c.noteRaise e) :=
  .of_steps (.of_raise h c) (c.noteRaise_grown e) (c.noteRaise_mem e)

theorem trans {a : α} {r : Except Stop β} (h : Extends c (.ok a) c') (h' : Extends c' r c'') :
    Extends c r c'' :=
  ⟨h.toSteps.trans h'.toSteps, fun hfatal hacc =>
    (h.covered (IsFatal.not_ok a) (hacc.before h'.grows h'.suffix)).trans (h'.covered hfatal hacc)⟩

theorem of_error {e : Stop} (h : Extends c (.error e : Except Stop α) c') :
    Extends c (.error e : Except Stop β) c' :=
  ⟨h.toSteps.of_error, fun hfatal => h.covered fun hfatal' => hfatal hfatal'.of_error⟩

end Extends

/-- Unless it ends the run, the computation pays for so many bytes beyond what tables grow
by. -/
def Pays {α : Type} (n : Nat) (c : Core) (m : Vm α) : Prop :=
  ¬IsFatal (m.run c).1 → (m.run c).2.Accountable →
    (m.run c).2.grown + c.mem.allocated + n ≤ c.grown + (m.run c).2.mem.allocated ∧
      (c.mem.allocated ≤ c.mem.limit → (m.run c).2.mem.allocated ≤ (m.run c).2.mem.limit)

section Charges

variable {α : Type} {c : Core} {n : Nat}

theorem pays_trackAlloc (n : Nat) : Pays n c (trackAlloc n) := by
  intro hfatal hacc
  have hmax := hacc.unsaturated
  rw [run_trackAlloc] at hfatal hmax ⊢
  split_ifs at hfatal hmax ⊢ with hlimit
  · exact absurd ⟨_, rfl, rfl⟩ hfatal
  · dsimp only at hmax ⊢
    exact ⟨by omega, fun _ => Nat.le_of_not_lt hlimit⟩

theorem pays_charge (k : Nat) : Pays 0 c (charge k) := by
  intro hfatal _
  rw [run_charge] at hfatal ⊢
  split_ifs at hfatal ⊢
  · exact absurd ⟨_, rfl, rfl⟩ hfatal
  · exact ⟨le_rfl, id⟩

theorem pays_charge_bind (k : Nat) {f : Unit → Vm α} (h : ∀ c, Pays n c (f ())) :
    Pays n c (charge k >>= f) := by
  intro hfatal hacc
  rw [Exec.run_bind, run_charge] at hfatal hacc ⊢
  split_ifs at hfatal hacc ⊢
  · exact absurd ⟨_, rfl, rfl⟩ hfatal
  · exact h _ hfatal hacc

theorem pays_chargeRawsetResult (result : RawsetResult) (oldCap : Nat) :
    Pays (LuaTable.charged result oldCap) c (chargeRawsetResult result oldCap) := by
  cases result with
  | updated => exact fun _ _ => ⟨le_rfl, id⟩
  | inserted grew capacity =>
    unfold LuaTable.charged chargeRawsetResult
    dsimp only
    split_ifs
    · exact pays_trackAlloc _
    · exact pays_trackAlloc _

theorem run_rawsetTracked (r : TableRef) (key : LuaKey) (value : LuaValue) :
    (rawsetTracked r key value).run c = (liftLua ((c.heap.table r).rawsetTracked key value).1).run
      { c with
        heap := c.heap.setTable r ((c.heap.table r).rawsetTracked key value).2
        grown := c.grown +
          (c.heap.table r).growth key ((c.heap.table r).rawsetTracked key value).2 } :=
  rfl

theorem liftLua_meters {β : Type} (r : Except LuaError β) (c : Core) :
    ((liftLua r).run c).2.grown = c.grown ∧ ((liftLua r).run c).2.mem = c.mem := by
  cases r with
  | ok b => exact ⟨rfl, rfl⟩
  | error e => exact ⟨c.noteRaise_grown _, c.noteRaise_mem _⟩

theorem rawset_covers (r : TableRef) (key : LuaKey) (value : LuaValue)
    (hacc : ((rawset r key value).run c).2.Accountable) :
    c.Covers ((rawset r key value).run c).2 := by
  let event := Event.store (c.heap.table r) key value
  have hrun : ((rawset r key value).run c).2 =
      ((rawsetTracked r key value).run (c.record event)).2 := by
    rw [rawset, Exec.run_bind_ok (show (getTable r).run c = (.ok _, c) from rfl),
      Exec.run_bind_ok (show (record event).run c = (.ok (), c.record event) from rfl),
      Exec.run_bind]
    rcases (rawsetTracked r key value).run (c.record event) with ⟨_ | _, _⟩ <;> rfl
  rw [hrun] at hacc ⊢
  have hmem : event ∈ (c.record event).history := .head _
  have hroom := hacc.absorbed event ((steps_rawsetTracked ..).suffix.subset hmem)
  rw [run_rawsetTracked]
  obtain ⟨hgrown, hused⟩ := liftLua_meters ((c.heap.table r).rawsetTracked key value).1
    { c.record event with
      heap := c.heap.setTable r ((c.heap.table r).rawsetTracked key value).2
      grown := c.grown +
        (c.heap.table r).growth key ((c.heap.table r).rawsetTracked key value).2 }
  refine .of_eq (hgrown.trans ?_) hused
  rw [LuaTable.growth_of_hasRoom hroom, Nat.add_zero]

/-- A write that is paid for by its result covers what the table grows by. -/
theorem covers_of_pays {r : TableRef} {key : LuaKey} {value : LuaValue}
    {f : RawsetResult → Vm Unit}
    (hf : ∀ result c', Pays (LuaTable.charged result (c.heap.table r).hashCapacity) c' (f result))
    (hfatal : ¬IsFatal ((rawsetTracked r key value >>= f).run c).1)
    (hacc : ((rawsetTracked r key value >>= f).run c).2.Accountable) :
    c.Covers ((rawsetTracked r key value >>= f).run c).2 := by
  rw [Exec.run_bind, run_rawsetTracked] at hfatal hacc ⊢
  cases hresult : ((c.heap.table r).rawsetTracked key value).1 with
  | ok result =>
    have hgrowth := LuaTable.growth_rawsetTracked hresult
    rw [hresult] at hfatal hacc
    let c₁ : Core := { c with
      heap := c.heap.setTable r ((c.heap.table r).rawsetTracked key value).2
      grown := c.grown +
        (c.heap.table r).growth key ((c.heap.table r).rawsetTracked key value).2 }
    obtain ⟨hpays, hlimit⟩ : ((f result).run c₁).2.grown + c.mem.allocated +
        LuaTable.charged result (c.heap.table r).hashCapacity ≤
        c.grown + (c.heap.table r).growth key ((c.heap.table r).rawsetTracked key value).2 +
          ((f result).run c₁).2.mem.allocated ∧ (c.mem.allocated ≤ c.mem.limit →
            ((f result).run c₁).2.mem.allocated ≤ ((f result).run c₁).2.mem.limit) :=
      hf result c₁ hfatal hacc
    have hcovers : ((f result).run c₁).2.grown + c.mem.allocated ≤
        c.grown + ((f result).run c₁).2.mem.allocated := by omega
    exact ⟨hcovers, hlimit⟩
  | error e =>
    rw [hresult] at hfatal hacc
    rcases LuaTable.rawsetTracked_error hresult with rfl | hsame
    · exact absurd ⟨_, rfl, rfl⟩ hfatal
    · obtain ⟨hgrown, hused⟩ := liftLua_meters (.error e : Except LuaError RawsetResult)
        { c with
          heap := c.heap.setTable r ((c.heap.table r).rawsetTracked key value).2
          grown := c.grown +
            (c.heap.table r).growth key ((c.heap.table r).rawsetTracked key value).2 }
      refine .of_eq (hgrown.trans ?_) hused
      rw [hsame, LuaTable.growth_self, Nat.add_zero]

end Charges

namespace Composed

theorem liftError {α : Type} {r : Except VmError α} (h : Mild r) : Composed (liftError r) := by
  cases r with
  | ok a => exact .pure a
  | error e =>
    have hmild := h.recoverable e rfl
    exact .raise fun he => by simp [← e.isUnrecoverable_cause, he, VmError.isUnrecoverable] at hmild

theorem liftLua {α : Type} (r : Except LuaError α) : Composed (liftLua r) := by
  cases r with
  | ok a => exact .pure a
  | error e => exact .raise (by cases e <;> nofun)

theorem orPanic {α : Type} (o : Option α) : Composed (orPanic o) := by
  cases o with
  | some a => exact .pure a
  | none => exact .panic

theorem getTable (r : TableRef) : Composed (getTable r) :=
  .get_bind (fun c => .pure (c.heap.table r)) fun _ _ _ => rfl

theorem getCell (r : CellRef) : Composed (getCell r) :=
  .get_bind (fun c => .pure (c.heap.cell r)) fun _ _ _ => rfl

theorem getTarget : Composed getTarget :=
  .get_bind (fun c => .pure c.target) fun _ _ _ => rfl

theorem getOrNil (t : TableRef) (key : LuaKey) : Composed (getOrNil t key) :=
  .bind (.getTable t) fun _ _ => .pure _

end Composed

theorem extends_rawset (r : TableRef) (key : LuaKey) (value : LuaValue) (c : Core) :
    Extends c ((rawset r key value).run c).1 ((rawset r key value).run c).2 :=
  ⟨steps_rawset c r key value, fun _ hacc => rawset_covers r key value hacc⟩

theorem extends_rawsetCharged (r : TableRef) (key : LuaKey) (value : LuaValue) (c : Core) :
    Extends c ((rawsetCharged r key value).run c).1 ((rawsetCharged r key value).run c).2 :=
  ⟨steps_rawsetCharged c r key value, covers_of_pays fun result _ =>
    pays_chargeRawsetResult result _⟩

theorem extends_doRawset (r : TableRef) (key : LuaKey) (value : LuaValue) (c : Core) :
    Extends c ((doRawset r key value).run c).1 ((doRawset r key value).run c).2 := by
  refine ⟨steps_doRawset c r key value, covers_of_pays fun result c' => ?_⟩
  cases result with
  | updated => exact pays_charge _
  | inserted grew capacity =>
    refine pays_charge_bind _ fun c'' => ?_
    unfold LuaTable.charged
    dsimp only
    split_ifs
    · exact pays_charge_bind _ fun _ => pays_trackAlloc _
    · exact pays_trackAlloc _

theorem extends_allocResponse (t : LuaTable LuaValue) (c : Core) :
    Extends c ((allocResponse t).run c).1 ((allocResponse t).run c).2 := by
  have hstored : (Event.response t).IsStored := trivial
  refine ⟨(Steps.record hstored () c).trans (.of_ok (.allocTable _ t _) rfl rfl), fun _ hacc => ?_⟩
  have hempty : t.storage = 0 := hacc.absorbed (.response t) (.head _)
  exact .of_eq (by
    rw [← Nat.add_zero c.grown, ← hempty]
    rfl) rfl

theorem Composed.extends {α : Type} {m : Vm α} (h : Composed m) (c : Core) :
    Extends c (m.run c).1 (m.run c).2 := by
  induction h generalizing c with
  | pure a => exact .refl a c
  | @bind α β m f _ _ ihm ihf =>
    have hm := ihm c
    rw [Exec.run_bind]
    rcases hrun : m.run c with ⟨r, c'⟩
    rw [hrun] at hm
    cases r with
    | ok a => exact hm.trans (ihf a ⟨c, by rw [hrun]⟩ c')
    | error e => exact hm.of_error
  | raise h => exact .of_raise h c
  | panic => exact .of_steps ⟨.refl c, ⟨nofun, nofun⟩, rfl, [], rfl, List.forall_mem_nil _⟩ rfl rfl
  | get_bind _ _ ih => exact ih c c
  | charge n =>
    exact ⟨steps_charge c n, fun hfatal hacc => by
      obtain ⟨hpays, hlimit⟩ := pays_charge n hfatal hacc
      exact ⟨hpays, hlimit⟩⟩
  | trackAlloc n =>
    exact ⟨steps_trackAlloc c n, fun hfatal hacc => by
      obtain ⟨hpays, hlimit⟩ := pays_trackAlloc n hfatal hacc
      exact ⟨(Nat.le_add_right ..).trans hpays, hlimit⟩⟩
  | rawset r key value => exact extends_rawset r key value c
  | rawsetCharged r key value => exact extends_rawsetCharged r key value c
  | doRawset r key value => exact extends_doRawset r key value c
  | rawremove r key => exact .of_steps (.of_ok (.setTable c r _ _) rfl rfl) rfl rfl
  | newTable => exact .of_steps (.of_ok (.allocTable c _ _) rfl rfl) rfl rfl
  | allocResponse t => exact extends_allocResponse t c
  | setCell r v => exact .of_steps (.of_ok (.setCell c r v) rfl rfl) rfl rfl
  | allocCell v => exact .of_steps (.of_ok (.allocCell c v) rfl rfl) rfl rfl

end Vm

end Proveno
