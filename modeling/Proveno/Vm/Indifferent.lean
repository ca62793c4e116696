import Proveno.Lib.Paired
import Proveno.Vm.Builtins

/-! Computations to which captured variables and the history make no difference. The
functions of the string module are of this kind. -/

namespace Proveno

/-- What two states have in common that a function of the string module can tell apart, and
that a program can see of its effects. -/
structure Core.SameFace (c c' : Core) : Prop where
  target : c.target = c'.target
  gas : c.gas = c'.gas
  mem : c.mem = c'.mem
  tables : c.heap.tables = c'.heap.tables
  logs : c.logs = c'.logs

namespace Core.SameFace

variable {c c' c'' : Core}

theorem refl (c : Core) : c.SameFace c := ⟨rfl, rfl, rfl, rfl, rfl⟩

theorem symm (h : c.SameFace c') : c'.SameFace c :=
  ⟨h.target.symm, h.gas.symm, h.mem.symm, h.tables.symm, h.logs.symm⟩

theorem trans (h : c.SameFace c') (h' : c'.SameFace c'') : c.SameFace c'' :=
  ⟨h.target.trans h'.target, h.gas.trans h'.gas, h.mem.trans h'.mem, h.tables.trans h'.tables,
    h.logs.trans h'.logs⟩

theorem record (h : c.SameFace c') (e e' : Event) : (c.record e).SameFace (c'.record e') :=
  ⟨h.target, h.gas, h.mem, h.tables, h.logs⟩

theorem record_left (h : c.SameFace c') (e : Event) : (c.record e).SameFace c' :=
  ⟨h.target, h.gas, h.mem, h.tables, h.logs⟩

theorem noteRaise (h : c.SameFace c') (e : VmError) : (c.noteRaise e).SameFace (c'.noteRaise e) := by
  unfold Core.noteRaise
  split_ifs
  · exact h.record _ _
  · exact h

end Core.SameFace

namespace Vm

def Indifferent {α : Type} (m : Vm α) : Prop :=
  Exec.Paired Core.SameFace m m (fun _ => Core.SameFace) Core.SameFace

namespace Indifferent

variable {α β : Type} {m : Vm α} {f : α → Vm β}

theorem pure (a : α) : Indifferent (Pure.pure a : Vm α) := Exec.Paired.pure fun _ _ h => h

theorem bind (hm : Indifferent m) (hf : ∀ a, Indifferent (f a)) : Indifferent (m >>= f) :=
  Exec.Paired.bind hm hf

theorem raise (e : VmError) : Indifferent (Vm.raise e : Vm α) := fun _ _ h => ⟨rfl, h.noteRaise e⟩

theorem panic : Indifferent (Vm.panic : Vm α) := Exec.Paired.throw fun _ _ h => h

theorem liftError (r : Except VmError α) : Indifferent (Vm.liftError r) := by
  cases r with
  | ok a => exact pure a
  | error e => exact raise e

theorem orPanic (o : Option α) : Indifferent (Vm.orPanic o) := by
  cases o with
  | some a => exact pure a
  | none => exact panic

theorem getTarget : Indifferent Vm.getTarget :=
  fun _ _ h => ⟨congrArg Except.ok h.target, h⟩

theorem charge (n : Nat) : Indifferent (Vm.charge n) := by
  intro c c' h
  rw [run_charge, run_charge, h.gas]
  split_ifs
  · exact ⟨rfl, h.target, rfl, h.mem, h.tables, h.logs⟩
  · exact ⟨rfl, h.target, rfl, h.mem, h.tables, h.logs⟩

theorem trackAlloc (n : Nat) : Indifferent (Vm.trackAlloc n) := by
  intro c c' h
  rw [run_trackAlloc, run_trackAlloc]
  dsimp only
  rw [h.mem]
  split_ifs
  · exact ⟨rfl, h.target, h.gas, rfl, h.tables, h.logs⟩
  · exact ⟨rfl, h.target, h.gas, rfl, h.tables, h.logs⟩

end Indifferent

section Strings

variable (args : List LuaValue)

theorem stringLen_indifferent : Indifferent (stringLen args) :=
  .bind (.liftError _) fun _ => .pure _

theorem subRange_indifferent (s : Bytes) (i j : Int64) : Indifferent (subRange s i j) :=
  .bind .getTarget fun _ => .bind (.orPanic _) fun _ => .bind (.orPanic _) fun _ => by
    split_ifs
    · exact .pure _
    · exact .bind (.charge _) fun _ => .bind (.trackAlloc _) fun _ =>
        .bind (.orPanic _) fun _ => .pure _

theorem stringSub_indifferent : Indifferent (stringSub args) :=
  .bind (.liftError _) fun _ => .bind (.liftError _) fun _ => .bind (.liftError _) fun _ =>
    subRange_indifferent _ _ _

theorem byteRange_indifferent (s : Bytes) (i j : Int64) : Indifferent (byteRange s i j) :=
  .bind .getTarget fun _ => .bind (.orPanic _) fun _ => .bind (.orPanic _) fun _ => by
    split_ifs
    · exact .pure _
    · exact .bind (.charge _) fun _ => .bind (.orPanic _) fun _ => .pure _

theorem stringByte_indifferent : Indifferent (stringByte args) :=
  .bind (.liftError _) fun _ => .bind (.liftError _) fun _ => byteRange_indifferent _ _ _

theorem literalSubstringSearch_indifferent (haystack needle : Bytes) (init : Nat) :
    Indifferent (literalSubstringSearch haystack needle init) :=
  .bind (.charge _) fun _ => by
    split_ifs
    · exact .pure _
    · exact .pure _
    · split <;> exact .pure _

theorem stringFind_indifferent : Indifferent (stringFind args) :=
  .bind (.liftError _) fun _ => .bind (.liftError _) fun _ => .bind .getTarget fun _ =>
    .bind (.liftError _) fun _ => .bind (.liftError _) fun _ => by
      split_ifs
      · exact .bind (.liftError _) fun _ => literalSubstringSearch_indifferent _ _ _
      · exact literalSubstringSearch_indifferent _ _ _

theorem stringFindLiteral_indifferent : Indifferent (stringFindLiteral args) :=
  .bind (.liftError _) fun _ => .bind (.liftError _) fun _ => .bind .getTarget fun _ =>
    .bind (.liftError _) fun _ => literalSubstringSearch_indifferent _ _ _

theorem mapBytes_indifferent (fname : String) (f : UInt8 → UInt8) :
    Indifferent (mapBytes fname f args) :=
  .bind (.liftError _) fun _ => .bind (.charge _) fun _ => .bind (.trackAlloc _) fun _ => .pure _

theorem repeated_indifferent (s : Bytes) (n : Nat) : Indifferent (repeated s n) :=
  .bind .getTarget fun _ => .bind (.liftError _) fun _ => .bind (.charge _) fun _ =>
    .bind (.trackAlloc _) fun _ => .pure _

theorem stringRep_indifferent : Indifferent (stringRep args) :=
  .bind (.liftError _) fun _ => .bind (.liftError _) fun _ => by
    split_ifs
    · exact .pure _
    · exact .bind .getTarget fun _ => repeated_indifferent _ _

theorem stringChar_indifferent : Indifferent (stringChar args) :=
  .bind (.charge _) fun _ => .bind (.trackAlloc _) fun _ => .bind (.liftError _) fun _ => .pure _

theorem stringFormat_indifferent : Indifferent (stringFormat args) :=
  .bind (.liftError _) fun _ => .bind (.liftError _) fun _ => .bind (.liftError _) fun _ =>
    .bind (.charge _) fun _ => .bind (.trackAlloc _) fun _ => .pure _

end Strings

end Vm

/-- The functions of the string module. -/
def Globals.stringIds : List BuiltinId := [.stringLen, .stringSub, .stringFind, .stringFindLiteral,
  .stringUpper, .stringLower, .stringRep, .stringByte, .stringChar, .stringFormat,
  .stringUnsupported]

theorem Vm.callBuiltin_indifferent {id : BuiltinId} (h : id ∈ Globals.stringIds)
    (args : List LuaValue) : Indifferent (callBuiltin id args) := by
  simp only [Globals.stringIds, List.mem_cons, List.not_mem_nil, or_false] at h
  rcases h with rfl | rfl | rfl | rfl | rfl | rfl | rfl | rfl | rfl | rfl | rfl
  · exact stringLen_indifferent args
  · exact stringSub_indifferent args
  · exact stringFind_indifferent args
  · exact stringFindLiteral_indifferent args
  · exact mapBytes_indifferent args _ _
  · exact mapBytes_indifferent args _ _
  · exact stringRep_indifferent args
  · exact stringByte_indifferent args
  · exact stringChar_indifferent args
  · exact stringFormat_indifferent args
  · exact .raise _

end Proveno
