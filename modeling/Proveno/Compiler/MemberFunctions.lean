import Proveno.Compiler.Correctness
import Proveno.Vm.RunBounds
import Proveno.Vm.Segments

/-! Declarations `function a.b.c()` and `function a.b:m()`: what they are for, and what the
code that is compiled for them does to the stack. -/

namespace Proveno

/-- A prototype, with these names for its upvalues, carries out the code from a position on. -/
def Placed (program : CompiledProgram) (idx lo : Nat) (names : List Bytes) (code : List Asm) :
    Prop :=
  ∃ proto front back, program.prototypes[idx]? = some proto ∧ front.length = lo ∧
    Assembled program.prototypes proto.constants names (front ++ code ++ back) proto.code

/-- The instructions for the code. -/
theorem Placed.instrs {program : CompiledProgram} {idx lo : Nat} {names : List Bytes}
    {code : List Asm} (h : Placed program idx lo names code) :
    ∃ proto instrs, program.prototypes[idx]? = some proto ∧
      Assembled program.prototypes proto.constants names code instrs ∧
      ∀ k instr, instrs[k]? = some instr → proto.code[lo + k]? = some instr := by
  obtain ⟨proto, front, back, hproto, rfl, hasm⟩ := h
  obtain ⟨init, after, hcode, hinit, -⟩ := assembled_append.mp hasm
  obtain ⟨before, instrs, rfl, hbefore, hinstrs⟩ := assembled_append.mp hinit
  refine ⟨proto, instrs, hproto, hinstrs, fun k instr hk => ?_⟩
  rw [hcode, ← hbefore.length_eq, List.append_assoc, List.getElem?_append_right (Nat.le_add_right ..),
    Nat.add_sub_cancel_left, List.getElem?_append_left (List.getElem?_eq_some_iff.mp hk).1]
  exact hk

/-- The names of a declaration, its method last. -/
def memberPath (parts : List (Bytes × Span)) (method : Option (Bytes × Span)) : List Bytes :=
  parts.map (·.1) ++ (method.map (·.1)).toList

def FuncBody.params : FuncBody → List (Bytes × Span)
  | .mk params _ _ => params

/-- The names of the parameters of a declaration. -/
def memberParams (method : Option (Bytes × Span)) (params : List (Bytes × Span)) : List Bytes :=
  (if method.isSome then [ascii "self"] else []) ++ params.map (·.1)

namespace Heap

/-- The value that a slot of the stack stands for. -/
def slotValue (h : Heap) : StackSlot → Option LuaValue
  | .value v => some v
  | .shared cell => some (h.cell cell)
  | .iterHandle _ => none

/-- What the fields of these names lead to, from table to table. -/
def follow (h : Heap) : LuaValue → List Bytes → Option LuaValue
  | v, [] => some v
  | .table t, name :: rest => ((h.table t).get (.string name)).bind fun v => h.follow v rest
  | _, _ :: _ => none

end Heap

namespace Machine

/-- The value of a local variable of a frame. -/
def localValue (s : Machine) (f : CallFrame) (slot : UInt8) : Option LuaValue :=
  s.stack[f.base + slot.toNat]?.bind fun entry => s.core.heap.slotValue entry.slot

/-- The value of a variable, of the frame or of the functions around it. -/
def varValue (s : Machine) (f : CallFrame) (names : List Bytes) (x : Var) : Option LuaValue :=
  if x.level = 0 then s.localValue f x.decl.slot
  else f.upvalues[names.idxOf x.decl.name]?.map s.core.heap.cell

end Machine

/-- The scope in which the body of a function begins. -/
def bodyEnv (env : Env) (params : List Bytes) : Env :=
  (Gen.registerParams params 0
    (Env.mk (.ofParams (.ofNat params.length)) (env.current :: env.enclosing))).2

/-- From one state to the other a declaration has been carried out as an ordinary statement: the
function is in the field that the path names, the stack and the variables are as before, and a
method has its object as the first parameter. -/
structure DeclaresMember (program : CompiledProgram) (env : Env) (names : List Bytes)
    (parts : List (Bytes × Span)) (method : Option (Bytes × Span)) (params : List (Bytes × Span))
    (f : CallFrame) (lc : Nat) (s s' : Machine) : Prop where
  length : s'.stack.length = s.stack.length
  operands : s'.stack.drop (f.base + lc) = s.stack.drop (f.base + lc)
  locals : ∀ v ∈ env.current.visible, s'.localValue f v.slot = s.localValue f v.slot
  upvalues : ∀ cell ∈ f.upvalues, s'.core.heap.cell cell = s.core.heap.cell cell
  stored : ∃ base fields x v t closure proto, memberPath parts method = base :: fields ∧
    env.resolve base = some x ∧ s.varValue f names x = some v ∧
    s.core.heap.follow v fields.dropLast = some (.table t) ∧
    (s'.core.heap.table t).get (.string (fields.getLastD [])) = some (.function closure) ∧
    program.prototypes[closure.protoIdx]? = some proto ∧
    proto.paramCount = .ofNat (memberParams method params).length ∧
    ∀ key, key ≠ .string (fields.getLastD []) →
      (s'.core.heap.table t).get key = (s.core.heap.table t).get key
  self : method.isSome → ascii "self" ∉ params.map (·.1) →
    (bodyEnv env (memberParams method params)).resolve (ascii "self") =
      some ⟨0, ascii "self", 0, false⟩

section Slots

variable {prototypes : List FunctionProto} {constants : List Constant} {names : List Bytes}
  {instrs : List Instruction} {n : Nat}

open Instruction

/-- Code that leaves one more slot than it finds. -/
def PushesOne (instrs : List Instruction) : Prop :=
  (∀ instr ∈ instrs, instr.IsStraight) ∧ ∀ n, slotsAfter instrs n = some (n + 1)

theorem slotsAfter_fields {fields : List Bytes}
    (h : Assembled prototypes constants names (fields.map .getField) instrs) :
    (∀ instr ∈ instrs, instr.IsStraight) ∧ ∀ n, slotsAfter instrs (n + 1) = some (n + 1) := by
  induction fields generalizing instrs with
  | nil =>
    cases instrs with
    | nil => exact ⟨List.forall_mem_nil _, fun _ => rfl⟩
    | cons => exact h.elim
  | cons name fields ih =>
    cases instrs with
    | nil => exact h.elim
    | cons instr instrs =>
      obtain ⟨⟨idx, -, rfl⟩, hrest⟩ := h
      obtain ⟨hstraight, hslots⟩ := ih hrest
      refine ⟨List.forall_mem_cons.mpr ⟨trivial, hstraight⟩, fun n => ?_⟩
      rw [slotsAfter_cons (Nat.succ_le_succ (Nat.zero_le n))]
      exact hslots n

theorem straight_of_accessed {x : Var} {instr : Instruction}
    (h : x.Accessed names .loadLocal .loadUp instr) :
    instr.IsStraight ∧ instr.pops = 0 ∧ instr.pushes = 1 := by
  unfold Var.Accessed at h
  split_ifs at h
  · exact h ▸ ⟨trivial, rfl, rfl⟩
  · obtain ⟨i, -, rfl⟩ := h
    exact ⟨trivial, rfl, rfl⟩

theorem pushesOne_path {x : Var} {fields : List Bytes}
    (h : Assembled prototypes constants names (Gen.baseOf (some x) ++ fields.map .getField) instrs) :
    PushesOne instrs := by
  obtain ⟨front, back, rfl, hfront, hback⟩ := assembled_append.mp h
  obtain ⟨hstraight, hslots⟩ := slotsAfter_fields hback
  obtain ⟨load, rfl, hload⟩ := Assembled.singleton hfront
  obtain ⟨hload, hpops, hpushes⟩ := straight_of_accessed hload
  refine ⟨List.forall_mem_cons.mpr ⟨hload, hstraight⟩, fun n => ?_⟩
  rw [List.singleton_append, slotsAfter_cons (hpops.trans_le (Nat.zero_le n)), hpops, hpushes]
  exact hslots n

/-- What is emitted for a dotted declaration leaves a slot on the stack. -/
theorem pushesOne_member {x : Var} {fields : List Bytes} {locals : List LocalVar} {params : Nat}
    {code : List Asm} {tmp : UInt8} {last : Bytes}
    (h : Assembled prototypes constants names
      ([.closure locals params code] ++ (Gen.baseOf (some x) ++ fields.map .getField ++
        [.plain (.storeLocal tmp)] ++ (Gen.baseOf (some x) ++ fields.map .getField) ++
        [.plain (.loadLocal tmp), .setField last])) instrs) : PushesOne instrs := by
  obtain ⟨front, back, rfl, hfront, hback⟩ := assembled_append.mp h
  obtain ⟨init, final, rfl, hinit, hfinal⟩ := assembled_append.mp hback
  obtain ⟨init, again, rfl, hinit, hagain⟩ := assembled_append.mp hinit
  obtain ⟨path, store, rfl, hpath, hstore⟩ := assembled_append.mp hinit
  obtain ⟨hpath, hslots⟩ := pushesOne_path hpath
  obtain ⟨hagain, hslots'⟩ := pushesOne_path hagain
  obtain ⟨_, rfl, _, _, _, rfl, -⟩ := Assembled.singleton hfront
  obtain ⟨_, rfl, rfl⟩ := Assembled.singleton hstore
  obtain ⟨_, _, rfl, rfl, hset⟩ := assembled_cons.mp hfinal
  obtain ⟨_, rfl, _, -, rfl⟩ := Assembled.singleton hset
  refine ⟨?_, fun n => ?_⟩
  · intro instr hinstr
    simp only [List.mem_append, List.mem_cons, List.not_mem_nil, or_false] at hinstr
    rcases hinstr with rfl | ((hinstr | rfl) | hinstr) | rfl | rfl
    · trivial
    · exact hpath instr hinstr
    · trivial
    · exact hagain instr hinstr
    · trivial
    · trivial
  · have hclosure (idx : UInt16) : (closure idx).pops = 0 ∧ (closure idx).pushes = 1 := ⟨rfl, rfl⟩
    have hstoreLocal (slot : UInt8) :
        (storeLocal slot).pops = 1 ∧ (storeLocal slot).pushes = 0 := ⟨rfl, rfl⟩
    have hloadLocal (slot : UInt8) :
        (loadLocal slot).pops = 0 ∧ (loadLocal slot).pushes = 1 := ⟨rfl, rfl⟩
    have hsetField (idx : UInt16) :
        (setField idx).pops = 2 ∧ (setField idx).pushes = 0 := ⟨rfl, rfl⟩
    simp only [slotsAfter_append, slotsAfter, hclosure, hstoreLocal, hloadLocal, hsetField, hslots,
      hslots', Option.bind_some, Nat.zero_le, Nat.sub_zero, Nat.add_sub_cancel, if_true,
      Nat.le_add_left, Nat.add_zero]
    simp

end Slots

/-- The code of a declaration with a dotted name. -/
theorem functionDecl_code {env : Env} {parts : List (Bytes × Span)} {method : Option (Bytes × Span)}
    (func : FuncBody) {base part : Bytes} {more : List Bytes} {x : Var}
    (hpath : memberPath parts method = base :: part :: more) (hbase : env.resolve base = some x) :
    ∃ locals params code tmp last, (Gen.functionDecl parts method func.gen env).1 =
      [.closure locals params code] ++ (Gen.baseOf (some x) ++
        (part :: more).dropLast.map .getField ++ [.plain (.storeLocal tmp)] ++
        (Gen.baseOf (some x) ++ (part :: more).dropLast.map .getField) ++
        [.plain (.loadLocal tmp), .setField last]) := by
  obtain ⟨params, block, span⟩ := func
  have hbody (extra : List Bytes) : ∃ locals n code,
      (FuncBody.mk params block span).gen extra env = (.closure locals n code, env) :=
    ⟨_, _, _, rfl⟩
  obtain ⟨locals, n, code, hclosure⟩ := hbody (if method.isSome then [ascii "self"] else [])
  have hstore : (Gen.storeFuncName (base :: part :: more) env).1 =
      Gen.baseOf (env.resolve base) ++ (part :: more).dropLast.map .getField ++
        [.plain (.storeLocal env.current.nextSlot)] ++
        (Gen.baseOf (env.resolve base) ++ (part :: more).dropLast.map .getField) ++
        [.plain (.loadLocal env.current.nextSlot), .setField ((part :: more).getLast (List.cons_ne_nil _ _))] := rfl
  refine ⟨locals, n, code, env.current.nextSlot, (part :: more).getLast (List.cons_ne_nil _ _), ?_⟩
  have hdecl : (Gen.functionDecl parts method (FuncBody.mk params block span).gen env).1 =
      [((FuncBody.mk params block span).gen (if method.isSome then [ascii "self"] else []) env).1] ++
        (Gen.storeFuncName (memberPath parts method)
          ((FuncBody.mk params block span).gen (if method.isSome then [ascii "self"] else [])
            env).2).1 := rfl
  rw [hdecl, hclosure, hpath, hstore, hbase]

section Runs

variable {H : Type} [HostInterface H] {program : CompiledProgram} {env : Env}
  {parts : List (Bytes × Span)} {method : Option (Bytes × Span)} {func : FuncBody}
  {base part : Bytes} {more names : List Bytes} {lo : Nat} {f : CallFrame} {rest : List CallFrame}
  {s s' : System H}

/-- Whenever a run comes to the end of a declaration with a dotted name, the stack has one slot
more than before it. -/
theorem functionDecl_leaves (hpath : memberPath parts method = base :: part :: more)
    (hbase : (env.resolve base).isSome)
    (hplaced : Placed program f.protoIdx lo names (Gen.functionDecl parts method func.gen env).1)
    (hframes : s.machine.frames = { f with pc := lo } :: rest)
    (h : Within program rest.length lo
      (lo + (Gen.functionDecl parts method func.gen env).1.length) s s')
    (hend : s'.machine.frames =
      { f with pc := lo + (Gen.functionDecl parts method func.gen env).1.length } :: rest) :
    s'.machine.stack.length = s.machine.stack.length + 1 := by
  obtain ⟨x, hx⟩ := Option.isSome_iff_exists.mp hbase
  obtain ⟨locals, n, code, tmp, last, hcode⟩ := functionDecl_code func hpath hx
  obtain ⟨proto, instrs, hproto, hasm, hat⟩ := hplaced.instrs
  rw [← hasm.length_eq] at h hend
  rw [hcode] at hasm
  obtain ⟨hstraight, hslots⟩ := pushesOne_member hasm
  exact h.straight_end hproto hat hstraight (hslots _) hframes rfl hend

/-- Never is a declaration with a dotted name carried out as an ordinary statement. -/
theorem functionDecl_never_declares (hpath : memberPath parts method = base :: part :: more)
    (hbase : (env.resolve base).isSome)
    (hplaced : Placed program f.protoIdx lo names (Gen.functionDecl parts method func.gen env).1)
    (hframes : s.machine.frames = { f with pc := lo } :: rest) (lc : Nat) :
    ¬∃ s', Within program rest.length lo
        (lo + (Gen.functionDecl parts method func.gen env).1.length) s s' ∧
      s'.machine.frames =
        { f with pc := lo + (Gen.functionDecl parts method func.gen env).1.length } :: rest ∧
      DeclaresMember program env names parts method func.params f lc s.machine s'.machine := by
  rintro ⟨s', hrun, hend, hdeclares⟩
  have hleaves := functionDecl_leaves hpath hbase hplaced hframes hrun hend
  have hlength := hdeclares.length
  omega

end Runs

/-- `function a.f() end` where `a` is the local variable of slot 0. -/
def memberProgram : CompiledProgram :=
  ⟨[{ FunctionProto.new 0 with
      code := [.closure 1, .loadLocal 0, .storeLocal 1, .loadLocal 0, .loadLocal 1, .setField 0]
      constants := [.string (ascii "f")]
      localCount := 2 },
    { FunctionProto.new 0 with code := [.ret 0] }]⟩

/-- The machine before it, with an empty table in `a`. -/
def memberStart : System NoopHost :=
  { System.plain .default with
    machine := { (System.plain .default).machine with
      core := { (System.plain .default).machine.core with heap := ⟨[LuaTable.new], []⟩ }
      stack := [⟨0, .value (.table 0)⟩, ⟨1, .value .nil⟩]
      frames := [⟨0, 0, 0, [], 1⟩] } }

theorem functionDecl_never_declares_member :
    ¬∃ s', Within memberProgram 0 0 6 memberStart s' ∧
      s'.machine.frames = [⟨0, 6, 0, [], 1⟩] ∧
      DeclaresMember memberProgram ⟨⟨[[⟨ascii "a", 0, false⟩]], 1, []⟩, []⟩ []
        [(ascii "a", default), (ascii "f", default)] none [] ⟨0, 0, 0, [], 1⟩ 2
        memberStart.machine s'.machine := by
  have hplaced : Placed memberProgram 0 0 []
      (Gen.functionDecl [(ascii "a", default), (ascii "f", default)] none
        (FuncBody.mk [] (.mk [] none default) default).gen
        ⟨⟨[[⟨ascii "a", 0, false⟩]], 1, []⟩, []⟩).1 := by
    refine ⟨_, [], [], rfl, rfl, ⟨1, _, [], rfl, Nat.one_pos, by decide, rfl, rfl, rfl, .nil, ?_,
      nofun, .nil, ⟨rfl, trivial⟩⟩, rfl, rfl, rfl, rfl, ⟨0, ⟨0, rfl, by decide, rfl⟩, rfl⟩, trivial⟩
    simp [captures, Asm.captures, Gen.withRet, Gen.endsInRet]
  have hframes : memberStart.machine.frames =
      { (⟨0, 0, 0, [], 1⟩ : CallFrame) with pc := 0 } :: [] := rfl
  exact functionDecl_never_declares rfl (by decide) hplaced hframes 2

/-- `local a = {}  function a.f() end  return a.f == a` -/
def selfMember : Block :=
  .mk [.localDecl [(ascii "a", default)] [.tableConstructor [] default] default,
      .functionDecl [(ascii "a", default), (ascii "f", default)] none
        (.mk [] (.mk [] none default) default) default]
    (some (.mk (some (.binOp .eq (.field (.name (ascii "a") default) (ascii "f") default)
      (.name (ascii "a") default) default)) default)) default

/-- The table itself is stored in its field. -/
theorem selfMember_storesTable :
    ((Compiler.compile true selfMember).toOption.map fun program =>
      ((Run.execute program .nil).run (System.plain .default)).1.toOption.map VmOutput.returnValue) =
        some (some (.boolean true)) := by
  decide

end Proveno
