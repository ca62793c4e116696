import Mathlib.Data.Set.Basic
import Proveno.Compiler.Resolution
import Proveno.Compiler.Symbolic

/-! What it means that instructions carry out symbolic code: each operand is what the code
says, cut to the width that the instruction has for it. -/

namespace Proveno

open List (Forall₂)

def Constant.At (k : Constant) (constants : List Constant) (idx : UInt16) : Prop :=
  ∃ n, constants[n]? = some k ∧ n < 65535 ∧ idx = .ofNat n

/-- The access to a variable, by its slot or as an upvalue of its name. -/
def Var.Accessed (x : Var) (names : List Bytes) (slot upvalue : UInt8 → Instruction)
    (instr : Instruction) : Prop :=
  if x.level = 0 then instr = slot x.decl.slot
  else ∃ i, names[i]? = some x.decl.name ∧ instr = upvalue (.ofNat i)

/-- Every upvalue is taken from where the function around has it. -/
def TakenFrom (locals : List LocalVar) (outer : List Bytes) :
    List Bytes → List UpvalueDesc → Prop :=
  Forall₂ fun name desc =>
    match locals.find? fun v => v.name = name with
    | some v => desc = .local v.slot
    | none => ∃ i, outer[i]? = some name ∧ desc = .upvalue (.ofNat i)

mutual

/-- The variables of functions around that the code uses, with how many functions out they
are. -/
def Asm.captures : Asm → List (Bytes × Nat)
  | .load x | .store x => if x.level = 0 then [] else [(x.decl.name, x.level)]
  | .closure _ _ code =>
    (captures code).filterMap fun (name, level) => if 1 < level then some (name, level - 1) else none
  | _ => []

def captures : List Asm → List (Bytes × Nat)
  | [] => []
  | asm :: rest => asm.captures ++ captures rest

end

mutual

def Asm.Assembled (prototypes : List FunctionProto) (constants : List Constant)
    (names : List Bytes) : Asm → Instruction → Prop
  | .plain instr, i => i = instr
  | .constant k, i => ∃ idx, k.At constants idx ∧ i = .pushK idx
  | .getField name, i => ∃ idx, (Constant.string name).At constants idx ∧ i = .getField idx
  | .setField name, i => ∃ idx, (Constant.string name).At constants idx ∧ i = .setField idx
  | .load x, i => x.Accessed names .loadLocal .loadUp i
  | .store x, i => x.Accessed names .storeLocal .storeUp i
  | .jump kind distance, i => i = kind.instruction (.ofInt distance)
  | .breakOut, i => i = .jmp 0
  | .call argc, i => i = .call (.ofNat argc)
  | .pcall argc, i => i = .pcall (.ofNat argc)
  | .concat n, i => i = .concat (.ofNat n)
  | .closure locals params code, i => ∃ n proto inner,
      i = .closure (.ofNat n) ∧ 0 < n ∧ n < 65535 ∧ prototypes[n]? = some proto ∧
      proto.paramCount = .ofNat params ∧ proto.upvalueCount = .ofNat inner.length ∧
      inner.Nodup ∧ (∀ name, name ∈ inner ↔ ∃ level, (name, level) ∈ captures code) ∧
      .breakOut ∉ code ∧ TakenFrom locals names inner proto.upvalues ∧
      Assembled prototypes proto.constants inner code proto.code

/-- The instructions carry out the code, given the prototypes and constants that they refer
to and the names of the upvalues of their function. -/
def Assembled (prototypes : List FunctionProto) (constants : List Constant)
    (names : List Bytes) : List Asm → List Instruction → Prop
  | [], [] => True
  | asm :: rest, instr :: instrs =>
    asm.Assembled prototypes constants names instr ∧
      Assembled prototypes constants names rest instrs
  | _, _ => False

end

/-- Every prototype but the chunk's, which is complete last, has its place. -/
def Extends (prototypes prototypes' : List FunctionProto) : Prop :=
  ∀ n proto, 0 < n → prototypes[n]? = some proto → prototypes'[n]? = some proto

theorem Extends.of_prefix {prototypes prototypes' : List FunctionProto}
    (h : prototypes <+: prototypes') : Extends prototypes prototypes' := by
  intro n proto _ hget
  obtain ⟨more, rfl⟩ := h
  exact (List.getElem?_append_left (List.getElem?_eq_some_iff.mp hget).1).trans hget

theorem Extends.set (prototypes : List FunctionProto) (proto : FunctionProto) :
    Extends prototypes (prototypes.set 0 proto) := by
  intro n proto' hpos hget
  rwa [List.getElem?_set_ne (by omega)]

section Assembled

variable {prototypes prototypes' : List FunctionProto} {constants constants' : List Constant}
  {names names' : List Bytes}

theorem Constant.At.mono {k : Constant} {idx : UInt16} (h : k.At constants idx)
    (hconstants : constants <+: constants') : k.At constants' idx := by
  obtain ⟨n, hget, hlt, rfl⟩ := h
  obtain ⟨more, rfl⟩ := hconstants
  exact ⟨n, (List.getElem?_append_left (List.getElem?_eq_some_iff.mp hget).1).trans hget, hlt, rfl⟩

theorem Var.Accessed.mono {x : Var} {slot upvalue : UInt8 → Instruction} {instr : Instruction}
    (h : x.Accessed names slot upvalue instr) (hnames : names <+: names') :
    x.Accessed names' slot upvalue instr := by
  unfold Var.Accessed at h ⊢
  split_ifs with hlevel
  · rwa [if_pos hlevel] at h
  · rw [if_neg hlevel] at h
    obtain ⟨i, hget, hinstr⟩ := h
    obtain ⟨more, rfl⟩ := hnames
    exact ⟨i, (List.getElem?_append_left (List.getElem?_eq_some_iff.mp hget).1).trans hget, hinstr⟩

theorem TakenFrom.mono {locals : List LocalVar} {inner : List Bytes} {descs : List UpvalueDesc}
    (h : TakenFrom locals names inner descs) (hnames : names <+: names') :
    TakenFrom locals names' inner descs := by
  refine h.imp fun name desc hdesc => ?_
  cases hfind : locals.find? fun v => v.name = name with
  | some v =>
    rw [hfind] at hdesc
    exact hdesc
  | none =>
    rw [hfind] at hdesc
    obtain ⟨i, hget, hi⟩ := hdesc
    obtain ⟨more, rfl⟩ := hnames
    exact ⟨i, (List.getElem?_append_left (List.getElem?_eq_some_iff.mp hget).1).trans hget, hi⟩

mutual

theorem Asm.Assembled.mono {prototypes prototypes' : List FunctionProto}
    {constants constants' : List Constant} {names names' : List Bytes}
    (hprototypes : Extends prototypes prototypes') (hconstants : constants <+: constants') (hnames : names <+: names') {instr : Instruction} :
    {asm : Asm} → asm.Assembled prototypes constants names instr →
      asm.Assembled prototypes' constants' names' instr
  | .plain _, h | .jump _ _, h | .breakOut, h | .call _, h | .pcall _, h | .concat _, h => h
  | .constant _, ⟨idx, hat, hinstr⟩ | .getField _, ⟨idx, hat, hinstr⟩
  | .setField _, ⟨idx, hat, hinstr⟩ => ⟨idx, hat.mono hconstants, hinstr⟩
  | .load _, h | .store _, h => Var.Accessed.mono h hnames
  | .closure _ _ _, ⟨n, proto, inner, hinstr, hpos, hlt, hget, hparams, hcount, hnodup, hmem,
      hbreaks, htaken, hcode⟩ => by
    exact ⟨n, proto, inner, hinstr, hpos, hlt, hprototypes n proto hpos hget, hparams, hcount,
      hnodup, hmem, hbreaks, htaken.mono hnames,
      Assembled.mono hprototypes List.prefix_rfl List.prefix_rfl hcode⟩

theorem Assembled.mono {prototypes prototypes' : List FunctionProto}
    {constants constants' : List Constant} {names names' : List Bytes}
    (hprototypes : Extends prototypes prototypes') (hconstants : constants <+: constants') (hnames : names <+: names') :
    {code : List Asm} → {instrs : List Instruction} →
      Assembled prototypes constants names code instrs →
      Assembled prototypes' constants' names' code instrs
  | [], [], _ => trivial
  | _ :: _, _ :: _, ⟨hasm, hrest⟩ =>
    ⟨Asm.Assembled.mono hprototypes hconstants hnames hasm,
      Assembled.mono hprototypes hconstants hnames hrest⟩
  | [], _ :: _, h | _ :: _, [], h => h

end

theorem assembled_cons {asm : Asm} {rest : List Asm} {instrs : List Instruction} :
    Assembled prototypes constants names (asm :: rest) instrs ↔
      ∃ instr back, instrs = instr :: back ∧ asm.Assembled prototypes constants names instr ∧
        Assembled prototypes constants names rest back := by
  constructor
  · intro h
    cases instrs with
    | nil => exact h.elim
    | cons instr back => exact ⟨instr, back, rfl, h.1, h.2⟩
  · rintro ⟨instr, back, rfl, hasm, hrest⟩
    exact ⟨hasm, hrest⟩

theorem Assembled.singleton {asm : Asm} {instrs : List Instruction}
    (h : Assembled prototypes constants names [asm] instrs) :
    ∃ instr, instrs = [instr] ∧ asm.Assembled prototypes constants names instr := by
  obtain ⟨instr, back, rfl, hasm, hback⟩ := assembled_cons.mp h
  cases back with
  | nil => exact ⟨instr, rfl, hasm⟩
  | cons => exact hback.elim

theorem assembled_append {code rest : List Asm} {instrs : List Instruction} :
    Assembled prototypes constants names (code ++ rest) instrs ↔
      ∃ front back, instrs = front ++ back ∧ Assembled prototypes constants names code front ∧
        Assembled prototypes constants names rest back := by
  induction code generalizing instrs with
  | nil =>
    constructor
    · exact fun h => ⟨[], instrs, rfl, trivial, h⟩
    · rintro ⟨front, back, rfl, hfront, hback⟩
      cases front with
      | nil => exact hback
      | cons => exact hfront.elim
  | cons asm code ih =>
    constructor
    · intro h
      cases instrs with
      | nil => exact h.elim
      | cons instr instrs =>
        obtain ⟨front, back, rfl, hfront, hback⟩ := ih.mp h.2
        exact ⟨instr :: front, back, rfl, ⟨h.1, hfront⟩, hback⟩
    · rintro ⟨front, back, rfl, hfront, hback⟩
      cases front with
      | nil => exact hfront.elim
      | cons instr front => exact ⟨hfront.1, ih.mpr ⟨front, back, rfl, hfront.2, hback⟩⟩

theorem Assembled.length_eq {code : List Asm} {instrs : List Instruction}
    (h : Assembled prototypes constants names code instrs) : instrs.length = code.length := by
  induction code generalizing instrs with
  | nil =>
    cases instrs with
    | nil => rfl
    | cons => exact h.elim
  | cons asm code ih =>
    cases instrs with
    | nil => exact h.elim
    | cons instr instrs => rw [List.length_cons, List.length_cons, ih h.2]

theorem captures_append (code rest : List Asm) :
    captures (code ++ rest) = captures code ++ captures rest := by
  induction code with
  | nil => rfl
  | cons asm code ih => rw [List.cons_append, captures, ih, captures, List.append_assoc]

end Assembled

end Proveno
