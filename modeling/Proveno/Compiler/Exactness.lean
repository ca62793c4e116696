import Mathlib.Data.List.Dedup
import Mathlib.Data.List.Perm.Subperm
import Proveno.Compiler.Correctness

/-! Where the quantities of a program fit the widths that the instructions have for them, the
operands stand for them exactly; elsewhere they are cut without an error. -/

namespace Proveno

open List (Forall₂)

/-- How many variables of functions around the code uses. -/
def captureCount (code : List Asm) : Nat := ((captures code).map (·.1)).dedup.length

mutual

/-- The quantities fit the widths that instructions and prototypes have for them. -/
def Asm.Fits : Asm → Prop
  | .jump _ distance => -32768 ≤ distance ∧ distance < 32768
  | .call n | .pcall n | .concat n => n < 256
  | .closure _ params code => params < 256 ∧ captureCount code < 256 ∧ Fits code
  | _ => True

def Fits : List Asm → Prop
  | [] => True
  | asm :: rest => asm.Fits ∧ Fits rest

end

mutual

def Asm.decidableFits : (asm : Asm) → Decidable asm.Fits
  | .jump _ distance => inferInstanceAs (Decidable (-32768 ≤ distance ∧ distance < 32768))
  | .call n | .pcall n | .concat n => inferInstanceAs (Decidable (n < 256))
  | .closure _ params code =>
    have := decidableFits code
    inferInstanceAs (Decidable (params < 256 ∧ captureCount code < 256 ∧ Fits code))
  | .plain _ | .constant _ | .getField _ | .setField _ | .load _ | .store _ | .breakOut =>
    inferInstanceAs (Decidable True)

def decidableFits : (code : List Asm) → Decidable (Fits code)
  | [] => inferInstanceAs (Decidable True)
  | asm :: rest =>
    have := asm.decidableFits
    have := decidableFits rest
    inferInstanceAs (Decidable (asm.Fits ∧ Fits rest))

end

instance (code : List Asm) : Decidable (Fits code) := decidableFits code

/-- The access to a variable, with its exact index where it is an upvalue. -/
def Var.ExactlyAccessed (x : Var) (names : List Bytes) (slot upvalue : UInt8 → Instruction)
    (instr : Instruction) : Prop :=
  if x.level = 0 then instr = slot x.decl.slot
  else ∃ i, instr = upvalue i ∧ names[i.toNat]? = some x.decl.name

def ExactlyTaken (locals : List LocalVar) (outer : List Bytes) :
    List Bytes → List UpvalueDesc → Prop :=
  Forall₂ fun name desc =>
    match locals.find? fun v => v.name = name with
    | some v => desc = .local v.slot
    | none => ∃ i, desc = .upvalue i ∧ outer[i.toNat]? = some name

mutual

def Asm.Exact (prototypes : List FunctionProto) (constants : List Constant)
    (names : List Bytes) : Asm → Instruction → Prop
  | .plain instr, i => i = instr
  | .constant k, i => ∃ idx, i = .pushK idx ∧ constants[idx.toNat]? = some k
  | .getField name, i => ∃ idx, i = .getField idx ∧ constants[idx.toNat]? = some (.string name)
  | .setField name, i => ∃ idx, i = .setField idx ∧ constants[idx.toNat]? = some (.string name)
  | .load x, i => x.ExactlyAccessed names .loadLocal .loadUp i
  | .store x, i => x.ExactlyAccessed names .storeLocal .storeUp i
  | .jump kind distance, i => ∃ off, i = kind.instruction off ∧ off.toInt = distance
  | .breakOut, _ => False
  | .call n, i => ∃ argc, i = .call argc ∧ argc.toNat = n
  | .pcall n, i => ∃ argc, i = .pcall argc ∧ argc.toNat = n
  | .concat n, i => ∃ count, i = .concat count ∧ count.toNat = n
  | .closure locals params code, i => ∃ idx proto inner,
      i = .closure idx ∧ prototypes[idx.toNat]? = some proto ∧ proto.paramCount.toNat = params ∧
      proto.upvalueCount.toNat = inner.length ∧ inner.Nodup ∧
      (∀ name, name ∈ inner ↔ ∃ level, (name, level) ∈ captures code) ∧
      ExactlyTaken locals names inner proto.upvalues ∧
      Exact prototypes proto.constants inner code proto.code

/-- The instructions carry out the code, and each operand is exactly what the code says. -/
def Exact (prototypes : List FunctionProto) (constants : List Constant)
    (names : List Bytes) : List Asm → List Instruction → Prop
  | [], [] => True
  | asm :: rest, instr :: instrs =>
    asm.Exact prototypes constants names instr ∧ Exact prototypes constants names rest instrs
  | _, _ => False

end

theorem length_eq_captureCount {inner : List Bytes} {code : List Asm} (hnodup : inner.Nodup)
    (hmem : ∀ name, name ∈ inner ↔ ∃ level, (name, level) ∈ captures code) :
    inner.length = captureCount code := by
  have hperm : inner.Perm ((captures code).map (·.1)).dedup := by
    refine (List.perm_ext_iff_of_nodup hnodup (List.nodup_dedup _)).mpr fun name => ?_
    rw [hmem, List.mem_dedup, List.mem_map]
    constructor
    · rintro ⟨level, h⟩
      exact ⟨_, h, rfl⟩
    · rintro ⟨⟨_, level⟩, h, rfl⟩
      exact ⟨level, h⟩
  exact hperm.length_eq

mutual

theorem Asm.Exact.fits {prototypes : List FunctionProto} {constants : List Constant}
    {names : List Bytes} {instr : Instruction} :
    {asm : Asm} → asm.Exact prototypes constants names instr → asm.Fits
  | .plain _, _ | .constant _, _ | .getField _, _ | .setField _, _ | .load _, _ | .store _, _ =>
    trivial
  | .jump _ _, ⟨off, _, hoff⟩ => by
    have hlo := off.le_toInt
    have hhi := off.toInt_lt
    constructor <;> omega
  | .call _, ⟨n, _, hn⟩ | .pcall _, ⟨n, _, hn⟩ | .concat _, ⟨n, _, hn⟩ => hn ▸ n.toNat_lt
  | .closure _ _ _, ⟨_, proto, _, _, _, hparams, hcount, hnodup, hmem, _, hcode⟩ =>
    ⟨hparams ▸ proto.paramCount.toNat_lt,
      length_eq_captureCount hnodup hmem ▸ hcount ▸ proto.upvalueCount.toNat_lt, hcode.fits⟩

theorem Exact.fits {prototypes : List FunctionProto} {constants : List Constant}
    {names : List Bytes} : {code : List Asm} → {instrs : List Instruction} →
    Exact prototypes constants names code instrs → Fits code
  | [], [], _ => trivial
  | _ :: _, _ :: _, ⟨hasm, hrest⟩ => ⟨hasm.fits, hrest.fits⟩

end

section Widths

variable {constants : List Constant} {names : List Bytes}

theorem Constant.At.exact {k : Constant} {idx : UInt16} (h : k.At constants idx) :
    constants[idx.toNat]? = some k := by
  obtain ⟨n, hget, hlt, rfl⟩ := h
  rw [UInt16.toNat_ofNat_of_lt' (hlt.trans (by decide)), hget]

/-- An upvalue of a function that has few enough of them is told by its index. -/
theorem getElem?_ofNat {name : Bytes} {i : Nat} (hnames : names.length < 256)
    (hget : names[i]? = some name) : names[(UInt8.ofNat i).toNat]? = some name := by
  have hlt := (List.getElem?_eq_some_iff.mp hget).1
  rw [UInt8.toNat_ofNat_of_lt' (hlt.trans hnames), hget]

theorem Var.Accessed.exact {x : Var} {slot upvalue : UInt8 → Instruction} {instr : Instruction}
    (hnames : names.length < 256) (h : x.Accessed names slot upvalue instr) :
    x.ExactlyAccessed names slot upvalue instr := by
  unfold Var.Accessed at h
  unfold Var.ExactlyAccessed
  split_ifs with hlevel
  · rwa [if_pos hlevel] at h
  · rw [if_neg hlevel] at h
    obtain ⟨i, hget, rfl⟩ := h
    exact ⟨.ofNat i, rfl, getElem?_ofNat hnames hget⟩

theorem TakenFrom.exact {locals : List LocalVar} {inner : List Bytes} {descs : List UpvalueDesc}
    (hnames : names.length < 256) (h : TakenFrom locals names inner descs) :
    ExactlyTaken locals names inner descs := by
  refine h.imp fun name desc hdesc => ?_
  cases hfind : locals.find? fun v => v.name = name with
  | some v =>
    rw [hfind] at hdesc
    exact hdesc
  | none =>
    rw [hfind] at hdesc
    obtain ⟨i, hget, rfl⟩ := hdesc
    exact ⟨.ofNat i, rfl, getElem?_ofNat hnames hget⟩

end Widths

mutual

theorem Asm.Assembled.exact {prototypes : List FunctionProto} {constants : List Constant}
    {names : List Bytes} {instr : Instruction} (hnames : names.length < 256) :
    {asm : Asm} → asm.Assembled prototypes constants names instr → asm ≠ .breakOut → asm.Fits →
      asm.Exact prototypes constants names instr
  | .plain _, h, _, _ => h
  | .constant _, ⟨idx, hat, hinstr⟩, _, _ | .getField _, ⟨idx, hat, hinstr⟩, _, _
  | .setField _, ⟨idx, hat, hinstr⟩, _, _ => ⟨idx, hinstr, hat.exact⟩
  | .load _, h, _, _ | .store _, h, _, _ => Var.Accessed.exact hnames h
  | .jump _ _, h, _, ⟨hlo, hhi⟩ => ⟨_, h, Int16.toInt_ofInt_of_le (by omega) (by omega)⟩
  | .breakOut, _, hne, _ => absurd rfl hne
  | .call _, h, _, hfits | .pcall _, h, _, hfits | .concat _, h, _, hfits =>
    ⟨_, h, UInt8.toNat_ofNat_of_lt' hfits⟩
  | .closure _ _ _, ⟨n, proto, inner, hinstr, _, hlt, hget, hparams, hcount, hnodup, hmem, hbreaks,
      htaken, hcode⟩, _, ⟨hfewParams, hfew, hfits⟩ => by
    rw [← length_eq_captureCount hnodup hmem] at hfew
    refine ⟨.ofNat n, proto, inner, hinstr, ?_, ?_, ?_, hnodup, hmem, htaken.exact hnames,
      Assembled.exact hfew hcode hbreaks hfits⟩
    · rw [UInt16.toNat_ofNat_of_lt' (hlt.trans (by decide)), hget]
    · rw [hparams, UInt8.toNat_ofNat_of_lt' hfewParams]
    · rw [hcount, UInt8.toNat_ofNat_of_lt' hfew]

theorem Assembled.exact {prototypes : List FunctionProto} {constants : List Constant}
    {names : List Bytes} (hnames : names.length < 256) :
    {code : List Asm} → {instrs : List Instruction} →
      Assembled prototypes constants names code instrs → .breakOut ∉ code → Fits code →
      Exact prototypes constants names code instrs
  | [], [], _, _, _ => trivial
  | _ :: _, _ :: _, ⟨hasm, hrest⟩, hbreaks, ⟨hfits, hfitsRest⟩ =>
    ⟨hasm.exact hnames (fun h => hbreaks (h ▸ List.mem_cons_self)) hfits,
      hrest.exact hnames (fun h => hbreaks (List.mem_cons_of_mem _ h)) hfitsRest⟩

end

namespace Compiler

/-- Every operand of the program, down to those of its functions, is exactly what the
symbolic code of the block says. -/
def ExactlyCarriesOut (program : CompiledProgram) (block : Block) : Prop :=
  ∃ proto, program.prototypes[0]? = some proto ∧ proto.paramCount = 0 ∧ proto.upvalues = [] ∧
    Exact program.prototypes proto.constants [] block.symbolic proto.code

theorem ExactlyCarriesOut.fits {program : CompiledProgram} {block : Block}
    (h : ExactlyCarriesOut program block) : Fits block.symbolic := by
  obtain ⟨proto, -, -, -, hexact⟩ := h
  exact hexact.fits

end Compiler

end Proveno
