import Proveno.Compiler.Functions

/-! What the operands of an instruction refer to, and how the code generator gives out the
slots: the variables of the open blocks and the temporary after them are at consecutive
slots, below the number that the function reserves. -/

namespace Proveno

open List (Forall₂)

def UpvalueDesc.InRange (locals upvalues : Nat) : UpvalueDesc → Prop
  | .local slot => slot.toNat < locals
  | .upvalue idx => idx.toNat < upvalues

/-- What the operand refers to is there, in a function with so many slots and upvalues. -/
def Instruction.InRange (locals upvalues : Nat) (constants : List Constant)
    (prototypes : List FunctionProto) : Instruction → Prop
  | .loadLocal slot | .storeLocal slot => slot.toNat < locals
  | .loadUp idx | .storeUp idx => idx.toNat < upvalues
  | .pushK idx => idx.toNat < constants.length
  | .getField idx | .setField idx => ∃ name, constants[idx.toNat]? = some (.string name)
  | .closure idx => ∃ inner, prototypes[idx.toNat]? = some inner ∧
      ∀ desc ∈ inner.upvalues, desc.InRange locals upvalues
  | .concat n => 2 ≤ n.toNat
  | _ => True

/-- The operand refers to nothing. -/
def Instruction.Free (instr : Instruction) : Prop :=
  ∀ locals upvalues constants prototypes, instr.InRange locals upvalues constants prototypes

/-- The operand refers to something that has to be there. -/
def Instruction.refers : Instruction → Bool
  | .loadLocal _ | .storeLocal _ | .loadUp _ | .storeUp _ | .pushK _ | .getField _ | .setField _
  | .closure _ | .concat _ => true
  | _ => false

theorem Instruction.Free.of_refers {instr : Instruction} (h : instr.refers = false) :
    instr.Free := by
  intro locals upvalues constants prototypes
  cases instr with
  | loadLocal | storeLocal | loadUp | storeUp | pushK | getField | setField | closure | concat =>
    cases h
  | _ => trivial

def FunctionProto.OperandsInRange (prototypes : List FunctionProto) (proto : FunctionProto) :
    Prop :=
  ∀ instr ∈ proto.code, instr.InRange proto.localCount.toNat proto.upvalueCount.toNat
    proto.constants prototypes

def Point.slots (p : Point) : List UInt8 := p.temps ++ p.locals.map (·.slot)

theorem UpvalueDesc.InRange.mono {locals locals' upvalues upvalues' : Nat} {desc : UpvalueDesc}
    (h : desc.InRange locals upvalues) (hlocals : locals ≤ locals')
    (hupvalues : upvalues ≤ upvalues') : desc.InRange locals' upvalues' := by
  cases desc with
  | «local» slot => exact Nat.lt_of_lt_of_le h hlocals
  | upvalue idx => exact Nat.lt_of_lt_of_le h hupvalues

/-- Each prototype has its place, with no more upvalues. -/
def Covers (prototypes prototypes' : List FunctionProto) : Prop :=
  ∀ (n : Nat) inner, prototypes[n]? = some inner →
    ∃ inner', prototypes'[n]? = some inner' ∧ inner'.upvalues ⊆ inner.upvalues

theorem Covers.of_grown {prototypes prototypes' : List FunctionProto}
    (h : prototypes <+: prototypes') : Covers prototypes prototypes' := by
  intro n inner hget
  obtain ⟨more, rfl⟩ := h
  refine ⟨inner, ?_, List.Subset.refl _⟩
  rw [List.getElem?_append_left (List.getElem?_eq_some_iff.mp hget).1, hget]

theorem Instruction.InRange.mono {locals locals' upvalues upvalues' : Nat}
    {constants constants' : List Constant} {prototypes prototypes' : List FunctionProto}
    {instr : Instruction} (h : instr.InRange locals upvalues constants prototypes)
    (hlocals : locals ≤ locals') (hupvalues : upvalues ≤ upvalues')
    (hconstants : constants <+: constants') (hprototypes : Covers prototypes prototypes') :
    instr.InRange locals' upvalues' constants' prototypes' := by
  have hstring {idx : UInt16} (h : ∃ name, constants[idx.toNat]? = some (Constant.string name)) :
      ∃ name, constants'[idx.toNat]? = some (Constant.string name) := by
    obtain ⟨name, hget⟩ := h
    obtain ⟨more, rfl⟩ := hconstants
    exact ⟨name, by rw [List.getElem?_append_left (List.getElem?_eq_some_iff.mp hget).1, hget]⟩
  cases instr with
  | loadLocal slot | storeLocal slot => exact Nat.lt_of_lt_of_le h hlocals
  | loadUp idx | storeUp idx => exact Nat.lt_of_lt_of_le h hupvalues
  | pushK idx => exact Nat.lt_of_lt_of_le h hconstants.length_le
  | getField idx | setField idx => exact hstring h
  | closure idx =>
    obtain ⟨inner, hget, hdescs⟩ := h
    obtain ⟨inner', hget', hsub⟩ := hprototypes _ inner hget
    exact ⟨inner', hget', fun desc hdesc => (hdescs desc (hsub hdesc)).mono hlocals hupvalues⟩
  | concat n => exact h
  | _ => trivial

/-- As `OperandsInRange`, for the exact number of upvalues. -/
structure FunctionProto.Bounded (prototypes : List FunctionProto) (proto : FunctionProto) :
    Prop where
  code : ∀ instr ∈ proto.code, instr.InRange proto.localCount.toNat proto.upvalues.length
    proto.constants prototypes
  count : proto.upvalueCount = .ofNat proto.upvalues.length

theorem FunctionProto.Bounded.mono {prototypes prototypes' : List FunctionProto}
    {proto : FunctionProto} (h : proto.Bounded prototypes)
    (hcovers : Covers prototypes prototypes') : proto.Bounded prototypes' :=
  ⟨fun instr hmem => (h.code instr hmem).mono le_rfl le_rfl List.prefix_rfl hcovers, h.count⟩

theorem FunctionProto.Bounded.operandsInRange {prototypes : List FunctionProto}
    {proto : FunctionProto} (h : proto.Bounded prototypes) (hfew : proto.upvalues.length ≤ 255) :
    proto.OperandsInRange prototypes := by
  have hcount : proto.upvalueCount.toNat = proto.upvalues.length := by
    rw [h.count, UInt8.toNat_ofNat_of_lt' (Nat.lt_succ_of_le hfew)]
  intro instr hmem
  rw [hcount]
  exact h.code instr hmem

theorem toNat_le_max (a b : UInt8) :
    a.toNat ≤ (max a b).toNat ∧ b.toNat ≤ (max a b).toNat := by
  rw [show max a b = if a ≤ b then b else a from rfl]
  split_ifs with hle
  · exact ⟨UInt8.le_iff_toNat_le.mp hle, le_rfl⟩
  · exact ⟨le_rfl, by rw [UInt8.le_iff_toNat_le] at hle; omega⟩

namespace FunctionScope

def Allows (s : FunctionScope) (prototypes : List FunctionProto) : Instruction → Prop :=
  Instruction.InRange s.maxLocals.toNat s.upvalues.length s.proto.constants prototypes

/-- The slots in use are the first ones, the last first, with so many temporaries. -/
structure Laid (temps : Nat) (prototypes : List FunctionProto) (s : FunctionScope) : Prop where
  temps : s.temps.length = temps
  slots : s.point.slots.map (·.toNat) = (List.range s.nextSlot.toNat).reverse
  few : s.blocks.flatten.length ≤ 201
  room : s.nextSlot.toNat ≤ s.maxLocals.toNat
  code : ∀ instr ∈ s.proto.code, s.Allows prototypes instr

namespace Laid

variable {s s' : FunctionScope} {temps : Nat} {prototypes prototypes' : List FunctionProto}

theorem nodup (h : s.Laid temps prototypes) : s.point.slots.Nodup := by
  refine List.Nodup.of_map (·.toNat) ?_
  rw [h.slots]
  exact List.nodup_reverse.mpr List.nodup_range

theorem nextSlot (h : s.Laid temps prototypes) :
    s.nextSlot.toNat = temps + s.blocks.flatten.length := by
  have hlength := congrArg List.length h.slots
  simp only [Point.slots, point, List.length_map, List.length_append, List.length_reverse,
    List.length_range, h.temps] at hlength
  exact hlength.symm

theorem lt_maxLocals (h : s.Laid temps prototypes) {v : LocalVar} (hv : v ∈ s.blocks.flatten) :
    v.slot.toNat < s.maxLocals.toNat := by
  have hmem : v.slot.toNat ∈ s.point.slots.map (·.toNat) :=
    List.mem_map_of_mem (List.mem_append_right _ (List.mem_map_of_mem hv))
  rw [h.slots, List.mem_reverse, List.mem_range] at hmem
  exact hmem.trans_le h.room

theorem captures (h : s.Laid temps prototypes) (hs : s.Captures s')
    (hprototypes : prototypes <+: prototypes') : s'.Laid temps prototypes' := by
  obtain ⟨more, rfl⟩ := hs
  refine ⟨h.temps, h.slots, h.few, h.room, fun instr hmem => ?_⟩
  exact (h.code instr hmem).mono le_rfl (by simp) List.prefix_rfl (.of_grown hprototypes)

theorem reserve (h : s.Laid temps prototypes) (hlt : s.nextSlot.toNat < 255)
    (blocks : List (List LocalVar)) (slots : List UInt8) {temps' : Nat}
    (hslots : Point.slots ⟨blocks.flatten, slots⟩ = s.nextSlot :: s.point.slots)
    (hfew : blocks.flatten.length ≤ 201) (htemps : slots.length = temps') :
    Laid temps' prototypes { s.reserve (s.nextSlot + 1) with blocks, temps := slots } := by
  have hnext : (s.nextSlot + 1).toNat = s.nextSlot.toNat + 1 := by
    rw [UInt8.toNat_add, Nat.mod_eq_of_lt]
    · rfl
    · exact Nat.succ_lt_succ hlt
  have hmax := toNat_le_max s.maxLocals (s.nextSlot + 1)
  refine ⟨htemps, ?_, hfew, hmax.2, fun instr hmem => ?_⟩
  · rw [point, hslots, List.map_cons, h.slots]
    change _ = (List.range (s.nextSlot + 1).toNat).reverse
    rw [hnext, List.range_succ, List.reverse_append, List.reverse_singleton,
      List.singleton_append]
  · exact (h.code instr hmem).mono hmax.1 le_rfl List.prefix_rfl (.of_grown List.prefix_rfl)

theorem forall_captures {ss ss' : List FunctionScope} (h : Forall₂ Captures ss ss')
    (hprototypes : prototypes <+: prototypes') (hlaid : ∀ s ∈ ss, s.Laid temps prototypes) :
    ∀ s ∈ ss', s.Laid temps prototypes' := by
  induction h with
  | nil => exact List.forall_mem_nil _
  | cons hs _ ih =>
    rw [List.forall_mem_cons] at hlaid ⊢
    exact ⟨hlaid.1.captures hs hprototypes, ih hlaid.2⟩

end Laid

end FunctionScope

/-- What is taken from a function is in one of its slots or among its upvalues. -/
theorem Compiler.Source.inRange {s : FunctionScope} {rest : List FunctionScope} {temps : Nat}
    {prototypes : List FunctionProto} {u : Bytes × UpvalueDesc} (h : Source (s :: rest) u)
    (hs : s.Laid temps prototypes) : u.2.InRange s.maxLocals.toNat s.upvalues.length := by
  rw [Source] at h
  cases hfind : s.findLocal u.1 with
  | some v =>
    rw [hfind] at h
    rw [show u.2 = .local v.slot from h]
    exact hs.lt_maxLocals (List.mem_of_find?_eq_some hfind)
  | none =>
    rw [hfind] at h
    obtain ⟨i, desc, hget, hdesc⟩ := h
    rw [hdesc]
    have hlt := (List.getElem?_eq_some_iff.mp hget).1
    have hle : (UInt8.ofNat i).toNat ≤ i := by
      rw [UInt8.toNat_ofNat']
      exact Nat.mod_le _ _
    exact hle.trans_lt hlt

end Proveno
