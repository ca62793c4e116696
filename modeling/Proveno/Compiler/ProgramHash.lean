import Proveno.Isa.Opcodes
import Proveno.Types.Digest

/-! What the SHA-256 program hash is fed, and that nothing but the line tables and
`max_stack` is lost in it. -/

namespace Proveno

/-- The instruction with this opcode number and operand. -/
def Instruction.ofOpcode (id : Nat) (operand : Int) : Option Instruction :=
  match id with
  | 0 => some .nop
  | 1 => some (.pushK (UInt16.ofNat operand.toNat))
  | 2 => some .pushNil
  | 3 => some .pushTrue
  | 4 => some .pushFalse
  | 5 => some .pop
  | 6 => some .dup
  | 7 => some (.loadLocal (UInt8.ofNat operand.toNat))
  | 8 => some (.storeLocal (UInt8.ofNat operand.toNat))
  | 9 => some (.loadUp (UInt8.ofNat operand.toNat))
  | 10 => some (.storeUp (UInt8.ofNat operand.toNat))
  | 11 => some .newTable
  | 12 => some .getTable
  | 13 => some .setTable
  | 14 => some (.getField (UInt16.ofNat operand.toNat))
  | 15 => some (.setField (UInt16.ofNat operand.toNat))
  | 16 => some .add
  | 17 => some .sub
  | 18 => some .mul
  | 19 => some .iDiv
  | 20 => some .mod
  | 21 => some .neg
  | 22 => some .eq
  | 23 => some .ne
  | 24 => some .lt
  | 25 => some .le
  | 26 => some .gt
  | 27 => some .ge
  | 28 => some .not
  | 29 => some (.and (Int16.ofInt operand))
  | 30 => some (.or (Int16.ofInt operand))
  | 31 => some (.concat (UInt8.ofNat operand.toNat))
  | 32 => some .len
  | 33 => some (.jmp (Int16.ofInt operand))
  | 34 => some (.jmpIf (Int16.ofInt operand))
  | 35 => some (.jmpIfNot (Int16.ofInt operand))
  | 36 => some (.call (UInt8.ofNat operand.toNat))
  | 37 => some (.ret (UInt8.ofNat operand.toNat))
  | 38 => some (.closure (UInt16.ofNat operand.toNat))
  | 39 => some .toolCall
  | 40 => some (.pcall (UInt8.ofNat operand.toNat))
  | 41 => some .log
  | 42 => some .error
  | 43 => some (.iterInitSorted (Int16.ofInt operand))
  | 44 => some (.iterInitArray (Int16.ofInt operand))
  | 45 => some (.iterNext (Int16.ofInt operand))
  | _ => none

theorem Instruction.ofOpcode_opcodeId (i : Instruction) :
    ofOpcode i.opcodeId i.operand = some i := by
  cases i <;> first | rfl | simp only [ofOpcode, opcodeId, operand, Int.toNat_natCast,
    UInt8.ofNat_toNat, UInt16.ofNat_toNat, Int16.ofInt_toInt]

theorem Instruction.opcodeId_lt (i : Instruction) : i.opcodeId < 46 := by
  cases i <;> exact Nat.le_of_ble_eq_true rfl

theorem Instruction.operand_bounds (i : Instruction) :
    -2 ^ 15 ≤ i.operand ∧ i.operand < 2 ^ 16 := by
  have hbyte (n : UInt8) : n.toNat < 256 := n.toNat_lt
  have hword (n : UInt16) : n.toNat < 65536 := n.toNat_lt
  have hlow (n : Int16) : -2 ^ 15 ≤ n.toInt := n.le_toInt
  have hhigh (n : Int16) : n.toInt < 2 ^ 15 := n.toInt_lt
  cases i <;> simp only [operand] <;> grind

namespace ProgramHash

/-- `(operand as u64)`. -/
def operandBits (operand : Int) : Nat := (operand % 2 ^ 64).toNat

def upvalueBytes : UpvalueDesc → Bytes
  | .local i => [0x00, i]
  | .upvalue i => [0x01, i]

def constantBytes : Constant → Bytes
  | .nil => [0x00]
  | .boolean b => [0x01, if b then 1 else 0]
  | .integer n => 0x02 :: bigEndian 8 n.toUInt64.toNat
  | .string bytes => 0x03 :: (be32 bytes.length ++ bytes)
  | .proto idx => 0x04 :: bigEndian 2 idx.toNat

def instructionBytes (i : Instruction) : Bytes :=
  UInt8.ofNat i.opcodeId :: bigEndian 8 (operandBits i.operand)

def protoBytes (p : FunctionProto) : Bytes :=
  [p.paramCount, p.localCount, p.upvalueCount] ++
    (be32 p.upvalues.length ++ p.upvalues.flatMap upvalueBytes) ++
    (be32 p.constants.length ++ p.constants.flatMap constantBytes) ++
    (be32 p.code.length ++ p.code.flatMap instructionBytes)

def preimage (prototypes : List FunctionProto) : Bytes :=
  be32 prototypes.length ++ prototypes.flatMap protoBytes

def computeProgramHashSha256 (sha256 : Sha256) (prototypes : List FunctionProto) : Digest :=
  sha256 (preimage prototypes)

/-- Without the parts the hash leaves out. -/
def covered (p : FunctionProto) : FunctionProto := { p with lines := [], maxStack := 0 }

def ConstantFits : Constant → Prop
  | .string bytes => bytes.length < 2 ^ 32
  | _ => True

structure ProtoFits (p : FunctionProto) : Prop where
  upvalues : p.upvalues.length < 2 ^ 32
  constants : p.constants.length < 2 ^ 32
  code : p.code.length < 2 ^ 32
  strings : ∀ k ∈ p.constants, ConstantFits k

structure Fits (prototypes : List FunctionProto) : Prop where
  length : prototypes.length < 2 ^ 32
  protos : ∀ p ∈ prototypes, ProtoFits p

theorem operandBits_lt (operand : Int) : operandBits operand < 256 ^ 8 := by
  rw [operandBits]
  omega

theorem operandBits_inj {i j : Instruction} (h : operandBits i.operand = operandBits j.operand) :
    i.operand = j.operand := by
  have hi := i.operand_bounds
  have hj := j.operand_bounds
  simp only [operandBits] at h
  omega

theorem instructionBytes_delimited : Delimited (fun _ => True) id instructionBytes := by
  refine .of_width 9 (fun i _ => by simp [instructionBytes, bigEndian_length]) ?_
  intro i j _ _ heq
  obtain ⟨hid, hbits⟩ := List.cons.inj heq
  have hoperand : i.operand = j.operand :=
    operandBits_inj (bigEndian_inj (operandBits_lt _) (operandBits_lt _) hbits)
  have hopcode : i.opcodeId = j.opcodeId := by
    have hnat := congrArg UInt8.toNat hid
    have hi := i.opcodeId_lt
    have hj := j.opcodeId_lt
    simp only [UInt8.toNat_ofNat'] at hnat
    omega
  have hsome : some i = some j := by
    rw [← i.ofOpcode_opcodeId, ← j.ofOpcode_opcodeId, hopcode, hoperand]
  exact Option.some.inj hsome

theorem upvalueBytes_delimited : Delimited (fun _ => True) id upvalueBytes := by
  refine .of_width 2 (fun u _ => by cases u <;> rfl) ?_
  intro u v _ _ heq
  cases u <;> cases v <;> simp_all [upvalueBytes]

theorem constantBytes_delimited : Delimited ConstantFits id constantBytes := by
  intro k l r s hk hl heq
  cases k <;> cases l <;> simp only [constantBytes, List.cons_append, List.cons.injEq,
    List.nil_append] at heq
  case nil.nil => exact ⟨rfl, heq.2⟩
  case boolean.boolean a b => cases a <;> cases b <;> simp_all
  case integer.integer m n =>
    obtain ⟨hbits, hr⟩ := bigEndian_delimited 8 m.toUInt64.toNat_lt n.toUInt64.toNat_lt heq.2
    have hint : m.toUInt64 = n.toUInt64 := UInt64.toNat_inj.mp hbits
    exact ⟨congrArg Constant.integer (Int64.toBitVec_inj.mp (congrArg UInt64.toBitVec hint)), hr⟩
  case string.string a b =>
    obtain ⟨hbytes, hr⟩ := bytes_delimited hk hl heq.2
    exact ⟨congrArg Constant.string hbytes, hr⟩
  case proto.proto i j =>
    obtain ⟨hidx, hr⟩ := bigEndian_delimited 2 i.toNat_lt j.toNat_lt heq.2
    exact ⟨congrArg Constant.proto (UInt16.toNat_inj.mp hidx), hr⟩
  all_goals simp at heq

theorem protoBytes_delimited : Delimited ProtoFits covered protoBytes := by
  have hcounts : Delimited ProtoFits (fun p => [p.paramCount, p.localCount, p.upvalueCount])
      fun p => [p.paramCount, p.localCount, p.upvalueCount] :=
    .of_width 3 (fun _ _ => rfl) fun _ _ _ _ heq => heq
  have hupvalues := (be32_delimited.counted upvalueBytes_delimited).comap ProtoFits
    FunctionProto.upvalues fun p hp => ⟨hp.upvalues, fun _ _ => trivial⟩
  have hconstants := (be32_delimited.counted constantBytes_delimited).comap ProtoFits
    FunctionProto.constants fun p hp => ⟨hp.constants, hp.strings⟩
  have hcode := (be32_delimited.counted instructionBytes_delimited).comap ProtoFits
    FunctionProto.code fun p hp => ⟨hp.code, fun _ _ => trivial⟩
  refine Delimited.coarsen (((hcounts.append hupvalues).append hconstants).append hcode) ?_
  rintro ⟨⟩ ⟨⟩ hview
  simp_all [covered]

theorem preimage_delimited : Delimited Fits (List.map covered) preimage :=
  (be32_delimited.counted protoBytes_delimited).mono fun _ h => ⟨h.length, h.protos⟩

/-- Two programs with one preimage differ in line tables and `max_stack` at most. -/
theorem preimage_inj {ps qs : List FunctionProto} (hps : Fits ps) (hqs : Fits qs)
    (heq : preimage ps = preimage qs) : ps.map covered = qs.map covered :=
  preimage_delimited.eq_view hps hqs heq

/-- `return 1`, as compiled from some line. -/
def returnOne (line : UInt32) (maxStack : UInt16) : FunctionProto where
  code := [.pushK 0, .ret 1]
  constants := [.integer 1]
  localCount := 0
  upvalueCount := 0
  paramCount := 0
  lines := [line, line]
  maxStack
  upvalues := []

theorem returnOne_fits (line : UInt32) (maxStack : UInt16) : Fits [returnOne line maxStack] where
  length := by simp
  protos := by
    intro p hp
    obtain rfl := List.mem_singleton.mp hp
    exact ⟨by simp [returnOne], by simp [returnOne], by simp [returnOne],
      by simp [returnOne, ConstantFits]⟩

theorem preimage_inj_returnOne :
    [returnOne 1 1].map covered = [returnOne 7 9].map covered :=
  preimage_inj (returnOne_fits 1 1) (returnOne_fits 7 9) rfl

end ProgramHash

end Proveno
