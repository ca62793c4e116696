import Proveno.Types.Digest

/-! The Poseidon2 sponge over BN254 field elements. Its permutation is not part of
the repository and is a parameter. -/

namespace Proveno

def bn254Modulus : Nat :=
  21888242871839275222246405745257275088548364400416034343698204186575808495617

abbrev FieldElement := Fin bn254Modulus

instance : NeZero bn254Modulus := ⟨by decide⟩

namespace Poseidon2

def fieldOf (n : Nat) : FieldElement := Fin.ofNat bn254Modulus n

/-- Three elements of rate and the capacity. -/
structure State where
  first : FieldElement
  second : FieldElement
  third : FieldElement
  capacity : FieldElement
  deriving DecidableEq

abbrev Permutation := State → State

def absorb (s : State) (a b c : FieldElement) : State :=
  { s with first := s.first + a, second := s.second + b, third := s.third + c }

/-- The state after the full chunks, and what is left of the input. -/
def absorbChunks (permute : Permutation) : State → List FieldElement → State × List FieldElement
  | s, a :: b :: c :: rest => absorbChunks permute (permute (absorb s a b c)) rest
  | s, remainder => (s, remainder)

def poseidon2Hash (permute : Permutation) (inputs : List FieldElement) : FieldElement :=
  let iv := fieldOf inputs.length * fieldOf (2 ^ 64)
  let (state, remainder) := absorbChunks permute ⟨0, 0, 0, iv⟩ inputs
  let state := absorb state (remainder.getD 0 0) (remainder.getD 1 0) (remainder.getD 2 0)
  if inputs.length = 0 ∨ inputs.length % 3 ≠ 0 then (permute state).first else state.first

def fieldToBeBytes32 (f : FieldElement) : Digest := ⟨bigEndian 32 f.val, bigEndian_length 32 _⟩

def bytesToFields (bytes : Bytes) : List FieldElement := bytes.map fun b => fieldOf b.toNat

def u32ToField (n : UInt32) : FieldElement := fieldOf n.toNat

def u8ToField (b : UInt8) : FieldElement := fieldOf b.toNat

theorem fieldOf_inj {m n : Nat} (hm : m < bn254Modulus) (hn : n < bn254Modulus)
    (h : fieldOf m = fieldOf n) : m = n := by
  have hval := congrArg Fin.val h
  simpa [fieldOf, Nat.mod_eq_of_lt hm, Nat.mod_eq_of_lt hn] using hval

theorem byte_lt_modulus (b : UInt8) : b.toNat < bn254Modulus :=
  lt_trans b.toNat_lt (by decide)

theorem u8ToField_injective : Function.Injective u8ToField := fun a b h =>
  UInt8.toNat_inj.mp (fieldOf_inj (byte_lt_modulus a) (byte_lt_modulus b) h)

theorem bytesToFields_injective : Function.Injective bytesToFields :=
  List.map_injective_iff.mpr u8ToField_injective

theorem modulus_lt : bn254Modulus < 256 ^ 32 := by norm_num [bn254Modulus]

theorem fieldToBeBytes32_injective : Function.Injective fieldToBeBytes32 := by
  intro a b h
  have hbytes : bigEndian 32 a.val = bigEndian 32 b.val := by
    simpa only [fieldToBeBytes32, Digest.mk.injEq] using h
  have ha := a.isLt.trans modulus_lt
  have hb := b.isLt.trans modulus_lt
  exact Fin.ext (bigEndian_inj ha hb hbytes)

end Poseidon2

end Proveno
