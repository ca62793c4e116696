import Proveno.Host.Poseidon2
import Proveno.Host.Tape
import Proveno.Lib.Commitment

/-! The commitments to a tape, with Poseidon2 and with SHA-256, and that they bind
its entries and their attestations. -/

namespace Proveno

open Poseidon2

/-- `(tag, payload)` of an entry. -/
def TapeEntry.parts : TapeEntry → UInt8 × Bytes
  | .ok response => (0x00, response)
  | .err message => (0x01, message)

namespace OracleTape

def responseInput (tag : UInt8) (payload : Bytes) : List FieldElement :=
  u8ToField tag :: u32ToField (UInt32.ofNat payload.length) :: bytesToFields payload

def responseLeaf (permute : Permutation) (tag : UInt8) (payload : Bytes) : FieldElement :=
  poseidon2Hash permute (responseInput tag payload)

def attInput (attestation : Bytes) : List FieldElement :=
  u32ToField (UInt32.ofNat attestation.length) :: bytesToFields attestation

def attLeaf (permute : Permutation) (attestation : Bytes) : FieldElement :=
  poseidon2Hash permute (attInput attestation)

def commitmentHash (permute : Permutation) (t : OracleTape) : Digest :=
  fieldToBeBytes32 (poseidon2Hash permute
    (t.entries.map fun entry => responseLeaf permute entry.parts.1 entry.parts.2))

def attestationCommitment (permute : Permutation) (t : OracleTape) : Digest :=
  fieldToBeBytes32 (poseidon2Hash permute (t.entries.mapIdx fun i entry =>
    poseidon2Hash permute
      [responseLeaf permute entry.parts.1 entry.parts.2, attLeaf permute (t.attestationAt i)]))

def responseInputSha256 (tag : UInt8) (payload : Bytes) : Bytes :=
  tag :: (be32 payload.length ++ payload)

def responseLeafSha256 (sha256 : Sha256) (tag : UInt8) (payload : Bytes) : Digest :=
  sha256 (responseInputSha256 tag payload)

def attInputSha256 (attestation : Bytes) : Bytes := be32 attestation.length ++ attestation

def attLeafSha256 (sha256 : Sha256) (attestation : Bytes) : Digest :=
  sha256 (attInputSha256 attestation)

def commitmentHashSha256 (sha256 : Sha256) (t : OracleTape) : Digest :=
  sha256 (be32 t.entries.length ++ t.entries.flatMap fun entry =>
    (responseLeafSha256 sha256 entry.parts.1 entry.parts.2).bytes)

def attestationCommitmentSha256 (sha256 : Sha256) (t : OracleTape) : Digest :=
  sha256 (be32 t.entries.length ++ (t.entries.mapIdx fun i entry =>
    (sha256 ((responseLeafSha256 sha256 entry.parts.1 entry.parts.2).bytes ++
      (attLeafSha256 sha256 (t.attestationAt i)).bytes)).bytes).flatten)

/-- The sequence of (tag, payload), each with its attestation. -/
def attested (t : OracleTape) : List ((UInt8 × Bytes) × Bytes) :=
  t.entries.mapIdx fun i entry => (entry.parts, t.attestationAt i)

/-- Every length is below `2 ^ 32`. -/
structure LengthsFit (t : OracleTape) : Prop where
  entries : t.entries.length < 2 ^ 32
  payloads : ∀ entry ∈ t.entries, entry.parts.2.length < 2 ^ 32
  attestations : ∀ a ∈ t.attestations, a.length < 2 ^ 32

def poseidonScheme (permute : Permutation) :
    TwoLevel (UInt8 × Bytes) Bytes (List FieldElement) FieldElement where
  hash := poseidon2Hash permute
  item e := responseInput e.1 e.2
  attachment := attInput
  pair a b := [a, b]
  outer leaves := leaves

def sha256Scheme (sha256 : Sha256) : TwoLevel (UInt8 × Bytes) Bytes Bytes Digest where
  hash := sha256
  item e := responseInputSha256 e.1 e.2
  attachment := attInputSha256
  pair a b := a.bytes ++ b.bytes
  outer leaves := be32 leaves.length ++ leaves.flatMap Digest.bytes

variable {permute : Permutation} {sha256 : Sha256} {t t₁ t₂ : OracleTape}

theorem attested_map {γ : Type} (t : OracleTape) (f : (UInt8 × Bytes) × Bytes → γ) :
    t.attested.map f = t.entries.mapIdx fun i entry => f (entry.parts, t.attestationAt i) := by
  apply List.ext_getElem?
  intro i
  simp [attested, Function.comp_def]

theorem attested_map_item {γ : Type} (t : OracleTape) (f : UInt8 × Bytes → γ) :
    t.attested.map (fun x => f x.1) = t.entries.map fun entry => f entry.parts := by
  rw [attested_map]
  apply List.ext_getElem?
  intro i
  simp

theorem attested_map_fst (t : OracleTape) :
    t.attested.map Prod.fst = t.entries.map TapeEntry.parts := attested_map_item t id

theorem commitmentHash_eq (permute : Permutation) (t : OracleTape) :
    commitmentHash permute t = fieldToBeBytes32 ((poseidonScheme permute).commit t.attested) := by
  rw [TwoLevel.commit, attested_map_item]
  rfl

theorem attestationCommitment_eq (permute : Permutation) (t : OracleTape) :
    attestationCommitment permute t =
      fieldToBeBytes32 ((poseidonScheme permute).bind t.attested) := by
  rw [TwoLevel.bind, attested_map]
  rfl

theorem commitmentHashSha256_eq (sha256 : Sha256) (t : OracleTape) :
    commitmentHashSha256 sha256 t = (sha256Scheme sha256).commit t.attested := by
  rw [TwoLevel.commit, attested_map_item]
  simp only [commitmentHashSha256, sha256Scheme, TwoLevel.itemLeaf, List.length_map,
    List.flatMap_map]
  rfl

theorem attestationCommitmentSha256_eq (sha256 : Sha256) (t : OracleTape) :
    attestationCommitmentSha256 sha256 t = (sha256Scheme sha256).bind t.attested := by
  rw [TwoLevel.bind, attested_map]
  have hbytes (f : Nat → TapeEntry → Digest) : (t.entries.mapIdx f).flatMap Digest.bytes =
      (t.entries.mapIdx fun i entry => (f i entry).bytes).flatten := by
    have hmap : (t.entries.mapIdx f).map Digest.bytes =
        t.entries.mapIdx fun i entry => (f i entry).bytes := by
      apply List.ext_getElem?
      intro i
      simp [Function.comp_def]
    rw [List.flatMap, hmap]
  simp only [sha256Scheme, List.length_mapIdx, hbytes]
  rfl

theorem attestationAt_length (h : t.LengthsFit) (i : Nat) :
    (t.attestationAt i).length < 2 ^ 32 := by
  rw [attestationAt, List.getD_eq_getElem?_getD]
  cases hi : t.attestations[i]? with
  | none => simp
  | some a => exact h.attestations a (List.mem_of_getElem? hi)

/-- The bounds that the schemes need. -/
def Bounded (xs : List ((UInt8 × Bytes) × Bytes)) : Prop :=
  TwoLevel.Fits (fun e => e.2.length < 2 ^ 32) (fun a => a.length < 2 ^ 32) (· < 2 ^ 32) xs

theorem LengthsFit.attested (h : t.LengthsFit) : Bounded t.attested where
  length := by simpa [OracleTape.attested] using h.entries
  item := by
    intro x hx
    obtain ⟨i, hi, rfl⟩ := List.mem_mapIdx.mp hx
    exact h.payloads _ (List.getElem_mem hi)
  attachment := by
    intro x hx
    obtain ⟨i, hi, rfl⟩ := List.mem_mapIdx.mp hx
    exact attestationAt_length h i

theorem poseidonScheme_separates (permute : Permutation) :
    (poseidonScheme permute).Separates (fun e => e.2.length < 2 ^ 32)
      (fun a => a.length < 2 ^ 32) (· < 2 ^ 32) where
  item_inj := by
    rintro ⟨tag, payload⟩ ⟨tag', payload'⟩ _ _ heq
    obtain ⟨htag, hrest⟩ := List.cons.inj heq
    obtain ⟨_, hpayload⟩ := List.cons.inj hrest
    exact Prod.ext (u8ToField_injective htag) (bytesToFields_injective hpayload)
  attachment_inj := by
    intro a b _ _ heq
    exact bytesToFields_injective (List.cons.inj heq).2
  pair_inj := by
    intro a b a' b' heq
    simpa [poseidonScheme] using heq
  outer_inj := fun _ _ _ _ heq => heq

theorem sha256Scheme_separates (sha256 : Sha256) :
    (sha256Scheme sha256).Separates (fun e => e.2.length < 2 ^ 32)
      (fun a => a.length < 2 ^ 32) (· < 2 ^ 32) where
  item_inj := by
    rintro ⟨tag, payload⟩ ⟨tag', payload'⟩ hlen hlen' heq
    obtain ⟨htag, hrest⟩ := List.cons.inj heq
    have hpayload : payload = payload' := bytes_delimited.eq_view hlen hlen' hrest
    rw [show tag = tag' from htag, hpayload]
  attachment_inj := fun _ _ hlen hlen' heq => bytes_delimited.eq_view hlen hlen' heq
  pair_inj := by
    intro a b a' b' heq
    obtain ⟨ha, hb⟩ := Digest.delimited trivial trivial heq
    exact ⟨ha, Digest.delimited.eq_view trivial trivial hb⟩
  outer_inj := by
    intro as bs hlen hlen' heq
    simpa using (be32_delimited.counted Digest.delimited).eq_view
      ⟨hlen, fun _ _ => trivial⟩ ⟨hlen', fun _ _ => trivial⟩ heq

/-- All that is hashed with Poseidon2 for the commitments to a tape. -/
def fieldInputs (permute : Permutation) (t : OracleTape) : List (List FieldElement) :=
  (poseidonScheme permute).inputs t.attested

/-- All that is hashed with SHA-256 for the commitments to a tape. -/
def byteInputs (sha256 : Sha256) (t : OracleTape) : List Bytes :=
  (sha256Scheme sha256).inputs t.attested

/-- Equal commitments mean equal entries, and equal attestation commitments equal
attestations too, unless the hash collides on what it is given for the two tapes. -/
theorem commitments_bind (permute : Permutation) (sha256 : Sha256)
    (h₁ : t₁.LengthsFit) (h₂ : t₂.LengthsFit)
    (hposeidon : CollisionFree (poseidon2Hash permute)
      (t₁.fieldInputs permute ++ t₂.fieldInputs permute))
    (hsha256 : CollisionFree sha256 (t₁.byteInputs sha256 ++ t₂.byteInputs sha256)) :
    (t₁.commitmentHash permute = t₂.commitmentHash permute →
      t₁.entries.map TapeEntry.parts = t₂.entries.map TapeEntry.parts) ∧
    (t₁.commitmentHashSha256 sha256 = t₂.commitmentHashSha256 sha256 →
      t₁.entries.map TapeEntry.parts = t₂.entries.map TapeEntry.parts) ∧
    (t₁.attestationCommitment permute = t₂.attestationCommitment permute →
      t₁.attested = t₂.attested) ∧
    (t₁.attestationCommitmentSha256 sha256 = t₂.attestationCommitmentSha256 sha256 →
      t₁.attested = t₂.attested) := by
  have hparts (h : t₁.attested.map Prod.fst = t₂.attested.map Prod.fst) :
      t₁.entries.map TapeEntry.parts = t₂.entries.map TapeEntry.parts := by
    rwa [attested_map_fst, attested_map_fst] at h
  refine ⟨fun heq => ?_, fun heq => ?_, fun heq => ?_, fun heq => ?_⟩
  · rw [commitmentHash_eq, commitmentHash_eq] at heq
    exact hparts (TwoLevel.commit_binds (poseidonScheme_separates permute) h₁.attested h₂.attested
      hposeidon (fieldToBeBytes32_injective heq))
  · rw [commitmentHashSha256_eq, commitmentHashSha256_eq] at heq
    exact hparts (TwoLevel.commit_binds (sha256Scheme_separates sha256) h₁.attested h₂.attested
      hsha256 heq)
  · rw [attestationCommitment_eq, attestationCommitment_eq] at heq
    exact TwoLevel.bind_binds (poseidonScheme_separates permute) h₁.attested h₂.attested
      hposeidon (fieldToBeBytes32_injective heq)
  · rw [attestationCommitmentSha256_eq, attestationCommitmentSha256_eq] at heq
    exact TwoLevel.bind_binds (sha256Scheme_separates sha256) h₁.attested h₂.attested hsha256 heq

/-- A tape with the response `{}`, its attestation missing or empty. -/
def emptyTable (attestations : List Bytes) (calls : List TapeCall) : OracleTape :=
  ⟨[.ok (ascii "{}")], attestations, calls⟩

theorem emptyTable_fits (attestations : List Bytes) (calls : List TapeCall)
    (h : ∀ a ∈ attestations, a.length < 2 ^ 32) : (emptyTable attestations calls).LengthsFit where
  entries := by simp [emptyTable]
  payloads := by
    intro entry hentry
    obtain rfl := List.mem_singleton.mp hentry
    exact of_decide_eq_true rfl
  attestations := h

/-- The permutation where the commitments to this tape need it. -/
def knownPermutation : Permutation := fun s =>
  ([(⟨0, 2, 0x7b, 0x40000000000000000⟩,
      ⟨0x25464ecc98bc56e1c1f93374fda21eb46ac54f7c084670b204f8454c4febc03f,
        0x10a3e091029b9f6ee2d6ec43cf63466020fccd09c316e2c7b568bc12c017018e,
        0x0af9852277581d83ecebeb752b4f80e378b7f872fb40d5c92b490f5d65f0c003,
        0x109ca67046fbc3d2d10c928225cb0a6702b3fcaf3b590b3f62fb4f81f76af8fc⟩),
    (⟨0x25464ecc98bc56e1c1f93374fda21eb46ac54f7c084670b204f8454c4febc0bc,
        0x10a3e091029b9f6ee2d6ec43cf63466020fccd09c316e2c7b568bc12c017018e,
        0x0af9852277581d83ecebeb752b4f80e378b7f872fb40d5c92b490f5d65f0c003,
        0x109ca67046fbc3d2d10c928225cb0a6702b3fcaf3b590b3f62fb4f81f76af8fc⟩,
      ⟨0x1a6d26183422839cd8c409082fd886d905fc17ff3da8b74d2bf1e3bcff0999b9,
        0x296d1815f11a777f0eb015af634cd8a064fc8d18bac7a65464cd2a8356948823,
        0x2599ac77f4903ac19a4a7055105ba8eb6628386bb689a720c2f3b65e97fd14ef,
        0x0b8bdd8101e28ef50d4414d7afade96c14edad01cd1d33b138369476af2dfb05⟩),
    (⟨0x1a6d26183422839cd8c409082fd886d905fc17ff3da8b74d2bf1e3bcff0999b9, 0, 0,
        0x10000000000000000⟩,
      ⟨0x11324a9723a6284f6776527fb37172ed15b46ef2976b25cbcefbb359586e6bc4,
        0x1fbe7ed42aaac8f2a062b57525469401aa6ebf10aeb1b81ee5a19abc8f66a42a,
        0x25071f83f6414e4d99aac338c8f50c1acffdd76a9c7bf466481a3a84b68aafbd,
        0x1167cbc9d6e8b5ffe869cbd4b057b5017ce6da60fcfa66797016f97ce25c5514⟩),
    (⟨0, 0, 0, 0x10000000000000000⟩,
      ⟨0x2710144414c3a5f2354f4c08d52ed655b9fe253b4bf12cb9ad3de693d9b1db11,
        0x0c2bd6f762a10a3463df7a9d1a0a7bef593cc02fbf29c5b3b621b7ef072a23ac,
        0x1485543b5b8dbaa180fc27a9dc5e96cf3f56be7d4d30da6186ae3b19da8dd67d,
        0x0c9f6e6acce93dfe41b620e03d3c93f4ceb04f66292e0463d75190f6ea368ca8⟩),
    (⟨0x1a6d26183422839cd8c409082fd886d905fc17ff3da8b74d2bf1e3bcff0999b9,
        0x2710144414c3a5f2354f4c08d52ed655b9fe253b4bf12cb9ad3de693d9b1db11, 0,
        0x20000000000000000⟩,
      ⟨0x29dc87677d285c572eb5a4c2f9a5d250a563922e345aed33a90319ba4509e5cf,
        0x090e0d140b6d160a9cbb79427fcee0f7ffae04cc4e15c242911c58d7507c7cf4,
        0x2adf573ad68efb9495cf86be00af5506ee061912cd5ce757829aef07cbf8884c,
        0x1a2163f1c47edb6ccbaed2503080a2288e4240acc5e92e2269035c36b27eced8⟩),
    (⟨0x29dc87677d285c572eb5a4c2f9a5d250a563922e345aed33a90319ba4509e5cf, 0, 0,
        0x10000000000000000⟩,
      ⟨0x15da8e30964c6e2e063ecf45121fa0e7f492b0aeab6bf816e37ac345a6d7d209,
        0x2a4d374d3527ffcd85ce8a135ad0eec77da9427a7e3b51a822c88953cf0f540a,
        0x277c4d229fdb6fd4427b51d325d302d97b18d6bf3fc3bc11f192f5e24aa0d9de,
        0x1754a3ae7ecaf38bbce90285472ff0cf6397ed4c3f77e83987ee123b8ed6b73d⟩)] :
    List (Poseidon2.State × Poseidon2.State)).lookup s |>.getD s

def digestOf (n : Nat) : Digest := ⟨bigEndian 32 n, bigEndian_length 32 n⟩

def responseDigest : Digest :=
  digestOf 0x305a73086d2d45d7897227c04c907a9e7128c103003eb0041d218872feb382cc

def attDigest : Digest :=
  digestOf 0xdf3f619804a92fdb4057192dc43dd748ea778adc52bc498ce80524c014b81119

def boundDigest : Digest :=
  digestOf 0xe8bc7e2595d6d45dd94d9b0df21ef4fe7ddf1f1ec8cd5e5d81ff07f4db7c8058

/-- SHA-256 where the commitments to this tape need it. -/
def knownSha256 : Sha256 := fun bytes =>
  ([([0, 0, 0, 0, 2, 0x7b, 0x7d], responseDigest),
    ([0, 0, 0, 0], attDigest),
    (responseDigest.bytes ++ attDigest.bytes, boundDigest),
    ([0, 0, 0, 1] ++ responseDigest.bytes,
      digestOf 0xade1fdb799ff7c13ad62e1060eea55b72f53a9f012491f2e3bd989e801bb4ca4),
    ([0, 0, 0, 1] ++ boundDigest.bytes,
      digestOf 0x0abdf04117475e4d4dec1286cb50c28d0a08e598ac5515dd8128cea354b8aba3)] :
    List (Bytes × Digest)).lookup bytes |>.getD (digestOf 0)

theorem commitments_bind_emptyTable :
    (emptyTable [] []).entries.map TapeEntry.parts =
        (emptyTable [[]] [⟨ascii "tool", ascii "{}"⟩]).entries.map TapeEntry.parts ∧
      (emptyTable [] []).attested = (emptyTable [[]] [⟨ascii "tool", ascii "{}"⟩]).attested := by
  obtain ⟨_, hsha256, hposeidon, _⟩ := commitments_bind knownPermutation knownSha256
    (emptyTable_fits [] [] (by simp))
    (emptyTable_fits [[]] [⟨ascii "tool", ascii "{}"⟩] (by simp))
    (by decide) (by decide)
  exact ⟨hsha256 (by decide), hposeidon (by decide +kernel)⟩

end OracleTape

end Proveno
