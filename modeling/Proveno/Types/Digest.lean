import Proveno.Lib.Delimited
import Proveno.Types.Text

/-! Digests of 32 bytes and the fixed-width integers around them. -/

namespace Proveno

/-- `u32::to_be_bytes` of a length. -/
def be32 (n : Nat) : Bytes := bigEndian 4 n

structure Digest where
  bytes : Bytes
  length_eq : bytes.length = 32
  deriving DecidableEq

/-- The hash of the sha2 crate, from the bytes it is fed. -/
abbrev Sha256 := Bytes → Digest

theorem be32_delimited : Delimited (fun n => n < 2 ^ 32) id be32 :=
  (bigEndian_delimited 4).mono fun _ h => h

theorem Digest.delimited : Delimited (fun _ => True) id Digest.bytes := by
  refine .of_width 32 (fun d _ => d.length_eq) ?_
  rintro ⟨a, _⟩ ⟨b, _⟩ _ _ rfl
  rfl

theorem bytes_delimited : Delimited (fun s : Bytes => s.length < 2 ^ 32) id
    (fun s => be32 s.length ++ s) := by
  intro a b r s ha hb heq
  simp only [List.append_assoc] at heq
  obtain ⟨hlen, htail⟩ := be32_delimited ha hb heq
  exact List.append_inj htail hlen

end Proveno
