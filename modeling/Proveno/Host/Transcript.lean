import Proveno.Types.Text

/-! The record of every tool call of a run. The SHA-256 text of a response is a
function of its bytes and is left out of the record. -/

namespace Proveno

inductive ToolCallStatus
  | ok
  | error
  deriving DecidableEq

structure ToolCallRecord where
  seq : Nat
  toolName : Bytes
  argsCanonical : Bytes
  argsBytes : Nat
  responseBytes : Nat
  responseCanonical : Bytes
  errorMessage : Bytes
  attestation : Bytes
  gasCharged : Nat
  status : ToolCallStatus
  deriving DecidableEq

abbrev Transcript := List ToolCallRecord

namespace Transcript

def recordOkAttested (t : Transcript) (toolName argsCanonical responseCanonical attestation : Bytes)
    (gasCharged : Nat) : Transcript :=
  t ++ [{
    seq := t.length
    toolName
    argsCanonical
    argsBytes := argsCanonical.length
    responseBytes := responseCanonical.length
    responseCanonical
    errorMessage := []
    attestation
    gasCharged
    status := .ok }]

def recordError (t : Transcript) (toolName argsCanonical : Bytes) (gasCharged : Nat)
    (errorMessage : Bytes) : Transcript :=
  t ++ [{
    seq := t.length
    toolName
    argsCanonical
    argsBytes := argsCanonical.length
    responseBytes := 0
    responseCanonical := []
    errorMessage
    attestation := []
    gasCharged
    status := .error }]

end Transcript

end Proveno
