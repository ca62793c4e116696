import Proveno.Host.Canonicalize
import Proveno.Host.Transcript
import Proveno.Vm.Core

/-! The registry between the machine and its host: quotas, the transcript and the gas
of a tool call. -/

namespace Proveno

/-- A host sees the heap, since values it was given or has given share its tables. -/
class HostInterface (H : Type) where
  callTool : H → Heap → Bytes → LuaTable LuaValue →
    Except Bytes (LuaTable OwnedValue) × H × Heap
  takeAttestation : H → Option Bytes × H := fun host => (none, host)
  grows : ∀ host (heap : Heap) name args, heap.Grows (callTool host heap name args).2.2

structure NoopHost where

instance : HostInterface NoopHost where
  callTool host heap name _ :=
    (.error (ascii "tool '" ++ name ++ ascii "' not registered"), host, heap)
  grows _ _ _ _ := ⟨le_rfl, le_rfl⟩

/-- The error of a serialisation outside the registry. -/
def VmError.ofCanonError : CanonError → VmError
  | .functionNotSerializable => runtimeErr (ascii "json.encode: functions not serializable")
  | .tableDepthExceeded => runtimeErr (ascii "json.encode: table depth exceeded")
  | .stringTooLong => runtimeErr (ascii "string length overflow")
  | .invalidInput => runtimeErr (ascii "canonical_deserialize: invalid input")

structure ToolRegistry (H : Type) where
  host : H
  callsMade : Nat
  totalBytesIn : Nat
  totalBytesOut : Nat

namespace ToolRegistry

variable {H : Type}

def new (host : H) : ToolRegistry H := ⟨host, 0, 0, 0⟩

def reset (r : ToolRegistry H) : ToolRegistry H := ⟨r.host, 0, 0, 0⟩

/-- What a tool call changes. -/
structure State (H : Type) where
  registry : ToolRegistry H
  transcript : Transcript
  core : Core

abbrev Call (H : Type) := Exec Stop (State H)

def lift {α : Type} (m : Vm α) : Call H α :=
  Exec.zoom State.core (fun s core => { s with core }) m

def raise {α : Type} (e : VmError) : Call H α := lift (Vm.raise e)

def charge (amount : Nat) : Call H Unit := lift (Vm.charge amount)

/-- `canonical_serialize_table` for the arguments or the response of a call. -/
def serialize (what : String) (t : LuaTable LuaValue) : Call H Bytes := do
  match Canonicalize.canonicalSerializeTable (← Exec.get).core.heap t with
  | .ok bytes => pure bytes
  | .error .tableDepthExceeded =>
    raise (runtimeErr (ascii "tool " ++ ascii what ++ ascii ": table depth exceeded"))
  | .error other => raise (.ofCanonError other)

def countCall (argsLen : Nat) : Call H Unit :=
  Exec.modify fun s => { s with registry :=
    { s.registry with
      callsMade := s.registry.callsMade + 1
      totalBytesIn := s.registry.totalBytesIn + argsLen } }

def countResponse (respLen : Nat) : Call H Unit :=
  Exec.modify fun s => { s with registry :=
    { s.registry with totalBytesOut := s.registry.totalBytesOut + respLen } }

def record (f : Transcript → Transcript) : Call H Unit :=
  Exec.modify fun s => { s with transcript := f s.transcript }

variable [HostInterface H]

/-- The host's answer, its table placed in the heap. -/
def askHost (name : Bytes) (args : LuaTable LuaValue) :
    Call H (Except Bytes (LuaTable LuaValue)) := ⟨fun s =>
  let (answer, host, after) :=
    HostInterface.callTool s.registry.host s.core.heap name args
  let (reply, heap) : Except Bytes (LuaTable LuaValue) × Heap := match answer with
    | .ok t => (.ok (installTable t after).1, (installTable t after).2)
    | .error msg => (.error msg, after)
  (.ok reply,
    { s with
      registry := { s.registry with host }
      core := { s.core with
        heap
        grown := s.core.grown + (heap.storage - s.core.heap.storage) }.record
          (.reply s.core.heap answer after) })⟩

def takeAttestation : Call H Bytes := ⟨fun s =>
  let (attestation, host) : Option Bytes × H := HostInterface.takeAttestation s.registry.host
  (.ok (attestation.getD []), { s with registry := { s.registry with host } })⟩

def call (name : Bytes) (args : LuaTable LuaValue) (config : VmConfig) :
    Call H (LuaTable LuaValue) := do
  let argsCanonical ← serialize "args" args
  let registry := (← Exec.get).registry
  if registry.callsMade ≥ config.maxToolCalls then
    raise (runtimeErr (ascii "tool call limit exceeded"))
  else if registry.totalBytesIn + argsCanonical.length > config.maxToolBytesIn then
    raise (runtimeErr (ascii "tool input bytes limit exceeded"))
  else
    countCall argsCanonical.length
    match ← askHost name args with
    | .ok response =>
      let respCanonical ← serialize "response" response
      let gasCost := GasCost.toolCallBase + argsCanonical.length + respCanonical.length
      let attestation ← takeAttestation
      record (·.recordOkAttested name argsCanonical respCanonical attestation gasCost)
      if (← Exec.get).registry.totalBytesOut + respCanonical.length > config.maxToolBytesOut then
        raise (runtimeErr (ascii "tool output bytes limit exceeded"))
      else
        countResponse respCanonical.length
        charge gasCost
        pure response
    | .error msg =>
      record (·.recordError name argsCanonical 0 msg)
      raise (.toolError msg)

end ToolRegistry

end Proveno
