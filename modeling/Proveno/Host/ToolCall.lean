import Proveno.Host.ToolRegistry

/-! All that one tool call can do, by how far it gets. -/

namespace Proveno

namespace ToolRegistry

variable {H : Type}

/-- The outcome of `serialize`, which changes nothing. -/
def encode (what : String) (heap : Heap) (t : LuaTable LuaValue) : Except VmError Bytes :=
  match Canonicalize.canonicalSerializeTable heap t with
  | .ok bytes => .ok bytes
  | .error .tableDepthExceeded =>
    .error (runtimeErr (ascii "tool " ++ ascii what ++ ascii ": table depth exceeded"))
  | .error other => .error (.ofCanonError other)

/-- The checks before the host is reached, which give the canonical arguments. -/
def accept (registry : ToolRegistry H) (heap : Heap) (args : LuaTable LuaValue)
    (config : VmConfig) : Except VmError Bytes :=
  match encode "args" heap args with
  | .error e => .error e
  | .ok argsCanonical =>
    if registry.callsMade ≥ config.maxToolCalls then
      .error (runtimeErr (ascii "tool call limit exceeded"))
    else if registry.totalBytesIn + argsCanonical.length > config.maxToolBytesIn then
      .error (runtimeErr (ascii "tool input bytes limit exceeded"))
    else .ok argsCanonical

/-- A call of so many argument bytes has been counted. -/
def counted (argsLen : Nat) (s : State H) : State H :=
  { s with registry :=
    { s.registry with
      callsMade := s.registry.callsMade + 1
      totalBytesIn := s.registry.totalBytesIn + argsLen } }

def gasCost (argsLen respLen : Nat) : Nat := GasCost.toolCallBase + argsLen + respLen

/-- The response of a call has been recorded. -/
def recorded (name argsCanonical respCanonical blob : Bytes) (s : State H) : State H :=
  { s with
    transcript := s.transcript.recordOkAttested name argsCanonical respCanonical blob
      (gasCost argsCanonical.length respCanonical.length) }

/-- The response of a call has been counted. -/
def delivered (respLen : Nat) (s : State H) : State H :=
  { s with registry := { s.registry with totalBytesOut := s.registry.totalBytesOut + respLen } }

variable [HostInterface H] {s s' : State H} {name argsCanonical : Bytes}
  {args response : LuaTable LuaValue} {config : VmConfig}

/-- The host's reply and the state it leaves. -/
def ask (name : Bytes) (args : LuaTable LuaValue) (s : State H) :
    Except Bytes (LuaTable LuaValue) × State H :=
  let (answer, host, after) := HostInterface.callTool s.registry.host s.core.heap name args
  let (reply, heap) : Except Bytes (LuaTable LuaValue) × Heap := match answer with
    | .ok t => (.ok (installTable t after).1, (installTable t after).2)
    | .error msg => (.error msg, after)
  (reply,
    { s with
      registry := { s.registry with host }
      core := { s.core with
        heap
        grown := s.core.grown + (heap.storage - s.core.heap.storage) }.record
          (.reply s.core.heap answer after) })

/-- The attestation that is taken, and the state without it. -/
def attestation (s : State H) : Bytes × State H :=
  ((HostInterface.takeAttestation s.registry.host).1.getD [],
    { s with registry :=
      { s.registry with host := (HostInterface.takeAttestation s.registry.host).2 } })

/-- What a call that reached the host does with the reply. -/
def settle (name argsCanonical : Bytes) (config : VmConfig)
    (reply : Except Bytes (LuaTable LuaValue)) (s : State H) :
    Except Stop (LuaTable LuaValue) × State H :=
  match reply with
  | .error msg =>
    (.error (.raised (.toolError msg)),
      { s with transcript := s.transcript.recordError name argsCanonical 0 msg })
  | .ok response =>
    match encode "response" s.core.heap response with
    | .error e => (.error (.raised e), s)
    | .ok respCanonical =>
      let (blob, s) := attestation s
      let s := recorded name argsCanonical respCanonical blob s
      if s.registry.totalBytesOut + respCanonical.length > config.maxToolBytesOut then
        (.error (.raised (runtimeErr (ascii "tool output bytes limit exceeded"))), s)
      else
        (do charge (gasCost argsCanonical.length respCanonical.length)
            pure response : Call H _).run (delivered respCanonical.length s)

omit [HostInterface H] in
theorem run_serialize (what : String) (t : LuaTable LuaValue) (s : State H) :
    (serialize what t).run s = match encode what s.core.heap t with
      | .ok bytes => (.ok bytes, s)
      | .error e => (.error (.raised e), s) := by
  simp only [serialize, encode, Exec.run_bind, Exec.run_get]
  rcases Canonicalize.canonicalSerializeTable s.core.heap t with (_ | _ | _ | _) | _ <;> rfl

omit [HostInterface H] in
theorem run_countCall (argsLen : Nat) (s : State H) :
    (countCall argsLen).run s = (.ok (), counted argsLen s) := rfl

omit [HostInterface H] in
theorem run_countResponse (respLen : Nat) (s : State H) :
    (countResponse respLen).run s = (.ok (), delivered respLen s) := rfl

omit [HostInterface H] in
theorem run_record (f : Transcript → Transcript) (s : State H) :
    (record f).run s = (.ok (), { s with transcript := f s.transcript }) := rfl

theorem run_askHost (name : Bytes) (args : LuaTable LuaValue) (s : State H) :
    (askHost name args).run s = (.ok (ask name args s).1, (ask name args s).2) := rfl

theorem run_takeAttestation (s : State H) :
    takeAttestation.run s = (.ok (attestation s).1, (attestation s).2) := rfl

theorem run_call (name : Bytes) (args : LuaTable LuaValue) (config : VmConfig) (s : State H) :
    (call name args config).run s = match accept s.registry s.core.heap args config with
      | .error e => (.error (.raised e), s)
      | .ok argsCanonical =>
        settle name argsCanonical config (ask name args (counted argsCanonical.length s)).1
          (ask name args (counted argsCanonical.length s)).2 := by
  rw [call, Exec.run_bind, run_serialize, accept]
  cases encode "args" s.core.heap args with
  | error e => rfl
  | ok argsCanonical =>
    dsimp only
    rw [Exec.run_bind_ok (Exec.run_get s)]
    split_ifs
    · rfl
    · rfl
    · rw [Exec.run_bind_ok (run_countCall _ _), Exec.run_bind_ok (run_askHost _ _ _)]
      dsimp only
      generalize ask name args (counted argsCanonical.length s) = asked
      obtain ⟨reply, s⟩ := asked
      cases reply with
      | error msg => rfl
      | ok response =>
        dsimp only
        rw [Exec.run_bind, run_serialize, settle]
        cases encode "response" s.core.heap response with
        | error e => rfl
        | ok respCanonical =>
          dsimp only
          rw [Exec.run_bind_ok (run_takeAttestation _), Exec.run_bind_ok (run_record _ _),
            Exec.run_bind_ok (Exec.run_get _)]
          by_cases hout : (attestation s).2.registry.totalBytesOut + respCanonical.length >
              config.maxToolBytesOut
          · exact (congrArg (Exec.run · _) (if_pos hout)).trans (if_pos hout).symm
          · exact (congrArg (Exec.run · _) (if_neg hout)).trans (if_neg hout).symm

omit [HostInterface H] in
theorem encode_eq_ok {what : String} {heap : Heap} {t : LuaTable LuaValue} {bytes : Bytes} :
    encode what heap t = .ok bytes ↔
      Canonicalize.canonicalSerializeTable heap t = .ok bytes := by
  unfold encode
  rcases Canonicalize.canonicalSerializeTable heap t with (_ | _ | _ | _) | _ <;> simp

omit [HostInterface H] in
theorem accept_eq_ok {registry : ToolRegistry H} {heap : Heap}
    (h : accept registry heap args config = .ok argsCanonical) :
    Canonicalize.canonicalSerializeTable heap args = .ok argsCanonical ∧
      registry.callsMade < config.maxToolCalls ∧
      registry.totalBytesIn + argsCanonical.length ≤ config.maxToolBytesIn := by
  unfold accept at h
  cases hargs : encode "args" heap args with
  | error e => simp [hargs] at h
  | ok bytes =>
    simp only [hargs] at h
    split_ifs at h with hcalls hbytes
    obtain rfl := Except.ok.inj h
    exact ⟨encode_eq_ok.mp hargs, by omega, by omega⟩

/-- What is recorded of a reply: the error or the canonical response, if there is one. -/
def outcomeOf (reply : Except Bytes (LuaTable LuaValue)) (heap : Heap) :
    Option (Except Bytes Bytes) :=
  match reply with
  | .error msg => some (.error msg)
  | .ok response =>
    match Canonicalize.canonicalSerializeTable heap response with
    | .ok respCanonical => some (.ok respCanonical)
    | .error _ => none

omit [HostInterface H] in
theorem run_charge_pure {α : Type} (amount : Nat) (a : α) (s : State H) :
    (do charge amount; pure a : Call H α).run s =
      (((do Vm.charge amount; pure a : Vm α).run s.core).1,
        { s with core := ((do Vm.charge amount; pure a : Vm α).run s.core).2 }) := by
  rw [Exec.run_bind, Exec.run_bind, charge, lift, Exec.run_zoom]
  rcases (Vm.charge amount).run s.core with ⟨_ | _, _⟩ <;> rfl

omit [HostInterface H] in
theorem charge_state {α : Type} (amount : Nat) (a : α) (s : State H) :
    ∃ core, ((do charge amount; pure a : Call H α).run s).2 = { s with core } :=
  ⟨_, congrArg Prod.snd (run_charge_pure amount a s)⟩

/-- The record of a response, and the counters after it. -/
structure Answered (name argsCanonical respCanonical : Bytes) (config : VmConfig)
    (s s' : State H) : Prop where
  transcript : s'.transcript = s.transcript.recordOkAttested name argsCanonical respCanonical
    (attestation s).1 (gasCost argsCanonical.length respCanonical.length)
  host : s'.registry.host = (attestation s).2.registry.host
  calls : s'.registry.callsMade = s.registry.callsMade
  bytesIn : s'.registry.totalBytesIn = s.registry.totalBytesIn
  bytesOut : s'.registry.totalBytesOut = s.registry.totalBytesOut ∨
    s'.registry.totalBytesOut ≤ config.maxToolBytesOut

theorem settle_cases (name argsCanonical : Bytes) (config : VmConfig)
    (reply : Except Bytes (LuaTable LuaValue)) (s : State H) :
    let s' := (settle name argsCanonical config reply s).2
    (∃ msg, reply = .error msg ∧
      s' = { s with transcript := s.transcript.recordError name argsCanonical 0 msg }) ∨
    (outcomeOf reply s.core.heap = none ∧ s' = s) ∨
    ∃ respCanonical, outcomeOf reply s.core.heap = some (.ok respCanonical) ∧
      Answered name argsCanonical respCanonical config s s' := by
  cases reply with
  | error msg => exact .inl ⟨msg, rfl, rfl⟩
  | ok response =>
    right
    rw [settle, outcomeOf]
    cases hcanonical : Canonicalize.canonicalSerializeTable s.core.heap response with
    | error e =>
      have hencode : ∃ e, encode "response" s.core.heap response = .error e := by
        cases hencode : encode "response" s.core.heap response with
        | error e => exact ⟨e, rfl⟩
        | ok bytes =>
          rw [encode_eq_ok, hcanonical] at hencode
          cases hencode
      obtain ⟨e, hencode⟩ := hencode
      exact .inl ⟨rfl, by rw [hencode]⟩
    | ok respCanonical =>
      refine .inr ⟨respCanonical, rfl, ?_⟩
      rw [encode_eq_ok.mpr hcanonical]
      dsimp only
      split_ifs with hout
      · exact ⟨rfl, rfl, rfl, rfl, .inl rfl⟩
      · obtain ⟨core, hcore⟩ := charge_state (gasCost argsCanonical.length respCanonical.length)
          response (delivered respCanonical.length
            (recorded name argsCanonical respCanonical (attestation s).1 (attestation s).2))
        rw [hcore]
        refine ⟨rfl, rfl, rfl, rfl, .inr ?_⟩
        exact Nat.le_of_not_lt hout

end ToolRegistry

end Proveno
