import Proveno.Host.ToolCall

/-! Quotas and the transcript over any sequence of tool calls, against what the host
itself has seen. -/

namespace Proveno

/-- A call as the host sees it, with its answer. -/
structure Invocation where
  heap : Heap
  name : Bytes
  args : LuaTable LuaValue
  answer : Except Bytes (LuaTable OwnedValue)
  after : Heap

/-- A host that keeps a list of the calls that reach it. -/
structure Logged (H : Type) where
  inner : H
  invocations : List Invocation

instance {H : Type} [HostInterface H] : HostInterface (Logged H) where
  callTool host heap name args :=
    let (answer, inner, after) := HostInterface.callTool host.inner heap name args
    (answer, ⟨inner, host.invocations ++ [⟨heap, name, args, answer, after⟩]⟩, after)
  takeAttestation host :=
    ((HostInterface.takeAttestation host.inner).1,
      { host with inner := (HostInterface.takeAttestation host.inner).2 })
  grows host heap name args := HostInterface.grows host.inner heap name args

/-- What a record says of a call: its name, its arguments, and the response or the error. -/
def ToolCallRecord.summary (r : ToolCallRecord) : Bytes × Bytes × Except Bytes Bytes :=
  (r.toolName, r.argsCanonical, match r.status with
    | .ok => .ok r.responseCanonical
    | .error => .error r.errorMessage)

namespace Invocation

def argsCanonical (i : Invocation) : Except CanonError Bytes :=
  Canonicalize.canonicalSerializeTable i.heap i.args

def argsBytes (i : Invocation) : Nat :=
  match i.argsCanonical with
  | .ok bytes => bytes.length
  | .error _ => 0

/-- The answer once its table is in the heap. -/
def reply (i : Invocation) : Except Bytes (LuaTable LuaValue) × Heap :=
  match i.answer with
  | .ok t => (.ok (installTable t i.after).1, (installTable t i.after).2)
  | .error msg => (.error msg, i.after)

/-- What there is to record: nothing of a response that cannot be serialised. -/
def summary (i : Invocation) : Option (Bytes × Bytes × Except Bytes Bytes) :=
  match i.argsCanonical, ToolRegistry.outcomeOf i.reply.1 i.reply.2 with
  | .ok args, some outcome => some (i.name, args, outcome)
  | _, _ => none

end Invocation

namespace ToolRegistry

variable {H : Type} [HostInterface H] {config : VmConfig} {s s' : State (Logged H)}
  {name argsCanonical : Bytes} {args : LuaTable LuaValue}

/-- The counters are within their limits and agree with what the host has seen. -/
structure Accounts (config : VmConfig) (s : State (Logged H)) : Prop where
  calls_le : s.registry.callsMade ≤ config.maxToolCalls
  bytesIn_le : s.registry.totalBytesIn ≤ config.maxToolBytesIn
  bytesOut_le : s.registry.totalBytesOut ≤ config.maxToolBytesOut
  calls_eq : s.registry.host.invocations.length = s.registry.callsMade
  bytesIn_eq : s.registry.totalBytesIn =
    (s.registry.host.invocations.map Invocation.argsBytes).sum
  records : s.transcript.map ToolCallRecord.summary =
    s.registry.host.invocations.filterMap Invocation.summary
  seq : s.transcript.map (·.seq) = List.range s.transcript.length

omit [HostInterface H] in
theorem Accounts.start (host : H) (core : Core) :
    Accounts config ⟨.new ⟨host, []⟩, [], core⟩ :=
  ⟨Nat.zero_le _, Nat.zero_le _, Nat.zero_le _, rfl, rfl, rfl, rfl⟩

omit [HostInterface H] in
theorem Accounts.work (h : Accounts config s) (core : Core) : Accounts config { s with core } :=
  ⟨h.calls_le, h.bytesIn_le, h.bytesOut_le, h.calls_eq, h.bytesIn_eq, h.records, h.seq⟩

/-- The call that the host sees. -/
def invocation (name : Bytes) (args : LuaTable LuaValue) (s : State (Logged H)) : Invocation where
  heap := s.core.heap
  name
  args
  answer := (HostInterface.callTool s.registry.host.inner s.core.heap name args).1
  after := (HostInterface.callTool s.registry.host.inner s.core.heap name args).2.2

theorem invocation_summary (name : Bytes)
    (hargs : Canonicalize.canonicalSerializeTable s.core.heap args = .ok argsCanonical) :
    (invocation name args s).summary =
      (outcomeOf (invocation name args s).reply.1 (invocation name args s).reply.2).map
        fun outcome => (name, argsCanonical, outcome) := by
  have hcanonical : (invocation name args s).argsCanonical = .ok argsCanonical := hargs
  rw [Invocation.summary, hcanonical]
  cases outcomeOf (invocation name args s).reply.1 (invocation name args s).reply.2 <;> rfl

/-- What a call that reaches the host leaves. -/
structure Reached (argsCanonical : Bytes) (i : Invocation) (config : VmConfig)
    (s s' : State (Logged H)) : Prop where
  calls : s'.registry.callsMade = s.registry.callsMade + 1
  bytesIn : s'.registry.totalBytesIn = s.registry.totalBytesIn + argsCanonical.length
  bytesOut : s'.registry.totalBytesOut = s.registry.totalBytesOut ∨
    s'.registry.totalBytesOut ≤ config.maxToolBytesOut
  invocations : s'.registry.host.invocations = s.registry.host.invocations ++ [i]
  transcript : (s'.transcript = s.transcript ∧ i.summary = none) ∨
    ∃ r : ToolCallRecord, s'.transcript = s.transcript ++ [r] ∧ r.seq = s.transcript.length ∧
      i.summary = some r.summary

theorem call_reached (name : Bytes)
    (haccept : accept s.registry s.core.heap args config = .ok argsCanonical) :
    Reached argsCanonical (invocation name args s) config s ((call name args config).run s).2 := by
  have hsummary := invocation_summary name (accept_eq_ok haccept).1
  have hreply : (ask name args (counted argsCanonical.length s)).1 =
      (invocation name args s).reply.1 := rfl
  have hheap : (ask name args (counted argsCanonical.length s)).2.core.heap =
      (invocation name args s).reply.2 := rfl
  rw [run_call, haccept]
  rcases settle_cases name argsCanonical config
      (ask name args (counted argsCanonical.length s)).1
      (ask name args (counted argsCanonical.length s)).2 with
    ⟨msg, hmsg, hs'⟩ | ⟨hnone, hs'⟩ | ⟨respCanonical, hsome, hanswered⟩
  · rw [hreply] at hmsg
    rw [hmsg, outcomeOf] at hsummary
    simp only [hs']
    exact ⟨rfl, rfl, .inl rfl, rfl, .inr ⟨_, rfl, rfl, hsummary⟩⟩
  · rw [hreply, hheap] at hnone
    rw [hnone] at hsummary
    simp only [hs']
    exact ⟨rfl, rfl, .inl rfl, rfl, .inl ⟨rfl, hsummary⟩⟩
  · rw [hreply, hheap] at hsome
    rw [hsome] at hsummary
    refine ⟨hanswered.calls, hanswered.bytesIn, hanswered.bytesOut, ?_, .inr ⟨_,
      hanswered.transcript, rfl, hsummary⟩⟩
    rw [hanswered.host]
    rfl

omit [HostInterface H] in
theorem Accounts.reached {i : Invocation} (h : Accounts config s)
    (hcalls : s.registry.callsMade < config.maxToolCalls)
    (hbytes : s.registry.totalBytesIn + argsCanonical.length ≤ config.maxToolBytesIn)
    (hargs : i.argsCanonical = .ok argsCanonical)
    (hreached : Reached argsCanonical i config s s') : Accounts config s' where
  calls_le := by rw [hreached.calls]; omega
  bytesIn_le := by rw [hreached.bytesIn]; omega
  bytesOut_le := by
    have hle := h.bytesOut_le
    rcases hreached.bytesOut with hout | hout
    · rw [hout]
      exact hle
    · exact hout
  calls_eq := by
    rw [hreached.invocations, hreached.calls, List.length_append, h.calls_eq,
      List.length_singleton]
  bytesIn_eq := by
    have hlength : i.argsBytes = argsCanonical.length := by rw [Invocation.argsBytes, hargs]
    rw [hreached.invocations, hreached.bytesIn, h.bytesIn_eq, List.map_append, List.sum_append,
      List.map_singleton, List.sum_singleton, hlength]
  records := by
    rw [hreached.invocations, List.filterMap_append, ← h.records]
    rcases hreached.transcript with ⟨htranscript, hnone⟩ | ⟨r, htranscript, _, hsome⟩
    · simp [htranscript, hnone]
    · simp [htranscript, hsome]
  seq := by
    rcases hreached.transcript with ⟨htranscript, _⟩ | ⟨r, htranscript, hseq, _⟩
    · rw [htranscript, h.seq]
    · rw [htranscript, List.map_append, h.seq, List.length_append, List.length_singleton,
        List.range_succ, List.map_singleton, hseq]

/-- One call keeps the accounts, whatever becomes of it. -/
theorem Accounts.call (h : Accounts config s) (name : Bytes) (args : LuaTable LuaValue) :
    Accounts config ((call name args config).run s).2 := by
  cases haccept : accept s.registry s.core.heap args config with
  | error e =>
    rw [run_call, haccept]
    exact h
  | ok argsCanonical =>
    obtain ⟨hargs, hcalls, hbytes⟩ := accept_eq_ok haccept
    exact h.reached (i := invocation name args s) hcalls hbytes hargs (call_reached name haccept)

end ToolRegistry

end Proveno
