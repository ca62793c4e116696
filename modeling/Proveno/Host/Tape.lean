import Proveno.Host.ToolRegistry

/-! The oracle tape and the host that replays it. A strict replay compares every call
with the recorded one and keeps the first difference. -/

namespace Proveno

inductive TapeEntry
  | ok (response : Bytes)
  | err (message : Bytes)
  deriving DecidableEq

structure TapeCall where
  toolName : Bytes
  argsCanonical : Bytes
  deriving DecidableEq

structure Divergence where
  seq : Nat
  expected : Option TapeCall
  actual : TapeCall
  deriving DecidableEq

structure OracleTape where
  entries : List TapeEntry
  attestations : List Bytes
  calls : List TapeCall
  deriving DecidableEq

namespace OracleTape

def new : OracleTape := ⟨[], [], []⟩

def fromRecords (records : List ToolCallRecord) : OracleTape where
  entries := records.map fun r =>
    if r.errorMessage = [] then .ok r.responseCanonical else .err r.errorMessage
  attestations := records.map (·.attestation)
  calls := records.map fun r => ⟨r.toolName, r.argsCanonical⟩

/-- The attestation of entry `i`, empty when there is none. -/
def attestationAt (t : OracleTape) (i : Nat) : Bytes := t.attestations.getD i []

end OracleTape

/-- `{:?}` of the error. -/
def CanonError.debugText : CanonError → Bytes
  | .functionNotSerializable => ascii "FunctionNotSerializable"
  | .tableDepthExceeded => ascii "TableDepthExceeded"
  | .stringTooLong => ascii "StringTooLong"
  | .invalidInput => ascii "InvalidInput"

def OwnedValue.typeName : OwnedValue → String
  | .nil => "nil"
  | .boolean _ => "boolean"
  | .integer _ => "integer"
  | .string _ => "string"
  | .table _ => "table"
  | .live v => v.typeName

/-- The outcome that an entry stands for. -/
def TapeEntry.decode : TapeEntry → Except Bytes (LuaTable OwnedValue)
  | .ok response =>
    match Canonicalize.canonicalDeserialize response with
    | .error e => .error (ascii "tape decode error: " ++ e.debugText)
    | .ok (.table t) => .ok t
    | .ok value =>
      .error (ascii "tape entry is not a table (got \"" ++ ascii value.typeName ++ ascii "\")")
  | .err message => .error message

structure TapeHost where
  tape : OracleTape
  cursor : Nat
  strict : Bool
  divergence : Option Divergence

namespace TapeHost

def positional (tape : OracleTape) : TapeHost := ⟨tape, 0, false, none⟩

/-- `TapeHost::strict`. -/
def checking (tape : OracleTape) : TapeHost := { positional tape with strict := true }

def divergedAt (seq : Nat) : Bytes := ascii "replay diverged at seq " ++ decimal seq

def checkStrict (host : TapeHost) (heap : Heap) (name : Bytes) (args : LuaTable LuaValue) :
    Except Bytes Unit × TapeHost :=
  match host.divergence with
  | some d => (.error (divergedAt d.seq), host)
  | none =>
    match Canonicalize.canonicalSerializeTable heap args with
    | .error e => (.error (ascii "replay args encode error: " ++ e.debugText), host)
    | .ok argsCanonical =>
      let actual : TapeCall := ⟨name, argsCanonical⟩
      let expected : Option TapeCall :=
        if host.cursor < host.tape.entries.length then host.tape.calls[host.cursor]? else none
      if expected = some actual then (.ok (), host)
      else
        (.error (divergedAt host.cursor),
          { host with divergence := some ⟨host.cursor, expected, actual⟩ })

def remaining (host : TapeHost) : Nat := host.tape.entries.length - host.cursor

def isExhausted (host : TapeHost) : Bool := host.tape.entries.length ≤ host.cursor

/-- The next entry of the tape, whatever the call. -/
def takeEntry (host : TapeHost) : Except Bytes (LuaTable OwnedValue) × TapeHost :=
  match host.tape.entries[host.cursor]? with
  | none => (.error (ascii "oracle tape exhausted"), host)
  | some entry => (entry.decode, { host with cursor := host.cursor + 1 })

def callTool (host : TapeHost) (heap : Heap) (name : Bytes) (args : LuaTable LuaValue) :
    Except Bytes (LuaTable OwnedValue) × TapeHost :=
  if host.strict then
    match host.checkStrict heap name args with
    | (.error msg, host) => (.error msg, host)
    | (.ok (), host) => host.takeEntry
  else host.takeEntry

instance : HostInterface TapeHost where
  callTool host heap name args :=
    ((host.callTool heap name args).1, (host.callTool heap name args).2, heap)
  grows _ _ _ _ := ⟨le_rfl, le_rfl⟩

/-- A call whose arguments serialise, with the heap they live in. -/
structure Request where
  heap : Heap
  name : Bytes
  args : LuaTable LuaValue
  argsCanonical : Bytes
  encodes : Canonicalize.canonicalSerializeTable heap args = .ok argsCanonical

def Request.call (r : Request) : TapeCall := ⟨r.name, r.argsCanonical⟩

/-- The answers to a sequence of calls, and the host after them. -/
def replay : TapeHost → List Request → List (Except Bytes (LuaTable OwnedValue)) × TapeHost
  | host, [] => ([], host)
  | host, r :: rest =>
    let (answer, host) := host.callTool r.heap r.name r.args
    let (answers, host) := host.replay rest
    (answer :: answers, host)

variable {host : TapeHost} {tape : OracleTape} {requests : List Request}

theorem replay_append (host : TapeHost) (xs ys : List Request) :
    host.replay (xs ++ ys) =
      ((host.replay xs).1 ++ ((host.replay xs).2.replay ys).1, ((host.replay xs).2.replay ys).2) := by
  induction xs generalizing host with
  | nil => rfl
  | cons r xs ih => simp only [List.cons_append, replay, ih]

/-- The strict host before its call number `n` while nothing has diverged. -/
def agreeing (tape : OracleTape) (n : Nat) : TapeHost := { checking tape with cursor := n }

/-- The strict host that has stopped at its call number `n`. -/
def stopped (tape : OracleTape) (n : Nat) (d : Divergence) : TapeHost :=
  { agreeing tape n with divergence := some d }

/-- The outcomes of the first `n` entries. -/
def outcomes (tape : OracleTape) (n : Nat) : List (Except Bytes (LuaTable OwnedValue)) :=
  (tape.entries.take n).map TapeEntry.decode

/-- The entry and the recorded call at a position fit a call. -/
def Matches (tape : OracleTape) (n : Nat) (r : Request) : Prop :=
  n < tape.entries.length ∧ tape.calls[n]? = some r.call

theorem callTool_agreeing_match {n : Nat} {r : Request} (h : Matches tape n r) :
    (agreeing tape n).callTool r.heap r.name r.args =
      ((tape.entries.get ⟨n, h.1⟩).decode, agreeing tape (n + 1)) := by
  obtain ⟨hlt, hcall⟩ := h
  have hstrict : (agreeing tape n).strict = true := rfl
  have hcheck : (agreeing tape n).checkStrict r.heap r.name r.args =
      (.ok (), agreeing tape n) := by
    simp only [checkStrict, agreeing, checking, positional, r.encodes, if_pos hlt, hcall]
    exact if_pos rfl
  have hentry : tape.entries[n]? = some tape.entries[n] := List.getElem?_eq_getElem hlt
  rw [callTool, if_pos hstrict, hcheck]
  simp only [takeEntry, agreeing, checking, positional, hentry, List.get_eq_getElem]

theorem callTool_agreeing_mismatch {n : Nat} {r : Request} (h : ¬Matches tape n r) :
    ∃ d : Divergence, d.seq = n ∧ (agreeing tape n).callTool r.heap r.name r.args =
      (.error (divergedAt n), stopped tape n d) := by
  let expected := if n < tape.entries.length then tape.calls[n]? else none
  have hexpected : expected ≠ some r.call := by
    intro heq
    simp only [expected] at heq
    split_ifs at heq with hlt
    exact h ⟨hlt, heq⟩
  have hstrict : (agreeing tape n).strict = true := rfl
  have hcheck : (agreeing tape n).checkStrict r.heap r.name r.args =
      (.error (divergedAt n), stopped tape n ⟨n, expected, r.call⟩) := by
    simp only [checkStrict, stopped, agreeing, checking, positional, r.encodes]
    exact if_neg hexpected
  exact ⟨⟨n, expected, r.call⟩, rfl, by rw [callTool, if_pos hstrict, hcheck]⟩

/-- Once diverged, every call fails the same way and changes nothing. -/
theorem replay_stopped (tape : OracleTape) (n : Nat) (d : Divergence) (requests : List Request) :
    (stopped tape n d).replay requests =
      (List.replicate requests.length (.error (divergedAt d.seq)), stopped tape n d) := by
  have hstrict : (stopped tape n d).strict = true := rfl
  have hd : (stopped tape n d).divergence = some d := rfl
  induction requests with
  | nil => rfl
  | cons r rest ih =>
    have hcall : (stopped tape n d).callTool r.heap r.name r.args =
        (.error (divergedAt d.seq), stopped tape n d) := by
      simp only [callTool, hstrict, if_true, checkStrict, hd]
    simp only [replay, hcall, ih, List.length_cons, List.replicate_succ]

/-- All calls so far were the recorded ones. -/
structure Agreed (tape : OracleTape) (requests : List Request) : Prop where
  length : requests.length ≤ tape.entries.length
  calls : requests.map Request.call <+: tape.calls
  run : (checking tape).replay requests = (outcomes tape requests.length,
    agreeing tape requests.length)

/-- The call at `d.seq` was the first that is not the recorded one. -/
structure Diverged (tape : OracleTape) (requests : List Request) (d : Divergence) : Prop where
  seq_lt : d.seq < requests.length
  agreed : Agreed tape (requests.take d.seq)
  mismatch : ¬Matches tape d.seq requests[d.seq]
  first : ((checking tape).replay (requests.take (d.seq + 1))).2 = stopped tape d.seq d
  run : (checking tape).replay requests = (outcomes tape d.seq ++
    List.replicate (requests.length - d.seq) (.error (divergedAt d.seq)), stopped tape d.seq d)

theorem prefix_append_singleton_iff {calls recorded : List TapeCall} {c : TapeCall}
    (h : calls <+: recorded) : calls ++ [c] <+: recorded ↔ recorded[calls.length]? = some c := by
  obtain ⟨rest, rfl⟩ := h
  rw [List.prefix_append_right_inj, List.getElem?_append_right le_rfl, Nat.sub_self]
  cases rest <;> simp [eq_comm]

theorem Agreed.nil (tape : OracleTape) : Agreed tape [] :=
  ⟨Nat.zero_le _, List.nil_prefix, rfl⟩

theorem Agreed.append {r : Request} (h : Agreed tape requests)
    (hmatch : Matches tape requests.length r) : Agreed tape (requests ++ [r]) where
  length := by simpa using hmatch.1
  calls := by
    rw [List.map_append]
    exact (prefix_append_singleton_iff h.calls).mpr (by simpa using hmatch.2)
  run := by
    have houtcomes : outcomes tape (requests.length + 1) =
        outcomes tape requests.length ++ [(tape.entries.get ⟨requests.length, hmatch.1⟩).decode] := by
      rw [outcomes, List.take_succ_eq_append_getElem hmatch.1, List.map_append]
      rfl
    rw [replay_append, h.run, List.length_append, List.length_singleton, houtcomes]
    simp only [replay, callTool_agreeing_match hmatch]

theorem Agreed.stop {r : Request} (h : Agreed tape requests)
    (hmismatch : ¬Matches tape requests.length r) :
    ∃ d, Diverged tape (requests ++ [r]) d := by
  obtain ⟨d, hseq, hcall⟩ := callTool_agreeing_mismatch hmismatch
  have hrun : (checking tape).replay (requests ++ [r]) =
      (outcomes tape requests.length ++ [.error (divergedAt requests.length)],
        stopped tape requests.length d) := by
    rw [replay_append, h.run]
    simp only [replay, hcall]
  refine ⟨d, ?_, ?_, ?_, ?_, ?_⟩
  · simp [hseq]
  · simpa [hseq] using h
  · simpa [hseq] using hmismatch
  · rw [hseq, List.take_of_length_le (by simp), hrun]
  · simp [hseq, hrun]

theorem Diverged.append {d : Divergence} (h : Diverged tape requests d) (more : List Request) :
    Diverged tape (requests ++ more) d where
  seq_lt := by
    have hlt := h.seq_lt
    simp only [List.length_append]
    omega
  agreed := by
    rw [List.take_append_of_le_length (le_of_lt h.seq_lt)]
    exact h.agreed
  mismatch := by
    rw [List.getElem_append_left h.seq_lt]
    exact h.mismatch
  first := by
    rw [List.take_append_of_le_length h.seq_lt]
    exact h.first
  run := by
    have hlt := h.seq_lt
    have hlength : (requests ++ more).length - d.seq = requests.length - d.seq + more.length := by
      rw [List.length_append]
      omega
    rw [replay_append, h.run, replay_stopped, hlength, List.replicate_add, List.append_assoc]

theorem agreed_or_diverged (tape : OracleTape) (requests : List Request) :
    Agreed tape requests ∨ ∃ d, Diverged tape requests d := by
  induction requests using List.reverseRecOn with
  | nil => exact .inl (.nil tape)
  | append_singleton requests r ih =>
    rcases ih with h | ⟨d, h⟩
    · by_cases hmatch : Matches tape requests.length r
      · exact .inl (h.append hmatch)
      · exact .inr (h.stop hmatch)
    · exact .inr ⟨d, h.append [r]⟩

/-- A sequence that agrees with the tape has no first difference. -/
theorem Diverged.not_prefix {d : Divergence} (h : Diverged tape requests d)
    (hlength : requests.length ≤ tape.entries.length) :
    ¬requests.map Request.call <+: tape.calls := by
  intro hprefix
  have hlt := h.seq_lt
  have hget := List.prefix_iff_getElem?.mp hprefix d.seq (by simpa using hlt)
  exact h.mismatch ⟨by omega, by rw [hget, List.getElem_map]⟩

/-- A strict replay reports no divergence exactly while the calls are the recorded ones,
which then have the recorded outcomes; and it stays at the first difference. -/
theorem checking_replay_prefix (tape : OracleTape) (requests : List Request) :
    let run := (checking tape).replay requests
    (run.2.divergence = none ↔ requests.length ≤ tape.entries.length ∧
      requests.map Request.call <+: tape.calls) ∧
    (run.2.divergence = none → run.1 = outcomes tape requests.length) ∧
    ∀ d, run.2.divergence = some d →
      ((checking tape).replay (requests.take d.seq)).2.divergence = none ∧
      ((checking tape).replay (requests.take (d.seq + 1))).2.divergence = some d ∧
      run.1.drop d.seq =
        List.replicate (requests.length - d.seq) (.error (divergedAt d.seq)) ∧
      ∀ more, (checking tape).replay (requests ++ more) =
        (run.1 ++ List.replicate more.length (.error (divergedAt d.seq)), run.2) := by
  rcases agreed_or_diverged tape requests with h | ⟨d, h⟩
  · have hnone : ((checking tape).replay requests).2.divergence = none := by rw [h.run]; rfl
    refine ⟨⟨fun _ => ⟨h.length, h.calls⟩, fun _ => hnone⟩, fun _ => by rw [h.run], ?_⟩
    intro d hd
    rw [hnone] at hd
    cases hd
  · have hsome : ((checking tape).replay requests).2.divergence = some d := by rw [h.run]; rfl
    have houtcomes : (outcomes tape d.seq).length = d.seq := by
      have hlength := h.agreed.length
      have hlt := h.seq_lt
      rw [List.length_take] at hlength
      rw [outcomes, List.length_map, List.length_take]
      omega
    refine ⟨⟨fun hnone => ?_, fun hagree => absurd hagree.2 (h.not_prefix hagree.1)⟩,
      fun hnone => ?_, ?_⟩
    · rw [hsome] at hnone
      cases hnone
    · rw [hsome] at hnone
      cases hnone
    · intro d' hd'
      rw [hsome, Option.some.injEq] at hd'
      subst hd'
      refine ⟨by rw [h.agreed.run]; rfl, by rw [h.first]; rfl, ?_, fun more => ?_⟩
      · rw [h.run, List.drop_append_of_le_length (le_of_eq houtcomes.symm)]
        simp [houtcomes]
      · rw [replay_append, h.run, replay_stopped]

end TapeHost

end Proveno
