import Proveno.Host.Tape

/-! A transcript as the calls that recorded it, and the tape built from its records. -/

namespace Proveno

/-- A call of `record_ok_attested` or `record_error`. -/
inductive RecordedCall
  | ok (toolName argsCanonical responseCanonical attestation : Bytes) (gasCharged : Nat)
  | error (toolName argsCanonical : Bytes) (gasCharged : Nat) (errorMessage : Bytes)

namespace RecordedCall

def perform (t : Transcript) : RecordedCall → Transcript
  | ok toolName argsCanonical responseCanonical attestation gasCharged =>
    t.recordOkAttested toolName argsCanonical responseCanonical attestation gasCharged
  | error toolName argsCanonical gasCharged errorMessage =>
    t.recordError toolName argsCanonical gasCharged errorMessage

def outcome : RecordedCall → TapeEntry
  | ok _ _ responseCanonical _ _ => .ok responseCanonical
  | error _ _ _ errorMessage => .err errorMessage

def attestation : RecordedCall → Bytes
  | ok _ _ _ attestation _ => attestation
  | error .. => []

def call : RecordedCall → TapeCall
  | ok toolName argsCanonical _ _ _ => ⟨toolName, argsCanonical⟩
  | error toolName argsCanonical _ _ => ⟨toolName, argsCanonical⟩

end RecordedCall

def Transcript.recorded (calls : List RecordedCall) : Transcript :=
  calls.foldl RecordedCall.perform []

/-- The tape tells of every call, at its position, what was recorded. -/
structure OracleTape.Faithful (tape : OracleTape) (calls : List RecordedCall) : Prop where
  entries_length : tape.entries.length = calls.length
  attestations_length : tape.attestations.length = calls.length
  calls_length : tape.calls.length = calls.length
  ok_iff : ∀ (i : Nat) (c : RecordedCall), calls[i]? = some c → ∀ response : Bytes,
    tape.entries[i]? = some (TapeEntry.ok response) ↔
      ∃ toolName argsCanonical attestation gasCharged,
        c = .ok toolName argsCanonical response attestation gasCharged
  err_iff : ∀ (i : Nat) (c : RecordedCall), calls[i]? = some c → ∀ message : Bytes,
    tape.entries[i]? = some (TapeEntry.err message) ↔
      ∃ toolName argsCanonical gasCharged, c = .error toolName argsCanonical gasCharged message
  attestation_eq : ∀ (i : Nat) (c : RecordedCall), calls[i]? = some c →
    tape.attestations[i]? = some c.attestation
  call_eq : ∀ (i : Nat) (c : RecordedCall), calls[i]? = some c → tape.calls[i]? = some c.call

section Records

variable {β : Type}

/-- What is read off every record depends on the call that made it only. -/
theorem map_recorded {read : ToolCallRecord → β} {expected : RecordedCall → β}
    (h : ∀ t c, ∃ r, RecordedCall.perform t c = t ++ [r] ∧ read r = expected c)
    (calls : List RecordedCall) :
    (Transcript.recorded calls).map read = calls.map expected := by
  have hfold : ∀ t, (calls.foldl RecordedCall.perform t).map read =
      t.map read ++ calls.map expected := by
    induction calls with
    | nil => simp
    | cons c calls ih =>
      intro t
      obtain ⟨r, hperform, hread⟩ := h t c
      rw [List.foldl_cons, ih, hperform, List.map_append, List.map_cons, List.map_nil, hread,
        List.append_assoc]
      rfl
  simpa [Transcript.recorded] using hfold []

/-- The entry that a call ends as: an error without a message reads as an answer. -/
def RecordedCall.entry : RecordedCall → TapeEntry
  | ok _ _ responseCanonical _ _ => .ok responseCanonical
  | error _ _ _ errorMessage => if errorMessage = [] then .ok [] else .err errorMessage

theorem entries_recorded (calls : List RecordedCall) :
    (OracleTape.fromRecords (Transcript.recorded calls)).entries = calls.map (·.entry) := by
  refine map_recorded (fun t c => ?_) calls
  cases c with
  | ok => exact ⟨_, rfl, rfl⟩
  | error => exact ⟨_, rfl, rfl⟩

theorem attestations_recorded (calls : List RecordedCall) :
    (OracleTape.fromRecords (Transcript.recorded calls)).attestations =
      calls.map (·.attestation) := by
  refine map_recorded (fun t c => ?_) calls
  cases c with
  | ok => exact ⟨_, rfl, rfl⟩
  | error => exact ⟨_, rfl, rfl⟩

theorem calls_recorded (calls : List RecordedCall) :
    (OracleTape.fromRecords (Transcript.recorded calls)).calls = calls.map (·.call) := by
  refine map_recorded (fun t c => ?_) calls
  cases c with
  | ok => exact ⟨_, rfl, rfl⟩
  | error => exact ⟨_, rfl, rfl⟩

end Records

namespace RecordedCall

/-- An error whose message is empty. -/
def Silent (c : RecordedCall) : Prop :=
  ∃ toolName argsCanonical gasCharged, c = .error toolName argsCanonical gasCharged []

theorem entry_eq_outcome_iff {c : RecordedCall} : c.entry = c.outcome ↔ ¬c.Silent := by
  cases c with
  | ok => simp [entry, outcome, Silent]
  | error toolName argsCanonical gasCharged errorMessage =>
    by_cases hempty : errorMessage = []
    · subst hempty
      simp [entry, outcome, Silent]
    · simp [entry, outcome, Silent, hempty]

theorem outcome_eq_ok_iff {c : RecordedCall} {response : Bytes} :
    c.outcome = .ok response ↔ ∃ toolName argsCanonical attestation gasCharged,
      c = .ok toolName argsCanonical response attestation gasCharged := by
  cases c <;> simp [outcome]

theorem outcome_eq_err_iff {c : RecordedCall} {message : Bytes} :
    c.outcome = .err message ↔ ∃ toolName argsCanonical gasCharged,
      c = .error toolName argsCanonical gasCharged message := by
  cases c <;> simp [outcome]

end RecordedCall

/-- The tape of a transcript is faithful exactly when no error was recorded without a
message. -/
theorem fromRecords_faithful_iff (calls : List RecordedCall) :
    (OracleTape.fromRecords (Transcript.recorded calls)).Faithful calls ↔
      ∀ c ∈ calls, ¬c.Silent := by
  have hentry : ∀ {i : Nat} {c : RecordedCall}, calls[i]? = some c →
      (OracleTape.fromRecords (Transcript.recorded calls)).entries[i]? = some c.entry := by
    intro i c hc
    rw [entries_recorded, List.getElem?_map, hc, Option.map_some]
  constructor
  · intro h c hc hsilent
    obtain ⟨i, hi⟩ := List.mem_iff_getElem?.mp hc
    obtain ⟨toolName, argsCanonical, gasCharged, rfl⟩ := hsilent
    obtain ⟨_, _, _, _, hok⟩ := (h.ok_iff i _ hi []).mp (hentry hi)
    cases hok
  · intro h
    have houtcome : ∀ {i : Nat} {c : RecordedCall}, calls[i]? = some c →
        (OracleTape.fromRecords (Transcript.recorded calls)).entries[i]? = some c.outcome := by
      intro i c hc
      rw [hentry hc, RecordedCall.entry_eq_outcome_iff.mpr (h c (List.mem_of_getElem? hc))]
    refine ⟨?_, ?_, ?_, ?_, ?_, ?_, ?_⟩
    · rw [entries_recorded, List.length_map]
    · rw [attestations_recorded, List.length_map]
    · rw [calls_recorded, List.length_map]
    · intro i c hc response
      rw [houtcome hc, Option.some_inj, RecordedCall.outcome_eq_ok_iff]
    · intro i c hc message
      rw [houtcome hc, Option.some_inj, RecordedCall.outcome_eq_err_iff]
    · intro i c hc
      rw [attestations_recorded, List.getElem?_map, hc, Option.map_some]
    · intro i c hc
      rw [calls_recorded, List.getElem?_map, hc, Option.map_some]

/-- A tool that fails without a message. -/
theorem silent_error_not_faithful :
    ¬(OracleTape.fromRecords (Transcript.recorded
      [.error (ascii "fetch") (ascii "{}") 100 []])).Faithful
        [.error (ascii "fetch") (ascii "{}") 100 []] := by
  intro h
  obtain ⟨_, _, _, _, hok⟩ := (h.ok_iff 0 _ rfl []).mp rfl
  cases hok

end Proveno
