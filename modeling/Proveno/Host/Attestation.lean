import Proveno.Host.ToolCall

/-! Which attestation a record gets from a host that keeps the latest one in a slot. -/

namespace Proveno

/-- A host that answers with a response and, where it has one, its attestation. -/
class AttestingHost (I : Type) where
  respond : I → Heap → Bytes → LuaTable LuaValue →
    Except Bytes (LuaTable OwnedValue × Option Bytes) × I × Heap
  grows : ∀ host (heap : Heap) name args, heap.Grows (respond host heap name args).2.2

/-- The slot is set by an attested response and emptied by taking it. -/
structure SlotHost (I : Type) where
  inner : I
  pending : Option Bytes

def SlotHost.callTool {I : Type} [AttestingHost I] (host : SlotHost I) (heap : Heap) (name : Bytes)
    (args : LuaTable LuaValue) : Except Bytes (LuaTable OwnedValue) × SlotHost I × Heap :=
  match AttestingHost.respond host.inner heap name args with
  | (.ok (t, some blob), inner, after) => (.ok t, ⟨inner, some blob⟩, after)
  | (.ok (t, none), inner, after) => (.ok t, ⟨inner, host.pending⟩, after)
  | (.error msg, inner, after) => (.error msg, ⟨inner, host.pending⟩, after)

instance {I : Type} [AttestingHost I] : HostInterface (SlotHost I) where
  callTool host heap name args := host.callTool heap name args
  takeAttestation host := (host.pending, { host with pending := none })
  grows host heap name args := by
    have hgrows := AttestingHost.grows host.inner heap name args
    rw [SlotHost.callTool]
    split <;> simpa [*] using hgrows

namespace ToolRegistry

variable {I : Type} [AttestingHost I] {config : VmConfig} {s s' : State (SlotHost I)}
  {name argsCanonical : Bytes} {args : LuaTable LuaValue}

/-- The host's response to a call from this state. -/
def respondTo (name : Bytes) (args : LuaTable LuaValue) (s : State (SlotHost I)) :
    Except Bytes (LuaTable OwnedValue × Option Bytes) × I × Heap :=
  AttestingHost.respond s.registry.host.inner s.core.heap name args

/-- The attestation that the host has for its response to a call. -/
def produced (name : Bytes) (args : LuaTable LuaValue) (s : State (SlotHost I)) : Option Bytes :=
  match (respondTo name args s).1 with
  | .ok (_, blob) => blob
  | .error _ => none

/-- The call reaches the host and gets an attested response that cannot be serialised. -/
def LeavesAttestation (config : VmConfig) (name : Bytes) (args : LuaTable LuaValue)
    (s : State (SlotHost I)) : Prop :=
  ∃ argsCanonical t blob,
    accept s.registry s.core.heap args config = .ok argsCanonical ∧
    (respondTo name args s).1 = .ok (t, some blob) ∧
    outcomeOf (.ok (installTable t (respondTo name args s).2.2).1)
      (installTable t (respondTo name args s).2.2).2 = none

/-- The attestation that the record of a call should have, if it left one. -/
def dueOf (name : Bytes) (args : LuaTable LuaValue) (s s' : State (SlotHost I)) : List Bytes :=
  if s.transcript.length < s'.transcript.length then [(produced name args s).getD []] else []

/-- The states that a sequence of calls of some kind can reach, with the attestations their
records should have. Between two calls the machine may do anything. -/
inductive Attested (config : VmConfig)
    (kind : Bytes → LuaTable LuaValue → State (SlotHost I) → Prop) :
    List Bytes → State (SlotHost I) → Prop
  | start (host : I) (core : Core) : Attested config kind [] ⟨.new ⟨host, none⟩, [], core⟩
  | call {due : List Bytes} {s : State (SlotHost I)} (name : Bytes) (args : LuaTable LuaValue)
      (hkind : kind name args s) (h : Attested config kind due s) :
      Attested config kind (due ++ dueOf name args s ((call name args config).run s).2)
        ((call name args config).run s).2
  | work {due : List Bytes} {s : State (SlotHost I)} (core : Core)
      (h : Attested config kind due s) : Attested config kind due { s with core }

/-- The reply of a host whose slot was empty, and what is in the slot then. -/
structure Replied (name : Bytes) (args : LuaTable LuaValue) (s : State (SlotHost I))
    (reply : Except Bytes (LuaTable LuaValue)) (mid : State (SlotHost I)) : Prop where
  transcript : mid.transcript = s.transcript
  slot : mid.registry.host.pending = produced name args s
  response : (∃ msg, reply = .error msg ∧ produced name args s = none) ∨
    ∃ t blob, (respondTo name args s).1 = .ok (t, blob) ∧ produced name args s = blob ∧
      reply = .ok (installTable t (respondTo name args s).2.2).1 ∧
      mid.core.heap = (installTable t (respondTo name args s).2.2).2

theorem ask_replied (argsLen : Nat) (hpending : s.registry.host.pending = none) :
    Replied name args s (ask name args (counted argsLen s)).1
      (ask name args (counted argsLen s)).2 := by
  have hcall : HostInterface.callTool s.registry.host s.core.heap name args =
      s.registry.host.callTool s.core.heap name args := rfl
  rcases hrespond : respondTo name args s with ⟨_ | ⟨t, _ | blob⟩, inner, after⟩
  all_goals
    have hslot := hrespond
    rw [respondTo] at hslot
    constructor <;> simp [ask, produced, hcall, SlotHost.callTool, hslot, hrespond, hpending,
      Core.record, counted]

theorem dueOf_append {r : ToolCallRecord} (h : s'.transcript = s.transcript ++ [r]) :
    dueOf name args s s' = [(produced name args s).getD []] :=
  if_pos (by rw [h, List.length_append, List.length_singleton]; omega)

theorem dueOf_same (h : s'.transcript = s.transcript) : dueOf name args s s' = [] :=
  if_neg (by rw [h]; omega)

theorem settle_attributes {reply : Except Bytes (LuaTable LuaValue)} {mid : State (SlotHost I)}
    (h : Replied name args s reply mid)
    (hclean : ∀ t blob, (respondTo name args s).1 = .ok (t, some blob) →
      outcomeOf reply mid.core.heap ≠ none) :
    let s' := (settle name argsCanonical config reply mid).2
    s'.registry.host.pending = none ∧
      s'.transcript.map (·.attestation) =
        s.transcript.map (·.attestation) ++ dueOf name args s s' := by
  rcases settle_cases name argsCanonical config reply mid with
    ⟨msg, hmsg, hs'⟩ | ⟨hnone, hs'⟩ | ⟨respCanonical, hsome, hanswered⟩
  · have hproduced : produced name args s = none := by
      rcases h.response with ⟨_, _, hproduced⟩ | ⟨_, _, _, _, hreply, _⟩
      · exact hproduced
      · rw [hmsg] at hreply
        cases hreply
    have hrecord : (settle name argsCanonical config reply mid).2.transcript =
        s.transcript.recordError name argsCanonical 0 msg := by
      rw [hs', h.transcript]
    refine ⟨by rw [hs']; exact h.slot.trans hproduced, ?_⟩
    rw [dueOf_append hrecord, hrecord, hproduced, Transcript.recordError, List.map_append]
    rfl
  · have hproduced : produced name args s = none := by
      rcases h.response with ⟨_, _, hproduced⟩ | ⟨t, blob, hrespond, hblob, _⟩
      · exact hproduced
      · cases blob with
        | none => exact hblob
        | some blob => exact absurd hnone (hclean t blob hrespond)
    have hsame : (settle name argsCanonical config reply mid).2.transcript = s.transcript := by
      rw [hs', h.transcript]
    refine ⟨by rw [hs']; exact h.slot.trans hproduced, ?_⟩
    rw [dueOf_same hsame, hsame, List.append_nil]
  · have hrecord := hanswered.transcript
    rw [h.transcript, Transcript.recordOkAttested] at hrecord
    have hblob : (attestation mid).1 = (produced name args s).getD [] := by
      rw [← h.slot]
      rfl
    refine ⟨by rw [hanswered.host]; rfl, ?_⟩
    rw [dueOf_append hrecord, hrecord, List.map_append, ← hblob]
    rfl

/-- One call that leaves no attestation behind. -/
theorem call_attributes (hpending : s.registry.host.pending = none)
    (hclean : ¬LeavesAttestation config name args s) :
    ((call name args config).run s).2.registry.host.pending = none ∧
      ((call name args config).run s).2.transcript.map (·.attestation) =
        s.transcript.map (·.attestation) ++
          dueOf name args s ((call name args config).run s).2 := by
  cases haccept : accept s.registry s.core.heap args config with
  | error e => simp [run_call, haccept, dueOf, hpending]
  | ok argsCanonical =>
    have hreplied : Replied name args s _ _ := ask_replied argsCanonical.length hpending
    rw [run_call, haccept]
    refine settle_attributes hreplied fun t blob hrespond hnone => hclean ?_
    rcases hreplied.response with ⟨_, _, hproduced⟩ | ⟨t', _, hrespond', _, hreply, hheap⟩
    · simp [produced, hrespond] at hproduced
    · rw [hrespond] at hrespond'
      obtain ⟨rfl, _⟩ := Prod.mk.inj (Except.ok.inj hrespond')
      rw [hreply, hheap] at hnone
      exact ⟨argsCanonical, t, blob, haccept, hrespond, hnone⟩

/-- The slot is empty between the calls, and the records are attributed so far. -/
theorem Attested.invariant {due : List Bytes}
    (h : Attested config (fun name args s => ¬LeavesAttestation config name args s) due s) :
    s.registry.host.pending = none ∧ s.transcript.map (·.attestation) = due := by
  induction h with
  | start host core => exact ⟨rfl, rfl⟩
  | call name args hclean _ ih =>
    obtain ⟨hpending, hrecords⟩ := ih
    obtain ⟨hempty, hmap⟩ := call_attributes hpending hclean
    exact ⟨hempty, by rw [hmap, hrecords]⟩
  | work core _ ih => exact ih

/-- In a sequence of calls none of which gets an attested response that cannot be
serialised, every record has the attestation of its own call. -/
theorem attestation_attributed {due : List Bytes}
    (h : Attested config (fun name args s => ¬LeavesAttestation config name args s) due s) :
    s.transcript.map (·.attestation) = due :=
  h.invariant.2

/-- A host with one signed response, which holds a function, and plain ones. -/
inductive SignedFunction
  | mk

instance : AttestingHost SignedFunction where
  respond host heap name _ :=
    if name = ascii "signed" then
      (.ok ((LuaTable.new.rawset (.integer 1) (.live (.builtin .type))).2, some [7]), host, heap)
    else (.ok (.new, none), host, heap)
  grows := by
    intro host heap name args
    split_ifs <;> exact ⟨le_rfl, le_rfl⟩

/-- Before any call. -/
def noCalls : State (SlotHost SignedFunction) :=
  ⟨.new ⟨.mk, none⟩, [], .fresh ⟨64, false, 2 ^ 20⟩ 1000 1000 .empty⟩

theorem attestation_attributed_plain :
    ((call (ascii "plain") .new .default).run noCalls).2.transcript.map (·.attestation) =
      [] ++ dueOf (ascii "plain") .new noCalls
        ((call (ascii "plain") .new .default).run noCalls).2 := by
  have hclean : ¬LeavesAttestation .default (ascii "plain") .new noCalls := by
    rintro ⟨_, t, blob, _, hrespond, _⟩
    have hplain : (respondTo (ascii "plain") .new noCalls).1 = .ok (.new, none) := rfl
    rw [hplain] at hrespond
    cases hrespond
  exact attestation_attributed (.call (ascii "plain") .new hclean (.start _ _))

/-- After a call with the signed response, and after a plain one. -/
def signedCall : State (SlotHost SignedFunction) :=
  ((call (ascii "signed") .new .default).run noCalls).2

def plainCall : State (SlotHost SignedFunction) :=
  ((call (ascii "plain") .new .default).run signedCall).2

/-- The attestation of the response that could not be serialised is put on the record of
the next call, which produced none. -/
theorem attestation_misattributed :
    Attested .default (fun _ _ _ => True) [[]] plainCall ∧
      plainCall.transcript.map (·.attestation) = [[7]] := by
  have hstart : Attested .default (fun _ _ _ => True) [] noCalls := .start _ _
  have hsigned : Attested .default (fun _ _ _ => True)
      ([] ++ dueOf (ascii "signed") .new noCalls signedCall) signedCall := .call _ _ trivial hstart
  have hplain : Attested .default (fun _ _ _ => True)
      ([] ++ dueOf (ascii "signed") .new noCalls signedCall ++
        dueOf (ascii "plain") .new signedCall plainCall) plainCall := .call _ _ trivial hsigned
  have hdue : [] ++ dueOf (ascii "signed") .new noCalls signedCall ++
      dueOf (ascii "plain") .new signedCall plainCall = [[]] := by decide
  rw [hdue] at hplain
  exact ⟨hplain, by decide⟩

end ToolRegistry

end Proveno
