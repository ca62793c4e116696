import Proveno.Host.RoundTrip
import Proveno.Host.Tape
import Proveno.Vm.Mirrored

/-! A run and its replay. The strict host of the tape that a run has recorded answers every
call as the recorded host did, if that host answers with what the tape gives back, so that
the machine does the same again. -/

namespace Proveno

open Canonicalize (canonicalSerializeTable canonicalDeserialize)

namespace HostInterface

/-- An answer that a tape can hold: an error with a message, or a table for which its
canonical bytes stand. -/
def Recordable (heap : Heap) : Except Bytes (LuaTable OwnedValue) → Prop
  | .error msg => msg ≠ []
  | .ok t => ∃ bytes,
    canonicalSerializeTable (installTable t heap).2 (installTable t heap).1 = .ok bytes ∧
      canonicalDeserialize bytes = .ok (.table t)

/-- A host that leaves the heap alone and gives only such answers. -/
def Replayable (H : Type) [HostInterface H] : Prop :=
  ∀ (host : H) (heap : Heap) name args, (callTool host heap name args).2.2 = heap ∧
    Recordable heap (callTool host heap name args).1

end HostInterface

/-- The records without the attestations taken on the way. -/
def Transcript.unattested (t : Transcript) : Transcript := t.map fun r => { r with attestation := [] }

namespace ToolRegistry

variable {H H' : Type}

/-- The meters, the heap and the logs are the same, and the rest belongs together. -/
def Beside (Q : ToolRegistry H × Transcript → ToolRegistry H' × Transcript → Prop)
    (s : State H) (t : State H') : Prop :=
  t.core = s.core ∧ Q (s.registry, s.transcript) (t.registry, t.transcript)

/-- A tool call does the same on both sides, whatever is called, as long as the transcript
that the first reaches is of the kind. -/
def CallsMirrored [HostInterface H] [HostInterface H'] (P : Transcript → Prop)
    (Q : ToolRegistry H × Transcript → ToolRegistry H' × Transcript → Prop) : Prop :=
  ∀ name args config, Exec.Mirrors (fun s : State H => P s.transcript) (fun _ => False) (Beside Q)
    (call name args config) (call name args config)

end ToolRegistry

namespace Run

variable {H H' : Type} {P : Transcript → Prop}
  {Q : ToolRegistry H × Transcript → ToolRegistry H' × Transcript → Prop}

/-- One machine beside two hosts. -/
def Beside (Q : ToolRegistry H × Transcript → ToolRegistry H' × Transcript → Prop)
    (s : System H) (t : System H') : Prop :=
  t.machine = s.machine ∧ Q (s.registry, s.transcript) (t.registry, t.transcript)

theorem mirrors_embed_beside {α : Type} (m : Engine α) :
    Exec.Mirrors (fun s : System H => P s.transcript) (fun _ => False) (Beside Q) (embed m)
      (embed m) := by
  refine ⟨fun _ h => h, fun s t hst _ _ => ?_⟩
  obtain ⟨hmachine, hrest⟩ := hst
  rw [embed, embed, Exec.run_zoom, Exec.run_zoom, hmachine]
  exact ⟨rfl, rfl, hrest⟩

variable [HostInterface H] [HostInterface H']

theorem mirrors_askTool (hcalls : ToolRegistry.CallsMirrored P Q) (name : Bytes)
    (args : LuaTable LuaValue) :
    Exec.Mirrors (fun s : System H => P s.transcript) (fun _ => False) (Beside Q)
      (askTool name args) (askTool name args) := by
  have hcall (config : VmConfig) := hcalls name args config
  refine ⟨fun s hacc => (hcall s.machine.config).before _ hacc, fun s t hst hacc _ => ?_⟩
  obtain ⟨hmachine, hrest⟩ := hst
  obtain ⟨hvalue, hcore, hrest'⟩ := (hcall s.machine.config).alike (toolState s) (toolState t)
    ⟨congrArg Machine.core hmachine, hrest⟩ hacc fun _ _ => id
  have hconfig : t.machine.config = s.machine.config := congrArg Machine.config hmachine
  rw [run_askTool, run_askTool, hconfig]
  refine ⟨hvalue, ?_, hrest'⟩
  dsimp only [afterTool]
  rw [hcore, hmachine]

theorem reflects_beside (hcalls : ToolRegistry.CallsMirrored P Q) :
    Reflects (fun s : System H => P s.transcript) (fun _ => False) (Beside Q) where
  view _ _ hst := congrArg Machine.view hst.1
  fuel s t hst := by
    have hgas : t.gas = s.gas := by rw [System.gas, System.gas, hst.1]
    rw [hgas]
    exact .refl ..
  fatal _ h := h.elim
  line _ _ h := h.elim
  embed _ := mirrors_embed_beside _
  toolCall := (mirrors_embed_beside _).bind fun _ => (mirrors_askTool hcalls ..).bind fun _ =>
    mirrors_embed_beside _

end Run

namespace ToolRegistry

variable {H : Type} {T : Transcript}

/-- The replay has gone as far in the tape of a transcript as the recorded run. -/
def Retold (T : Transcript) (n : Nat) (told : ToolRegistry H × Transcript)
    (retold : ToolRegistry TapeHost × Transcript) : Prop :=
  retold.1 = ⟨TapeHost.agreeing (OracleTape.fromRecords T) n, told.1.callsMade,
    told.1.totalBytesIn, told.1.totalBytesOut⟩ ∧
  retold.2 = told.2.unattested

theorem accept_retold {n : Nat} {r : ToolRegistry H × Transcript}
    {r' : ToolRegistry TapeHost × Transcript} (h : Retold T n r r') (heap : Heap)
    (args : LuaTable LuaValue) (config : VmConfig) :
    accept r'.1 heap args config = accept r.1 heap args config := by
  obtain ⟨hregistry, -⟩ := h
  rw [accept, accept, hregistry]

theorem recordError_unattested (t : Transcript) (name argsCanonical msg : Bytes) (gas : Nat) :
    (t.recordError name argsCanonical gas msg).unattested =
      t.unattested.recordError name argsCanonical gas msg := by
  simp [Transcript.recordError, Transcript.unattested]

theorem recordOk_unattested (t : Transcript) (name argsCanonical response blob : Bytes) (gas : Nat) :
    (t.recordOkAttested name argsCanonical response blob gas).unattested =
      t.unattested.recordOkAttested name argsCanonical response [] gas := by
  simp [Transcript.recordOkAttested, Transcript.unattested]

variable [HostInterface H]

section Settle

variable {s : State H} {name argsCanonical respCanonical : Bytes} {config : VmConfig}
  {response : LuaTable LuaValue}

theorem settle_over (h : encode "response" s.core.heap response = .ok respCanonical)
    (hover : s.registry.totalBytesOut + respCanonical.length > config.maxToolBytesOut) :
    settle name argsCanonical config (.ok response) s =
      (.error (.raised (runtimeErr (ascii "tool output bytes limit exceeded"))),
        recorded name argsCanonical respCanonical (attestation s).1 (attestation s).2) := by
  rw [settle, h]
  exact if_pos hover

theorem settle_within (h : encode "response" s.core.heap response = .ok respCanonical)
    (hwithin : ¬s.registry.totalBytesOut + respCanonical.length > config.maxToolBytesOut) :
    settle name argsCanonical config (.ok response) s =
      (do charge (gasCost argsCanonical.length respCanonical.length)
          pure response : Call H _).run (delivered respCanonical.length
            (recorded name argsCanonical respCanonical (attestation s).1 (attestation s).2)) := by
  rw [settle, h]
  exact if_neg hwithin

end Settle

theorem recorded_retold {n : Nat} {s : State H} {t : State TapeHost} (hst : Beside (Retold T n) s t)
    (name argsCanonical respCanonical : Bytes) :
    Beside (Retold T n)
      (recorded name argsCanonical respCanonical (attestation s).1 (attestation s).2)
      (recorded name argsCanonical respCanonical (attestation t).1 (attestation t).2) := by
  obtain ⟨hcore, hregistry, htranscript⟩ := hst
  refine ⟨hcore, hregistry, Eq.trans ?_ (recordOk_unattested ..).symm⟩
  exact congrArg (Transcript.recordOkAttested · name argsCanonical respCanonical [] _) htranscript

omit [HostInterface H] in
theorem delivered_retold {n : Nat} {s : State H} {t : State TapeHost}
    (hst : Beside (Retold T n) s t) (respLen : Nat) :
    Beside (Retold T n) (delivered respLen s) (delivered respLen t) := by
  obtain ⟨hcore, hregistry, htranscript⟩ := hst
  refine ⟨hcore, ?_, htranscript⟩
  exact congrArg (fun r : ToolRegistry TapeHost => { r with totalBytesOut := r.totalBytesOut + respLen })
    hregistry

omit [HostInterface H] in
theorem charge_retold {α : Type} {n : Nat} {s : State H} {t : State TapeHost}
    (hst : Beside (Retold T n) s t) (amount : Nat) (a : α) :
    ((do charge amount; pure a : Call TapeHost α).run t).1 =
        ((do charge amount; pure a : Call H α).run s).1 ∧
      Beside (Retold T n) ((do charge amount; pure a : Call H α).run s).2
        ((do charge amount; pure a : Call TapeHost α).run t).2 := by
  obtain ⟨hcore, hrest⟩ := hst
  rw [run_charge_pure, run_charge_pure, hcore]
  exact ⟨rfl, rfl, hrest⟩

/-- Both sides do the same with one reply. -/
theorem settle_retold {n : Nat} {s : State H} {t : State TapeHost} (hst : Beside (Retold T n) s t)
    (name argsCanonical : Bytes) (config : VmConfig) (reply : Except Bytes (LuaTable LuaValue)) :
    (settle name argsCanonical config reply t).1 = (settle name argsCanonical config reply s).1 ∧
      Beside (Retold T n) (settle name argsCanonical config reply s).2
        (settle name argsCanonical config reply t).2 := by
  have hcore : t.core = s.core := hst.1
  cases reply with
  | error msg =>
    obtain ⟨-, hregistry, htranscript⟩ := hst
    refine ⟨rfl, hcore, hregistry, Eq.trans ?_ (recordError_unattested ..).symm⟩
    exact congrArg (Transcript.recordError · name argsCanonical 0 msg) htranscript
  | ok response =>
    cases hencode : encode "response" s.core.heap response with
    | error e =>
      have hencode' : encode "response" t.core.heap response = .error e := by rwa [hcore]
      rw [settle, settle, hencode, hencode']
      exact ⟨rfl, hst⟩
    | ok respCanonical =>
      have hencode' : encode "response" t.core.heap response = .ok respCanonical := by rwa [hcore]
      have hout : t.registry.totalBytesOut = s.registry.totalBytesOut :=
        congrArg ToolRegistry.totalBytesOut hst.2.1
      have hrecorded := recorded_retold hst name argsCanonical respCanonical
      by_cases hover : s.registry.totalBytesOut + respCanonical.length > config.maxToolBytesOut
      · rw [settle_over hencode hover, settle_over hencode' (by rwa [hout])]
        exact ⟨rfl, hrecorded⟩
      · rw [settle_within hencode hover, settle_within hencode' (by rwa [hout])]
        exact charge_retold (delivered_retold hrecorded _) ..

omit [HostInterface H] in
theorem counted_retold {n : Nat} {s : State H} {t : State TapeHost}
    (hst : Beside (Retold T n) s t) (argsLen : Nat) :
    Beside (Retold T n) (counted argsLen s) (counted argsLen t) := by
  obtain ⟨hcore, hregistry, htranscript⟩ := hst
  refine ⟨hcore, ?_, htranscript⟩
  exact congrArg (fun r : ToolRegistry TapeHost => { r with
    callsMade := r.callsMade + 1, totalBytesIn := r.totalBytesIn + argsLen }) hregistry

omit [HostInterface H] in
/-- What the tape of a transcript has at the place of a record. -/
theorem callTool_retold {n : Nat} {r : ToolCallRecord} (hr : T[n]? = some r) {heap : Heap}
    {args : LuaTable LuaValue}
    (hargs : canonicalSerializeTable heap args = .ok r.argsCanonical) :
    HostInterface.callTool (TapeHost.agreeing (OracleTape.fromRecords T) n) heap r.toolName args =
      ((if r.errorMessage = [] then TapeEntry.ok r.responseCanonical
        else .err r.errorMessage).decode,
        TapeHost.agreeing (OracleTape.fromRecords T) (n + 1), heap) := by
  let request : TapeHost.Request := ⟨heap, r.toolName, args, r.argsCanonical, hargs⟩
  have hlt : n < T.length := (List.getElem?_eq_some_iff.mp hr).1
  have hmatch : TapeHost.Matches (OracleTape.fromRecords T) n request := by
    refine ⟨by simpa [OracleTape.fromRecords] using hlt, ?_⟩
    rw [OracleTape.fromRecords, List.getElem?_map, hr]
    rfl
  have hcall := TapeHost.callTool_agreeing_match hmatch
  have hentry : (OracleTape.fromRecords T).entries.get ⟨n, hmatch.1⟩ =
      if r.errorMessage = [] then TapeEntry.ok r.responseCanonical else .err r.errorMessage := by
    obtain ⟨_, rfl⟩ := List.getElem?_eq_some_iff.mp hr
    simp [OracleTape.fromRecords]
  rw [hentry] at hcall
  exact congrArg (fun out => (out.1, out.2, heap)) hcall

/-- The reply to the machine, and the heap it comes with. -/
def replyOf (answer : Except Bytes (LuaTable OwnedValue)) (after : Heap) :
    Except Bytes (LuaTable LuaValue) × Heap :=
  match answer with
  | .ok t => (.ok (installTable t after).1, (installTable t after).2)
  | .error msg => (.error msg, after)

def heard (answer : Except Bytes (LuaTable OwnedValue)) (after : Heap) (core : Core) : Core :=
  { core with
    heap := (replyOf answer after).2
    grown := core.grown + ((replyOf answer after).2.storage - core.heap.storage) }.record
      (.reply core.heap answer after)

theorem ask_eq {s : State H} {name : Bytes} {args : LuaTable LuaValue}
    {answer : Except Bytes (LuaTable OwnedValue)} {host : H} {after : Heap}
    (h : HostInterface.callTool s.registry.host s.core.heap name args = (answer, host, after)) :
    ask name args s = ((replyOf answer after).1, { s with
      registry := { s.registry with host }
      core := heard answer after s.core }) := by
  rw [ask, h]
  rfl

/-- What the tape gives back of an answer that it can hold. -/
theorem decode_recorded {answer : Except Bytes (LuaTable OwnedValue)} {heap : Heap}
    {r : ToolCallRecord} (hanswer : HostInterface.Recordable heap answer)
    (hr : outcomeOf (replyOf answer heap).1 (replyOf answer heap).2 =
      some (if r.errorMessage = [] then .ok r.responseCanonical else .error r.errorMessage)) :
    (if r.errorMessage = [] then TapeEntry.ok r.responseCanonical
      else .err r.errorMessage).decode = answer := by
  cases answer with
  | error msg =>
    split_ifs at hr ⊢ with hmsg
    · cases hr
    · cases hr
      rfl
  | ok t =>
    obtain ⟨bytes, hser, hdec⟩ := hanswer
    have houtcome : outcomeOf (replyOf (.ok t) heap).1 (replyOf (.ok t) heap).2 =
        some (.ok bytes) := by
      rw [replyOf, outcomeOf, hser]
    rw [houtcome] at hr
    split_ifs at hr ⊢ with hmsg
    · cases hr
      rw [TapeEntry.decode, hdec]
    · cases hr

/-- The tape answers the call at which it stands as the host did. -/
theorem ask_retold (hhost : HostInterface.Replayable H) {n : Nat} {s : State H} {t : State TapeHost}
    (hst : Beside (Retold T n) s t) {args : LuaTable LuaValue} {r : ToolCallRecord}
    (hargs : canonicalSerializeTable s.core.heap args = .ok r.argsCanonical)
    (hr : T[n]? = some r)
    (hentry : outcomeOf (ask r.toolName args s).1 (ask r.toolName args s).2.core.heap =
      some (if r.errorMessage = [] then .ok r.responseCanonical else .error r.errorMessage)) :
    (ask r.toolName args t).1 = (ask r.toolName args s).1 ∧
      Beside (Retold T (n + 1)) (ask r.toolName args s).2 (ask r.toolName args t).2 := by
  obtain ⟨hcore, hregistry, htranscript⟩ := hst
  have hanswer := hhost s.registry.host s.core.heap r.toolName args
  rcases hcall : HostInterface.callTool s.registry.host s.core.heap r.toolName args with
    ⟨answer, host, after⟩
  rw [hcall] at hanswer
  obtain ⟨rfl, hanswer⟩ : after = s.core.heap ∧ _ := hanswer
  have hasked := ask_eq hcall
  rw [hasked] at hentry
  have htape := callTool_retold hr hargs
  rw [decode_recorded hanswer hentry, ← hcore,
    show TapeHost.agreeing (OracleTape.fromRecords T) n = t.registry.host from
      (congrArg ToolRegistry.host hregistry).symm] at htape
  rw [hasked, ask_eq htape, hcore]
  refine ⟨rfl, rfl, ?_, htranscript⟩
  exact congrArg (fun r : ToolRegistry TapeHost => { r with
    host := TapeHost.agreeing (OracleTape.fromRecords T) (n + 1) }) hregistry

/-- A call that has reached such a host leaves one record, from which the reply can be read. -/
theorem settle_records (hhost : HostInterface.Replayable H) (name argsCanonical : Bytes)
    (args : LuaTable LuaValue) (config : VmConfig) (s : State H) :
    ∃ r : ToolCallRecord, r.toolName = name ∧ r.argsCanonical = argsCanonical ∧
      outcomeOf (ask name args s).1 (ask name args s).2.core.heap =
        some (if r.errorMessage = [] then .ok r.responseCanonical else .error r.errorMessage) ∧
      (settle name argsCanonical config (ask name args s).1 (ask name args s).2).2.transcript =
        s.transcript ++ [r] := by
  have hanswer := (hhost s.registry.host s.core.heap name args).2
  have hafter := (hhost s.registry.host s.core.heap name args).1
  rcases hcall : HostInterface.callTool s.registry.host s.core.heap name args with
    ⟨answer, host, after⟩
  rw [hcall] at hanswer hafter
  obtain rfl : after = s.core.heap := hafter
  rw [ask_eq hcall]
  obtain ⟨msg, hreply, hstate⟩ | ⟨houtcome, -⟩ | ⟨respCanonical, houtcome, hanswered⟩ :=
    settle_cases name argsCanonical config (replyOf answer s.core.heap).1
      { s with registry := { s.registry with host }, core := heard answer s.core.heap s.core }
  · cases answer with
    | ok t => cases hreply
    | error msg' =>
      have hmsg : msg' ≠ [] := hanswer
      refine ⟨_, rfl, rfl, ?_, congrArg State.transcript hstate⟩
      obtain rfl := Except.error.inj hreply
      exact congrArg some (if_neg hmsg).symm
  · cases answer with
    | error msg' => cases houtcome
    | ok t =>
      obtain ⟨bytes, hser, -⟩ := hanswer
      have : outcomeOf (replyOf (.ok t) s.core.heap).1 (replyOf (.ok t) s.core.heap).2 =
          some (.ok bytes) := by
        rw [replyOf, outcomeOf, hser]
      exact absurd (houtcome.symm.trans this) (by simp)
  · exact ⟨_, rfl, rfl, houtcome.trans (congrArg some (if_pos rfl).symm), hanswered.transcript⟩

/-- A run beside such a host and its replay do the same in a tool call, as long as what the
call records is what the tape has. -/
theorem callsMirrored_retold (hhost : HostInterface.Replayable H) :
    CallsMirrored (· <+: T) fun (r : ToolRegistry H × Transcript) r' => Retold T r.2.length r r' := by
  intro name args config
  constructor
  · intro s hacc
    rw [run_call] at hacc
    cases haccept : accept s.registry s.core.heap args config with
    | error e => rwa [haccept] at hacc
    | ok argsCanonical =>
      rw [haccept] at hacc
      obtain ⟨r, -, -, -, htranscript⟩ :=
        settle_records hhost name argsCanonical args config (counted argsCanonical.length s)
      exact (List.prefix_append _ _).trans (htranscript ▸ hacc)
  · intro s t hst hacc _
    rw [run_call] at hacc ⊢
    rw [run_call, accept_retold hst.2, hst.1]
    cases haccept : accept s.registry s.core.heap args config with
    | error e => exact ⟨rfl, hst⟩
    | ok argsCanonical =>
      rw [haccept] at hacc
      obtain ⟨r, hname, hargs, hentry, htranscript⟩ :=
        settle_records hhost name argsCanonical args config (counted argsCanonical.length s)
      have hr : T[s.transcript.length]? = some r := by
        obtain ⟨rest, hrest⟩ := hacc
        rw [← hrest]
        exact (congrArg (fun l => (l ++ rest)[s.transcript.length]?) htranscript).trans (by simp [counted])
      obtain ⟨hreply, hasked⟩ := ask_retold hhost (counted_retold (n := s.transcript.length) hst
        argsCanonical.length) (hargs ▸ (accept_eq_ok haccept).1) hr (hname ▸ hentry)
      rw [hname] at hreply hasked
      dsimp only
      rw [hreply]
      obtain ⟨hvalue, hcore, hsettled⟩ := settle_retold hasked name argsCanonical config
        (ask name args (counted argsCanonical.length s)).1
      refine ⟨hvalue, hcore, ?_⟩
      have hlength : (settle name argsCanonical config
          (ask name args (counted argsCanonical.length s)).1
          (ask name args (counted argsCanonical.length s)).2).2.transcript.length =
          s.transcript.length + 1 := by
        rw [htranscript]
        simp [counted]
      rw [← hlength] at hsettled
      exact hsettled

end ToolRegistry

namespace Run

variable {H : Type} [HostInterface H]

instance : Nonempty TapeHost := ⟨.positional .new⟩

/-- The strict replay of what a run has recorded is the same run: the same value or error,
logs, meters and trace, the same records, no divergence, and nothing left of the tape. -/
theorem execute_replays (hhost : HostInterface.Replayable H) (program : CompiledProgram)
    (input : LuaValue) (s : System H) :
    let out := (execute program input).run s
    let tape := OracleTape.fromRecords out.2.transcript
    let replayed := (execute program input).run ⟨s.machine, .new (TapeHost.checking tape), []⟩
    replayed.1 = out.1.map (fun o => { o with transcript := out.2.transcript.unattested }) ∧
      replayed.2.machine = out.2.machine ∧
      replayed.2.transcript = out.2.transcript.unattested ∧
      replayed.2.registry.host.divergence = none ∧ replayed.2.registry.host.isExhausted := by
  intro out tape replayed
  have hcalls := ToolRegistry.callsMirrored_retold (T := out.2.transcript) hhost
  obtain ⟨r, s', t', ⟨hended, hregistry', htranscript'⟩, hout, hreplayed⟩ :=
    (reflects_beside hcalls).execute input (s := s)
      (t := ⟨s.machine, .new (TapeHost.checking tape), []⟩) ⟨rfl, rfl, rfl⟩ List.prefix_rfl
      fun _ _ => id
  have hout' : out = _ := hout
  have hreplayed' : replayed = _ := hreplayed
  have hvalue : replayed.1 = out.1.map (fun o => { o with transcript := replayed.2.transcript }) := by
    rw [hout', hreplayed']
    cases r with
    | error e => rfl
    | ok v =>
      change Except.ok _ = Except.ok _
      rw [output, output, hended]
  have hmachine : replayed.2.machine = out.2.machine := by rw [hout', hreplayed', hended]
  have htranscript : replayed.2.transcript = out.2.transcript.unattested := by
    rw [hout', hreplayed']
    exact htranscript'
  have hregistry : replayed.2.registry = ⟨TapeHost.agreeing tape out.2.transcript.length,
      out.2.registry.callsMade, out.2.registry.totalBytesIn, out.2.registry.totalBytesOut⟩ := by
    rw [hreplayed', hout']
    exact hregistry'
  have hhost' : replayed.2.registry.host = TapeHost.agreeing tape out.2.transcript.length :=
    congrArg ToolRegistry.host hregistry
  refine ⟨?_, hmachine, htranscript, by rw [hhost']; rfl, ?_⟩
  · rw [← show replayed.2.transcript = out.2.transcript.unattested from htranscript]
    exact hvalue
  · rw [hhost']
    simp [TapeHost.isExhausted, TapeHost.agreeing, TapeHost.checking, TapeHost.positional, tape,
      OracleTape.fromRecords]

end Run

/-- A host with a fixed answer to each tool that it knows. -/
structure NamedHost where
  responses : List (Bytes × Except Bytes (LuaTable OwnedValue))
  recordable : ∀ r ∈ responses, ∀ heap, HostInterface.Recordable heap r.2

namespace NamedHost

def answer (host : NamedHost) (name : Bytes) : Except Bytes (LuaTable OwnedValue) :=
  match host.responses.find? (·.1 = name) with
  | some r => r.2
  | none => .error (ascii "unknown tool '" ++ name ++ ascii "'")

instance : HostInterface NamedHost where
  callTool host heap name _ := (host.answer name, host, heap)
  grows _ _ _ _ := ⟨le_rfl, le_rfl⟩

theorem replayable : HostInterface.Replayable NamedHost := by
  intro host heap name args
  refine ⟨rfl, ?_⟩
  change HostInterface.Recordable heap (host.answer name)
  rw [answer]
  cases hfind : host.responses.find? (·.1 = name) with
  | none => exact List.append_ne_nil_of_left_ne_nil (List.append_ne_nil_of_left_ne_nil (by decide) _) _
  | some r => exact host.recordable r (List.mem_of_find?_eq_some hfind) heap

/-- `[100]`, as it comes out of its canonical form. -/
def price : LuaTable OwnedValue := ⟨[.integer 100], [], 1, 0⟩

theorem recordable_price (heap : Heap) : HostInterface.Recordable heap (.ok price) := by
  refine ⟨91 :: (Canonicalize.separated [intText 100] ++ [93]), rfl, ?_⟩
  have hdec := (Canonicalize.encodes_array (.cons (Canonicalize.encodes_integer 100) .nil)
    (List.cons_ne_nil _ _) (t := price) (by rfl)).decode _ [] le_rfl (by simp)
  rw [List.append_nil] at hdec
  rw [canonicalDeserialize, hdec]
  rfl

/-- A host that knows one price and refuses every transfer. -/
def market : NamedHost where
  responses := [(ascii "price", .ok price), (ascii "transfer", .error (ascii "denied"))]
  recordable := by
    intro r hr heap
    rcases List.mem_pair.mp hr with rfl | rfl
    · exact recordable_price heap
    · exact List.cons_ne_nil _ _

end NamedHost

/-- `tool.call("price", {}) tool.call("transfer", {})`. -/
def priceThenTransfer : CompiledProgram where
  prototypes := [
    { FunctionProto.new 0 with
      code := [.pushK 0, .newTable, .toolCall, .pop, .pushK 1, .newTable, .toolCall, .ret 1]
      constants := [.string (ascii "price"), .string (ascii "transfer")] }]

namespace Run

theorem execute_replays_priceThenTransfer :
    let s : System NamedHost := .new .default ⟨64, true, 2 ^ 32⟩ Heap.empty .market fun _ _ => false
    let out := (execute priceThenTransfer .nil).run s
    let tape := OracleTape.fromRecords out.2.transcript
    let replayed := (execute priceThenTransfer .nil).run
      ⟨s.machine, .new (TapeHost.checking tape), []⟩
    replayed.1 = out.1.map (fun o => { o with transcript := out.2.transcript.unattested }) ∧
      replayed.2.machine = out.2.machine ∧
      replayed.2.transcript = out.2.transcript.unattested ∧
      replayed.2.registry.host.divergence = none ∧ replayed.2.registry.host.isExhausted :=
  execute_replays NamedHost.replayable priceThenTransfer .nil _

end Run

end Proveno
