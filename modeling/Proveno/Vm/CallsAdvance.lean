import Proveno.Host.ToolCall
import Proveno.Vm.Advances

/-! Calls and returns, sorts, protected calls, tool calls and with them every instruction
advance, given an inner loop that does. -/

namespace Proveno

theorem Engine.takeCall_records {argc : UInt8} {s s' : Machine} {func : LuaValue}
    {args : List LuaValue} (h : (takeCall argc).run s = (.ok (func, args), s')) :
    .call s'.frames.length func args s'.core.heap ∈ s'.core.history := by
  obtain ⟨args, mid, -, h⟩ := Exec.run_bind_eq_ok.mp h
  obtain ⟨v, mid, -, h⟩ := Exec.run_bind_eq_ok.mp h
  obtain ⟨func, mid, -, h⟩ := Exec.run_bind_eq_ok.mp h
  cases h
  exact .head _

theorem Engine.run_turn_ok {s : Machine} {core : Core}
    (h : (Vm.charge GasCost.baseInstruction).run s.core = (.ok (), core)) :
    (do charge GasCost.baseInstruction; record .charged : Engine Unit).run s =
      (.ok (), { s with core := core.record .charged }) := by
  rw [Exec.run_bind, charge, run_lift, h]
  rfl

theorem Engine.run_turn_error {s : Machine} {core : Core} {e : Stop}
    (h : (Vm.charge GasCost.baseInstruction).run s.core = (.error e, core)) :
    (do charge GasCost.baseInstruction; record .charged : Engine Unit).run s =
      (.error e, { s with core }) := by
  rw [Exec.run_bind, charge, run_lift, h]

namespace Moves

variable {H : Type} {main : Bool} {s : System H}

theorem pushFrame (frame : CallFrame) (hroom : s.HasRoom s.depth) :
    Moves main s (Run.embed (Engine.pushFrame frame)) fun _ s' => s'.depth = s.depth + 1 := by
  refine ⟨.of_events [] [.enter (s.depth + 1)] (.record ..) rfl (.of_ok _) rfl
    (.ok _) (Event.admitted_singleton rfl rfl) ?_ ?_ ?_
    (·.of_logs [.enter _] rfl rfl (by simp)) (fun _ _ => .of_eq rfl rfl)
    (by simp [Event.Metered]), fun _ _ => rfl⟩
  · exact (Nat.zero_add _).le
  · exact fun _ => hroom
  · exact fun _ hdepth e he n hn => by
      obtain rfl := List.mem_singleton.mp he
      exact (List.mem_singleton.mp hn).trans_le hdepth

theorem pushCallFrame (program : CompiledProgram) (closure : LuaClosure) (args : List LuaValue)
    (expectedReturns : Nat) (hroom : s.HasRoom s.depth) :
    Moves main s (Run.embed (Engine.pushCallFrame program closure args expectedReturns))
      fun _ s' => s'.depth ≤ s.depth + 1 := by
  rw [Engine.pushCallFrame, Run.embed_bind]
  refine (embed (.orPanic _)).bind fun proto s₁ h₁ hdepth₁ => ?_
  rw [Run.embed_bind]
  refine (embed (.lift (.trackAlloc _))).bind fun _ s₂ h₂ hdepth₂ => ?_
  refine embed_get_bind ?_
  rw [Run.embed_bind]
  have hdepth : s₂.depth ≤ s.depth := by omega
  have hroom₂ := h₂.hasRoom (h₁.hasRoom hroom)
  refine (pushFrame _ (hroom₂.mono hdepth)).bind fun _ s₄ _ hdepth₄ => ?_
  refine (embed (.bind (Engine.pushNils_composed _) fun _ =>
    Engine.bindArgs_composed ..)).mono fun _ s₅ _ hdepth₅ => ?_
  omega

theorem doReturn (n : Nat) :
    Moves main s (Run.embed (Engine.doReturn n)) fun v s' =>
      s'.depth ≤ s.depth - 1 ∧ (v.isSome → s'.depth = 0) := by
  rw [Engine.doReturn, Run.embed_bind]
  refine (embed (.popValues n)).bind fun returned s₁ _ hdepth₁ => ?_
  dsimp only
  rw [Run.embed_bind]
  refine (embed .topFrame).bind fun frame s₂ _ hdepth₂ => ?_
  rw [Run.embed_bind]
  have hpop : Moves main s₂ (Run.embed Engine.popFrame) fun _ s' => s'.depth ≤ s₂.depth - 1 :=
    .of_quiet rfl rfl rfl (List.length_tail.trans_le (Nat.sub_le ..)) List.length_tail.le
  refine hpop.bind fun _ s₃ _ hdepth₃ => ?_
  rw [Run.embed_bind]
  have htruncate : Moves main s₃ (Run.embed (Engine.truncateStack frame.base))
      fun _ s' => s'.depth ≤ s₃.depth := .of_quiet rfl rfl rfl le_rfl le_rfl
  refine htruncate.bind fun _ s₄ _ hdepth₄ => ?_
  refine embed_get_bind ?_
  split_ifs with hframes hreturns
  · exact .pure ⟨by omega, fun _ => by rw [System.depth, hframes]; rfl⟩
  · rw [Run.embed_bind]
    exact (embed (.push _)).bind fun _ s₅ _ hdepth₅ => .pure ⟨by omega, fun h => by cases h⟩
  · exact .pure ⟨by omega, fun h => by cases h⟩

/-- The gas of an instruction is paid before anything else is done. -/
theorem turn :
    Moves main s (Run.embed do
        Engine.charge GasCost.baseInstruction
        Engine.record .charged)
      fun _ s' => s'.gas + 1 ≤ s.gas ∧ s'.depth = s.depth := by
  by_cases hgas : GasCost.baseInstruction > s.machine.core.gas.remaining
  · have hcharge : (Vm.charge GasCost.baseInstruction).run s.machine.core = _ :=
      (Vm.run_charge _).trans (if_pos hgas)
    have hext := (Vm.Composed.charge GasCost.baseInstruction).extends s.machine.core
    rw [hcharge] at hext
    exact .of_run (Run.run_embed (Engine.run_turn_error hcharge)) (.of_extends (.of_core hext.of_error))
      fun _ h => by cases h
  · have hrun := Run.run_embed (Engine.run_turn_ok ((Vm.run_charge _).trans (if_neg hgas)))
    have hpaid : s.gas - GasCost.baseInstruction + 1 = s.gas := by
      rw [System.gas, GasCost.baseInstruction] at *
      omega
    refine .of_run hrun (.of_events [] [.charged] ?_ rfl (.of_ok _) rfl (.ok _)
      (Event.admitted_singleton rfl rfl) ?_ ?_
      (by simp [Event.liveFrames]) (·.of_logs [.charged] rfl rfl (by simp))
      (fun _ _ => .of_eq rfl rfl) (by simp [Event.Metered]))
      fun _ _ => ⟨hpaid.le, rfl⟩
    · exact ⟨rfl, rfl, rfl, Nat.sub_le .., min_le_left .., le_rfl, le_rfl⟩
    · rw [Nat.add_comm]
      exact hpaid.le
    · exact fun hs => hs.imp_right fun hkept => hkept.now

end Moves

variable {H : Type} {main : Bool} {s s' : System H} {fuel n : Nat} {inner : Run H LuaValue}
  {program : CompiledProgram}

/-- From every state that such fuel is enough for, the inner loop ends a frame. -/
def EndsFrame (main : Bool) (fuel : Nat) (inner : Run H LuaValue) : Prop :=
  ∀ s : System H, 2 * s.gas + s.depth < fuel → Moves main s inner fun _ s' => s'.depth ≤ s.depth - 1

/-- At most `n` frames are live, and there is fuel for one more. -/
structure Fuelled (fuel n : Nat) (s : System H) : Prop where
  enough : 2 * s.gas + n + 1 < fuel
  depth : s.depth ≤ n

theorem Fuelled.advance {α : Type} {r : Except Stop α} (h : Fuelled fuel n s)
    (hadv : Advances main s r s') (hdepth : s'.depth ≤ n) : Fuelled fuel n s' := by
  refine ⟨lt_of_le_of_lt ?_ h.enough, hdepth⟩
  have hgas := hadv.gas
  omega

theorem Fuelled.tight (h : Fuelled fuel n s) : Fuelled fuel s.depth s := by
  refine ⟨lt_of_le_of_lt ?_ h.enough, le_rfl⟩
  have hdepth := h.depth
  omega

namespace Run

theorem sortTable_mild (args : List LuaValue) : Mild (sortTable args) := by
  unfold sortTable
  split
  · exact .ok _
  · exact .typeError _
  · exact .runtimeErr _

theorem sortTable_eq_ok {args : List LuaValue} {t : TableRef} (h : sortTable args = .ok t) :
    args.head? = some (.table t) := by
  unfold sortTable at h
  split at h
  · cases h
    assumption
  · cases h
  · cases h

end Run

namespace Moves

theorem callComparator (hinner : EndsFrame main fuel inner) (comp a b : LuaValue)
    (h : Fuelled fuel n s) (hroom : ∀ closure, comp = .function closure → s.HasRoom n) :
    Moves main s (Run.callComparator program inner comp a b)
      fun _ s' => Fuelled fuel n s' ∧ ∀ closure, comp = .function closure → s'.HasRoom n := by
  have hdepth := h.depth
  have henough := h.enough
  have hpush : Moves main s (Run.embed do
        let closure ← Engine.liftLua comp.asFunction
        Engine.recordCall comp [a, b]
        Engine.pushCallFrame program closure [a, b] 1)
      fun _ s' => s'.depth ≤ n + 1 ∧ s.gas ≥ s'.gas ∧
        ∀ closure, comp = .function closure → s'.HasRoom n := by
    have hfunction : Moves main s (Run.embed (Engine.liftLua comp.asFunction))
        fun closure s' => comp = .function closure ∧ s'.depth ≤ s.depth :=
      of_embed (.liftLua _) fun closure machine hrun hframes => by
        cases comp <;> cases hrun
        exact ⟨rfl, hframes.le⟩
    rw [Run.embed_bind]
    refine hfunction.bind fun closure s₁ h₁ ⟨hclosure, hdepth₁⟩ => ?_
    rw [Run.embed_bind]
    refine (embed (.recordCall ..)).bind fun _ s₂ h₂ hdepth₂ => ?_
    have hle : s₂.depth ≤ n := by omega
    have hroom₂ := h₂.hasRoom (h₁.hasRoom (hroom closure hclosure))
    refine (pushCallFrame program closure [a, b] 1 (hroom₂.mono hle)).mono fun _ s₃ h₃ hdepth₃ => ?_
    exact ⟨by omega, (h₃.gas.trans h₂.gas).trans h₁.gas, fun _ _ => h₃.hasRoom hroom₂⟩
  refine hpush.bind fun _ s₁ h₁ ⟨hdepth₁, hgas₁, hroom₁⟩ => ?_
  refine (hinner s₁ (by omega)).bind fun result s₂ h₂ hdepth₂ => .pure ?_
  exact ⟨h.advance (h₁.trans h₂) (by omega), fun closure hc =>
    h₂.hasRoom (hroom₁ closure hc)⟩

theorem sortValues (hinner : EndsFrame main fuel inner) (args arr : List LuaValue)
    (h : Fuelled fuel n s) (hroom : ∀ closure, args[1]? = some (.function closure) → s.HasRoom n) :
    Moves main s (Run.sortValues program inner args arr) fun _ s' => s'.depth ≤ n := by
  have hless : Moves main s (Run.embed (Engine.lift (mergeSort Vm.defaultLess arr.length arr)))
      fun _ s' => s'.depth ≤ n :=
    (embed (.lift (mergeSort_closed (Q := Vm.Composed) .pure (fun hm hf => .bind hm fun b _ => hf b)
      Vm.defaultLess_composed ..))).mono fun _ _ _ hdepth => hdepth.trans h.depth
  unfold Run.sortValues
  split
  · exact hless
  · exact hless
  · rename_i comp _ hcomp
    let P (s : System H) : Prop :=
      Fuelled fuel n s ∧ ∀ closure, comp = .function closure → s.HasRoom n
    have hsort : ∀ s : System H, P s →
        Moves main s (mergeSort (Run.callComparator program inner comp) arr.length arr) fun _ => P :=
      mergeSort_closed (Q := fun {β} (m : Run H β) => ∀ s, P s → Moves main s m fun _ => P)
        (fun _ _ hs => .pure hs) (fun hm hf s hs => (hm s hs).bind fun b s' _ => hf b s')
        (fun a b s hs => callComparator hinner comp a b hs.1 hs.2) arr.length arr
    refine (hsort s ⟨h, fun closure hc => hroom closure (hc ▸ hcomp)⟩).mono fun _ _ _ h' => ?_
    exact h'.1.depth

/-- A sort that compares by a function, on more than one element, needs room for a frame. -/
theorem doTableSort (hinner : EndsFrame main fuel inner) (args : List LuaValue)
    (h : Fuelled fuel n s)
    (hroom : ∀ t closure rest, args = .table t :: .function closure :: rest →
      2 ≤ (s.machine.core.heap.table t).length → s.HasRoom n) :
    Moves main s (Run.doTableSort program inner args) fun _ s' => s'.depth ≤ n := by
  have htable : Moves main s (Run.embed (Engine.lift (Vm.liftError (Run.sortTable args))))
      fun t s' => args.head? = some (.table t) ∧ s' = s := by
    refine of_embed (.lift (.liftError (Run.sortTable_mild args))) fun t machine hrun _ => ?_
    rw [Engine.run_lift, Vm.run_liftError] at hrun
    cases hsort : Run.sortTable args with
    | error e =>
      rw [hsort] at hrun
      cases hrun
    | ok r =>
      rw [hsort] at hrun
      cases hrun
      exact ⟨Run.sortTable_eq_ok hsort, rfl⟩
  refine htable.bind fun t s₁ _ ⟨hhead, hs₁⟩ => ?_
  subst hs₁
  have hlength : Moves main s₁ (Run.embed (Engine.lift (Vm.getTable t)))
      fun content s' => content = s₁.machine.core.heap.table t ∧ s' = s₁ :=
    of_embed (.lift (.getTable t)) fun content machine hrun _ => by
      cases hrun
      exact ⟨rfl, rfl⟩
  refine hlength.bind fun content s₂ _ ⟨hcontent, hs₂⟩ => ?_
  subst hs₂
  dsimp only
  split_ifs with hle
  · exact .pure h.depth
  · refine (embed (.charge _)).bind fun _ s₃ h₃ hdepth₃ => ?_
    refine (embed (.lift (Vm.arrayValues_composed ..))).bind fun arr s₄ h₄ hdepth₄ => ?_
    have hdepth := h.depth
    have h₄' : Fuelled fuel n s₄ := h.advance (h₃.trans h₄) (by omega)
    refine (sortValues hinner args arr h₄' fun closure hclosure => ?_).bind
      fun sorted s₅ _ hdepth₅ => ?_
    · obtain ⟨rest, rfl⟩ : ∃ rest, args = .table t :: .function closure :: rest := by
        rcases args with - | ⟨a, - | ⟨b, rest⟩⟩ <;> simp_all
      have hlen : 2 ≤ (s₂.machine.core.heap.table t).length := by
        rw [← hcontent]
        omega
      exact (h₃.trans h₄).hasRoom (hroom t closure rest rfl hlen)
    · exact (embed (.lift (Vm.writeBack_composed ..))).mono fun _ s₆ _ hdepth₆ =>
        hdepth₆.trans hdepth₅

theorem builtin (hinner : EndsFrame main fuel inner) (id : BuiltinId) (args : List LuaValue)
    (h : Fuelled fuel n s)
    (hroom : ∀ t closure rest, id = .tableSort → args = .table t :: .function closure :: rest →
      2 ≤ (s.machine.core.heap.table t).length → s.HasRoom n) :
    Moves main s (Run.builtin program inner id args) fun _ s' => s'.depth ≤ n := by
  have hother : Moves main s (Run.callBuiltin id args) fun _ s' => s'.depth ≤ n :=
    (embed (.lift (.bind (Vm.callBuiltin_composed id args) fun _ _ => .pure _))).mono
      fun _ _ _ hdepth => hdepth.trans h.depth
  cases id with
  | tableSort =>
    exact (doTableSort hinner args h fun t closure rest => hroom t closure rest rfl).bind
      fun _ _ _ hdepth => .pure hdepth
  | _ => exact hother

/-- The call that was recorded tells whether a sort was called past the limit. -/
theorem hasRoom_of_recorded {func : LuaValue} {args : List LuaValue}
    (h : .call s.depth func args s.machine.core.heap ∈ s.history) (t : TableRef)
    (closure : LuaClosure) (rest : List LuaValue) (hfunc : func = .builtin .tableSort)
    (hargs : args = .table t :: .function closure :: rest)
    (hlen : 2 ≤ (s.machine.core.heap.table t).length) : s.HasRoom s.depth := by
  by_cases hlt : s.depth < s.maxCallDepth
  · exact .inr hlt
  · refine .inl (.inr ⟨_, h, ?_⟩)
    subst hfunc hargs
    exact ⟨Nat.le_of_not_lt hlt, hlen⟩

theorem takeCall (argc : UInt8) :
    Moves main s (Run.embed (Engine.takeCall argc)) fun out s' => s'.depth = s.depth ∧
      .call s'.depth out.1 out.2 s'.machine.core.heap ∈ s'.history :=
  of_embed (Engine.takeCall_composed argc) fun _ _ hrun hframes =>
    ⟨hframes, Engine.takeCall_records hrun⟩

theorem call (hinner : EndsFrame main fuel inner) (argc : UInt8) (h : Fuelled fuel s.depth s) :
    Moves main s (Run.call program inner argc) fun _ s' => s'.depth ≤ s.depth + 1 := by
  refine (embed (.charge _)).bind fun _ s₁ h₁ hdepth₁ => get_bind ?_
  dsimp only
  split_ifs with hlimit
  · exact .raise nofun
  refine (takeCall argc).bind fun out s₂ h₂ ⟨hdepth₂, hrecorded⟩ => ?_
  obtain ⟨func, args⟩ := out
  have hroom : s₂.HasRoom s₂.depth := .inr (by
    rw [h₂.maxCallDepth, hdepth₂]
    exact Nat.lt_of_not_le hlimit)
  cases func with
  | builtin id =>
    have h₂' := h.advance (h₁.trans h₂) (by omega)
    refine (builtin hinner id args h₂'.tight fun _ _ _ _ _ _ => hroom).bind fun result s₃ _ hdepth₃ => ?_
    exact (embed (.push _)).mono fun _ _ _ hdepth => by omega
  | function closure =>
    exact (pushCallFrame program closure args 1 hroom).mono fun _ _ _ hdepth => by omega
  | _ => exact .raise nofun

theorem pushOutcome (outcome : Except VmError LuaValue) :
    Moves main s (Run.pushOutcome outcome) fun _ s' => s'.depth ≤ s.depth := by
  cases outcome with
  | ok v => exact embed (.bind (.push _) fun _ => .push _)
  | error e => exact embed (.bind (.push _) fun _ => .push _)

theorem protectedCall (hinner : EndsFrame main fuel inner) {func : LuaValue} {args : List LuaValue}
    (h : Fuelled fuel s.depth s)
    (hrecorded : .call s.depth func args s.machine.core.heap ∈ s.history) :
    Moves main s (Run.protectedCall program inner func args) fun _ s' => s'.depth ≤ s.depth := by
  refine get_bind ?_
  cases func with
  | builtin id =>
    refine protect (builtin hinner id args h fun t closure rest hid hargs hlen => ?_)
    exact hasRoom_of_recorded hrecorded t closure rest (by rw [hid]) hargs hlen
  | function closure =>
    dsimp only
    split_ifs with hlimit
    · exact .pure le_rfl
    · have hroom : s.HasRoom s.depth := .inr (Nat.lt_of_not_le hlimit)
      refine (pushCallFrame program closure args 1 hroom).bind fun _ s₁ h₁ hdepth₁ => ?_
      have hgas := h₁.gas
      have henough := h.enough
      refine protect ((hinner s₁ (by omega)).mono fun _ s₂ _ hdepth₂ => ?_)
      exact hdepth₂.trans (Nat.sub_le_of_le_add hdepth₁)
  | _ => exact .pure le_rfl

theorem pcall (hinner : EndsFrame main fuel inner) (argc : UInt8) (h : Fuelled fuel s.depth s) :
    Moves main s (Run.pcall program inner argc) fun _ s' => s'.depth ≤ s.depth := by
  refine (embed (.charge _)).bind fun _ s₁ h₁ hdepth₁ => get_bind ?_
  dsimp only
  refine (takeCall argc).bind fun out s₂ h₂ ⟨hdepth₂, hrecorded⟩ => ?_
  have h₂' := h.advance (h₁.trans h₂) (by omega)
  refine (protectedCall hinner h₂'.tight hrecorded).bind fun outcome s₃ h₃ hdepth₃ => ?_
  refine (pushOutcome outcome).bind fun _ s₄ h₄ hdepth₄ => get_bind ?_
  have hcall := (h₃.trans h₄).suffix.subset hrecorded
  refine .of_run rfl (.of_events [] [.pcall ..] (.record ..) rfl (.of_ok _) rfl (.ok _)
    (Event.admitted_singleton rfl rfl) ?_ ?_ ?_
    (·.of_logs [.pcall ..] rfl rfl (by simp)) (fun _ _ => .of_eq rfl rfl)
    (by simp [Event.Metered])) fun _ _ => ?_
  · exact (Nat.zero_add _).le
  · exact fun hs => hs.imp_right fun hkept => hkept.now
  · intro hkept _ e he n hn
    obtain rfl := List.mem_singleton.mp he
    have hbefore := hkept.before _ hcall _ (.head _)
    rw [Event.liveFrames, List.mem_pair] at hn
    rcases hn with rfl | rfl
    · exact hdepth₂.symm.trans_le hbefore
    · exact hkept.now
  · exact (hdepth₄.trans hdepth₃).trans (hdepth₂.trans_le hdepth₁)

end Moves

namespace ToolRegistry

theorem encode_error {what : String} {heap : Heap} {t : LuaTable LuaValue} {e : VmError}
    (h : encode what heap t = .error e) : ∃ v, e = .runtimeError v := by
  unfold encode at h
  rcases hserialize : Canonicalize.canonicalSerializeTable heap t with (_ | _ | _ | _) | _
  all_goals
    rw [hserialize] at h
    cases h
  all_goals exact ⟨_, rfl⟩

theorem accept_error {registry : ToolRegistry H} {heap : Heap} {args : LuaTable LuaValue}
    {config : VmConfig} {e : VmError} (h : accept registry heap args config = .error e) :
    ∃ v, e = .runtimeError v := by
  unfold accept at h
  cases hencode : encode "args" heap args with
  | error e' =>
    rw [hencode] at h
    cases h
    exact encode_error hencode
  | ok argsCanonical =>
    rw [hencode] at h
    dsimp only at h
    split_ifs at h <;> cases h
    · exact ⟨_, rfl⟩
    · exact ⟨_, rfl⟩

variable [HostInterface H]

/-- Once the host has replied, a call works on the meters alone. -/
theorem settle_extends (name argsCanonical : Bytes) (config : VmConfig)
    (reply : Except Bytes (LuaTable LuaValue)) (s : State H) :
    Vm.Extends s.core (settle name argsCanonical config reply s).1
      (settle name argsCanonical config reply s).2.core := by
  have hraise (v : LuaValue) :
      Vm.Extends s.core (.error (.raised (.runtimeError v)) : Except Stop (LuaTable LuaValue))
        s.core := .of_raise (e := .runtimeError v) nofun s.core
  cases reply with
  | error msg => exact .of_raise (e := .toolError msg) nofun s.core
  | ok response =>
    rw [settle]
    cases hencode : encode "response" s.core.heap response with
    | error e =>
      obtain ⟨v, rfl⟩ := encode_error hencode
      exact hraise v
    | ok respCanonical =>
      dsimp only
      split_ifs
      · exact hraise _
      · rw [run_charge_pure]
        exact (Vm.Composed.bind (.charge _) fun _ _ => .pure response).extends s.core

theorem ask_grows (name : Bytes) (args : LuaTable LuaValue) (s : State H) :
    s.core.heap.Grows (ask name args s).2.core.heap := by
  have hgrows := HostInterface.grows s.registry.host s.core.heap name args
  unfold ask
  rcases hanswer : HostInterface.callTool s.registry.host s.core.heap name args with ⟨msg | t, host, after⟩
  · rw [hanswer] at hgrows
    exact hgrows
  · rw [hanswer] at hgrows
    exact hgrows.trans (installTable_grows t after)

/-- A reply that adds nothing to what the heap stores is covered by no charge. -/
theorem ask_covers (name : Bytes) (args : LuaTable LuaValue) (s : State H)
    (hacc : (ask name args s).2.core.Accountable) : s.core.Covers (ask name args s).2.core := by
  have hsame {heap : Heap} (h : heap.storage ≤ s.core.heap.storage) :
      s.core.grown + (heap.storage - s.core.heap.storage) = s.core.grown := by
    rw [Nat.sub_eq_zero_of_le h, Nat.add_zero]
  unfold ask at hacc ⊢
  rcases hanswer : HostInterface.callTool s.registry.host s.core.heap name args with
    ⟨msg | t, host, after⟩
  all_goals rw [hanswer] at hacc
  · have hstorage := hacc.absorbed (.reply s.core.heap (.error msg) after) (.head _)
    exact .of_eq (hsame hstorage) rfl
  · have hstorage := hacc.absorbed (.reply s.core.heap (.ok t) after) (.head _)
    exact .of_eq (hsame hstorage) rfl

theorem ask_advances (name : Bytes) (args : LuaTable LuaValue) (argsLen : Nat) :
    let asked := (ask name args (counted argsLen ⟨s.registry, s.transcript, s.machine.core⟩)).2
    Advances main s (.ok () : Except Stop Unit)
      ⟨{ s.machine with core := asked.core }, asked.registry, asked.transcript⟩ := by
  have hgrows := ask_grows name args
    (counted argsLen ⟨s.registry, s.transcript, s.machine.core⟩)
  refine .of_events [] [.reply ..] (.of_heap rfl rfl rfl hgrows) rfl (.of_ok _) rfl (.ok _)
    (Event.admitted_singleton rfl rfl) (Nat.zero_add _).le ?_
    (by simp [Event.liveFrames]) (·.of_logs [.reply ..] rfl rfl (by simp))
    (fun _ hacc => ask_covers name args _ hacc) (by simp [Event.Metered])
  exact fun hs => hs.imp_right fun hkept => hkept.now

end ToolRegistry

namespace Moves

variable [HostInterface H]

theorem askTool (name : Bytes) (args : LuaTable LuaValue) :
    Moves main s (Run.askTool name args) fun _ s' => s'.depth ≤ s.depth := by
  refine get_bind ?_
  have hcall := ToolRegistry.run_call name args s.machine.config
    ⟨s.registry, s.transcript, s.machine.core⟩
  refine .of_run (r := _) rfl ?_ fun _ _ => le_rfl
  dsimp only
  rw [hcall]
  cases haccept : ToolRegistry.accept s.registry s.machine.core.heap args s.machine.config with
  | error e =>
    obtain ⟨v, rfl⟩ := ToolRegistry.accept_error haccept
    exact .of_extends (.of_core (.of_raise (e := .runtimeError v) nofun s.machine.core))
  | ok argsCanonical =>
    exact (ToolRegistry.ask_advances name args argsCanonical.length).trans (.of_extends (.of_core (ToolRegistry.settle_extends ..)))

theorem toolCall : Moves main s (Run.toolCall : Run H Unit) fun _ s' => s'.depth ≤ s.depth := by
  refine (embed Run.toolArgs_composed).bind fun out s₁ _ hdepth₁ => ?_
  refine (askTool out.1 out.2).bind fun response s₂ _ hdepth₂ => ?_
  exact (embed (.bind (.lift (.allocResponse _)) fun _ => .push _)).mono fun _ _ _ hdepth => by omega

/-- An instruction spends gas, and then pushes a frame at most; it ends the run only when
no frames are left. -/
theorem dispatch (hinner : EndsFrame main fuel inner) (instr : Instruction)
    (h : 2 * s.gas + s.depth ≤ fuel) :
    Moves main s (Run.dispatch program inner instr) fun out s' =>
      s'.gas < s.gas ∧ s'.depth ≤ s.depth + 1 ∧ (out.isSome → s'.depth = 0) := by
  refine turn.bind fun _ s₁ h₁ ⟨hgas₁, hdepth₁⟩ => ?_
  have hready : Fuelled fuel s₁.depth s₁ := ⟨by omega, le_rfl⟩
  have hnone {m : Run H Unit} (hm : Moves main s₁ m fun _ s' => s'.depth ≤ s₁.depth + 1) :
      Moves main s₁ (m >>= fun _ => Pure.pure (none : Option LuaValue)) fun out s' =>
        s'.gas < s.gas ∧ s'.depth ≤ s.depth + 1 ∧ (out.isSome → s'.depth = 0) :=
    hm.bind fun _ s₂ h₂ hdepth₂ => .pure ⟨by have := h₂.gas; omega, by omega, nofun⟩
  cases instr with
  | call argc => exact hnone (call hinner argc hready)
  | pcall argc => exact hnone ((pcall hinner argc hready).mono fun _ _ _ hdepth => by omega)
  | toolCall => exact hnone (toolCall.mono fun _ _ _ hdepth => by omega)
  | ret n =>
    dsimp only
    rw [Run.embed_bind]
    refine (embed (.charge _)).bind fun _ s₂ h₂ hdepth₂ => ?_
    refine (doReturn n.toNat).mono fun out s₃ h₃ ⟨hdepth₃, hout⟩ => ?_
    have hgas₂ := h₂.gas
    have hgas₃ := h₃.gas
    exact ⟨by omega, by omega, hout⟩
  | _ => exact hnone ((embed (Engine.perform_composed program _)).mono fun _ _ _ hdepth => by omega)

end Moves

end Proveno
