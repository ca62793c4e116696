import Proveno.Vm.DispatchComposed

/-! What every part of a run does: it spends gas, it notes an unrecoverable error once and
ends there, and it keeps to the limit on frames unless a sort was called past it. -/

namespace Proveno

namespace Event

def isFatal : Event → Bool
  | fatal _ _ _ => true
  | _ => false

def isCharged : Event → Bool
  | charged => true
  | _ => false

/-- The loop of `execute` itself is at an instruction or at the end of a function. -/
def isMain : Event → Bool
  | dispatch nested _ _ | fallOff nested => !nested
  | _ => false

/-- How many frames are live, by what the event says. -/
def liveFrames : Event → List Nat
  | dispatch _ frames _ | pop frames _ => [frames.length]
  | enter depth | call depth _ _ _ => [depth]
  | pcall _ frames _ _ frames' _ => [frames.length, frames'.length]
  | _ => []

/-- `table.sort` is called with a function to compare by, on a table of two elements at
least, when no more frames may be pushed. -/
def SortsPastLimit (limit : Nat) : Event → Prop
  | call depth (.builtin .tableSort) (.table t :: .function _ :: _) heap =>
    limit ≤ depth ∧ 2 ≤ (heap.table t).length
  | _ => False

instance (limit : Nat) : DecidablePred (SortsPastLimit limit) := fun e => by
  unfold SortsPastLimit
  split <;> infer_instance

theorem Within.isFatal {depth : Nat} {e : Event} (h : e.Within depth) : e.isFatal = false := by
  cases e <;> first | rfl | exact h.elim

theorem Within.isMain {depth : Nat} {e : Event} (h : e.Within depth) : e.isMain = false := by
  cases e <;> first | rfl | exact h.elim

theorem Within.isCharged {depth : Nat} {e : Event} (h : e.Within depth) :
    e.isCharged = false := by
  cases e <;> first | rfl | exact h.elim

theorem Within.metered {depth : Nat} {e : Event} (h : e.Within depth) : e.Metered := by
  cases e <;> trivial

theorem Within.liveFrames {depth : Nat} {e : Event} (h : e.Within depth) :
    ∀ n ∈ e.liveFrames, n = depth := by
  cases e with
  | pop frames len => exact fun n hn => (List.mem_singleton.mp hn).trans h
  | call d callee args heap => exact fun n hn => (List.mem_singleton.mp hn).trans h
  | capture | assign | logging | store | response => exact nofun
  | _ => exact h.elim

/-- Neither an error that ends the run, nor a turn of the main loop outside it. -/
structure Admitted (main : Bool) (e : Event) : Prop where
  mild : e.isFatal = false
  inside : e.isMain = true → main = true

theorem Admitted.of_inner {main : Bool} {e : Event} (hfatal : e.isFatal = false)
    (hmain : e.isMain = false) : e.Admitted main :=
  ⟨hfatal, fun h => by simp [hmain] at h⟩

theorem admitted_singleton {main : Bool} {e : Event} (hfatal : e.isFatal = false)
    (hmain : e.isMain = false) : ∀ e' ∈ [e], e'.Admitted main :=
  fun _ he => List.mem_singleton.mp he ▸ .of_inner hfatal hmain

theorem Admitted.mono {main : Bool} {e : Event} (h : e.Admitted false) : e.Admitted main :=
  ⟨h.mild, fun hmain => absurd (h.inside hmain) Bool.false_ne_true⟩

end Event

/-- How many instructions were paid for. -/
def charges (es : List Event) : Nat := es.countP Event.isCharged

/-- The mark that an unrecoverable error has left in the history. -/
inductive Marked {α : Type} (c : Core) : Except Stop α → List Event → Prop
  | clean {r : Except Stop α}
      (h : ∀ e, r = .error (.raised e) → e.isUnrecoverable = false) : Marked c r []
  | fatal {e noted : VmError} (hcause : noted.cause = e.cause) (he : e.isUnrecoverable = true) :
      Marked c (.error (.raised e)) [.fatal noted c.heap c.logs]

namespace Marked

variable {α β : Type} {c : Core} {mark : List Event}

theorem ok (a : α) : Marked c (.ok a) [] := .clean nofun

theorem eq_nil {a : α} (h : Marked c (.ok a) mark) : mark = [] := by
  cases h
  rfl

theorem of_error {e : Stop} (h : Marked c (.error e : Except Stop α) mark) :
    Marked c (.error e : Except Stop β) mark := by
  cases h with
  | clean h => exact .clean fun e' he => h e' (by cases he; rfl)
  | fatal hcause he => exact .fatal hcause he

theorem of_fatalMark (r : Except Stop α) (c : Core) : Marked c r (fatalMark r c) := by
  rcases r with (e | _ | _) | a
  · rw [fatalMark_raised]
    split_ifs with he
    · exact .fatal rfl he
    · exact .clean fun e' he' => by cases he'; simpa using he
  · exact .clean nofun
  · exact .clean nofun
  · exact .ok a

theorem withLine {e : VmError} (line : Nat)
    (h : Marked c (.error (.raised e) : Except Stop α) mark) :
    Marked c (.error (.raised (.withLine line e)) : Except Stop α) mark := by
  cases h with
  | clean h => exact .clean fun e' he => by cases he; exact h e rfl
  | fatal hcause he => exact .fatal hcause he

theorem of_caught {e : VmError} (he : e.isUnrecoverable = false)
    (h : Marked c (.error (.raised e) : Except Stop α) mark) : mark = [] := by
  cases h with
  | clean h => rfl
  | fatal hcause he' => simp [he] at he'

theorem metered {r : Except Stop α} (h : Marked c r mark) : ∀ e ∈ mark, e.Metered := by
  cases h with
  | clean h => exact List.forall_mem_nil _
  | fatal hcause he => exact fun e he => List.mem_singleton.mp he ▸ trivial

theorem liveFrames {r : Except Stop α} (h : Marked c r mark) :
    ∀ e ∈ mark, e.liveFrames = [] := by
  cases h with
  | clean h => exact List.forall_mem_nil _
  | fatal hcause he => exact fun e he => List.mem_singleton.mp he ▸ rfl

theorem isCharged {r : Except Stop α} (h : Marked c r mark) :
    ∀ e ∈ mark, e.isCharged = false := by
  cases h with
  | clean h => exact List.forall_mem_nil _
  | fatal hcause he => exact fun e he => List.mem_singleton.mp he ▸ rfl

end Marked

namespace System

variable {H : Type}

def depth (s : System H) : Nat := s.machine.frames.length

def gas (s : System H) : Nat := s.machine.core.gas.remaining

def history (s : System H) : List Event := s.machine.core.history

def maxCallDepth (s : System H) : Nat := s.machine.config.maxCallDepth

/-- The limit allows no frame at all, or some sort was called past it. -/
def PastLimit (s : System H) : Prop :=
  s.maxCallDepth = 0 ∨ ∃ e ∈ s.history, e.SortsPastLimit s.maxCallDepth

theorem PastLimit.of_suffix {s s' : System H} (h : s.PastLimit)
    (hmax : s'.maxCallDepth = s.maxCallDepth) (hhist : s.history <:+ s'.history) :
    s'.PastLimit := by
  rw [PastLimit, hmax]
  exact h.imp_right fun ⟨e, he, hsorts⟩ => ⟨e, hhist.subset he, hsorts⟩

/-- There were never more frames than the limit says, nor are there now. -/
structure KeptLimit (s : System H) : Prop where
  now : s.depth ≤ s.maxCallDepth
  before : ∀ e ∈ s.history, ∀ n ∈ e.liveFrames, n ≤ s.maxCallDepth

def WithinLimit (s : System H) : Prop := s.PastLimit ∨ s.KeptLimit

/-- A frame may be pushed onto so many. -/
def HasRoom (s : System H) (depth : Nat) : Prop := s.PastLimit ∨ depth < s.maxCallDepth

theorem HasRoom.mono {s : System H} {m n : Nat} (h : s.HasRoom n) (hle : m ≤ n) : s.HasRoom m :=
  Or.imp_right hle.trans_lt h

end System

/-- What a computation of the machine with its host does to the state and, by its
outcome, to the history; the main loop is not among what runs unless it says so. -/
structure Advances {α H : Type} (main : Bool) (s : System H) (r : Except Stop α)
    (s' : System H) : Prop where
  core : s.machine.core.Grows s'.machine.core
  config : s'.machine.config = s.machine.config
  settled : Settled r s'.machine.core
  history : ∃ mark es, s'.history = mark ++ es ++ s.history ∧ Marked s'.machine.core r mark ∧
    (∀ e ∈ es, e.Admitted main) ∧ charges es + s'.gas ≤ s.gas
  limit : s.WithinLimit → s'.WithinLimit
  logged : s.machine.core.Logged → s'.machine.core.Logged
  covered : ¬IsFatal r → s'.machine.core.Accountable → s.machine.core.Covers s'.machine.core
  metered : s'.machine.core.Accountable → (∀ e ∈ s.history, e.Metered) →
    ∀ e ∈ s'.history, e.Metered

namespace Advances

variable {α β H : Type} {main : Bool} {s s' s'' : System H}

theorem gas {r : Except Stop α} (h : Advances main s r s') : s'.gas ≤ s.gas := h.core.gas

theorem suffix {r : Except Stop α} (h : Advances main s r s') : s.history <:+ s'.history := by
  obtain ⟨mark, es, hes, -⟩ := h.history
  exact ⟨mark ++ es, hes.symm⟩

theorem accountable {r : Except Stop α} (h : Advances main s r s')
    (hacc : s'.machine.core.Accountable) : s.machine.core.Accountable :=
  hacc.before h.core h.suffix

theorem maxCallDepth {r : Except Stop α} (h : Advances main s r s') :
    s'.maxCallDepth = s.maxCallDepth := by
  rw [System.maxCallDepth, h.config, System.maxCallDepth]

theorem pastLimit {r : Except Stop α} (h : Advances main s r s') (hpast : s.PastLimit) :
    s'.PastLimit :=
  hpast.of_suffix h.maxCallDepth h.suffix

theorem hasRoom {r : Except Stop α} {n : Nat} (h : Advances main s r s') (hroom : s.HasRoom n) :
    s'.HasRoom n :=
  Or.imp h.pastLimit (fun hlt => h.maxCallDepth.symm ▸ hlt) hroom

theorem trans {a : α} {r : Except Stop β} (h : Advances main s (.ok a) s') (h' : Advances main s' r s'') :
    Advances main s r s'' where
  core := h.core.trans h'.core
  config := h'.config.trans h.config
  settled := h'.settled
  history := by
    obtain ⟨mark, es, hes, hmark, hfatal, hcharges⟩ := h.history
    obtain ⟨mark', es', hes', hmark', hfatal', hcharges'⟩ := h'.history
    refine ⟨mark', es' ++ es, ?_, hmark', ?_, ?_⟩
    · rw [hes', hes, hmark.eq_nil]
      simp
    · exact fun e he => (List.mem_append.mp he).elim (hfatal' e) (hfatal e)
    · rw [charges, List.countP_append]
      unfold charges at hcharges hcharges'
      omega
  limit := fun hs => h'.limit (h.limit hs)
  logged := h'.logged ∘ h.logged
  covered hfatal hacc :=
    (h.covered (IsFatal.not_ok a) (h'.accountable hacc)).trans (h'.covered hfatal hacc)
  metered hacc hs := h'.metered hacc (h.metered (h'.accountable hacc) hs)

theorem of_error {e : Stop} (h : Advances main s (.error e : Except Stop α) s') :
    Advances main s (.error e : Except Stop β) s' where
  core := h.core
  config := h.config
  settled := h.settled.of_error
  history := by
    obtain ⟨mark, es, hes, hmark, hrest⟩ := h.history
    exact ⟨mark, es, hes, hmark.of_error, hrest⟩
  limit := h.limit
  logged := h.logged
  covered hfatal := h.covered fun hfatal' => hfatal hfatal'.of_error
  metered := h.metered

theorem withLine {e : VmError} (line : Nat)
    (h : Advances main s (.error (.raised e) : Except Stop α) s') :
    Advances main s (.error (.raised (.withLine line e)) : Except Stop α) s' where
  core := h.core
  config := h.config
  settled := ⟨nofun, fun e' he hcause => h.settled.exhausted e rfl (by cases he; exact hcause)⟩
  history := by
    obtain ⟨mark, es, hes, hmark, hrest⟩ := h.history
    exact ⟨mark, es, hes, hmark.withLine line, hrest⟩
  limit := h.limit
  logged := h.logged
  covered hfatal := h.covered fun ⟨e', he, hfatal'⟩ =>
    hfatal ⟨_, rfl, by cases he; exact hfatal'⟩
  metered := h.metered

theorem of_caught {e : VmError} (he : e.isUnrecoverable = false) (a : β)
    (h : Advances main s (.error (.raised e) : Except Stop α) s') : Advances main s (.ok a) s' where
  core := h.core
  config := h.config
  settled := .of_ok a
  history := by
    obtain ⟨mark, es, hes, hmark, hrest⟩ := h.history
    exact ⟨[], es, by rw [hes, hmark.of_caught he], .ok a, hrest⟩
  limit := h.limit
  logged := h.logged
  covered _ := h.covered fun ⟨e', he', hfatal⟩ => by
    cases he'
    exact Bool.false_ne_true (he.symm.trans hfatal)
  metered := h.metered

/-- A step that records events and takes the machine no further than there is room. -/
theorem of_events {r : Except Stop α} (mark es : List Event)
    (hcore : s.machine.core.Grows s'.machine.core)
    (hconfig : s'.machine.config = s.machine.config) (hsettled : Settled r s'.machine.core)
    (hhist : s'.history = mark ++ es ++ s.history) (hmark : Marked s'.machine.core r mark)
    (hadmitted : ∀ e ∈ es, e.Admitted main) (hcharges : charges es + s'.gas ≤ s.gas)
    (hroom : s.WithinLimit → s.PastLimit ∨ s'.depth ≤ s.maxCallDepth)
    (hlive : s.KeptLimit → s'.depth ≤ s.maxCallDepth →
      ∀ e ∈ es, ∀ n ∈ e.liveFrames, n ≤ s.maxCallDepth)
    (hlogged : s.machine.core.Logged → s'.machine.core.Logged)
    (hcovered : ¬IsFatal r → s'.machine.core.Accountable →
      s.machine.core.Covers s'.machine.core)
    (hmetered : s'.machine.core.Accountable → ∀ e ∈ es, e.Metered) : Advances main s r s' := by
  have hmax : s'.maxCallDepth = s.maxCallDepth := by
    rw [System.maxCallDepth, hconfig, System.maxCallDepth]
  have hpast : s.PastLimit → s'.PastLimit := (·.of_suffix hmax ⟨mark ++ es, hhist.symm⟩)
  refine ⟨hcore, hconfig, hsettled, ⟨mark, es, hhist, hmark, hadmitted, hcharges⟩, fun hs => ?_,
    hlogged, hcovered, fun hacc hs e he => ?_⟩
  swap
  · rw [hhist, List.mem_append, List.mem_append] at he
    exact he.elim (·.elim (hmark.metered e) (hmetered hacc e)) (hs e)
  rcases hroom hs with hs' | hdepth
  · exact .inl (hpast hs')
  rcases hs with hs | hkept
  · exact .inl (hpast hs)
  refine .inr ⟨hmax.symm ▸ hdepth, fun e he n hn => hmax.symm ▸ ?_⟩
  rw [hhist, List.mem_append, List.mem_append] at he
  rcases he with (he | he) | he
  · simp [hmark.liveFrames e he] at hn
  · exact hlive hkept hdepth e he n hn
  · exact hkept.before e he n hn

/-- A step that pushes no frame and records nothing. -/
theorem of_quiet {a : α} (hcore : s'.machine.core = s.machine.core)
    (hconfig : s'.machine.config = s.machine.config) (hdepth : s'.depth ≤ s.depth) :
    Advances main s (.ok a) s' := by
  have hgas : s'.gas = s.gas := congrArg (fun c => c.gas.remaining) hcore
  refine .of_events [] [] (hcore ▸ .refl _) hconfig (.of_ok a)
    (congrArg Core.history hcore) (.ok a) (List.forall_mem_nil _) (by simp [charges, hgas]) ?_
    (fun _ _ => List.forall_mem_nil _) (hcore.symm ▸ id)
    (fun _ _ => .of_eq (by rw [hcore]) (by rw [hcore])) fun _ => List.forall_mem_nil _
  exact fun hs => hs.imp_right fun hkept => hdepth.trans hkept.now

theorem of_extends {r : Except Stop α} (h : Engine.Extends s.machine r s'.machine) :
    Advances main s r s' := by
  obtain ⟨es, hes, hwithin⟩ := h.history
  have hcharges : charges es = 0 :=
    List.countP_eq_zero.mpr fun e he => by simp [(hwithin e he).isCharged]
  refine .of_events _ es h.core h.config h.settled hes (.of_fatalMark _ _)
    (fun e he => .of_inner (hwithin e he).isFatal (hwithin e he).isMain) ?_ ?_ ?_ h.logged
    h.covered fun _ e he => (hwithin e he).metered
  · rw [hcharges, Nat.zero_add]
    exact h.core.gas
  · exact fun hs => hs.imp_right fun hkept => h.frames.le.trans hkept.now
  · exact fun hkept _ e he n hn => ((hwithin e he).liveFrames n hn).trans_le hkept.now

end Advances

/-- A computation advances from this state, and a value it ends with has the
postcondition in the state it ends in. -/
structure Moves {α H : Type} (main : Bool) (s : System H) (m : Run H α) (post : α → System H → Prop) :
    Prop where
  advances : Advances main s (m.run s).1 (m.run s).2
  post : ∀ a, (m.run s).1 = .ok a → post a (m.run s).2

namespace Moves

variable {α β H : Type} {main : Bool} {s : System H} {m : Run H α} {post post' : α → System H → Prop}

theorem mono (h : Moves main s m post)
    (himp : ∀ a s', Advances main s (.ok a : Except Stop α) s' → post a s' → post' a s') :
    Moves main s m post' :=
  ⟨h.advances, fun a ha => himp a _ (ha ▸ h.advances) (h.post a ha)⟩

theorem of_run {r : Except Stop α} {s' : System H} (hrun : m.run s = (r, s'))
    (hadv : Advances main s r s') (hpost : ∀ a, r = .ok a → post a s') : Moves main s m post :=
  ⟨hrun ▸ hadv, hrun ▸ hpost⟩

theorem pure {a : α} (h : post a s) : Moves main s (pure a) post :=
  ⟨.of_quiet rfl rfl le_rfl, fun b hb => by cases hb; exact h⟩

theorem bind {f : α → Run H β} {post' : β → System H → Prop} (hm : Moves main s m post)
    (hf : ∀ a s', Advances main s (.ok a : Except Stop α) s' → post a s' → Moves main s' (f a) post') :
    Moves main s (m >>= f) post' := by
  obtain ⟨hadv, hpost⟩ := hm
  rcases hrun : m.run s with ⟨e | a, s'⟩
  · rw [hrun] at hadv
    have hbind := Exec.run_bind_error (f := f) hrun
    exact ⟨hbind ▸ hadv.of_error, fun b hb => by rw [hbind] at hb; cases hb⟩
  · rw [hrun] at hadv hpost
    have hbind := Exec.run_bind_ok (f := f) hrun
    have hf := hf a s' hadv (hpost a rfl)
    exact ⟨hbind ▸ hadv.trans hf.advances, hbind ▸ hf.post⟩

theorem of_quiet {a : α} {s' : System H} (hrun : m.run s = (.ok a, s'))
    (hcore : s'.machine.core = s.machine.core) (hconfig : s'.machine.config = s.machine.config)
    (hdepth : s'.depth ≤ s.depth) (hpost : post a s') : Moves main s m post :=
  .of_run hrun (.of_quiet hcore hconfig hdepth) fun _ hb => Except.ok.inj hb ▸ hpost

theorem get_bind {f : System H → Run H α} (h : Moves main s (f s) post) :
    Moves main s (Exec.get >>= f) post :=
  ⟨h.advances, h.post⟩

theorem embed_get_bind {f : Machine → Engine α} (h : Moves main s (Run.embed (f s.machine)) post) :
    Moves main s (Run.embed (Exec.get >>= f)) post :=
  ⟨h.advances, h.post⟩

theorem of_embed {m : Engine α} (hm : Engine.Composed m)
    (hpost : ∀ a machine, m.run s.machine = (.ok a, machine) →
      machine.frames.length = s.machine.frames.length → post a { s with machine }) :
    Moves main s (Run.embed m) post := by
  have hext := hm.extends s.machine
  refine ⟨.of_extends hext, fun a ha => hpost a _ (Prod.ext ha rfl) hext.frames⟩

theorem embed {m : Engine α} (hm : Engine.Composed m) :
    Moves main s (Run.embed m) fun _ s' => s'.depth ≤ s.depth :=
  .of_embed hm fun _ _ _ hframes => hframes.le

theorem raise {e : VmError} (h : e.cause ≠ .gasExhausted) :
    Moves main s (Run.embed (Engine.raise e : Engine α)) post :=
  .of_embed (.raise h) fun _ _ h => by cases h

theorem withLine [HostInterface H] (h : Moves main s m post) (proto : FunctionProto) (pc : Nat) :
    Moves main s (Run.withLine proto pc m) post := by
  obtain ⟨hadv, hpost⟩ := h
  have hline := Run.run_withLine proto pc m s
  rcases hrun : m.run s with ⟨(e | _ | _) | a, s'⟩
  all_goals
    rw [hrun] at hadv hpost hline
    dsimp only at hadv hpost hline
  · exact ⟨hline ▸ hadv.withLine _, fun b hb => by rw [hline] at hb; cases hb⟩
  · exact ⟨hline ▸ hadv, hline ▸ hpost⟩
  · exact ⟨hline ▸ hadv, hline ▸ hpost⟩
  · exact ⟨hline ▸ hadv, hline ▸ hpost⟩

/-- Whatever the outcome, no more frames are left than the call was made with. -/
theorem protect {m : Run H LuaValue} {stackLen frameLen : Nat}
    (h : Moves main s m fun _ s' => s'.depth ≤ frameLen) :
    Moves main s (Run.protect stackLen frameLen m) fun _ s' => s'.depth ≤ frameLen := by
  obtain ⟨hadv, hpost⟩ := h
  have hprotect := Run.run_protect stackLen frameLen m s
  rcases hrun : m.run s with ⟨(e | _ | _) | v, s'⟩
  all_goals
    rw [hrun] at hadv hpost hprotect
    dsimp only at hadv hpost hprotect
  · by_cases he : e.isUnrecoverable = true
    · rw [if_pos he] at hprotect
      exact ⟨hprotect ▸ hadv.of_error, fun b hb => by rw [hprotect] at hb; cases hb⟩
    rw [if_neg he] at hprotect
    have hunwind : Moves main s' (Run.embed do
        Engine.charge GasCost.pcallUnwind
        Engine.truncateStack stackLen
        Engine.truncateFrames frameLen
        Pure.pure (.error e)) fun (_ : Except VmError LuaValue) s'' => s''.depth ≤ frameLen := by
      rw [Run.embed_bind]
      refine (embed (.charge _)).bind fun _ mid _ _ => ?_
      have hlen : (mid.machine.frames.drop (mid.machine.frames.length - frameLen)).length ≤
          min mid.depth frameLen := by
        rw [List.length_drop, System.depth]
        omega
      exact .of_quiet rfl rfl rfl (hlen.trans (min_le_left ..)) (hlen.trans (min_le_right ..))
    exact ⟨hprotect ▸ (hadv.of_caught (by simpa using he) ()).trans hunwind.advances,
      hprotect ▸ hunwind.post⟩
  · exact ⟨hprotect ▸ hadv.of_error, fun b hb => by rw [hprotect] at hb; cases hb⟩
  · exact ⟨hprotect ▸ hadv.of_error, fun b hb => by rw [hprotect] at hb; cases hb⟩
  · exact ⟨hprotect ▸ hadv.trans (.of_quiet rfl rfl le_rfl), fun b hb => by
      rw [hprotect] at hb ⊢; exact hpost v rfl⟩

end Moves

end Proveno
