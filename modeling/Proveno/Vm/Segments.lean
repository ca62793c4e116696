import Proveno.Vm.Turns

/-! What a run does between two positions of a frame, turn by turn. -/

namespace Proveno

namespace Instruction

/-- The instructions that are performed and go on to the next. -/
def IsStraight : Instruction → Prop
  | jmp _ | jmpIf _ | jmpIfNot _ | and _ | or _ => False
  | iterInitSorted _ | iterInitArray _ | iterNext _ => False
  | call _ | pcall _ | toolCall | ret _ | error => False
  | _ => True

theorem IsStraight.performed {instr : Instruction} (h : instr.IsStraight) : instr.IsPerformed := by
  cases instr <;> first | exact h.elim | trivial

theorem IsStraight.goes {instr : Instruction} (h : instr.IsStraight) {bits pc n pc' n' : Nat}
    (hgoes : instr.Goes bits pc n pc' n') : pc' = pc ∧ n' + instr.pops = n + instr.pushes := by
  cases instr <;> first | exact hgoes | exact h.elim

/-- The number of slots after instructions that go on to the next, if they have what they
need. -/
def slotsAfter : List Instruction → Nat → Option Nat
  | [], n => some n
  | instr :: rest, n =>
    if instr.pops ≤ n then slotsAfter rest (n - instr.pops + instr.pushes) else none

theorem slotsAfter_cons {instr : Instruction} {n : Nat} (h : instr.pops ≤ n)
    (rest : List Instruction) :
    slotsAfter (instr :: rest) n = slotsAfter rest (n - instr.pops + instr.pushes) := if_pos h

theorem slotsAfter_append (front back : List Instruction) (n : Nat) :
    slotsAfter (front ++ back) n = (slotsAfter front n).bind (slotsAfter back) := by
  induction front generalizing n with
  | nil => rfl
  | cons instr front ih =>
    rw [List.cons_append, slotsAfter, slotsAfter]
    split_ifs
    · exact ih _
    · rfl

end Instruction

section

variable {H : Type} [HostInterface H]

theorem Run.dispatch_performed {program : CompiledProgram} {inner : Run H LuaValue}
    {instr : Instruction} (h : instr.IsPerformed) :
    dispatch program inner instr = (do
      embed (do
        Engine.charge GasCost.baseInstruction
        Engine.record .charged)
      embed (Engine.perform program instr)
      pure none) := by
  cases instr <;> first | exact h.elim | rfl

/-- A turn of one of the loops after which the run goes on. -/
def Turn (program : CompiledProgram) (s s' : System H) : Prop :=
  ∃ nested fuel, (Run.turn program nested (Run.runFrame (Run.runInner program fuel))).run s =
    (.ok none, s')

/-- The run is between two positions of the frame that so many are around, or in a function
called from there. -/
def System.Inside (depth lo hi : Nat) (s : System H) : Prop :=
  ∃ f rest, s.machine.frames = f :: rest ∧
    (depth < rest.length ∨ rest.length = depth ∧ lo ≤ f.pc ∧ f.pc < hi)

/-- A run leads from one state to another by turns that begin between two positions of a frame
or in functions called from there. -/
inductive Within (program : CompiledProgram) (depth lo hi : Nat) : System H → System H → Prop
  | refl (s : System H) : Within program depth lo hi s s
  | turn {s mid s' : System H} (h : Within program depth lo hi s mid)
    (hin : mid.Inside depth lo hi) (hturn : Turn program mid s') : Within program depth lo hi s s'

end

namespace Region

variable {H : Type} [HostInterface H] {c : Region} {pc n : Nat} {program : CompiledProgram}
  {proto : FunctionProto} {inner : Run H LuaValue}

theorem perform_runs {instr : Instruction} (hc : c.Sound) (nested : Bool)
    (hgood : ∀ s, c.At pc n s → c.good (.dispatch nested s.frames s.stack))
    (hproto : program.prototypes[c.frame.protoIdx]? = some proto)
    (hinstr : proto.code[pc]? = some instr) (hperformed : instr.IsPerformed)
    (hn : c.floor + instr.pops ≤ n)
    (htouched : ∀ slot ∈ instr.touched program, ¬c.keep (c.frame.base + slot.toNat)) :
    c.Runs pc n (Run.turn program nested inner) fun out s' =>
      out = none ∧ ∃ pc' n', instr.Goes c.bits (pc + 1) n pc' n' ∧ c.At pc' n' s' := by
  refine does_then (does_fetch hproto) fun out pc' n' ⟨hout, hpc, hn'⟩ => ?_
  rw [hout, hpc, hn']
  dsimp only
  rw [hinstr]
  refine inTurn_runs hgood ?_ fun _ s e he ⟨hout, pc', n', hgoes, hat⟩ =>
    ⟨hout, pc', n', hgoes, hat.record (hc.silent e he)⟩
  have hturn : c.Quiet (do
      Engine.charge GasCost.baseInstruction
      Engine.record .charged) :=
    (quiet_charge hc _).bind fun _ => quiet_record (hc.silent _ trivial)
  rw [Run.dispatch_performed hperformed]
  refine quiet_then hturn fun _ => does_then (does_perform hc hperformed hn htouched)
    fun _ pc' n' hgoes => ?_
  exact Exec.Meets.pure fun s hs => ⟨rfl, pc', n', hgoes, hs⟩

/-- An instruction that the machine performs on its own goes where it goes. -/
theorem perform_turn {instr : Instruction} (hc : c.Sound)
    (hgood : ∀ nested s, c.At pc n s → c.good (.dispatch nested s.frames s.stack))
    (hproto : program.prototypes[c.frame.protoIdx]? = some proto)
    (hinstr : proto.code[pc]? = some instr) (hperformed : instr.IsPerformed)
    (hn : c.floor + instr.pops ≤ n)
    (htouched : ∀ slot ∈ instr.touched program, ¬c.keep (c.frame.base + slot.toNat))
    {s s' : System H} (hs : c.At pc n s.machine) (hturn : Turn program s s') :
    ∃ pc' n', instr.Goes c.bits (pc + 1) n pc' n' ∧ c.At pc' n' s'.machine := by
  obtain ⟨nested, fuel, hrun⟩ := hturn
  exact ((perform_runs hc nested (hgood nested) hproto hinstr hperformed hn htouched).ok hs hrun).2

end Region

section Straight

variable {H : Type} [HostInterface H] {program : CompiledProgram} {proto : FunctionProto}
  {f : CallFrame} {rest : List CallFrame} {lo n n' : Nat} {instrs : List Instruction}
  {s s' : System H}

/-- A frame is at a position with so many slots on the stack, whatever they hold. -/
def loose (s : System H) (f : CallFrame) (rest : List CallFrame) : Region :=
  ⟨s.machine.stack, f, rest, 0, fun _ => False, s.machine.core.target.wordBits, fun _ => True⟩

/-- Straight code is gone through instruction by instruction. -/
theorem Within.straight (hproto : program.prototypes[f.protoIdx]? = some proto)
    (hcode : ∀ k instr, instrs[k]? = some instr → proto.code[lo + k]? = some instr)
    (hstraight : ∀ instr ∈ instrs, instr.IsStraight)
    (hslots : Instruction.slotsAfter instrs n = some n')
    (hframes : s.machine.frames = { f with pc := lo } :: rest)
    (hlength : s.machine.stack.length = n)
    (h : Within program rest.length lo (lo + instrs.length) s s') :
    ∃ k m, Instruction.slotsAfter (instrs.take k) n = some m ∧ k ≤ instrs.length ∧
      (loose s f rest).At (lo + k) m s'.machine := by
  induction h with
  | refl => exact ⟨0, n, rfl, Nat.zero_le _, hframes, hlength, Nat.zero_le _, nofun, rfl,
      fun _ _ => trivial⟩
  | @turn mid s' h hin hturn ih =>
    obtain ⟨k, m, hm, -, hat⟩ := ih
    have hk : k < instrs.length := by
      obtain ⟨g, rest', hg, hin⟩ := hin
      rw [hat.frames] at hg
      obtain ⟨rfl, rfl⟩ := List.cons.inj hg
      have hin : rest.length < rest.length ∨ rest.length = rest.length ∧ lo ≤ lo + k ∧
        lo + k < lo + instrs.length := hin
      omega
    have hinstr := List.getElem?_eq_getElem hk
    have hmem := hstraight _ (List.getElem_mem hk)
    have htake : instrs.take (k + 1) = instrs.take k ++ [instrs[k]] := List.take_succ_eq_append_getElem hk
    have hpops : instrs[k].pops ≤ m := by
      have hall := hslots
      rw [← List.take_append_drop k instrs, Instruction.slotsAfter_append, hm, Option.bind_some,
        List.drop_eq_getElem_cons hk, Instruction.slotsAfter] at hall
      by_contra hnot
      rw [if_neg hnot] at hall
      cases hall
    obtain ⟨pc', m', hgoes, hat'⟩ := Region.perform_turn ⟨fun _ _ => trivial, fun _ _ _ => trivial⟩
      (fun _ _ _ => trivial) hproto (hcode k _ hinstr) hmem.performed
      (by rw [show (loose s f rest).floor = 0 from rfl, Nat.zero_add]; exact hpops)
      (fun _ _ => id) hat hturn
    obtain ⟨rfl, hm'⟩ := hmem.goes hgoes
    refine ⟨k + 1, m', ?_, hk, hat'⟩
    rw [htake, Instruction.slotsAfter_append, hm, Option.bind_some, Instruction.slotsAfter,
      if_pos hpops, Instruction.slotsAfter]
    exact congrArg some (by omega)

/-- At the end of straight code the stack has what the code says. -/
theorem Within.straight_end (hproto : program.prototypes[f.protoIdx]? = some proto)
    (hcode : ∀ k instr, instrs[k]? = some instr → proto.code[lo + k]? = some instr)
    (hstraight : ∀ instr ∈ instrs, instr.IsStraight)
    (hslots : Instruction.slotsAfter instrs n = some n')
    (hframes : s.machine.frames = { f with pc := lo } :: rest)
    (hlength : s.machine.stack.length = n)
    (h : Within program rest.length lo (lo + instrs.length) s s')
    (hend : s'.machine.frames = { f with pc := lo + instrs.length } :: rest) :
    s'.machine.stack.length = n' := by
  obtain ⟨k, m, hm, hk, hat⟩ := h.straight hproto hcode hstraight hslots hframes hlength
  have hpc : lo + k = lo + instrs.length :=
    congrArg CallFrame.pc (List.cons.inj (hat.frames.symm.trans hend)).1
  obtain rfl : k = instrs.length := by omega
  rw [List.take_length, hslots] at hm
  rw [hat.length]
  exact (Option.some.inj hm).symm

end Straight

end Proveno
