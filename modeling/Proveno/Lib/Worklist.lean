import Mathlib.Data.List.Basic
import Mathlib.Tactic.SplitIfs
import Proveno.Lib.Exec

/-! A worklist over the positions of a table. Each position is marked with the data
it is first reached with, and must be reached with the same data ever after. -/

namespace Worklist

structure State (D : Type) where
  marks : List (Option D)
  queue : List (Nat × D)

/-- Where a visit leads next, or how it fails. -/
abbrev Edge (D E : Type) := Except (Failure E) (Nat × D)

variable {D E : Type}

def State.start (n : Nat) (pos : Nat) (d : D) : State D :=
  ⟨(List.replicate n none).set pos (some d), [(pos, d)]⟩

def State.Marked (s : State D) (pos : Nat) (d : D) : Prop := s.marks[pos]? = some (some d)

section Ready

variable {n : Nat} {s : State D} {pos : Nat} {d : D}

theorem marked_set_iff {marks : List (Option D)} (hpos : marks[pos]? = some none) {q : Nat}
    {d' : D} : (marks.set pos (some d))[q]? = some (some d') ↔
      (q, d') = (pos, d) ∨ marks[q]? = some (some d') := by
  have hlt := (List.getElem?_eq_some_iff.mp hpos).1
  rw [List.getElem?_set]
  split_ifs with hq
  · subst hq
    simp [hpos, eq_comm]
  · simp [Ne.symm hq]

/-- Every position waiting is marked with its data. -/
structure State.Ready (n : Nat) (s : State D) : Prop where
  length : s.marks.length = n
  marked : ∀ x ∈ s.queue, s.Marked x.1 x.2

theorem State.Ready.pos_lt (hs : s.Ready n) {x : Nat × D} (h : x ∈ s.queue) : x.1 < n :=
  hs.length ▸ (List.getElem?_eq_some_iff.mp (hs.marked x h)).1

theorem State.Ready.tail (hs : s.Ready n) {x : Nat × D} {queue : List (Nat × D)}
    (h : s.queue = x :: queue) : State.Ready n (⟨s.marks, queue⟩ : State D) :=
  ⟨hs.length, fun y hy => hs.marked y (by simp [h, hy])⟩

theorem ready_start (h : pos < n) : (State.start n pos d).Ready n := by
  refine ⟨by simp [State.start], fun x hx => ?_⟩
  obtain rfl := List.mem_singleton.mp hx
  simp [State.Marked, State.start, h]

theorem marked_start_iff (h : pos < n) {q : Nat} {d' : D} :
    (State.start n pos d).Marked q d' ↔ (q, d') = (pos, d) := by
  have hnone : (List.replicate n (none : Option D))[pos]? = some none := by simp [h]
  refine (marked_set_iff hnone).trans (or_iff_left ?_)
  simp [List.getElem?_replicate]

end Ready

variable [DecidableEq D]

def schedule (clash : Nat → D → D → E) (pos : Nat) (d : D) (s : State D) :
    Except (Failure E) (State D) :=
  match s.marks[pos]? with
  | none => .error .panicked
  | some none => .ok ⟨s.marks.set pos (some d), s.queue ++ [(pos, d)]⟩
  | some (some existing) =>
    if existing ≠ d then .error (.raised (clash pos existing d)) else .ok s

def absorb (clash : Nat → D → D → E) : List (Edge D E) → State D → Except (Failure E) (State D)
  | [], s => .ok s
  | .error e :: _, _ => .error e
  | .ok (pos, d) :: edges, s => do absorb clash edges (← schedule clash pos d s)

def run (visit : Nat → D → State D → Except (Failure E) (State D)) :
    Nat → State D → Except (Failure E) (List (Option D))
  | 0, _ => .error .outOfFuel
  | fuel + 1, s =>
    match s.queue with
    | [] => .ok s.marks
    | (pos, d) :: queue =>
      match s.marks[pos]? with
      | none => .error .panicked
      | some mark =>
        if mark ≠ some d then run visit fuel ⟨s.marks, queue⟩
        else do run visit fuel (← visit pos d ⟨s.marks, queue⟩)

/-- The visits still to come. -/
def State.cost (s : State D) : Nat := s.queue.length + s.marks.count none

section Absorb

variable {clash : Nat → D → D → E} {s s' : State D} {pos : Nat} {d : D} {edges : List (Edge D E)}

theorem schedule_cases (h : schedule clash pos d s = .ok s') :
    (s.marks[pos]? = some none ∧ s' = ⟨s.marks.set pos (some d), s.queue ++ [(pos, d)]⟩) ∨
      (s.Marked pos d ∧ s' = s) := by
  unfold schedule at h
  cases hm : s.marks[pos]? with
  | none => rw [hm] at h; simp at h
  | some mark =>
    rw [hm] at h
    cases mark with
    | none => exact .inl ⟨rfl, by simpa using h.symm⟩
    | some existing =>
      simp only at h
      split_ifs at h with hd
      have hd : existing = d := by simpa using hd
      exact .inr ⟨by rw [State.Marked, hm, hd], by simpa using h.symm⟩

/-- What a table can look like after all the edges of a visit. -/
structure Absorbed (edges : List (Edge D E)) (s s' : State D) : Prop where
  length : s'.marks.length = s.marks.length
  keeps : ∀ q d, s.Marked q d → s'.Marked q d
  covers : ∀ e ∈ edges, ∃ q d, e = .ok (q, d) ∧ s'.Marked q d
  fresh : ∀ q d, s'.Marked q d → s.Marked q d ∨ .ok (q, d) ∈ edges ∧ (q, d) ∈ s'.queue
  waits : ∀ x ∈ s.queue, x ∈ s'.queue
  marked : (∀ x ∈ s.queue, s.Marked x.1 x.2) → ∀ x ∈ s'.queue, s'.Marked x.1 x.2
  cost : s'.cost = s.cost

theorem absorb_schedule (h : schedule clash pos d s = .ok s') :
    Absorbed (E := E) [.ok (pos, d)] s s' := by
  rcases schedule_cases h with ⟨hnone, rfl⟩ | ⟨hmarked, rfl⟩
  · have hmark {q : Nat} {d' : D} : (s.marks.set pos (some d))[q]? = some (some d') ↔
        (q, d') = (pos, d) ∨ s.marks[q]? = some (some d') := marked_set_iff hnone
    refine ⟨by simp, fun q d' hq => hmark.mpr (.inr hq), ?_, ?_, ?_, ?_, ?_⟩
    · intro e he
      exact ⟨pos, d, List.mem_singleton.mp he, hmark.mpr (.inl rfl)⟩
    · intro q d' hq
      rcases hmark.mp hq with hq | hq
      · exact .inr (by simp_all)
      · exact .inl hq
    · exact fun x hx => by simp [hx]
    · intro hold x hx
      rcases List.mem_append.mp hx with hx | hx
      · exact hmark.mpr (.inr (hold x hx))
      · exact hmark.mpr (.inl (List.mem_singleton.mp hx))
    · have hlt := (List.getElem?_eq_some_iff.mp hnone).1
      have hget : s.marks[pos] = none := (List.getElem?_eq_some_iff.mp hnone).2
      have hpos : 0 < s.marks.count none :=
        List.count_pos_iff.mpr (hget ▸ List.getElem_mem hlt)
      simp only [State.cost, List.length_append, List.length_singleton, List.count_set hlt, hget]
      simp
      omega
  · refine ⟨rfl, fun _ _ hq => hq, ?_, fun _ _ hq => .inl hq, fun _ hx => hx, fun hold => hold,
      rfl⟩
    intro e he
    exact ⟨pos, d, List.mem_singleton.mp he, hmarked⟩

theorem absorb_cons (clash : Nat → D → D → E) (pos : Nat) (d : D) (edges : List (Edge D E))
    (s : State D) :
    absorb clash (.ok (pos, d) :: edges) s = schedule clash pos d s >>= absorb clash edges := rfl

theorem absorb_spec (h : absorb clash edges s = .ok s') : Absorbed edges s s' := by
  induction edges generalizing s with
  | nil =>
    obtain rfl : s = s' := Except.ok.inj h
    exact ⟨rfl, fun _ _ hq => hq, by simp, fun _ _ hq => .inl hq, fun _ hx => hx,
      fun hold => hold, rfl⟩
  | cons edge edges ih =>
    cases edge with
    | error e => cases h
    | ok target =>
      obtain ⟨pos, d⟩ := target
      cases hs : schedule clash pos d s with
      | error e => rw [absorb_cons, hs] at h; cases h
      | ok mid =>
        rw [absorb_cons, hs] at h
        have first := absorb_schedule hs
        have later := ih h
        refine ⟨later.length.trans first.length, fun q d' hq => later.keeps q d' (first.keeps q d' hq),
          ?_, ?_, fun x hx => later.waits x (first.waits x hx),
          fun hold => later.marked (first.marked hold), later.cost.trans first.cost⟩
        · intro e he
          rcases List.mem_cons.mp he with rfl | he
          · obtain ⟨q, d', heq, hq⟩ := first.covers _ (List.mem_singleton_self _)
            exact ⟨q, d', heq, later.keeps q d' hq⟩
          · exact later.covers e he
        · intro q d' hq
          rcases later.fresh q d' hq with hq | ⟨he, hq⟩
          · rcases first.fresh q d' hq with hq | ⟨he, hq⟩
            · exact .inl hq
            · exact .inr ⟨by simp_all, later.waits _ hq⟩
          · exact .inr ⟨List.mem_cons_of_mem _ he, hq⟩

theorem absorb_error {f : Failure E} (h : absorb clash edges s = .error f) :
    .error f ∈ edges ∨ f = .panicked ∨ ∃ e, f = .raised e := by
  induction edges generalizing s with
  | nil => cases h
  | cons edge edges ih =>
    cases edge with
    | error e =>
      obtain rfl : e = f := Except.error.inj h
      exact .inl (List.mem_cons_self ..)
    | ok target =>
      obtain ⟨pos, d⟩ := target
      cases hs : schedule clash pos d s with
      | error e =>
        rw [absorb_cons, hs] at h
        obtain rfl : e = f := Except.error.inj h
        refine .inr ?_
        unfold schedule at hs
        split at hs
        · exact .inl (Except.error.inj hs).symm
        · cases hs
        · split_ifs at hs
          exact .inr ⟨_, (Except.error.inj hs).symm⟩
      | ok mid =>
        rw [absorb_cons, hs] at h
        exact (ih h).imp_left (List.mem_cons_of_mem _)

/-- An error comes from an edge or from two data that clash. -/
theorem absorb_raised {e : E} (h : absorb clash edges s = .error (.raised e)) :
    .error (.raised e) ∈ edges ∨ ∃ pos old new, e = clash pos old new := by
  induction edges generalizing s with
  | nil => cases h
  | cons edge edges ih =>
    cases edge with
    | error f =>
      obtain rfl : f = .raised e := Except.error.inj h
      exact .inl (List.mem_cons_self ..)
    | ok target =>
      obtain ⟨pos, d⟩ := target
      rw [absorb_cons] at h
      cases hs : schedule clash pos d s with
      | error f =>
        rw [hs] at h
        obtain rfl : f = .raised e := Except.error.inj h
        unfold schedule at hs
        split at hs
        · cases hs
        · cases hs
        · split_ifs at hs
          exact .inr ⟨_, _, _, (Failure.raised.inj (Except.error.inj hs)).symm⟩
      | ok mid =>
        rw [hs] at h
        exact (ih h).imp_left (List.mem_cons_of_mem _)

/-- Where marks and edges agree with one assignment, only an edge's own failure stops. -/
theorem absorb_allowed {holds : Nat → D → Prop} {allowed : Failure E → Prop} {n : Nat}
    (hfun : ∀ q d d', holds q d → holds q d' → d = d') (hlen : s.marks.length = n)
    (hmarks : ∀ q d, s.Marked q d → holds q d)
    (hedges : ∀ e ∈ edges, (∃ q d, e = .ok (q, d) ∧ q < n ∧ holds q d) ∨
      ∃ f, e = .error f ∧ allowed f) :
    (∃ s', absorb clash edges s = .ok s' ∧ ∀ q d, s'.Marked q d → holds q d) ∨
      ∃ f, absorb clash edges s = .error f ∧ allowed f := by
  induction edges generalizing s with
  | nil => exact .inl ⟨s, rfl, hmarks⟩
  | cons edge edges ih =>
    rcases hedges edge (List.mem_cons_self ..) with ⟨pos, d, rfl, hlt, hd⟩ | ⟨f, rfl, hf⟩
    · have hrest := fun e he => hedges e (List.mem_cons_of_mem _ he)
      rw [absorb_cons]
      cases hm : s.marks[pos]? with
      | none => exact absurd (List.getElem?_eq_none_iff.mp hm) (by omega)
      | some mark =>
        cases mark with
        | none =>
          have hs : schedule clash pos d s =
              .ok ⟨s.marks.set pos (some d), s.queue ++ [(pos, d)]⟩ := by
            simp only [schedule, hm]
          rw [hs]
          refine ih (by simpa using hlen) (fun q d' hq => ?_) hrest
          rcases (marked_set_iff hm).mp hq with hq | hq
          · obtain ⟨rfl, rfl⟩ := Prod.mk.inj hq
            exact hd
          · exact hmarks q d' hq
        | some existing =>
          obtain rfl := hfun pos existing d (hmarks pos existing hm) hd
          have hs : schedule clash pos existing s = .ok s := by simp [schedule, hm]
          rw [hs]
          exact ih hlen hmarks hrest
    · exact .inr ⟨f, rfl, hf⟩

end Absorb

section Run

variable {clash : Nat → D → D → E} {visit : Nat → D → State D → Except (Failure E) (State D)}
  {edges : Nat → D → List (Edge D E)} {n fuel : Nat} {s : State D} {marks : List (Option D)}

theorem run_nil (h : s.queue = []) : run visit (fuel + 1) s = .ok s.marks := by
  obtain ⟨marks, queue⟩ := s
  obtain rfl : queue = [] := h
  rfl

/-- A position that waits is visited: its mark agrees. -/
theorem State.Ready.run_cons (hs : s.Ready n) {pos : Nat} {d : D} {queue : List (Nat × D)}
    (h : s.queue = (pos, d) :: queue) :
    run visit (fuel + 1) s = visit pos d ⟨s.marks, queue⟩ >>= run visit fuel := by
  have hm := hs.marked (pos, d) (by simp [h])
  rw [State.Marked] at hm
  simp only [run, h, hm, ne_eq, not_true_eq_false, if_false]

theorem State.Ready.absorbed {s' : State D} {es : List (Edge D E)} (hs : s.Ready n)
    (h : Absorbed es s s') : s'.Ready n :=
  ⟨h.length.trans hs.length, h.marked hs.marked⟩

variable (hvisit : ∀ pos d (s : State D), pos < n →
  visit pos d s = absorb clash (edges pos d) s)

include hvisit

/-- What every visit preserves holds of the table at the end. -/
theorem run_induction {inv : State D → Prop} (hs : s.Ready n) (hinv : inv s)
    (hstep : ∀ (s s' : State D) pos d queue, s.Ready n → s.queue = (pos, d) :: queue → inv s →
      Absorbed (edges pos d) ⟨s.marks, queue⟩ s' → inv s')
    (h : run visit fuel s = .ok marks) :
    ∃ s', s'.Ready n ∧ inv s' ∧ s'.queue = [] ∧ s'.marks = marks := by
  induction fuel generalizing s with
  | zero => cases h
  | succ fuel ih =>
    cases hq : s.queue with
    | nil =>
      rw [run_nil hq, Except.ok.injEq] at h
      exact ⟨s, hs, hinv, hq, h⟩
    | cons x queue =>
      obtain ⟨pos, d⟩ := x
      rw [hs.run_cons hq, hvisit pos d _ (hs.pos_lt (x := (pos, d)) (by simp [hq]))] at h
      cases ha : absorb clash (edges pos d) ⟨s.marks, queue⟩ with
      | error e => rw [ha] at h; cases h
      | ok s' =>
        rw [ha] at h
        have habs := absorb_spec ha
        exact ih ((hs.tail hq).absorbed habs) (hstep s s' pos d queue hs hq hinv habs) h

/-- The table at the end is closed: all edges of a marked position are marked. -/
theorem run_closed (hs : s.Ready n) (hqueue : ∀ q d, s.Marked q d → (q, d) ∈ s.queue)
    (h : run visit fuel s = .ok marks) :
    marks.length = n ∧ (∀ q d, s.Marked q d → marks[q]? = some (some d)) ∧
      ∀ q d, marks[q]? = some (some d) → ∀ e ∈ edges q d,
        ∃ q' d', e = .ok (q', d') ∧ marks[q']? = some (some d') := by
  have hstep (s₁ s₂ : State D) (pos : Nat) (d : D) (queue : List (Nat × D)) (_ : s₁.Ready n)
      (hq : s₁.queue = (pos, d) :: queue)
      (hinv : (∀ q d, s.Marked q d → s₁.Marked q d) ∧ ∀ q d, s₁.Marked q d →
        (q, d) ∈ s₁.queue ∨ ∀ e ∈ edges q d, ∃ q' d', e = .ok (q', d') ∧ s₁.Marked q' d')
      (habs : Absorbed (edges pos d) ⟨s₁.marks, queue⟩ s₂) :
      (∀ q d, s.Marked q d → s₂.Marked q d) ∧ ∀ q d, s₂.Marked q d →
        (q, d) ∈ s₂.queue ∨ ∀ e ∈ edges q d, ∃ q' d', e = .ok (q', d') ∧ s₂.Marked q' d' := by
    refine ⟨fun q d' hm => habs.keeps q d' (hinv.1 q d' hm), fun q d' hm => ?_⟩
    rcases habs.fresh q d' hm with hold | ⟨-, hnew⟩
    · rcases hinv.2 q d' hold with hwait | hdone
      · rw [hq] at hwait
        rcases List.mem_cons.mp hwait with hx | hwait
        · obtain ⟨rfl, rfl⟩ := Prod.mk.inj hx
          exact .inr habs.covers
        · exact .inl (habs.waits _ hwait)
      · refine .inr fun e he => ?_
        obtain ⟨q', d'', rfl, hm⟩ := hdone e he
        exact ⟨q', d'', rfl, habs.keeps _ _ hm⟩
    · exact .inl hnew
  obtain ⟨s', hready, ⟨hkeep, hinv⟩, hempty, rfl⟩ := run_induction hvisit hs
    ⟨fun _ _ hq => hq, fun q d hq => .inl (hqueue q d hq)⟩ hstep h
  exact ⟨hready.length, hkeep, fun q d hq => (hinv q d hq).resolve_left (by simp [hempty])⟩

/-- Every mark at the end has a property that holds at the start and along edges. -/
theorem run_marked {holds : Nat → D → Prop} (hs : s.Ready n)
    (hstart : ∀ q d, s.Marked q d → holds q d)
    (hstep : ∀ pos d, holds pos d → ∀ q d', .ok (q, d') ∈ edges pos d → holds q d')
    (h : run visit fuel s = .ok marks) {q : Nat} {d : D} (hm : marks[q]? = some (some d)) :
    holds q d := by
  have hinv (s₁ s₂ : State D) (pos : Nat) (d : D) (queue : List (Nat × D)) (hready : s₁.Ready n)
      (hq : s₁.queue = (pos, d) :: queue) (hold : ∀ q d, s₁.Marked q d → holds q d)
      (habs : Absorbed (edges pos d) ⟨s₁.marks, queue⟩ s₂) :
      ∀ q d, s₂.Marked q d → holds q d := by
    intro q d' hm
    rcases habs.fresh q d' hm with hm | ⟨hedge, -⟩
    · exact hold q d' hm
    · exact hstep pos d (hold pos d (hready.marked (pos, d) (by simp [hq]))) q d' hedge
  obtain ⟨s', -, hall, -, rfl⟩ := run_induction hvisit hs hstart hinv h
  exact hall q d hm

theorem run_raised (hs : s.Ready n) {e : E} (h : run visit fuel s = .error (.raised e)) :
    (∃ pos d, .error (.raised e) ∈ edges pos d) ∨ ∃ pos old new, e = clash pos old new := by
  induction fuel generalizing s with
  | zero => cases h
  | succ fuel ih =>
    cases hq : s.queue with
    | nil => rw [run_nil hq] at h; cases h
    | cons x queue =>
      obtain ⟨pos, d⟩ := x
      rw [hs.run_cons hq, hvisit pos d _ (hs.pos_lt (x := (pos, d)) (by simp [hq]))] at h
      cases ha : absorb clash (edges pos d) ⟨s.marks, queue⟩ with
      | error f =>
        rw [ha] at h
        obtain rfl : f = .raised e := Except.error.inj h
        exact (absorb_raised ha).imp_left fun hedge => ⟨pos, d, hedge⟩
      | ok s' =>
        rw [ha] at h
        exact ih ((hs.tail hq).absorbed (absorb_spec ha)) h

theorem run_ne_outOfFuel (hs : s.Ready n) (hcost : s.cost < fuel)
    (hedges : ∀ pos d, .error .outOfFuel ∉ edges pos d) : run visit fuel s ≠ .error .outOfFuel := by
  induction fuel generalizing s with
  | zero => omega
  | succ fuel ih =>
    cases hq : s.queue with
    | nil => rw [run_nil hq]; simp
    | cons x queue =>
      obtain ⟨pos, d⟩ := x
      rw [hs.run_cons hq, hvisit pos d _ (hs.pos_lt (x := (pos, d)) (by simp [hq]))]
      cases ha : absorb clash (edges pos d) ⟨s.marks, queue⟩ with
      | error f =>
        intro hf
        obtain rfl : f = .outOfFuel := Except.error.inj hf
        have := absorb_error ha
        simp [hedges pos d] at this
      | ok s' =>
        have habs := absorb_spec ha
        refine ih ((hs.tail hq).absorbed habs) ?_
        have hle := habs.cost
        simp only [State.cost, hq, List.length_cons] at hle hcost ⊢
        omega

/-- An assignment that agrees along all edges is a certificate for the run. -/
theorem run_allowed {holds : Nat → D → Prop} {allowed : Failure E → Prop} (hs : s.Ready n)
    (hcost : s.cost < fuel) (hfun : ∀ q d d', holds q d → holds q d' → d = d')
    (hmarks : ∀ q d, s.Marked q d → holds q d)
    (hedges : ∀ pos d, holds pos d → ∀ e ∈ edges pos d,
      (∃ q d', e = .ok (q, d') ∧ q < n ∧ holds q d') ∨ ∃ f, e = .error f ∧ allowed f) :
    (∃ marks, run visit fuel s = .ok marks) ∨
      ∃ f, run visit fuel s = .error f ∧ allowed f := by
  induction fuel generalizing s with
  | zero => omega
  | succ fuel ih =>
    cases hq : s.queue with
    | nil => exact .inl ⟨s.marks, run_nil hq⟩
    | cons x queue =>
      obtain ⟨pos, d⟩ := x
      have hwait : (pos, d) ∈ s.queue := by simp [hq]
      rw [hs.run_cons hq, hvisit pos d _ (hs.pos_lt hwait)]
      rcases absorb_allowed (s := ⟨s.marks, queue⟩) hfun hs.length hmarks
        (hedges pos d (hmarks pos d (hs.marked _ hwait))) with ⟨s', ha, hkeep⟩ | ⟨f, ha, hf⟩
      · rw [ha]
        have habs := absorb_spec ha
        refine ih ((hs.tail hq).absorbed habs) ?_ hkeep
        have hle := habs.cost
        simp only [State.cost, hq, List.length_cons] at hle hcost ⊢
        omega
      · exact .inr ⟨f, by rw [ha]; rfl, hf⟩

end Run

end Worklist
