import Proveno.Lib.Worklist

/-! The order in which a worklist visits positions, and exactly when a run panics:
when the first edge in that order which does not agree with those before it leaves
the table. -/

namespace Worklist

variable {D E : Type}

def targets (edges : List (Edge D E)) : List (Nat × D) := edges.filterMap Except.toOption

/-- An edge that leaves a table of `n` positions, or panics by itself. -/
def Escapes (n : Nat) (e : Edge D E) : Prop :=
  e = .error .panicked ∨ ∃ pos d, e = .ok (pos, d) ∧ n ≤ pos

theorem targets_append (a b : List (Edge D E)) : targets (a ++ b) = targets a ++ targets b :=
  List.filterMap_append ..

variable [DecidableEq D]

def discover (seen : List (Nat × D)) (x : Nat × D) : List (Nat × D) :=
  if x ∈ seen then seen else seen ++ [x]

/-- What the edges of the positions visited so far have led to, the oldest first. -/
def found (edges : Nat → D → List (Edge D E)) (start : Nat × D) (order : List (Nat × D)) :
    List (Nat × D) :=
  (targets (order.flatMap fun x => edges x.1 x.2)).foldl discover [start]

inductive BreadthFirst (edges : Nat → D → List (Edge D E)) (start : Nat × D) :
    List (Nat × D) → Prop
  | nil : BreadthFirst edges start []
  | next {order : List (Nat × D)} {x : Nat × D} (h : BreadthFirst edges start order)
      (hx : (found edges start order)[order.length]? = some x) :
      BreadthFirst edges start (order ++ [x])

/-- Every edge stays in the table and agrees with what was seen before it. -/
def Smooth (n : Nat) : List (Nat × D) → List (Edge D E) → Prop
  | _, [] => True
  | seen, e :: edges => ∃ pos d, e = .ok (pos, d) ∧ pos < n ∧
    (∀ d', (pos, d') ∈ seen → d' = d) ∧ Smooth n (discover seen (pos, d)) edges

/-- Breadth first, an edge that escapes comes before any other trouble. -/
def EscapesFirst (edges : Nat → D → List (Edge D E)) (n : Nat) (start : Nat × D) : Prop :=
  ∃ order x before e after, BreadthFirst edges start (order ++ [x]) ∧
    edges x.1 x.2 = before ++ e :: after ∧
    Smooth n [start] ((order.flatMap fun y => edges y.1 y.2) ++ before) ∧ Escapes n e

section Seen

variable {seen : List (Nat × D)} {x : Nat × D} {n : Nat}

theorem mem_discover {y : Nat × D} : y ∈ discover seen x ↔ y = x ∨ y ∈ seen := by
  unfold discover
  split_ifs with h
  · exact ⟨.inr, fun hy => hy.elim (fun hy => hy ▸ h) id⟩
  · simp [or_comm]

theorem prefix_discover (seen : List (Nat × D)) (x : Nat × D) : seen <+: discover seen x := by
  unfold discover
  split_ifs
  · exact List.prefix_refl _
  · exact List.prefix_append _ _

theorem prefix_foldl_discover (seen xs : List (Nat × D)) : seen <+: xs.foldl discover seen := by
  induction xs generalizing seen with
  | nil => exact List.prefix_refl _
  | cons x xs ih => exact (prefix_discover seen x).trans (ih _)

theorem smooth_append {a b : List (Edge D E)} :
    Smooth n seen (a ++ b) ↔ Smooth n seen a ∧ Smooth n ((targets a).foldl discover seen) b := by
  induction a generalizing seen with
  | nil => simp [Smooth, targets]
  | cons e a ih =>
    constructor
    · rintro ⟨pos, d, rfl, hlt, hagree, hrest⟩
      have := ih.mp hrest
      exact ⟨⟨pos, d, rfl, hlt, hagree, this.1⟩, this.2⟩
    · rintro ⟨⟨pos, d, rfl, hlt, hagree, ha⟩, hb⟩
      exact ⟨pos, d, rfl, hlt, hagree, ih.mpr ⟨ha, hb⟩⟩

theorem BreadthFirst.of_append {edges : Nat → D → List (Edge D E)} {start : Nat × D}
    {order : List (Nat × D)} (h : BreadthFirst edges start (order ++ [x])) :
    BreadthFirst edges start order ∧ (found edges start order)[order.length]? = some x := by
  generalize hall : order ++ [x] = all at h
  cases h with
  | nil => simp at hall
  | next h hx =>
    obtain ⟨rfl, hxs⟩ := List.append_inj' hall rfl
    obtain rfl := List.singleton_injective hxs
    exact ⟨h, hx⟩

theorem found_append {edges : Nat → D → List (Edge D E)} {start : Nat × D}
    (order : List (Nat × D)) (x : Nat × D) :
    found edges start (order ++ [x]) =
      (targets (edges x.1 x.2)).foldl discover (found edges start order) := by
  simp [found, targets_append]

end Seen

/-- The marks of a state are the pairs seen. -/
structure Tracks (n : Nat) (seen : List (Nat × D)) (s : State D) : Prop where
  length : s.marks.length = n
  marked : ∀ q d, s.Marked q d ↔ (q, d) ∈ seen

section Absorb

variable {clash : Nat → D → D → E} {n : Nat} {seen : List (Nat × D)} {s s' : State D}
  {pos : Nat} {d : D} {edges : List (Edge D E)}

theorem Tracks.schedule_ok (h : Tracks n seen s) (hs : schedule clash pos d s = .ok s') :
    pos < n ∧ (∀ d', (pos, d') ∈ seen → d' = d) ∧ Tracks n (discover seen (pos, d)) s' ∧
      s'.queue = s.queue ++ (discover seen (pos, d)).drop seen.length := by
  rcases schedule_cases hs with ⟨hnone, rfl⟩ | ⟨hmarked, rfl⟩
  · have hlt := h.length ▸ (List.getElem?_eq_some_iff.mp hnone).1
    have hnew (d' : D) : (pos, d') ∉ seen := by
      rw [← h.marked, State.Marked, hnone]
      simp
    refine ⟨hlt, fun d' hd => absurd hd (hnew d'), ⟨by simpa using h.length, ?_⟩, ?_⟩
    · intro q d'
      rw [mem_discover, ← h.marked]
      exact marked_set_iff hnone
    · simp [discover, hnew d]
  · have hmem := (h.marked pos d).mp hmarked
    refine ⟨h.length ▸ (List.getElem?_eq_some_iff.mp hmarked).1, ?_, ?_, ?_⟩
    · intro d' hd
      have hd := (h.marked pos d').mpr hd
      rw [State.Marked, hmarked] at hd
      simpa using hd.symm
    · simpa [discover, hmem] using h
    · simp [discover, hmem]

theorem Tracks.schedule_succeeds (clash : Nat → D → D → E) (h : Tracks n seen s) (hlt : pos < n)
    (hagree : ∀ d', (pos, d') ∈ seen → d' = d) : ∃ s', schedule clash pos d s = .ok s' := by
  unfold schedule
  cases hm : s.marks[pos]? with
  | none => exact absurd (List.getElem?_eq_none_iff.mp hm) (by rw [h.length]; omega)
  | some mark =>
    cases mark with
    | none => exact ⟨_, rfl⟩
    | some existing =>
      obtain rfl := hagree existing ((h.marked pos existing).mp hm)
      exact ⟨s, by simp⟩

theorem Tracks.schedule_panicked_iff (h : Tracks n seen s) :
    schedule clash pos d s = .error .panicked ↔ n ≤ pos := by
  unfold schedule
  cases hm : s.marks[pos]? with
  | none =>
    have := List.getElem?_eq_none_iff.mp hm
    simpa [h.length] using this
  | some mark =>
    have hlt : pos < n := h.length ▸ (List.getElem?_eq_some_iff.mp hm).1
    cases mark with
    | none => simpa using hlt
    | some existing =>
      simp only
      split_ifs <;> simpa using hlt

theorem absorb_append (a b : List (Edge D E)) (s : State D) :
    absorb clash (a ++ b) s = absorb clash a s >>= absorb clash b := by
  induction a generalizing s with
  | nil => rfl
  | cons e a ih =>
    cases e with
    | error f => rfl
    | ok target =>
      rw [List.cons_append, absorb_cons, absorb_cons]
      cases schedule clash target.1 target.2 s with
      | error f => rfl
      | ok mid => exact ih mid

theorem Tracks.absorb_ok (h : Tracks n seen s) (hs : absorb clash edges s = .ok s') :
    Smooth n seen edges ∧ Tracks n ((targets edges).foldl discover seen) s' ∧
      s'.queue = s.queue ++ ((targets edges).foldl discover seen).drop seen.length := by
  induction edges generalizing seen s with
  | nil =>
    obtain rfl : s = s' := Except.ok.inj hs
    exact ⟨trivial, h, by simp [targets]⟩
  | cons e edges ih =>
    cases e with
    | error f => cases hs
    | ok target =>
      obtain ⟨pos, d⟩ := target
      rw [absorb_cons] at hs
      cases hmid : schedule clash pos d s with
      | error f => rw [hmid] at hs; cases hs
      | ok mid =>
        rw [hmid] at hs
        obtain ⟨hlt, hagree, htracks, hqueue⟩ := h.schedule_ok hmid
        obtain ⟨hsmooth, hfinal, hrest⟩ := ih htracks hs
        refine ⟨⟨pos, d, rfl, hlt, hagree, hsmooth⟩, hfinal, ?_⟩
        have hpre := prefix_foldl_discover (discover seen (pos, d)) (targets edges)
        obtain ⟨new, hnew⟩ := hpre
        obtain ⟨one, hone⟩ := prefix_discover seen (pos, d)
        have hcons : (targets (Except.ok (pos, d) :: edges : List (Edge D E))).foldl discover seen =
            (targets edges).foldl discover (discover seen (pos, d)) := rfl
        rw [hrest, hqueue, hcons, ← hnew, ← hone]
        simp

theorem Tracks.absorb_succeeds (clash : Nat → D → D → E) (h : Tracks n seen s)
    (hsmooth : Smooth n seen edges) :
    ∃ s', absorb clash edges s = .ok s' := by
  induction edges generalizing seen s with
  | nil => exact ⟨s, rfl⟩
  | cons e edges ih =>
    obtain ⟨pos, d, rfl, hlt, hagree, hrest⟩ := hsmooth
    obtain ⟨mid, hmid⟩ := h.schedule_succeeds clash hlt hagree
    obtain ⟨s', hs'⟩ := ih (h.schedule_ok hmid).2.2.1 hrest
    exact ⟨s', by rw [absorb_cons, hmid]; exact hs'⟩

theorem Tracks.absorb_panicked_iff (h : Tracks n seen s) :
    absorb clash edges s = .error .panicked ↔
      ∃ before e after, edges = before ++ e :: after ∧ Smooth n seen before ∧ Escapes n e := by
  constructor
  · intro hp
    induction edges generalizing seen s with
    | nil => cases hp
    | cons e edges ih =>
      cases e with
      | error f =>
        obtain rfl : f = .panicked := Except.error.inj hp
        exact ⟨[], _, edges, rfl, trivial, .inl rfl⟩
      | ok target =>
        obtain ⟨pos, d⟩ := target
        rw [absorb_cons] at hp
        cases hmid : schedule clash pos d s with
        | error f =>
          rw [hmid] at hp
          obtain rfl : f = .panicked := Except.error.inj hp
          exact ⟨[], _, edges, rfl, trivial, .inr ⟨pos, d, rfl, h.schedule_panicked_iff.mp hmid⟩⟩
        | ok mid =>
          rw [hmid] at hp
          obtain ⟨hlt, hagree, htracks, -⟩ := h.schedule_ok hmid
          obtain ⟨before, e, after, rfl, hsmooth, he⟩ := ih htracks hp
          exact ⟨_ :: before, e, after, rfl, ⟨pos, d, rfl, hlt, hagree, hsmooth⟩, he⟩
  · rintro ⟨before, e, after, rfl, hsmooth, he⟩
    obtain ⟨mid, hmid⟩ := h.absorb_succeeds clash hsmooth
    rw [absorb_append, hmid]
    show absorb clash (e :: after) mid = _
    rcases he with rfl | ⟨pos, d, rfl, hn⟩
    · rfl
    · have htracks := (h.absorb_ok hmid).2.1
      rw [absorb_cons, (htracks.schedule_panicked_iff (d := d)).mpr hn]
      rfl

end Absorb

section Run

variable {clash : Nat → D → D → E} {visit : Nat → D → State D → Except (Failure E) (State D)}
  {edges : Nat → D → List (Edge D E)} {n fuel : Nat} {start : Nat × D} {order : List (Nat × D)}
  {s : State D}

/-- The state of a run that has visited `order` without trouble. -/
structure Progress (edges : Nat → D → List (Edge D E)) (n : Nat) (start : Nat × D)
    (order : List (Nat × D)) (s : State D) : Prop where
  breadthFirst : BreadthFirst edges start order
  smooth : Smooth n [start] (order.flatMap fun x => edges x.1 x.2)
  tracks : Tracks n (found edges start order) s
  queue : s.queue = (found edges start order).drop order.length

theorem Progress.ready (h : Progress edges n start order s) : s.Ready n := by
  refine ⟨h.tracks.length, fun x hx => (h.tracks.marked x.1 x.2).mpr ?_⟩
  rw [h.queue] at hx
  exact List.mem_of_mem_drop hx

theorem Progress.next (h : Progress edges n start order s) {x : Nat × D} {queue : List (Nat × D)}
    (hq : s.queue = x :: queue) : (found edges start order)[order.length]? = some x := by
  have hdrop := h.queue.symm.trans hq
  rw [← List.head?_drop, hdrop]
  rfl

theorem Progress.step (h : Progress edges n start order s) {x : Nat × D}
    {queue : List (Nat × D)} (hq : s.queue = x :: queue) {s' : State D}
    (ha : absorb clash (edges x.1 x.2) ⟨s.marks, queue⟩ = .ok s') :
    Progress edges n start (order ++ [x]) s' := by
  have hx := h.next hq
  have htracks : Tracks n (found edges start order) ⟨s.marks, queue⟩ :=
    ⟨h.tracks.length, h.tracks.marked⟩
  obtain ⟨hsmooth, hfinal, hqueue⟩ := htracks.absorb_ok ha
  have hlt : order.length < (found edges start order).length := by
    exact (List.getElem?_eq_some_iff.mp hx).1
  refine ⟨.next h.breadthFirst hx, ?_, by rw [found_append]; exact hfinal, ?_⟩
  · rw [List.flatMap_append, smooth_append]
    refine ⟨h.smooth, ?_⟩
    simpa [found] using hsmooth
  · obtain ⟨new, hnew⟩ := prefix_foldl_discover (found edges start order)
      (targets (edges x.1 x.2))
    have htail : queue = (found edges start order).drop (order.length + 1) := by
      have hdrop := h.queue.symm.trans hq
      rw [← List.tail_drop, hdrop, List.tail_cons]
    rw [hqueue, found_append, ← hnew, List.drop_left, List.length_append, List.length_singleton,
      List.drop_append_of_le_length hlt]
    exact congrArg (· ++ new) htail

theorem Progress.waits (h : Progress edges n start order s) {x : Nat × D}
    (hx : (found edges start order)[order.length]? = some x) : ∃ queue, s.queue = x :: queue := by
  refine ⟨(found edges start order).drop (order.length + 1), ?_⟩
  obtain ⟨hlt, rfl⟩ := List.getElem?_eq_some_iff.mp hx
  rw [h.queue, List.drop_eq_getElem_cons hlt]

theorem progress_start (h : start.1 < n) :
    Progress edges n start [] (State.start n start.1 start.2) := by
  refine ⟨.nil, trivial, ⟨by simp [State.start], fun q d => ?_⟩, rfl⟩
  rw [marked_start_iff h]
  exact List.mem_singleton.symm

theorem cost_start {pos : Nat} {d : D} (h : pos < n) : (State.start n pos d).cost = n := by
  simp [State.cost, State.start, List.count_set, h]
  omega

theorem run_mono {k : Nat} (h : run visit fuel s ≠ .error .outOfFuel) :
    run visit (fuel + k) s = run visit fuel s := by
  induction fuel generalizing s with
  | zero => exact absurd rfl h
  | succ fuel ih =>
    rw [Nat.add_right_comm]
    cases hq : s.queue with
    | nil => rw [run_nil hq, run_nil hq]
    | cons x queue =>
      obtain ⟨pos, d⟩ := x
      simp only [run, hq] at h ⊢
      cases hm : s.marks[pos]? with
      | none => rfl
      | some mark =>
        simp only [hm] at h ⊢
        split_ifs at h ⊢ with hd
        · exact ih h
        · cases hv : visit pos d ⟨s.marks, queue⟩ with
          | error f => rfl
          | ok s' =>
            rw [hv] at h
            exact ih h

variable (hvisit : ∀ pos d (s : State D), pos < n →
  visit pos d s = absorb clash (edges pos d) s)

include hvisit

theorem Progress.run_cons (h : Progress edges n start order s) {x : Nat × D}
    {queue : List (Nat × D)} (hq : s.queue = x :: queue) :
    run visit (fuel + 1) s =
      absorb clash (edges x.1 x.2) ⟨s.marks, queue⟩ >>= run visit fuel := by
  rw [h.ready.run_cons (hq : s.queue = (x.1, x.2) :: queue),
    hvisit x.1 x.2 _ (h.ready.pos_lt (by simp [hq]))]

theorem Progress.escapesFirst (h : Progress edges n start order s)
    (hrun : run visit fuel s = .error .panicked) : EscapesFirst edges n start := by
  induction fuel generalizing s order with
  | zero => cases hrun
  | succ fuel ih =>
    cases hq : s.queue with
    | nil => rw [run_nil hq] at hrun; cases hrun
    | cons x queue =>
      rw [h.run_cons hvisit hq] at hrun
      cases ha : absorb clash (edges x.1 x.2) ⟨s.marks, queue⟩ with
      | ok s' =>
        rw [ha] at hrun
        exact ih (h.step hq ha) hrun
      | error f =>
        rw [ha] at hrun
        obtain rfl : f = .panicked := Except.error.inj hrun
        have htracks : Tracks n (found edges start order) ⟨s.marks, queue⟩ :=
          ⟨h.tracks.length, h.tracks.marked⟩
        obtain ⟨before, e, after, hedges, hsmooth, he⟩ := htracks.absorb_panicked_iff.mp ha
        exact ⟨order, x, before, e, after, .next h.breadthFirst (h.next hq), hedges,
          smooth_append.mpr ⟨h.smooth, hsmooth⟩, he⟩

/-- A breadth-first order without trouble is the way every run takes. -/
theorem BreadthFirst.progress (h : BreadthFirst edges start order) (hstart : start.1 < n)
    (hsmooth : Smooth n [start] (order.flatMap fun x => edges x.1 x.2)) :
    ∃ s, Progress edges n start order s ∧ ∀ fuel,
      run visit (fuel + order.length) (State.start n start.1 start.2) = run visit fuel s := by
  induction h with
  | nil => exact ⟨_, progress_start hstart, fun _ => rfl⟩
  | @next order x h hx ih =>
    rw [List.flatMap_append, smooth_append] at hsmooth
    obtain ⟨s, hprogress, hrun⟩ := ih hsmooth.1
    obtain ⟨queue, hq⟩ := hprogress.waits hx
    have htracks : Tracks n (found edges start order) ⟨s.marks, queue⟩ :=
      ⟨hprogress.tracks.length, hprogress.tracks.marked⟩
    obtain ⟨s', hs'⟩ := htracks.absorb_succeeds clash
      (by simpa [found] using hsmooth.2)
    refine ⟨s', hprogress.step hq hs', fun fuel => ?_⟩
    have := hrun (fuel + 1)
    rw [hprogress.run_cons hvisit hq, hs'] at this
    rw [List.length_append, List.length_singleton, ← Nat.add_assoc, Nat.add_right_comm]
    exact this

theorem run_panicked_iff (hstart : start.1 < n) (hfuel : n < fuel)
    (hedges : ∀ pos d, .error .outOfFuel ∉ edges pos d) :
    run visit fuel (State.start n start.1 start.2) = .error .panicked ↔
      EscapesFirst edges n start := by
  refine ⟨(progress_start hstart).escapesFirst hvisit, ?_⟩
  rintro ⟨order, x, before, e, after, horder, hsplit, hsmooth, he⟩
  rw [smooth_append] at hsmooth
  obtain ⟨hfirst, hx⟩ := horder.of_append
  obtain ⟨s, hprogress, hrun⟩ := hfirst.progress hvisit hstart hsmooth.1
  obtain ⟨queue, hq⟩ := hprogress.waits hx
  have htracks : Tracks n (found edges start order) ⟨s.marks, queue⟩ :=
    ⟨hprogress.tracks.length, hprogress.tracks.marked⟩
  have hp : absorb clash (edges x.1 x.2) ⟨s.marks, queue⟩ = .error .panicked :=
    htracks.absorb_panicked_iff.mpr ⟨before, e, after, hsplit, hsmooth.2, he⟩
  have hlong : run visit (0 + 1 + order.length) (State.start n start.1 start.2) =
      .error .panicked := by
    rw [hrun, hprogress.run_cons hvisit hq, hp]
    rfl
  have hends := run_ne_outOfFuel hvisit (ready_start (d := start.2) hstart)
    (by rw [cost_start hstart]; exact hfuel) hedges
  rw [← run_mono (k := 0 + 1 + order.length) hends, Nat.add_comm fuel, run_mono (by simp [hlong]),
    hlong]

end Run

end Worklist
