import Proveno.Lib.Worklist

/-! A worklist that takes any waiting position next. Whether it succeeds does not depend on
the choices, and taking positions as they arrived is one way to choose. -/

namespace Worklist

variable {D E : Type} [DecidableEq D]

/-- A turn at a position that has been taken from the queue. -/
def turn (visit : Nat → D → State D → Except (Failure E) (State D)) (pos : Nat) (d : D)
    (s : State D) : Except (Failure E) (State D) :=
  match s.marks[pos]? with
  | none => .error .panicked
  | some mark => if mark ≠ some d then .ok s else visit pos d s

/-- What a turn at one of the waiting positions gives. -/
def Turns (visit : Nat → D → State D → Except (Failure E) (State D)) (s : State D)
    (result : Except (Failure E) (State D)) : Prop :=
  ∃ before x after, s.queue = before ++ x :: after ∧
    turn visit x.1 x.2 ⟨s.marks, before ++ after⟩ = result

/-- The ends of the runs that take the waiting positions in any order. -/
inductive Ends (visit : Nat → D → State D → Except (Failure E) (State D)) :
    State D → Except (Failure E) (List (Option D)) → Prop
  | empty {s : State D} : s.queue = [] → Ends visit s (.ok s.marks)
  | fails {s : State D} {f : Failure E} : Turns visit s (.error f) → Ends visit s (.error f)
  | next {s s' : State D} {result : Except (Failure E) (List (Option D))} :
    Turns visit s (.ok s') → Ends visit s' result → Ends visit s result

section Order

variable {visit : Nat → D → State D → Except (Failure E) (State D)} {fuel : Nat} {s : State D}

theorem run_turn {x : Nat × D} {queue : List (Nat × D)} (h : s.queue = x :: queue) :
    run visit (fuel + 1) s = turn visit x.1 x.2 ⟨s.marks, queue⟩ >>= run visit fuel := by
  unfold run turn
  simp only [h]
  cases s.marks[x.1]? with
  | none => rfl
  | some mark =>
    dsimp only
    split_ifs <;> rfl

/-- The run in the order of arrival. -/
theorem ends_run (h : run visit fuel s ≠ .error .outOfFuel) :
    Ends visit s (run visit fuel s) := by
  induction fuel generalizing s with
  | zero => exact absurd rfl h
  | succ fuel ih =>
    cases hq : s.queue with
    | nil =>
      rw [run_nil hq]
      exact .empty hq
    | cons x queue =>
      rw [run_turn hq] at h ⊢
      cases ht : turn visit x.1 x.2 ⟨s.marks, queue⟩ with
      | error f => exact .fails ⟨[], x, queue, hq, ht⟩
      | ok s' =>
        rw [ht] at h
        exact .next ⟨[], x, queue, hq, ht⟩ (ih h)

end Order

section Certificate

variable {clash : Nat → D → D → E} {visit : Nat → D → State D → Except (Failure E) (State D)}
  {edges : Nat → D → List (Edge D E)} {n : Nat} {s s' : State D} {marks : List (Option D)}

/-- Data for positions that start and edges agree on. -/
structure Agrees (edges : Nat → D → List (Edge D E)) (n pos : Nat) (d : D)
    (assigned : Nat → Option D) : Prop where
  start : assigned pos = some d
  along : ∀ q d, assigned q = some d → ∀ e ∈ edges q d,
    ∃ q' d', e = .ok (q', d') ∧ q' < n ∧ assigned q' = some d'

variable (hvisit : ∀ pos d (s : State D), pos < n →
  visit pos d s = absorb clash (edges pos d) s)

include hvisit

/-- A waiting position is visited when its turn comes. -/
theorem State.Ready.turns (hs : s.Ready n) {result : Except (Failure E) (State D)}
    (h : Turns visit s result) :
    ∃ before x after, s.queue = before ++ x :: after ∧ s.Marked x.1 x.2 ∧
      absorb clash (edges x.1 x.2) ⟨s.marks, before ++ after⟩ = result := by
  obtain ⟨before, x, after, hq, rfl⟩ := h
  have hmem : x ∈ s.queue := by simp [hq]
  have hm := hs.marked x hmem
  refine ⟨before, x, after, hq, hm, ?_⟩
  rw [State.Marked] at hm
  simp only [turn, hm, ne_eq, not_true_eq_false, if_false]
  exact (hvisit x.1 x.2 _ (hs.pos_lt hmem)).symm

theorem State.Ready.turned (hs : s.Ready n) (h : Turns visit s (.ok s')) :
    s'.Ready n ∧ s'.cost + 1 = s.cost := by
  obtain ⟨before, x, after, hq, -, ha⟩ := hs.turns hvisit h
  have habs := absorb_spec ha
  have hrest : State.Ready n (⟨s.marks, before ++ after⟩ : State D) := by
    refine ⟨hs.length, fun y hy => hs.marked y ?_⟩
    rw [hq]
    simp only [List.mem_append, List.mem_cons] at hy ⊢
    tauto
  refine ⟨hrest.absorbed habs, ?_⟩
  have hcost := habs.cost
  simp only [State.cost, hq, List.length_append, List.length_cons] at hcost ⊢
  omega

/-- Every order comes to an end. -/
theorem chain_length_le {states : List (State D)} (hs : s.Ready n)
    (h : (s :: states).IsChain fun s s' => Turns visit s (.ok s')) : states.length ≤ s.cost := by
  induction states generalizing s with
  | nil => exact Nat.zero_le _
  | cons s' states ih =>
    rw [List.isChain_cons_cons] at h
    obtain ⟨hready, hcost⟩ := hs.turned hvisit h.1
    have := ih hready h.2
    rw [List.length_cons]
    omega

/-- At the end, all edges of a marked position lead to marked positions. -/
theorem ends_closed (hs : s.Ready n)
    (hdone : ∀ q d, s.Marked q d → (q, d) ∈ s.queue ∨ ∀ e ∈ edges q d,
      ∃ q' d', e = .ok (q', d') ∧ s.Marked q' d')
    (h : Ends visit s (.ok marks)) :
    marks.length = n ∧ (∀ q d, s.Marked q d → marks[q]? = some (some d)) ∧
      ∀ q d, marks[q]? = some (some d) → ∀ e ∈ edges q d,
        ∃ q' d', e = .ok (q', d') ∧ marks[q']? = some (some d') := by
  generalize hresult : (Except.ok marks : Except (Failure E) _) = result at h
  induction h with
  | @empty s hq =>
    obtain rfl := Except.ok.inj hresult
    refine ⟨hs.length, fun _ _ hm => hm, fun q d hm => (hdone q d hm).resolve_left ?_⟩
    simp [hq]
  | fails => cases hresult
  | @next s s' result hturn _ ih =>
    obtain ⟨before, x, after, hq, -, ha⟩ := hs.turns hvisit hturn
    have habs := absorb_spec ha
    have hdone' (q : Nat) (d : D) (hm : s'.Marked q d) : (q, d) ∈ s'.queue ∨ ∀ e ∈ edges q d,
        ∃ q' d', e = .ok (q', d') ∧ s'.Marked q' d' := by
      rcases habs.fresh q d hm with hold | ⟨-, hnew⟩
      · rcases hdone q d hold with hwait | hall
        · rw [hq, List.mem_append, List.mem_cons] at hwait
          rcases hwait with hwait | rfl | hwait
          · exact .inl (habs.waits _ (List.mem_append_left _ hwait))
          · exact .inr habs.covers
          · exact .inl (habs.waits _ (List.mem_append_right _ hwait))
        · refine .inr fun e he => ?_
          obtain ⟨q', d', rfl, hm'⟩ := hall e he
          exact ⟨q', d', rfl, habs.keeps _ _ hm'⟩
      · exact .inl hnew
    obtain ⟨hlen, hkeep, hclosed⟩ := ih (hs.turned hvisit hturn).1 hdone' hresult
    exact ⟨hlen, fun q d hm => hkeep q d (habs.keeps q d hm), hclosed⟩

theorem ends_ok {assigned : Nat → Option D} {pos : Nat} {d : D} (hs : s.Ready n)
    (hagrees : Agrees edges n pos d assigned)
    (hmarks : ∀ q d, s.Marked q d → assigned q = some d)
    {result : Except (Failure E) (List (Option D))} (h : Ends visit s result) :
    ∃ marks, result = .ok marks := by
  have hturn {s : State D} (hs : s.Ready n) (hmarks : ∀ q d, s.Marked q d → assigned q = some d)
      {r : Except (Failure E) (State D)} (h : Turns visit s r) :
      ∃ s', r = .ok s' ∧ ∀ q d, s'.Marked q d → assigned q = some d := by
    obtain ⟨before, x, after, hq, hm, ha⟩ := hs.turns hvisit h
    have habsorb : (∃ s', absorb clash (edges x.1 x.2) ⟨s.marks, before ++ after⟩ = .ok s' ∧
        ∀ q d, s'.Marked q d → assigned q = some d) ∨ ∃ f, _ ∧ False :=
      absorb_allowed (fun q d d' hd hd' => by simpa [hd] using hd') hs.length hmarks
        fun e he => .inl (hagrees.along x.1 x.2 (hmarks _ _ hm) e he)
    obtain ⟨s', hs', hkeep⟩ | ⟨f, -, hf⟩ := habsorb
    · exact ⟨s', ha ▸ hs', hkeep⟩
    · exact hf.elim
  induction h with
  | empty hq => exact ⟨_, rfl⟩
  | fails hfail =>
    obtain ⟨s', hs', -⟩ := hturn hs hmarks hfail
    cases hs'
  | next hnext _ ih =>
    obtain ⟨s', hs', hkeep⟩ := hturn hs hmarks hnext
    obtain rfl := Except.ok.inj hs'
    exact ih (hs.turned hvisit hnext).1 hkeep

/-- In any order the worklist succeeds exactly when data can be found that agree. -/
theorem ends_ok_iff {pos : Nat} {d : D} (hpos : pos < n)
    {result : Except (Failure E) (List (Option D))}
    (h : Ends visit (State.start n pos d) result) :
    (∃ marks, result = .ok marks) ↔ ∃ assigned, Agrees edges n pos d assigned := by
  have hready : (State.start n pos d).Ready n := ready_start hpos
  constructor
  · rintro ⟨marks, rfl⟩
    obtain ⟨hlen, hkeep, hclosed⟩ := ends_closed hvisit hready (fun q d' hm => .inl
      (List.mem_singleton.mpr ((marked_start_iff hpos).mp hm))) h
    refine ⟨fun q => marks[q]?.join, ?_, fun q d' hq e he => ?_⟩
    · simp [hkeep pos d ((marked_start_iff hpos).mpr rfl)]
    · obtain ⟨q', d'', rfl, hm⟩ := hclosed q d' (Option.join_eq_some_iff.mp hq) e he
      exact ⟨q', d'', rfl, hlen ▸ (List.getElem?_eq_some_iff.mp hm).1, by simp [hm]⟩
  · rintro ⟨assigned, hagrees⟩
    refine ends_ok hvisit hready hagrees (fun q d' hm => ?_) h
    obtain ⟨rfl, rfl⟩ := Prod.mk.inj ((marked_start_iff hpos).mp hm)
    exact hagrees.start

end Certificate

end Worklist
