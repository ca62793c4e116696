import Mathlib.Algebra.Ring.Nat
import Mathlib.Data.List.Chain
import Mathlib.Logic.Relation
import Mathlib.Tactic.SplitIfs
import Proveno.Lib.Exec

/-! Depth-first search for a cycle in a graph given by adjacency lists, with three
colours and an explicit stack. A child that is no node of the graph is passed over. -/

namespace DepthFirst

inductive Color
  | white
  | grey
  | black
  deriving DecidableEq

/-- The innermost node is the head of the stack; each stands with the index of its
next child. -/
structure State where
  color : List Color
  stack : List (Nat × Nat)

def step (adj : List (List Nat)) (node edge : Nat) (rest : List (Nat × Nat))
    (color : List Color) : Except (Failure Nat) State :=
  match adj[node]? with
  | none => .error .panicked
  | some children =>
    match children[edge]? with
    | none => .ok ⟨color.set node .black, rest⟩
    | some child =>
      if adj.length ≤ child then .ok ⟨color, (node, edge + 1) :: rest⟩
      else match color[child]? with
        | none => .error .panicked
        | some .grey => .error (.raised child)
        | some .white => .ok ⟨color.set child .grey, (child, 0) :: (node, edge + 1) :: rest⟩
        | some .black => .ok ⟨color, (node, edge + 1) :: rest⟩

def run (adj : List (List Nat)) : Nat → State → Except (Failure Nat) (List Color)
  | 0, _ => .error .outOfFuel
  | fuel + 1, s =>
    match s.stack with
    | [] => .ok s.color
    | (node, edge) :: rest => do run adj fuel (← step adj node edge rest s.color)

def fuelFor (adj : List (List Nat)) : Nat := (adj.map fun children => children.length + 1).sum + 1

def searchFrom (adj : List (List Nat)) (color : List Color) (start : Nat) :
    Except (Failure Nat) (List Color) :=
  match color[start]? with
  | none => .error .panicked
  | some .white => run adj (fuelFor adj) ⟨color.set start .grey, [(start, 0)]⟩
  | some _ => .ok color

def search (adj : List (List Nat)) : Except (Failure Nat) (List Color) :=
  (List.range adj.length).foldlM (searchFrom adj) (List.replicate adj.length .white)

def Edge (adj : List (List Nat)) (i j : Nat) : Prop :=
  ∃ children, adj[i]? = some children ∧ j ∈ children ∧ j < adj.length

def OnCycle (adj : List (List Nat)) (i : Nat) : Prop := Relation.TransGen (Edge adj) i i

theorem Edge.lt {adj : List (List Nat)} {i j : Nat} (h : Edge adj i j) : j < adj.length :=
  h.choose_spec.2.2

section Cost

/-- The steps still to be spent on nodes not yet reached. -/
def whiteCost : List (List Nat) → List Color → Nat
  | children :: adj, c :: color =>
    (if c = .white then children.length + 1 else 0) + whiteCost adj color
  | _, _ => 0

def stackCost (adj : List (List Nat)) (stack : List (Nat × Nat)) : Nat :=
  (stack.map fun entry => (adj.getD entry.1 []).length - entry.2 + 1).sum

def cost (adj : List (List Nat)) (s : State) : Nat := whiteCost adj s.color + stackCost adj s.stack

@[simp] theorem whiteCost_nil (color : List Color) : whiteCost [] color = 0 := rfl

@[simp] theorem whiteCost_nil_right (adj : List (List Nat)) : whiteCost adj [] = 0 := by
  cases adj <;> rfl

theorem whiteCost_cons (children : List Nat) (adj : List (List Nat)) (c : Color)
    (color : List Color) :
    whiteCost (children :: adj) (c :: color) =
      (if c = .white then children.length + 1 else 0) + whiteCost adj color := rfl

theorem whiteCost_le (adj : List (List Nat)) (color : List Color) :
    whiteCost adj color + 1 ≤ fuelFor adj := by
  induction adj generalizing color with
  | nil => simp [fuelFor]
  | cons children adj ih =>
    cases color with
    | nil => simp [fuelFor]
    | cons c color =>
      have h := ih color
      simp only [whiteCost_cons, fuelFor, List.map_cons, List.sum_cons] at h ⊢
      split <;> omega

theorem whiteCost_set_white {adj : List (List Nat)} {color : List Color} {i : Nat}
    {children : List Nat} {c : Color} (hi : adj[i]? = some children)
    (hw : color[i]? = some .white) (hc : c ≠ .white) :
    whiteCost adj (color.set i c) + (children.length + 1) = whiteCost adj color := by
  induction adj generalizing color i with
  | nil => simp at hi
  | cons first adj ih =>
    cases color with
    | nil => simp at hw
    | cons d color =>
      cases i with
      | zero =>
        simp only [List.getElem?_cons_zero, Option.some.injEq] at hi hw
        subst hi hw
        simp only [List.set_cons_zero, whiteCost_cons, if_neg hc, if_true]
        omega
      | succ i =>
        simp only [List.getElem?_cons_succ] at hi hw
        have h := ih hi hw
        simp only [List.set_cons_succ, whiteCost_cons]
        omega

theorem whiteCost_set_le (adj : List (List Nat)) (color : List Color) (i : Nat) {c : Color}
    (hc : c ≠ .white) : whiteCost adj (color.set i c) ≤ whiteCost adj color := by
  induction adj generalizing color i with
  | nil => simp
  | cons first adj ih =>
    cases color with
    | nil => simp
    | cons d color =>
      cases i with
      | zero => simp [whiteCost_cons, hc]
      | succ i =>
        have h := ih color i
        simp only [List.set_cons_succ, whiteCost_cons]
        omega

/-- What a step can do: finish the node, pass over a child, or go down to a new one. -/
theorem step_cases {adj : List (List Nat)} {node edge : Nat} {rest : List (Nat × Nat)}
    {color : List Color} {s : State} (h : step adj node edge rest color = .ok s) :
    ∃ children, adj[node]? = some children ∧
      ((children[edge]? = none ∧ s = ⟨color.set node .black, rest⟩) ∨
        ∃ child, children[edge]? = some child ∧
          ((child < adj.length → color[child]? = some .black) ∧
              s = ⟨color, (node, edge + 1) :: rest⟩ ∨
            child < adj.length ∧ color[child]? = some .white ∧
              s = ⟨color.set child .grey, (child, 0) :: (node, edge + 1) :: rest⟩)) := by
  unfold step at h
  cases hnode : adj[node]? with
  | none => rw [hnode] at h; simp at h
  | some children =>
    refine ⟨children, rfl, ?_⟩
    rw [hnode] at h
    cases hchild : children[edge]? with
    | none => exact .inl ⟨rfl, by simpa [hchild] using h.symm⟩
    | some child =>
      refine .inr ⟨child, rfl, ?_⟩
      simp only [hchild] at h
      split_ifs at h with hrange
      · exact .inl ⟨fun hc => by omega, by simpa using h.symm⟩
      · cases hcolor : color[child]? with
        | none => rw [hcolor] at h; simp at h
        | some c =>
          rw [hcolor] at h
          cases c with
          | grey => simp at h
          | white => exact .inr ⟨by omega, rfl, by simpa using h.symm⟩
          | black => exact .inl ⟨fun _ => rfl, by simpa using h.symm⟩

theorem cost_step {adj : List (List Nat)} {node edge : Nat} {rest : List (Nat × Nat)}
    {color : List Color} {s : State} (h : step adj node edge rest color = .ok s) :
    cost adj s < cost adj ⟨color, (node, edge) :: rest⟩ := by
  obtain ⟨children, hnode, hcase⟩ := step_cases h
  have hlen : (adj.getD node []).length = children.length := by
    rw [List.getD_eq_getElem?_getD, hnode]; rfl
  rcases hcase with ⟨-, rfl⟩ | ⟨child, hchild, hcase⟩
  · have := whiteCost_set_le adj color node (c := .black) (by decide)
    simp only [cost, stackCost, List.map_cons, List.sum_cons]
    omega
  · have hedge : edge < children.length := (List.getElem?_eq_some_iff.mp hchild).1
    rcases hcase with ⟨-, rfl⟩ | ⟨hlt, hwhite, rfl⟩
    · simp only [cost, stackCost, List.map_cons, List.sum_cons]
      omega
    · have hothers := List.getElem?_eq_getElem hlt
      have hset := whiteCost_set_white (c := .grey) hothers hwhite (by decide)
      have hdeg : (adj.getD child []).length = adj[child].length := by
        rw [List.getD_eq_getElem?_getD, hothers]; rfl
      simp only [cost, stackCost, List.map_cons, List.sum_cons]
      omega

theorem step_keeps {adj : List (List Nat)} {node edge : Nat} {rest : List (Nat × Nat)}
    {color : List Color} {s : State} (h : step adj node edge rest color = .ok s) {i : Nat}
    (hi : color[i]? ≠ some .white) : s.color[i]? ≠ some .white := by
  have hset (j : Nat) (c : Color) (hc : c ≠ .white) : (color.set j c)[i]? ≠ some .white := by
    rw [List.getElem?_set]
    split_ifs <;> simp_all
  obtain ⟨children, -, ⟨-, rfl⟩ | ⟨child, -, ⟨-, rfl⟩ | ⟨-, -, rfl⟩⟩⟩ := step_cases h
  · exact hset node .black (by decide)
  · exact hi
  · exact hset child .grey (by decide)

end Cost

section Invariant

variable {adj : List (List Nat)}

/-- The children passed so far are finished, or lie above their parent on the stack. -/
def Scanned (adj : List (List Nat)) (color : List Color) : List Nat → List (Nat × Nat) → Prop
  | _, [] => True
  | above, (node, edge) :: rest =>
    (∀ child ∈ (adj.getD node []).take edge, child < adj.length →
      color[child]? = some .black ∨ child ∈ above) ∧
    Scanned adj color (node :: above) rest

theorem Scanned.mono {color color' : List Color} {stack : List (Nat × Nat)}
    {above above' : List Nat} (h : Scanned adj color above stack)
    (hmono : ∀ i, color[i]? = some Color.black ∨ i ∈ above →
      color'[i]? = some Color.black ∨ i ∈ above') :
    Scanned adj color' above' stack := by
  induction stack generalizing above above' with
  | nil => trivial
  | cons entry stack ih =>
    refine ⟨fun child hchild hlt => hmono child (h.1 child hchild hlt), ih h.2 ?_⟩
    intro i hi
    by_cases hentry : i = entry.1
    · exact .inr (by simp [hentry])
    · have hi : color[i]? = some Color.black ∨ i ∈ above := by simpa [hentry] using hi
      exact (hmono i hi).imp_right (List.mem_cons_of_mem _)

theorem getElem?_recolor {color : List Color} {i : Nat} (hi : i < color.length) (c : Color)
    (j : Nat) : (color.set i c)[j]? = if i = j then some c else color[j]? := by
  rw [List.getElem?_set]
  split_ifs <;> rfl

/-- Finished nodes lead to finished nodes only, and none of them is on a cycle. -/
structure Finished (adj : List (List Nat)) (color : List Color) : Prop where
  length : color.length = adj.length
  closed : ∀ i j, color[i]? = some .black → Edge adj i j → color[j]? = some .black
  acyclic : ∀ i, color[i]? = some .black → ¬OnCycle adj i

structure Inv (adj : List (List Nat)) (s : State) : Prop extends Finished adj s.color where
  grey : ∀ i, s.color[i]? = some .grey ↔ i ∈ s.stack.map Prod.fst
  nodup : (s.stack.map Prod.fst).Nodup
  path : s.stack.IsChain fun inner outer => Edge adj outer.1 inner.1
  scanned : Scanned adj s.color [] s.stack

theorem Finished.reach {color : List Color} (h : Finished adj color) {i j : Nat}
    (hi : color[i]? = some .black) (hij : Relation.ReflTransGen (Edge adj) i j) :
    color[j]? = some .black := by
  induction hij with
  | refl => exact hi
  | tail _ hstep ih => exact h.closed _ _ ih hstep

theorem Inv.node_lt {s : State} (h : Inv adj s) {node edge : Nat} {rest : List (Nat × Nat)}
    (hs : s.stack = (node, edge) :: rest) : node < adj.length := by
  have hg := (h.grey node).mpr (by simp [hs])
  rw [← h.length]
  exact (List.getElem?_eq_some_iff.mp hg).1

/-- The path from any node on the stack to the innermost one. -/
theorem stack_reach {stack : List (Nat × Nat)} {top : Nat × Nat}
    (h : (top :: stack).IsChain fun inner outer => Edge adj outer.1 inner.1) {i : Nat}
    (hi : i ∈ (top :: stack).map Prod.fst) : Relation.ReflTransGen (Edge adj) i top.1 := by
  induction stack generalizing top with
  | nil =>
    obtain rfl : i = top.1 := by simpa using hi
    exact .refl
  | cons next stack ih =>
    rcases List.mem_cons.mp hi with rfl | hi
    · exact .refl
    · rw [List.isChain_cons_cons] at h
      exact (ih h.2 hi).tail h.1

variable {color : List Color} {node edge : Nat} {rest : List (Nat × Nat)}

/-- The innermost node is finished once all its children are. -/
theorem Inv.finish {children : List Nat} (h : Inv adj ⟨color, (node, edge) :: rest⟩)
    (hnode : adj[node]? = some children) (hdone : children[edge]? = none) :
    Inv adj ⟨color.set node .black, rest⟩ := by
  have hlt : node < color.length := by rw [h.length]; exact h.node_lt rfl
  have hget := getElem?_recolor hlt .black
  have hgrey : color[node]? = some .grey := (h.grey node).mpr (by simp)
  have hchild (j : Nat) (hj : Edge adj node j) : color[j]? = some .black := by
    obtain ⟨others, hothers, hmem, hrange⟩ := hj
    rw [hnode, Option.some.injEq] at hothers
    subst hothers
    have htake : (adj.getD node []).take edge = children := by
      rw [List.getD_eq_getElem?_getD, hnode, Option.getD_some,
        List.take_of_length_le (List.getElem?_eq_none_iff.mp hdone)]
    simpa using h.scanned.1 j (by rw [htake]; exact hmem) hrange
  have hnot : node ∉ rest.map Prod.fst := (List.nodup_cons.mp h.nodup).1
  refine ⟨⟨by simpa using h.length, ?_, ?_⟩, ?_, (List.nodup_cons.mp h.nodup).2, h.path.tail, ?_⟩
  · intro i j hi hj
    simp only [hget] at hi ⊢
    split_ifs at ⊢ with hnj
    · rfl
    · split_ifs at hi with hni
      · subst hni; exact hchild j hj
      · exact h.closed i j hi hj
  · intro i hi hcycle
    simp only [hget] at hi
    split_ifs at hi with hni
    · subst hni
      obtain ⟨j, hj, hback⟩ := Relation.TransGen.head'_iff.mp hcycle
      have hblack : color[node]? = some .black := h.toFinished.reach (hchild j hj) hback
      rw [hgrey] at hblack
      simp at hblack
    · exact h.acyclic i hi hcycle
  · intro i
    simp only [hget]
    split_ifs with hni
    · subst hni; simp [hnot]
    · have := h.grey i
      simp only [List.map_cons, List.mem_cons, Ne.symm hni, false_or] at this
      exact this
  · refine Scanned.mono h.scanned.2 fun i hi => ?_
    simp only [hget]
    split_ifs with hni
    · exact .inl rfl
    · simpa [Ne.symm hni] using hi

theorem take_succ_children {children : List Nat} {child : Nat}
    (hnode : adj[node]? = some children) (hchild : children[edge]? = some child) :
    (adj.getD node []).take (edge + 1) = (adj.getD node []).take edge ++ [child] := by
  rw [List.getD_eq_getElem?_getD, hnode, Option.getD_some, List.take_add_one, hchild]
  rfl

theorem Inv.advancePath (h : Inv adj ⟨color, (node, edge) :: rest⟩) :
    ((node, edge + 1) :: rest).IsChain fun inner outer => Edge adj outer.1 inner.1 := by
  cases rest with
  | nil => exact .singleton _
  | cons next rest =>
    have hpath := List.isChain_cons_cons.mp h.path
    exact List.isChain_cons_cons.mpr ⟨hpath.1, hpath.2⟩

/-- Passing over a child that is no node, or that is finished. -/
theorem Inv.advance {children : List Nat} {child : Nat}
    (h : Inv adj ⟨color, (node, edge) :: rest⟩) (hnode : adj[node]? = some children)
    (hchild : children[edge]? = some child)
    (hpass : child < adj.length → color[child]? = some .black) :
    Inv adj ⟨color, (node, edge + 1) :: rest⟩ := by
  refine ⟨h.toFinished, h.grey, h.nodup, h.advancePath, ?_, h.scanned.2⟩
  intro c hc hlt
  rw [take_succ_children hnode hchild, List.mem_append, List.mem_singleton] at hc
  rcases hc with hc | rfl
  · exact h.scanned.1 c hc hlt
  · exact .inl (hpass hlt)

/-- A node reached for the first time goes on the stack. -/
theorem Inv.push {stack stack' : List (Nat × Nat)} {child : Nat} (h : Inv adj ⟨color, stack⟩)
    (hwhite : color[child]? = some .white) (hnodes : stack'.map Prod.fst = stack.map Prod.fst)
    (hpath : ((child, 0) :: stack').IsChain fun inner outer => Edge adj outer.1 inner.1)
    (hscanned : Scanned adj (color.set child .grey) [child] stack') :
    Inv adj ⟨color.set child .grey, (child, 0) :: stack'⟩ := by
  have hget := getElem?_recolor (List.getElem?_eq_some_iff.mp hwhite).1 .grey
  have hnew : child ∉ stack.map Prod.fst := by
    intro hmem
    have hgrey : color[child]? = some .grey := (h.grey child).mpr hmem
    rw [hwhite] at hgrey
    simp at hgrey
  refine ⟨⟨by simpa using h.length, ?_, ?_⟩, ?_, ?_, hpath, by simp [Scanned, hscanned]⟩
  · intro i j hi hj
    simp only [hget] at hi ⊢
    split_ifs at hi with hci
    · simp at hi
    have hj : color[j]? = some .black := h.closed i j hi hj
    rw [if_neg (by rintro rfl; rw [hwhite] at hj; simp at hj), hj]
  · intro i hi
    simp only [hget] at hi
    split_ifs at hi with hci
    · simp at hi
    · exact h.acyclic i hi
  · intro i
    simp only [hget, List.map_cons, List.mem_cons, hnodes]
    split_ifs with hci
    · simp [hci]
    · simpa [Ne.symm hci] using h.grey i
  · rw [List.map_cons, hnodes]
    exact List.nodup_cons.mpr ⟨hnew, h.nodup⟩

theorem Inv.descend {children : List Nat} {child : Nat}
    (h : Inv adj ⟨color, (node, edge) :: rest⟩) (hnode : adj[node]? = some children)
    (hchild : children[edge]? = some child) (hlt : child < adj.length)
    (hwhite : color[child]? = some .white) :
    Inv adj ⟨color.set child .grey, (child, 0) :: (node, edge + 1) :: rest⟩ := by
  have hblack (i : Nat) (hi : color[i]? = some .black) :
      (color.set child .grey)[i]? = some .black := by
    rw [getElem?_recolor (List.getElem?_eq_some_iff.mp hwhite).1,
      if_neg (by rintro rfl; rw [hwhite] at hi; simp at hi), hi]
  refine h.push hwhite rfl ?_ ⟨?_, ?_⟩
  · exact List.isChain_cons_cons.mpr
      ⟨⟨children, hnode, List.mem_of_getElem? hchild, hlt⟩, h.advancePath⟩
  · intro c hc hrange
    rw [take_succ_children hnode hchild, List.mem_append, List.mem_singleton] at hc
    rcases hc with hc | rfl
    · have := h.scanned.1 c hc hrange
      simp only [List.not_mem_nil, or_false] at this
      exact .inl (hblack c this)
    · exact .inr (List.mem_cons_self ..)
  · refine Scanned.mono h.scanned.2 fun i hi => ?_
    rcases hi with hi | hi
    · exact .inl (hblack i hi)
    · exact .inr (by simp_all)

theorem Inv.start {start : Nat} (h : Inv adj ⟨color, []⟩) (hwhite : color[start]? = some .white) :
    Inv adj ⟨color.set start .grey, [(start, 0)]⟩ :=
  h.push hwhite rfl (.singleton _) trivial

theorem inv_white (adj : List (List Nat)) :
    Inv adj ⟨List.replicate adj.length .white, []⟩ := by
  have hget (i : Nat) (c : Color) (hc : c ≠ .white) :
      (List.replicate adj.length Color.white)[i]? ≠ some c := by
    rw [List.getElem?_replicate]
    split <;> simp [Ne.symm hc]
  constructor
  · constructor
    · simp
    · exact fun i _ hi => absurd hi (hget i .black (by decide))
    · exact fun i hi => absurd hi (hget i .black (by decide))
  · exact fun i => iff_of_false (hget i .grey (by decide)) (by simp)
  · simp
  · exact .nil
  · trivial

theorem Inv.step {s : State} (h : Inv adj ⟨color, (node, edge) :: rest⟩)
    (hs : step adj node edge rest color = .ok s) : Inv adj s := by
  obtain ⟨children, hnode, ⟨hdone, rfl⟩ | ⟨child, hchild, hcase⟩⟩ := step_cases hs
  · exact h.finish hnode hdone
  · rcases hcase with ⟨hpass, rfl⟩ | ⟨hlt, hwhite, rfl⟩
    · exact h.advance hnode hchild hpass
    · exact h.descend hnode hchild hlt hwhite

/-- A step fails only at a node on a cycle. -/
theorem Inv.step_error {e : Failure Nat} (h : Inv adj ⟨color, (node, edge) :: rest⟩)
    (hs : DepthFirst.step adj node edge rest color = .error e) :
    ∃ child, e = .raised child ∧ OnCycle adj child := by
  have hlt := h.node_lt rfl
  have hnode := List.getElem?_eq_getElem hlt
  unfold DepthFirst.step at hs
  rw [hnode] at hs
  cases hchild : adj[node][edge]? with
  | none => simp [hchild] at hs
  | some child =>
    simp only [hchild] at hs
    split_ifs at hs with hrange
    have hchildLt : child < color.length := by rw [h.length]; omega
    have hcolor := List.getElem?_eq_getElem hchildLt
    rw [hcolor] at hs
    cases hc : color[child] with
    | white => simp [hc] at hs
    | black => simp [hc] at hs
    | grey =>
      refine ⟨child, by simpa [hc] using hs.symm, ?_⟩
      have hmem := (h.grey child).mp (by rw [hcolor, hc])
      exact .tail' (stack_reach h.path hmem)
        ⟨_, hnode, List.mem_of_getElem? hchild, by omega⟩

end Invariant

section Search

variable {adj : List (List Nat)}

/-- A run ends with every node it reached finished, or at a node on a cycle. -/
theorem run_spec {fuel : Nat} {s : State} (h : Inv adj s) (hfuel : cost adj s < fuel) :
    (∃ color, run adj fuel s = .ok color ∧ Inv adj ⟨color, []⟩ ∧
      ∀ i : Nat, s.color[i]? ≠ some Color.white → color[i]? ≠ some Color.white) ∨
      ∃ child, run adj fuel s = .error (.raised child) ∧ OnCycle adj child := by
  induction fuel generalizing s with
  | zero => omega
  | succ fuel ih =>
    obtain ⟨color, stack⟩ := s
    cases stack with
    | nil => exact .inl ⟨color, rfl, h, fun _ hi => hi⟩
    | cons top rest =>
      obtain ⟨node, edge⟩ := top
      have hrun : run adj (fuel + 1) ⟨color, (node, edge) :: rest⟩ =
          step adj node edge rest color >>= run adj fuel := rfl
      rw [hrun]
      cases hs : step adj node edge rest color with
      | error e =>
        obtain ⟨child, rfl, hcycle⟩ := h.step_error hs
        exact .inr ⟨child, rfl, hcycle⟩
      | ok s =>
        have hcost := cost_step hs
        refine (ih (h.step hs) (by omega)).imp_left ?_
        rintro ⟨final, hfinal, hdone, hkeep⟩
        exact ⟨final, hfinal, hdone, fun i hi => hkeep i (step_keeps hs hi)⟩

/-- Between two searches no node is on the stack. -/
theorem searchFrom_spec {color : List Color} {start : Nat} (h : Inv adj ⟨color, []⟩)
    (hstart : start < adj.length) :
    (∃ color', searchFrom adj color start = .ok color' ∧ Inv adj ⟨color', []⟩ ∧
      color'[start]? ≠ some Color.white ∧
      ∀ i : Nat, color[i]? ≠ some Color.white → color'[i]? ≠ some Color.white) ∨
      ∃ child, searchFrom adj color start = .error (.raised child) ∧ OnCycle adj child := by
  have hlt : start < color.length := by rw [h.length]; exact hstart
  have hcolor := List.getElem?_eq_getElem hlt
  unfold searchFrom
  rw [hcolor]
  cases hc : color[start] with
  | grey => exact .inl ⟨color, rfl, h, by simp [hcolor, hc], fun _ hi => hi⟩
  | black => exact .inl ⟨color, rfl, h, by simp [hcolor, hc], fun _ hi => hi⟩
  | white =>
    have hwhite : color[start]? = some .white := by rw [hcolor, hc]
    have hnode := List.getElem?_eq_getElem hstart
    have hcost : cost adj ⟨color.set start .grey, [(start, 0)]⟩ < fuelFor adj := by
      have hset := whiteCost_set_white (c := .grey) hnode hwhite (by decide)
      have hle := whiteCost_le adj color
      have hdeg : (adj.getD start []).length = adj[start].length := by
        rw [List.getD_eq_getElem?_getD, hnode]; rfl
      simp only [cost, stackCost, List.map_cons, List.map_nil, List.sum_cons, List.sum_nil]
      omega
    have hset (i : Nat) (hi : color[i]? ≠ some Color.white) :
        (color.set start .grey)[i]? ≠ some Color.white := by
      rw [List.getElem?_set]
      split_ifs <;> simp_all
    refine (run_spec (h.start hwhite) hcost).imp_left ?_
    rintro ⟨final, hfinal, hdone, hkeep⟩
    refine ⟨final, hfinal, hdone, hkeep start ?_, fun i hi => hkeep i (hset i hi)⟩
    rw [getElem?_recolor hlt, if_pos rfl]
    simp

theorem foldlM_spec {starts : List Nat} {color : List Color} (h : Inv adj ⟨color, []⟩)
    (hstarts : ∀ i ∈ starts, i < adj.length) :
    (∃ color', starts.foldlM (searchFrom adj) color = .ok color' ∧ Inv adj ⟨color', []⟩ ∧
      ∀ i : Nat, i ∈ starts ∨ color[i]? ≠ some Color.white → color'[i]? ≠ some Color.white) ∨
      ∃ child, starts.foldlM (searchFrom adj) color = .error (.raised child) ∧
        OnCycle adj child := by
  induction starts generalizing color with
  | nil => exact .inl ⟨color, rfl, h, fun i hi => by simpa using hi⟩
  | cons start starts ih =>
    rw [List.foldlM_cons]
    rcases searchFrom_spec h (hstarts start (by simp)) with
      ⟨next, hnext, hinv, hdone, hkeep⟩ | ⟨child, hnext, hcycle⟩
    · rw [hnext]
      refine (ih hinv fun i hi => hstarts i (by simp [hi])).imp_left ?_
      rintro ⟨final, hfinal, hfin, hall⟩
      refine ⟨final, hfinal, hfin, ?_⟩
      rintro i (hi | hi)
      · rcases List.mem_cons.mp hi with rfl | hi
        · exact hall _ (.inr hdone)
        · exact hall i (.inl hi)
      · exact hall i (.inr (hkeep i hi))
    · exact .inr ⟨child, by rw [hnext]; rfl, hcycle⟩

/-- The search succeeds on a graph without cycles; otherwise it names a node on one. -/
theorem search_spec (adj : List (List Nat)) :
    (∃ color, search adj = .ok color ∧ ∀ i, ¬OnCycle adj i) ∨
      ∃ child, search adj = .error (.raised child) ∧ OnCycle adj child := by
  refine (foldlM_spec (inv_white adj) (by simp)).imp_left ?_
  rintro ⟨color, hcolor, hinv, hall⟩
  refine ⟨color, hcolor, fun i hi => ?_⟩
  obtain ⟨j, -, hj⟩ := Relation.TransGen.tail'_iff.mp hi
  have hlt : i < color.length := by rw [hinv.length]; exact hj.lt
  refine hinv.acyclic i ?_ hi
  have hwhite := hall i (.inl (by simpa using hj.lt))
  have hgrey : color[i]? ≠ some Color.grey := fun hg => by simpa using (hinv.grey i).mp hg
  show color[i]? = some Color.black
  rw [List.getElem?_eq_getElem hlt] at hwhite hgrey ⊢
  cases hc : color[i] <;> simp_all

end Search

end DepthFirst
