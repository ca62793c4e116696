import Proveno.Lib.Exec

/-! Two computations side by side: from states that belong together they end alike. -/

namespace Exec

variable {ε S T α β : Type}

/-- Both have the same value or the same exception, and the states they reach belong together
again. -/
def Paired (pre : S → S → Prop) (m m' : Exec ε S α) (post : α → S → S → Prop)
    (failed : S → S → Prop) : Prop :=
  ∀ s s', pre s s' → (m.run s).1 = (m'.run s').1 ∧
    match (m.run s).1 with
    | .ok a => post a (m.run s).2 (m'.run s').2
    | .error _ => failed (m.run s).2 (m'.run s').2

namespace Paired

variable {pre : S → S → Prop} {m m' : Exec ε S α} {f f' : α → Exec ε S β}
  {post : α → S → S → Prop} {post' : β → S → S → Prop} {failed : S → S → Prop}

theorem pure {a : α} (h : ∀ s s', pre s s' → post a s s') :
    Paired pre (Pure.pure a : Exec ε S α) (Pure.pure a) post failed := fun s s' hs => ⟨rfl, h s s' hs⟩

theorem throw {e : ε} (h : ∀ s s', pre s s' → failed s s') :
    Paired pre (Exec.throw e : Exec ε S α) (Exec.throw e) post failed := fun s s' hs => ⟨rfl, h s s' hs⟩

theorem bind (hm : Paired pre m m' post failed)
    (hf : ∀ a, Paired (post a) (f a) (f' a) post' failed) :
    Paired pre (m >>= f) (m' >>= f') post' failed := by
  intro s s' hs
  obtain ⟨hvalue, hstate⟩ := hm s s' hs
  rw [run_bind, run_bind]
  rcases hrun : m.run s with ⟨r, t⟩
  rcases hrun' : m'.run s' with ⟨r', t'⟩
  rw [hrun, hrun'] at hvalue hstate
  dsimp only at hvalue hstate
  subst hvalue
  cases r with
  | error e => exact ⟨rfl, hstate⟩
  | ok a => exact hf a t t' hstate

/-- `bind`, with how the states belong together between the two. -/
theorem through (mid : α → S → S → Prop) (hm : Paired pre m m' mid failed)
    (hf : ∀ a, Paired (mid a) (f a) (f' a) post' failed) :
    Paired pre (m >>= f) (m' >>= f') post' failed :=
  hm.bind hf

/-- Computations that begin by looking at their states. -/
theorem get_bind {f f' : S → Exec ε S β}
    (h : ∀ s s', pre s s' → Paired (fun t t' => t = s ∧ t' = s') (f s) (f' s') post' failed) :
    Paired pre (Exec.get >>= f) (Exec.get >>= f') post' failed :=
  fun s s' hs => h s s' hs s s' ⟨rfl, rfl⟩

theorem at_states (h : Paired pre m m' post failed) {s s' : S} (hs : pre s s') :
    Paired (fun t t' => t = s ∧ t' = s') m m' post failed := by
  rintro _ _ ⟨rfl, rfl⟩
  exact h _ _ hs

theorem mono (h : Paired pre m m' post failed) {pre₁ : S → S → Prop}
    (hpre : ∀ s s', pre₁ s s' → pre s s') {post₁ : α → S → S → Prop}
    (hpost : ∀ a s s', post a s s' → post₁ a s s') {failed₁ : S → S → Prop}
    (hfailed : ∀ s s', failed s s' → failed₁ s s') : Paired pre₁ m m' post₁ failed₁ := by
  intro s s' hs
  obtain ⟨hvalue, hstate⟩ := h s s' (hpre s s' hs)
  refine ⟨hvalue, ?_⟩
  cases hrun : (m.run s).1 with
  | ok a =>
    rw [hrun] at hstate
    exact hpost a _ _ hstate
  | error e =>
    rw [hrun] at hstate
    exact hfailed _ _ hstate

/-- Computations on the parts of two states. -/
theorem zoom {read : S → T} {write : S → T → S} {m m' : Exec ε T α} {part : T → T → Prop}
    {post : α → T → T → Prop} {failed : T → T → Prop} (h : Paired part m m' post failed) {s s' : S}
    (hs : part (read s) (read s')) :
    Paired (fun t t' => t = s ∧ t' = s') (Exec.zoom read write m) (Exec.zoom read write m')
      (fun a t t' => ∃ u u', t = write s u ∧ t' = write s' u' ∧ post a u u')
      fun t t' => ∃ u u', t = write s u ∧ t' = write s' u' ∧ failed u u' := by
  rintro _ _ ⟨rfl, rfl⟩
  obtain ⟨hvalue, hstate⟩ := h _ _ hs
  refine ⟨hvalue, ?_⟩
  simp only [run_zoom]
  cases hrun : (m.run (read _)).1 with
  | ok a =>
    rw [hrun] at hstate
    exact ⟨_, _, rfl, rfl, hstate⟩
  | error e =>
    rw [hrun] at hstate
    exact ⟨_, _, rfl, rfl, hstate⟩

end Paired

end Exec
