import Proveno.Lib.Exec

/-! What holds after a computation on a state, given what holds before it, whether it ends
with a value or with an exception. -/

namespace Exec

variable {ε S T α β : Type}

def Meets (pre : S → Prop) (m : Exec ε S α) (post : α → S → Prop) (failed : ε → S → Prop) : Prop :=
  ∀ s, pre s → match m.run s with
    | (.ok a, s') => post a s'
    | (.error e, s') => failed e s'

namespace Meets

variable {pre : S → Prop} {m : Exec ε S α} {f : α → Exec ε S β} {post : α → S → Prop}
  {post' : β → S → Prop} {failed : ε → S → Prop} {s s' : S} {a : α} {e : ε}

theorem ok (h : Meets pre m post failed) (hs : pre s) (hrun : m.run s = (.ok a, s')) :
    post a s' := by
  have h := h s hs
  rwa [hrun] at h

theorem error (h : Meets pre m post failed) (hs : pre s) (hrun : m.run s = (.error e, s')) :
    failed e s' := by
  have h := h s hs
  rwa [hrun] at h

theorem of_run {r : Except ε α} (hrun : m.run s = (r, s'))
    (h : match r with | .ok a => post a s' | .error e => failed e s') :
    Meets (· = s) m post failed := by
  rintro _ rfl
  rw [hrun]
  cases r <;> exact h

theorem at_state (h : ∀ s, pre s → Meets (· = s) m post failed) : Meets pre m post failed :=
  fun s hs => h s hs s rfl

theorem at_one (h : Meets pre m post failed) (hs : pre s) : Meets (· = s) m post failed :=
  fun _ heq => heq ▸ h s hs

theorem mono (h : Meets pre m post failed) {pre' : S → Prop} (hpre : ∀ s, pre' s → pre s)
    {post' : α → S → Prop} (hpost : ∀ a s, post a s → post' a s) {failed' : ε → S → Prop}
    (hfailed : ∀ e s, failed e s → failed' e s) : Meets pre' m post' failed' := by
  intro s hs
  have h := h s (hpre s hs)
  rcases hrun : m.run s with ⟨e | a, s'⟩
  · rw [hrun] at h
    exact hfailed e s' h
  · rw [hrun] at h
    exact hpost a s' h

theorem pure (h : ∀ s, pre s → post a s) : Meets pre (Pure.pure a) post failed := h

theorem throw (h : ∀ s, pre s → failed e s) : Meets pre (Exec.throw e) post failed := h

theorem bind (hm : Meets pre m post failed) (hf : ∀ a, Meets (post a) (f a) post' failed) :
    Meets pre (m >>= f) post' failed := by
  intro s hs
  have h := hm s hs
  rw [run_bind]
  rcases hrun : m.run s with ⟨e | a, s'⟩
  · rw [hrun] at h
    exact h
  · rw [hrun] at h
    exact hf a s' h

/-- `bind`, with what holds between the two. -/
theorem through (mid : α → S → Prop) (hm : Meets pre m mid failed)
    (hf : ∀ a, Meets (mid a) (f a) post' failed) : Meets pre (m >>= f) post' failed :=
  hm.bind hf

theorem get {post : S → S → Prop} (h : ∀ s, pre s → post s s) :
    Meets pre (Exec.get : Exec ε S S) post failed := h

/-- A computation that begins by looking at the state. -/
theorem get_bind {f : S → Exec ε S β} (h : ∀ s, pre s → Meets (· = s) (f s) post' failed) :
    Meets pre (Exec.get >>= f) post' failed :=
  fun s hs => h s hs s rfl

theorem modify {f : S → S} {post : Unit → S → Prop} (h : ∀ s, pre s → post () (f s)) :
    Meets pre (Exec.modify f : Exec ε S Unit) post failed := h

theorem attempt (h : Meets pre m post failed) :
    Meets pre (Exec.attempt m) (fun r s => match r with
      | .ok a => post a s
      | .error e => failed e s) fun _ _ => False := by
  intro s hs
  have h := h s hs
  rw [run_attempt]
  rcases hrun : m.run s with ⟨e | a, s'⟩
  · rw [hrun] at h
    exact h
  · rw [hrun] at h
    exact h

theorem zoom {read : S → T} {write : S → T → S} {m : Exec ε T α} {pre : T → Prop}
    {post : α → T → Prop} {failed : ε → T → Prop} (h : Meets pre m post failed) (s : S)
    (hs : pre (read s)) : Meets (· = s) (Exec.zoom read write m)
      (fun a s' => ∃ t, s' = write s t ∧ post a t) fun e s' => ∃ t, s' = write s t ∧ failed e t := by
  intro s' heq
  have h := h _ hs
  rw [heq, run_zoom]
  rcases hrun : m.run (read s) with ⟨e | a, t⟩
  · rw [hrun] at h
    exact ⟨t, rfl, h⟩
  · rw [hrun] at h
    exact ⟨t, rfl, h⟩

end Meets

end Exec
