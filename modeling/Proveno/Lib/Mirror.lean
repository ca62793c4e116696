import Mathlib.Tactic.SplitIfs
import Proveno.Lib.Exec

/-! Two computations, each on states of its own, the second of which does what the first
does. They need to agree only on runs of the first that end in an accepted state, and not in
one of the stops that are left aside. -/

namespace Exec

variable {ε S T U V α β : Type}

/-- The outcome is none of these stops. -/
def Passes (stops : ε → Prop) (r : Except ε α) : Prop := ∀ e, r = .error e → ¬stops e

theorem Passes.ok {stops : ε → Prop} (a : α) : Passes stops (.ok a) := nofun

theorem Passes.of_error {stops : ε → Prop} {e : ε} (h : Passes stops (.error e : Except ε α)) :
    Passes stops (.error e : Except ε β) := by
  intro e' he
  cases he
  exact h e rfl

/-- From states that belong together both have the same outcome and reach states that belong
together, if what the first reaches is accepted; and what it began with was then accepted. -/
structure Mirrors (accepted : S → Prop) (stops : ε → Prop) (R : S → T → Prop) (m : Exec ε S α)
    (m' : Exec ε T α) : Prop where
  before : ∀ s, accepted (m.run s).2 → accepted s
  alike : ∀ s t, R s t → accepted (m.run s).2 → Passes stops (m.run s).1 →
    (m'.run t).1 = (m.run s).1 ∧ R (m.run s).2 (m'.run t).2

namespace Mirrors

variable {accepted : S → Prop} {stops : ε → Prop} {R : S → T → Prop} {m : Exec ε S α}
  {m' : Exec ε T α} {f : α → Exec ε S β} {f' : α → Exec ε T β}

theorem run_eq (h : Mirrors accepted stops R m m') {s : S} {t : T} (hst : R s t)
    (hacc : accepted (m.run s).2) (hpass : Passes stops (m.run s).1) :
    ∃ t', m'.run t = ((m.run s).1, t') ∧ R (m.run s).2 t' := by
  obtain ⟨hvalue, hstate⟩ := h.alike s t hst hacc hpass
  exact ⟨_, Prod.ext hvalue rfl, hstate⟩

theorem pure (a : α) :
    Mirrors accepted stops R (Pure.pure a : Exec ε S α) (Pure.pure a) :=
  ⟨fun _ h => h, fun _ _ h _ _ => ⟨rfl, h⟩⟩

theorem throw (e : ε) : Mirrors accepted stops R (Exec.throw e : Exec ε S α) (Exec.throw e) :=
  ⟨fun _ h => h, fun _ _ h _ _ => ⟨rfl, h⟩⟩

/-- Where the first stops in a way that is left aside, the second may do anything. -/
theorem of_stop {e : ε} (he : stops e) : Mirrors accepted stops R (Exec.throw e) m' :=
  ⟨fun _ h => h, fun _ _ _ _ hpass => absurd he (hpass e rfl)⟩

theorem bind_of_yields (hm : Mirrors accepted stops R m m')
    (hf : ∀ a, m.Yields a → Mirrors accepted stops R (f a) (f' a)) :
    Mirrors accepted stops R (m >>= f) (m' >>= f') := by
  constructor
  · intro s hacc
    refine hm.before s ?_
    rcases hrun : m.run s with ⟨e | a, s'⟩
    · rwa [run_bind_error hrun] at hacc
    · rw [run_bind_ok hrun] at hacc
      exact (hf a ⟨s, congrArg Prod.fst hrun⟩).before s' hacc
  · intro s t hst hacc hpass
    rcases hrun : m.run s with ⟨e | a, s'⟩
    · rw [run_bind_error hrun] at hacc hpass ⊢
      obtain ⟨t', hrun', hst'⟩ := hm.run_eq hst (by rwa [hrun]) (by rw [hrun]; exact hpass.of_error)
      rw [hrun] at hrun' hst'
      rw [run_bind_error hrun']
      exact ⟨rfl, hst'⟩
    · rw [run_bind_ok hrun] at hacc hpass ⊢
      have hfa := hf a ⟨s, congrArg Prod.fst hrun⟩
      obtain ⟨t', hrun', hst'⟩ := hm.run_eq hst (by rw [hrun]; exact hfa.before s' hacc)
        (by rw [hrun]; exact .ok a)
      rw [hrun] at hrun' hst'
      rw [run_bind_ok hrun']
      exact hfa.alike s' t' hst' hacc hpass

theorem bind (hm : Mirrors accepted stops R m m')
    (hf : ∀ a, Mirrors accepted stops R (f a) (f' a)) :
    Mirrors accepted stops R (m >>= f) (m' >>= f') :=
  hm.bind_of_yields fun a _ => hf a

theorem ite {c : Prop} [Decidable c] {n : Exec ε S α} {n' : Exec ε T α}
    (h : c → Mirrors accepted stops R m m') (h' : ¬c → Mirrors accepted stops R n n') :
    Mirrors accepted stops R (if c then m else n) (if c then m' else n') := by
  split_ifs with hc
  · exact h hc
  · exact h' hc

/-- What goes on after any outcome, and stops again after the stops that are left aside. -/
theorem attempt_bind {k : Except ε α → Exec ε S β} {k' : Except ε α → Exec ε T β}
    (hm : Mirrors accepted stops R m m')
    (hstop : ∀ e, stops e → ∃ e', stops e' ∧ k (.error e) = Exec.throw e')
    (hk : ∀ r, Passes stops r → Mirrors accepted stops R (k r) (k' r)) :
    Mirrors accepted stops R (attempt m >>= k) (attempt m' >>= k') := by
  have hcases (r : Except ε α) :
      Passes stops r ∨ ∃ e', stops e' ∧ k r = Exec.throw e' := by
    rcases r with e | a
    · by_cases he : stops e
      · exact .inr (hstop e he)
      · refine .inl fun e' he' => ?_
        cases he'
        exact he
    · exact .inl (.ok a)
  constructor
  · intro s hacc
    refine hm.before s ?_
    change accepted ((k (m.run s).1).run (m.run s).2).2 at hacc
    rcases hcases (m.run s).1 with hpass | ⟨e', -, hthrow⟩
    · exact (hk _ hpass).before _ hacc
    · rwa [hthrow] at hacc
  · intro s t hst hacc hpass
    change accepted ((k (m.run s).1).run (m.run s).2).2 at hacc
    change Passes stops ((k (m.run s).1).run (m.run s).2).1 at hpass
    rcases hcases (m.run s).1 with hm' | ⟨e', he', hthrow⟩
    · obtain ⟨hvalue, hstate⟩ := hm.alike s t hst ((hk _ hm').before _ hacc) hm'
      change ((k' (m'.run t).1).run (m'.run t).2).1 = ((k (m.run s).1).run (m.run s).2).1 ∧
        R ((k (m.run s).1).run (m.run s).2).2 ((k' (m'.run t).1).run (m'.run t).2).2
      rw [hvalue]
      exact (hk _ hm').alike _ _ hstate hacc hpass
    · rw [hthrow] at hpass
      exact absurd he' (hpass e' rfl)

/-- Computations that begin by looking at states that are so related. -/
theorem get_bind_of {V : S → T → Prop} (hview : ∀ s t, R s t → V s t) (hex : ∀ s, ∃ t, V s t)
    {f : S → Exec ε S β} {f' : T → Exec ε T β}
    (h : ∀ s t, V s t → Mirrors accepted stops R (f s) (f' t)) :
    Mirrors accepted stops R (get >>= f) (get >>= f') := by
  constructor
  · intro s hacc
    obtain ⟨t, ht⟩ := hex s
    exact (h s t ht).before s hacc
  · intro s t hst hacc hpass
    exact (h s t (hview s t hst)).alike s t hst hacc hpass

section Images

/-! One computation from a state and from the image of that state. -/

variable {R : S → S → Prop} {image : S → S} {kept : S → Prop} {m : Exec ε S α}

theorem of_image (hR : ∀ s t, R s t ↔ t = image s ∧ kept s)
    (h : ∀ s, (m.run (image s)).1 = (m.run s).1 ∧ (m.run (image s)).2 = image (m.run s).2 ∧
      (kept s → kept (m.run s).2)) : Mirrors (fun _ => True) stops R m m := by
  refine ⟨fun _ _ => trivial, fun s t hst _ _ => ?_⟩
  obtain ⟨rfl, hkept⟩ := (hR s t).mp hst
  obtain ⟨hvalue, hstate, hkeeps⟩ := h s
  exact ⟨hvalue, (hR _ _).mpr ⟨hstate, hkeeps hkept⟩⟩

/-- A computation that begins by looking at the state and sees no difference. -/
theorem get_bind_of_image (hR : ∀ s t, R s t ↔ t = image s ∧ kept s) {f : S → Exec ε S α}
    (hf : ∀ s, Mirrors (fun _ => True) stops R (f s) (f s)) (hblind : ∀ s, f (image s) = f s) :
    Mirrors (fun _ => True) stops R (get >>= f) (get >>= f) := by
  refine ⟨fun _ _ => trivial, fun s t hst _ hpass => ?_⟩
  have hsame : f t = f s := by
    obtain ⟨rfl, -⟩ := (hR s t).mp hst
    exact hblind s
  rw [run_bind_ok (run_get _)] at hpass ⊢
  rw [run_bind_ok (run_get _), hsame]
  exact (hf s).alike s t hst trivial hpass

end Images

end Mirrors

end Exec
