import Mathlib.Tactic

/-!
# Conditions along a run

A system takes one step for each event.  `Along step C s events` says that every event of a run from
`s` meets the condition `C` in the state in which it happens.
-/

namespace Runs

variable {σ ε : Type*} {step : σ → ε → σ} {C : σ → ε → Prop}

/-- Every event meets the condition in the state before it. -/
def Along (step : σ → ε → σ) (C : σ → ε → Prop) : σ → List ε → Prop
  | _, [] => True
  | s, e :: es => C s e ∧ Along step C (step s e) es

instance decidableAlong [h : ∀ s e, Decidable (C s e)] :
    ∀ (events : List ε) (s : σ), Decidable (Along step C s events)
  | [], _ => inferInstanceAs (Decidable True)
  | e :: es, s =>
    have := decidableAlong es (step s e)
    inferInstanceAs (Decidable (C s e ∧ Along step C (step s e) es))

/-- A run in two parts. -/
theorem along_append {s : σ} {es es' : List ε} :
    Along step C s (es ++ es') ↔ Along step C s es ∧ Along step C (es.foldl step s) es' := by
  induction es generalizing s with
  | nil => simp [Along]
  | cons x es ih => simp [Along, ih, and_assoc]

/-- A run and one more event. -/
theorem along_concat {s : σ} {es : List ε} {e : ε} :
    Along step C s (es ++ [e]) ↔ Along step C s es ∧ C (es.foldl step s) e := by
  simp [along_append, Along]

/-- The condition is met along the first part of a run. -/
theorem Along.of_prefix {s : σ} {es es' : List ε} (hp : es' <+: es) (h : Along step C s es) :
    Along step C s es' := by
  obtain ⟨rest, rfl⟩ := hp
  exact (along_append.mp h).1

/-- What holds of the empty run and is kept by every event that meets the condition holds of every
run along which the condition is met. -/
theorem Along.induction {P : List ε → Prop} {s : σ} (nil : P [])
    (concat : ∀ es e, C (es.foldl step s) e → P es → P (es ++ [e])) (es : List ε)
    (h : Along step C s es) : P es := by
  induction es using List.reverseRecOn with
  | nil => exact nil
  | append_singleton es e ih =>
    obtain ⟨hes, he⟩ := along_concat.mp h
    exact concat es e he (ih hes)

/-- An invariant that the steps keep exactly when they meet the condition holds all along a run
exactly when the condition is met all along it. -/
theorem along_iff_prefixes {I : σ → Prop} {s : σ} {es : List ε} (hs : I s)
    (hstep : ∀ s e, I s → (I (step s e) ↔ C s e)) :
    (∀ past, past <+: es → I (past.foldl step s)) ↔ Along step C s es := by
  induction es generalizing s with
  | nil => simpa [Along] using hs
  | cons e es ih =>
    unfold Along
    constructor
    · intro h
      have he : I (step s e) := h [e] ⟨es, rfl⟩
      exact ⟨(hstep s e hs).mp he, (ih he).mp fun past hpast =>
        h (e :: past) (List.cons_prefix_cons.mpr ⟨rfl, hpast⟩)⟩
    · rintro ⟨he, hes⟩ past hpast
      rcases past with _ | ⟨x, past⟩
      · exact hs
      · obtain ⟨rfl, htail⟩ := List.cons_prefix_cons.mp hpast
        exact (ih ((hstep s x hs).mpr he)).mpr hes past htail

end Runs
