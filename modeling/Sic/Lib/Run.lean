import Mathlib.Data.List.Basic

/-! Runs of a deterministic step function, and the invariant rule for runs whose
every step meets a guard in the state it is taken in. -/

namespace Sic

variable {σ ε : Type*} {step : σ → ε → σ} {ok : σ → ε → Prop}

def run (step : σ → ε → σ) (s : σ) (es : List ε) : σ := es.foldl step s

def Along (ok : σ → ε → Prop) (step : σ → ε → σ) : σ → List ε → Prop
  | _, [] => True
  | s, e :: es => ok s e ∧ Along ok step (step s e) es

instance Along.decidable [∀ s e, Decidable (ok s e)] :
    (s : σ) → (es : List ε) → Decidable (Along ok step s es)
  | _, [] => .isTrue trivial
  | s, e :: es =>
    have := Along.decidable (step s e) es
    inferInstanceAs (Decidable (ok s e ∧ Along ok step (step s e) es))

theorem run_append (s : σ) (es es' : List ε) :
    run step s (es ++ es') = run step (run step s es) es' := List.foldl_append

theorem Along.split {s : σ} {es es' : List ε} (h : Along ok step s (es ++ es')) :
    Along ok step s es ∧ Along ok step (run step s es) es' := by
  induction es generalizing s with
  | nil => exact ⟨trivial, h⟩
  | cons e es ih =>
    obtain ⟨he, hrest⟩ := h
    exact ⟨⟨he, (ih hrest).1⟩, (ih hrest).2⟩

theorem invariant_run {P : σ → Prop} (hstep : ∀ s e, P s → ok s e → P (step s e)) {s : σ}
    {es : List ε} (hs : P s) (hok : Along ok step s es) : P (run step s es) := by
  induction es generalizing s with
  | nil => exact hs
  | cons e es ih =>
    obtain ⟨he, hrest⟩ := hok
    exact ih (hstep s e hs he) hrest

/-- A loop over a list keeps what each of its turns keeps. -/
theorem invariant_foldl {P : σ → Prop} (hstep : ∀ s e, P s → P (step s e)) {s : σ}
    (es : List ε) (hs : P s) : P (es.foldl step s) := by
  induction es generalizing s with
  | nil => exact hs
  | cons e es ih => exact ih (hstep s e hs)

/-- What holds with the whole list ahead holds with nothing ahead, if each turn
carries it over its entry. -/
theorem loop_foldl {I : List ε → σ → Prop} (hstep : ∀ e es s, I (e :: es) s → I es (step s e)) {s : σ}
    (es : List ε) (hs : I es s) : I [] (es.foldl step s) := by
  induction es generalizing s with
  | nil => exact hs
  | cons e es ih => exact ih (hstep e es s hs)

theorem loop_foldlM {I : List ε → σ → Prop} {f : σ → ε → Option σ}
    (hstep : ∀ e es s s', I (e :: es) s → f s e = some s' → I es s') {s s' : σ} (es : List ε)
    (hs : I es s) (h : es.foldlM f s = some s') : I [] s' := by
  induction es generalizing s with
  | nil =>
    cases h
    exact hs
  | cons e es ih =>
    rw [List.foldlM_cons] at h
    obtain ⟨t, ht, h⟩ := Option.bind_eq_some_iff.mp h
    exact ih (hstep e es s t hs ht) h

theorem foldl_last {α β : Type} (f : β → α → β) {P : α → Prop} {Q : α → β → Prop} {R : β → β → Prop}
    (hrefl : ∀ k, R k k) (hset : ∀ k x, P x → Q x (f k x)) (hkeep : ∀ k x, ¬ P x → R k (f k x))
    (htrans : ∀ k k' k'', R k k' → R k' k'' → R k k'') (hcarry : ∀ x k k', Q x k → R k k' → Q x k') (l : List α)
    (k : β) :
    (R k (l.foldl f k) ∧ ∀ x ∈ l, ¬ P x) ∨ ∃ x ∈ l, P x ∧ Q x (l.foldl f k) := by
  induction l generalizing k with
  | nil => exact .inl ⟨hrefl k, nofun⟩
  | cons x l ih =>
    rw [List.foldl_cons]
    rcases ih (f k x) with ⟨hr, hnone⟩ | ⟨y, hy, hp, hq⟩
    · by_cases hx : P x
      · exact .inr ⟨x, List.mem_cons_self, hx, hcarry x _ _ (hset k x hx) hr⟩
      · refine .inl ⟨htrans _ _ _ (hkeep k x hx) hr, fun y hy => ?_⟩
        rcases List.mem_cons.mp hy with rfl | hy
        · exact hx
        · exact hnone y hy
    · exact .inr ⟨y, List.mem_cons_of_mem _ hy, hp, hq⟩

/-- A loop is undone by the loop that undoes its turns, last turn first. -/
theorem foldl_undo {f g : σ → ε → σ} (h : ∀ s e, g (f s e) e = s) (s : σ) (es : List ε) :
    es.reverse.foldl g (es.foldl f s) = s := by
  induction es generalizing s with
  | nil => rfl
  | cons e es ih =>
    rw [List.foldl_cons, List.reverse_cons, List.foldl_append, ih, List.foldl_cons, List.foldl_nil, h]

end Sic
