import Mathlib.Data.List.Basic

/-! Labelled transition systems: runs, the states on them, and the invariant rule for
runs whose steps all meet a condition. -/
namespace Transition
variable {σ ι : Type*}

/-- A run lists its steps as triples: the state before, the label, the state after. -/
inductive Run (step : σ → ι → σ → Prop) (s : σ) : List (σ × ι × σ) → σ → Prop
  | nil : Run step s [] s
  | snoc {tr t i u} : Run step s tr t → step t i u → Run step s (tr ++ [(t, i, u)]) u

variable {step : σ → ι → σ → Prop} {s t : σ} {tr : List (σ × ι × σ)}

theorem Run.cons {r : σ} {i : ι} (hst : step r i s) (h : Run step s tr t) :
    Run step r ((r, i, s) :: tr) t := by
  induction h with
  | nil => exact show Run step r ([] ++ [(r, i, s)]) s from .snoc .nil hst
  | snoc _ hst' ih => exact Run.snoc ih hst'

/-- A step that keeps `P` whenever `Q` holds before it keeps `P` along every run whose
steps all meet `Q`. -/
theorem Run.invariant {P : σ → Prop} {Q : σ → ι → Prop}
    (hstep : ∀ s i t, P s → Q s i → step s i t → P t)
    (h : Run step s tr t) (hs : P s) (hq : ∀ e ∈ tr, Q e.1 e.2.1) : P t := by
  induction h with
  | nil => exact hs
  | snoc _ hst ih =>
    have ht := ih fun e he => hq e (List.mem_append_left _ he)
    exact hstep _ _ _ ht (hq _ (List.mem_append_right _ (List.mem_singleton_self _))) hst

/-- A run can be cut at any point of its trace. -/
theorem Run.split {pre post : List (σ × ι × σ)} (h : Run step s (pre ++ post) t) :
    ∃ u, Run step s pre u ∧ Run step u post t := by
  generalize hl : pre ++ post = l at h
  induction h generalizing post with
  | nil =>
    obtain ⟨rfl, rfl⟩ := List.append_eq_nil_iff.mp hl
    exact ⟨s, .nil, .nil⟩
  | @snoc tr t i u hr hst ih =>
    rcases List.eq_nil_or_concat post with rfl | ⟨post', e, rfl⟩
    · rw [List.append_nil] at hl
      subst hl
      exact ⟨u, .snoc hr hst, .nil⟩
    · rw [List.concat_eq_append, ← List.append_assoc] at hl
      obtain ⟨rfl, he⟩ := List.append_inj' hl rfl
      obtain rfl := (List.cons.inj he).1
      obtain ⟨v, hpre, hpost⟩ := ih rfl
      exact ⟨v, hpre, by simpa using hpost.snoc hst⟩

/-- A run of steps that are steps of another system is a run of that system. -/
theorem Run.mono {step' : σ → ι → σ → Prop} (hsub : ∀ s i t, step s i t → step' s i t)
    (h : Run step s tr t) : Run step' s tr t := by
  induction h with
  | nil => exact .nil
  | snoc _ hst ih => exact .snoc ih (hsub _ _ _ hst)

theorem Run.eq_of_nil (h : Run step s [] t) : t = s := by
  generalize hl : ([] : List (σ × ι × σ)) = l at h
  cases h with
  | nil => rfl
  | snoc _ _ => simp at hl

/-- The first step of a run, and the run that is left. -/
theorem Run.uncons {e : σ × ι × σ} (h : Run step s (e :: tr) t) :
    e.1 = s ∧ step e.1 e.2.1 e.2.2 ∧ Run step e.2.2 tr t := by
  obtain ⟨u, hone, hrest⟩ := Run.split (show Run step s ([e] ++ tr) t from h)
  generalize hl : [e] = l at hone
  cases hone with
  | nil => simp at hl
  | @snoc tr' v i _ hr hst =>
    obtain ⟨rfl, he⟩ := List.append_inj' (show [] ++ [e] = tr' ++ _ from hl) rfl
    obtain rfl := (List.cons.inj he).1
    exact ⟨hr.eq_of_nil, hst, hrest⟩

/-- Every step of a run is a step taken after a shorter run. -/
theorem Run.at_step (h : Run step s tr t) {e : σ × ι × σ} (he : e ∈ tr) :
    ∃ pre post, tr = pre ++ e :: post ∧ Run step s pre e.1 ∧ step e.1 e.2.1 e.2.2 := by
  induction h with
  | nil => simp at he
  | @snoc tr t i u hr hst ih =>
    cases List.mem_append.mp he with
    | inl he =>
      obtain ⟨pre, post, rfl, hpre, hstep⟩ := ih he
      exact ⟨pre, post ++ [(t, i, u)], by simp, hpre, hstep⟩
    | inr he =>
      obtain rfl := List.mem_singleton.mp he
      exact ⟨tr, [], rfl, hr, hst⟩

/-- The invariant holds before every step of such a run. -/
theorem Run.invariant_at {P : σ → Prop} {Q : σ → ι → Prop}
    (hstep : ∀ s i t, P s → Q s i → step s i t → P t)
    (h : Run step s tr t) (hs : P s) (hq : ∀ e ∈ tr, Q e.1 e.2.1)
    {e : σ × ι × σ} (he : e ∈ tr) : P e.1 ∧ step e.1 e.2.1 e.2.2 := by
  obtain ⟨pre, post, rfl, hpre, hst⟩ := h.at_step he
  exact ⟨hpre.invariant hstep hs fun e he => hq e (List.mem_append_left _ he), hst⟩

/-- A run with a step that misses a condition has a first such step. -/
theorem Run.first {Q : σ → ι → Prop} (h : Run step s tr t)
    (hq : ¬ ∀ e ∈ tr, Q e.1 e.2.1) :
    ∃ pre e post, tr = pre ++ e :: post ∧ Run step s pre e.1 ∧ step e.1 e.2.1 e.2.2 ∧
      (∀ d ∈ pre, Q d.1 d.2.1) ∧ ¬ Q e.1 e.2.1 := by
  induction h with
  | nil => exact absurd (by simp) hq
  | @snoc tr t i u hr hst ih =>
    by_cases ht : ∀ e ∈ tr, Q e.1 e.2.1
    · refine ⟨tr, (t, i, u), [], rfl, hr, hst, ht, fun hu => hq fun e he => ?_⟩
      cases List.mem_append.mp he with
      | inl he => exact ht e he
      | inr he =>
        obtain rfl := List.mem_singleton.mp he
        exact hu
    · obtain ⟨pre, e, post, rfl, hrest⟩ := ih ht
      exact ⟨pre, e, post ++ [(t, i, u)], by simp, hrest⟩

/-- The steps taken on a list of labels where a function gives the next state. -/
def trace (f : σ → ι → σ) (s : σ) : List ι → List (σ × ι × σ)
  | [] => []
  | i :: is => (s, i, f s i) :: trace f (f s i) is

theorem Run.of_trace {f : σ → ι → σ} (is : List ι)
    (h : ∀ e ∈ trace f s is, step e.1 e.2.1 (f e.1 e.2.1)) :
    Run step s (trace f s is) (is.foldl f s) := by
  induction is generalizing s with
  | nil => exact .nil
  | cons i is ih =>
    exact Run.cons (h _ List.mem_cons_self) (ih fun e he => h e (List.mem_cons_of_mem _ he))

end Transition
