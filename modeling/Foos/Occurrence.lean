import Mathlib.Data.List.Basic
import Mathlib.Data.List.Infix

/-! The first index at which a scan succeeds, and the first place where one list stands inside
another. -/
namespace Occurrence

/-- `r` is the first index below `n` with `P`, or nothing when there is none. -/
def FirstBelow (P : Nat → Prop) (n : Nat) : Option Nat → Prop
  | some i => i < n ∧ P i ∧ ∀ j, j < i → ¬ P j
  | none => ∀ j, j < n → ¬ P j

section
variable {P Q : Nat → Prop} {n i : Nat} {r r' : Option Nat}

theorem FirstBelow.unique (hr : FirstBelow P n r) (hr' : FirstBelow P n r') : r = r' := by
  cases r with
  | none =>
    cases r' with
    | none => rfl
    | some j => exact absurd hr'.2.1 (hr j hr'.1)
  | some i =>
    cases r' with
    | none => exact absurd hr.2.1 (hr' i hr.1)
    | some j =>
      have h1 : ¬ i < j := fun hij => hr'.2.2 i hij hr.2.1
      have h2 : ¬ j < i := fun hji => hr.2.2 j hji hr'.2.1
      exact congrArg some (by omega)

theorem firstBelow_zero (P : Nat → Prop) : FirstBelow P 0 none :=
  fun j hj => absurd hj (Nat.not_lt_zero j)

theorem firstBelow_here (n : Nat) (h : P 0) : FirstBelow P (n + 1) (some 0) :=
  ⟨Nat.succ_pos n, h, fun j hj => absurd hj (Nat.not_lt_zero j)⟩

/-- The scan goes on behind an index without `P`. -/
theorem FirstBelow.next (h : ¬ P 0) (hr : FirstBelow (fun j => P (j + 1)) n r) :
    FirstBelow P (n + 1) (r.map (· + 1)) := by
  cases r with
  | none =>
    intro j hj
    cases j with
    | zero => exact h
    | succ j => exact hr j (Nat.lt_of_succ_lt_succ hj)
  | some i =>
    refine ⟨Nat.succ_lt_succ hr.1, hr.2.1, fun j hj => ?_⟩
    cases j with
    | zero => exact h
    | succ j => exact hr.2.2 j (Nat.lt_of_succ_lt_succ hj)

theorem exists_firstBelow (P : Nat → Prop) (n : Nat) : ∃ r, FirstBelow P n r := by
  classical
  induction n generalizing P with
  | zero => exact ⟨none, firstBelow_zero P⟩
  | succ n ih =>
    by_cases h : P 0
    · exact ⟨some 0, firstBelow_here n h⟩
    · obtain ⟨r, hr⟩ := ih fun j => P (j + 1)
      exact ⟨_, hr.next h⟩

theorem FirstBelow.congr (h : ∀ j, j < n → (P j ↔ Q j)) (hr : FirstBelow P n r) :
    FirstBelow Q n r := by
  cases r with
  | none => exact fun j hj hq => hr j hj ((h j hj).mpr hq)
  | some i =>
    obtain ⟨hi, hP, hbefore⟩ := hr
    exact ⟨hi, (h i hi).mp hP, fun j hj hq => hbefore j hj ((h j (by omega)).mpr hq)⟩

theorem exists_firstBelow_some : (∃ k, k < n ∧ P k) ↔ ∃ k, FirstBelow P n (some k) := by
  constructor
  · intro hex
    obtain ⟨k, hk, hP⟩ := hex
    obtain ⟨r, hr⟩ := exists_firstBelow P n
    cases r with
    | none => exact absurd hP (hr k hk)
    | some i => exact ⟨i, hr⟩
  · intro hex
    obtain ⟨k, hk, hP, -⟩ := hex
    exact ⟨k, hk, hP⟩

theorem FirstBelow.none_iff : FirstBelow P n none ↔ ¬ ∃ k, FirstBelow P n (some k) := by
  rw [← exists_firstBelow_some]
  simp [FirstBelow]

/-- A weaker predicate that first holds where the stronger one does. -/
theorem FirstBelow.strengthen (hPQ : ∀ j, Q j → P j) (hr : FirstBelow P n (some i)) (hi : Q i) :
    FirstBelow Q n (some i) :=
  ⟨hr.1, hi, fun j hj hq => hr.2.2 j hj (hPQ j hq)⟩

theorem FirstBelow.none_of_imp (hPQ : ∀ j, Q j → P j) (hr : FirstBelow P n none) :
    FirstBelow Q n none :=
  fun j hj hq => hr j hj (hPQ j hq)

end

variable {α : Type}

/-- `r` is the first position at which `n` stands in `h`, or nothing when it stands nowhere. -/
def IsFirst (h n : List α) : Option Nat → Prop
  | some i => n <+: h.drop i ∧ ∀ j, j < i → ¬ n <+: h.drop j
  | none => ∀ j, ¬ n <+: h.drop j

variable {h n : List α} {c : α} {r r' : Option Nat}

theorem IsFirst.unique (hr : IsFirst h n r) (hr' : IsFirst h n r') : r = r' := by
  cases r with
  | none =>
    cases r' with
    | none => rfl
    | some j => exact absurd hr'.1 (hr j)
  | some i =>
    cases r' with
    | none => exact absurd hr.1 (hr' i)
    | some j =>
      have h1 : ¬ i < j := fun hij => hr'.2 i hij hr.1
      have h2 : ¬ j < i := fun hji => hr.2 j hji hr'.1
      exact congrArg some (by omega)

theorem isFirst_here (hn : n <+: h) : IsFirst h n (some 0) :=
  ⟨hn, fun j hj => absurd hj (Nat.not_lt_zero j)⟩

/-- What is shorter than a list does not hold it anywhere. -/
theorem isFirst_short (hn : h.length < n.length) : IsFirst h n none := by
  intro j hj
  have hle := hj.length_le
  rw [List.length_drop] at hle
  omega

/-- The search goes on behind an element where nothing stands. -/
theorem IsFirst.next (hc : ¬ n <+: c :: h) (hr : IsFirst h n r) :
    IsFirst (c :: h) n (r.map (· + 1)) := by
  cases r with
  | none =>
    intro j
    cases j with
    | zero => exact hc
    | succ j => exact hr j
  | some i =>
    refine ⟨hr.1, fun j hj => ?_⟩
    cases j with
    | zero => exact hc
    | succ j => exact hr.2 j (Nat.lt_of_succ_lt_succ hj)

end Occurrence
