import Mathlib.Data.List.Lex
import Mathlib.Tactic.Linarith

/-! Comparisons whose result is a signed number: below zero for less, zero for equal, above zero
for greater. -/
namespace SignedOrder
variable {α : Type*} [LinearOrder α]

/-- The sign of `r` says how `x` stands to `y`. -/
structure Tells (r : Int) (x y : α) : Prop where
  less : r < 0 ↔ x < y
  equal : r = 0 ↔ x = y

variable {r q p : Int} {x y z : α}

theorem Tells.greater (h : Tells r x y) : 0 < r ↔ y < x := by
  rw [← not_le, le_iff_lt_or_eq, h.less, h.equal, ← le_iff_lt_or_eq, not_le]

theorem Tells.le (h : Tells r x y) : r ≤ 0 ↔ x ≤ y := by
  rw [← not_lt, h.greater, not_lt]

theorem Tells.refl (x : α) : Tells 0 x x :=
  ⟨iff_of_false (lt_irrefl 0) (lt_irrefl x), iff_of_true rfl rfl⟩

theorem Tells.swap (h : Tells r x y) : Tells (-r) y x := by
  constructor
  · rw [← h.greater]
    omega
  · rw [@eq_comm α, ← h.equal]
    omega

/-- The order determines the sign. -/
theorem Tells.sign_unique (h : Tells r x y) (h' : Tells q x y) : r.sign = q.sign := by
  cases lt_trichotomy x y with
  | inl hlt =>
    rw [Int.sign_eq_neg_one_of_neg (h.less.mpr hlt), Int.sign_eq_neg_one_of_neg (h'.less.mpr hlt)]
  | inr hge =>
    cases hge with
    | inl heq => rw [h.equal.mpr heq, h'.equal.mpr heq]
    | inr hgt =>
      rw [Int.sign_eq_one_of_pos (h.greater.mpr hgt), Int.sign_eq_one_of_pos (h'.greater.mpr hgt)]

theorem Tells.opposite (h : Tells r x y) (h' : Tells q y x) : q.sign = -r.sign := by
  rw [h'.sign_unique h.swap, Int.sign_neg]

theorem Tells.trans_le (h : Tells r x y) (h' : Tells q y z) (h'' : Tells p x z) (hr : r ≤ 0)
    (hq : q ≤ 0) : p ≤ 0 :=
  h''.le.mpr ((h.le.mp hr).trans (h'.le.mp hq))

/-- Two comparisons of one sign, the second from where the first ends, give the third its sign. -/
theorem Tells.trans_sign (h : Tells r x y) (h' : Tells q y z) (h'' : Tells p x z)
    (heq : r.sign = q.sign) : p.sign = r.sign := by
  cases lt_trichotomy r 0 with
  | inl hneg =>
    have hq : q < 0 := by rwa [← Int.sign_neg_iff, ← heq, Int.sign_neg_iff]
    have hp : p < 0 := h''.less.mpr ((h.less.mp hneg).trans (h'.less.mp hq))
    rw [Int.sign_eq_neg_one_of_neg hp, Int.sign_eq_neg_one_of_neg hneg]
  | inr hge =>
    cases hge with
    | inl hzero =>
      obtain rfl : x = y := h.equal.mp hzero
      rw [heq, h''.sign_unique h']
    | inr hpos =>
      have hq : 0 < q := by rwa [← Int.sign_pos_iff, ← heq, Int.sign_pos_iff]
      have hp : 0 < p := h''.greater.mpr ((h'.greater.mp hq).trans (h.greater.mp hpos))
      rw [Int.sign_eq_one_of_pos hp, Int.sign_eq_one_of_pos hpos]

/-- A difference of numbers is a comparison of them. -/
theorem Tells.sub (a b : Nat) : Tells ((a : Int) - b) a b := by
  constructor <;> omega

variable {l k : List α}

theorem Tells.cons_ne (hne : x ≠ y) (h : Tells r x y) : Tells r (x :: l) (y :: k) := by
  constructor
  · rw [h.less, List.cons_lt_cons_iff]
    simp [hne]
  · rw [h.equal, List.cons.injEq]
    simp [hne]

theorem Tells.cons (x : α) (h : Tells r l k) : Tells r (x :: l) (x :: k) := by
  constructor
  · rw [h.less, List.cons_lt_cons_iff]
    simp
  · rw [h.equal, List.cons.injEq]
    simp

theorem Tells.nil_cons (hr : r < 0) : Tells r [] (y :: k) :=
  ⟨iff_of_true hr (List.nil_lt_cons y k), iff_of_false hr.ne (List.cons_ne_nil y k).symm⟩

theorem Tells.cons_nil (hr : 0 < r) : Tells r (x :: l) [] :=
  ⟨iff_of_false hr.not_gt (List.not_lt_nil _), iff_of_false hr.ne' (List.cons_ne_nil x l)⟩

end SignedOrder
