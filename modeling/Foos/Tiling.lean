import Mathlib.Data.List.Basic

/-! Contiguous tilings: a list of tiles laid end to end from an address, each taking
`span` bytes. Offsets are never stored; they follow from the tiles in front. -/
namespace Tiling
variable {β : Type*} (span : β → Nat)

/-- The address behind the last tile. -/
def endAt (a : Nat) : List β → Nat
  | [] => a
  | b :: bs => endAt (a + span b) bs

/-- Each tile with the address it starts at. -/
def place (a : Nat) : List β → List (Nat × β)
  | [] => []
  | b :: bs => (a, b) :: place (a + span b) bs

theorem endAt_append (a : Nat) (xs ys : List β) :
    endAt span a (xs ++ ys) = endAt span (endAt span a xs) ys := by
  induction xs generalizing a with
  | nil => rfl
  | cons b xs ih => exact ih (a + span b)

theorem place_append (a : Nat) (xs ys : List β) :
    place span a (xs ++ ys) = place span a xs ++ place span (endAt span a xs) ys := by
  induction xs generalizing a with
  | nil => rfl
  | cons b xs ih => simp [place, endAt, ih]

theorem le_endAt (a : Nat) (bs : List β) : a ≤ endAt span a bs := by
  induction bs generalizing a with
  | nil => exact Nat.le_refl a
  | cons b bs ih => exact Nat.le_trans (Nat.le_add_right a (span b)) (ih (a + span b))

theorem place_bounds {a x : Nat} {b : β} {bs : List β} (h : (x, b) ∈ place span a bs) :
    a ≤ x ∧ x + span b ≤ endAt span a bs := by
  induction bs generalizing a with
  | nil => simp [place] at h
  | cons c bs ih =>
    cases List.mem_cons.mp h with
    | inl he =>
      obtain ⟨rfl, rfl⟩ := Prod.mk.inj he
      exact ⟨Nat.le_refl x, le_endAt span (x + span b) bs⟩
    | inr ht =>
      obtain ⟨hlo, hhi⟩ := ih ht
      exact ⟨by omega, hhi⟩

theorem mem_of_place {a x : Nat} {b : β} {bs : List β} (h : (x, b) ∈ place span a bs) :
    b ∈ bs := by
  induction bs generalizing a with
  | nil => simp [place] at h
  | cons c bs ih =>
    cases List.mem_cons.mp h with
    | inl he =>
      simp [(Prod.mk.inj he).2]
    | inr ht => exact List.mem_cons_of_mem c (ih ht)

theorem place_middle (a : Nat) (pre : List β) (b : β) (post : List β) :
    (endAt span a pre, b) ∈ place span a (pre ++ b :: post) := by
  rw [place_append]
  exact List.mem_append_right _ (List.mem_cons_self ..)

theorem place_split {a x : Nat} {b : β} {bs : List β} (h : (x, b) ∈ place span a bs) :
    ∃ pre post, bs = pre ++ b :: post ∧ x = endAt span a pre := by
  induction bs generalizing a with
  | nil => simp [place] at h
  | cons c bs ih =>
    cases List.mem_cons.mp h with
    | inl he =>
      obtain ⟨rfl, rfl⟩ := Prod.mk.inj he
      exact ⟨[], bs, rfl, rfl⟩
    | inr ht =>
      obtain ⟨pre, post, rfl, rfl⟩ := ih ht
      exact ⟨c :: pre, post, rfl, rfl⟩

/-- Tiles that take space end at one address after one prefix only. -/
theorem prefix_unique (hpos : ∀ b, 0 < span b) {a : Nat} {xs xs' ys ys' : List β}
    (h : xs ++ ys = xs' ++ ys') (hend : endAt span a xs = endAt span a xs') : xs = xs' := by
  induction xs generalizing a xs' with
  | nil =>
    cases xs' with
    | nil => rfl
    | cons b xs' =>
      have hb := hpos b
      have hle := le_endAt span (a + span b) xs'
      simp only [endAt] at hend
      omega
  | cons b xs ih =>
    cases xs' with
    | nil =>
      have hb := hpos b
      have hle := le_endAt span (a + span b) xs
      simp only [endAt] at hend
      omega
    | cons b' xs' =>
      obtain ⟨rfl, hrest⟩ := List.cons.inj h
      rw [ih hrest hend]

/-- Two placed tiles are the same one, or one ends before the other starts. -/
theorem place_apart {a x y : Nat} {b c : β} {bs : List β}
    (hx : (x, b) ∈ place span a bs) (hy : (y, c) ∈ place span a bs) :
    (x, b) = (y, c) ∨ x + span b ≤ y ∨ y + span c ≤ x := by
  induction bs generalizing a with
  | nil => simp [place] at hx
  | cons d bs ih =>
    rcases List.mem_cons.mp hx with hx | hx <;> rcases List.mem_cons.mp hy with hy | hy
    · exact Or.inl (hx.trans hy.symm)
    · obtain ⟨rfl, rfl⟩ := Prod.mk.inj hx
      exact Or.inr (Or.inl (place_bounds span hy).1)
    · obtain ⟨rfl, rfl⟩ := Prod.mk.inj hy
      exact Or.inr (Or.inr (place_bounds span hx).1)
    · exact ih hx hy

end Tiling
