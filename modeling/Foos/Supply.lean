import Foos.Frame
import Foos.Kmalloc

/-! What callers of the heap rely on: each request is answered with an area of its own.
Callers may write into the areas they hold between two requests. -/
namespace Foos.Kmalloc
open ByteMemory

/-- `kmalloca(size, align)` as its callers see it. -/
abbrev Allocator := Machine → Nat → Nat → Option (Nat × Machine)

/-- An area of `n` bytes at `p` beside the areas held, which keep their bytes. -/
structure NewArea (m m' : Mem) (areas : List (Nat × Nat)) (p n align : Nat) : Prop where
  nonzero : p ≠ 0
  aligned : p % 2 ^ align = 0
  below : p + n ≤ 4294967296
  apart : ∀ r ∈ areas, p + n ≤ r.1 ∨ r.1 + r.2 ≤ p
  kept : ∀ r ∈ areas, ∀ y, r.1 ≤ y → y < r.1 + r.2 → m' y = m y

/-- The allocator serves the listed requests one after the other, from `k` and the areas held
on, whatever is written into these areas meanwhile; `fill` holds of each new area. -/
def Supplies (fill : Mem → Nat → Nat → Prop) (alloc : Allocator) :
    List (Nat × Nat) → Machine → List (Nat × Nat) → Prop
  | [], _, _ => True
  | (n, align) :: reqs, k, areas =>
    ∀ k₁ : Machine, (∀ y, Outside areas y → k₁.mem y = k.mem y) →
      ∃ p k', alloc k₁ n align = some (p, k') ∧ NewArea k₁.mem k'.mem areas p n align ∧
        fill k'.mem p n ∧ Supplies fill alloc reqs k' ((p, n) :: areas)

/-- What is written into the areas held does not matter. -/
theorem Supplies.agree {fill : Mem → Nat → Nat → Prop} {alloc : Allocator}
    {reqs areas : List (Nat × Nat)} {k k' : Machine} (h : Supplies fill alloc reqs k areas)
    (hk : Frame areas k.mem k'.mem) : Supplies fill alloc reqs k' areas := by
  cases reqs with
  | nil => trivial
  | cons r reqs => exact fun k₁ hk₁ => h k₁ fun y hy => (hk₁ y hy).trans (hk y hy)

theorem NewArea.keeps {m m' : Mem} {areas : List (Nat × Nat)} {p n align y : Nat}
    (h : NewArea m m' areas p n align) (hy : ¬ Outside areas y) : m' y = m y := by
  obtain ⟨r, hr, h1, h2⟩ := not_outside.mp hy
  exact h.kept r hr y h1 h2

theorem NewArea.outside {m m' : Mem} {areas : List (Nat × Nat)} {p n align y : Nat}
    (h : NewArea m m' areas p n align) (hy : ¬ Outside areas y) : Outside [(p, n)] y := by
  obtain ⟨r, hr, h1, h2⟩ := not_outside.mp hy
  have := h.apart r hr
  rw [outside_single]
  omega

/-- The areas held keep their bytes when the new one is written to. -/
theorem NewArea.written {m m' m'' : Mem} {areas : List (Nat × Nat)} {p n align y : Nat}
    (h : NewArea m m' areas p n align) (hw : Frame [(p, n)] m' m'') (hy : ¬ Outside areas y) :
    m'' y = m y :=
  (hw y (h.outside hy)).trans (h.keeps hy)

def ZeroFilled (m : Mem) (p n : Nat) : Prop := ∀ y, p ≤ y → y < p + n → m y = 0

end Foos.Kmalloc
