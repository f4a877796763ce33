import Foos.HeapSupply

/-! A block that is taken, written to and given back: what else is in use does not change. -/
namespace Foos.Kmalloc
open ByteMemory

/-- Bytes below the heap or in the payload of a used block are outside every header. -/
theorem OnlyHeadersOrNull.keeps {m m' : Mem} {bs : List Blk} {areas : List (Nat × Nat)}
    (h : OnlyHeadersOrNull m m' bs) (hheld : Held bs areas) (hlow : ∀ r ∈ areas, 12 ≤ r.1) {y : Nat}
    (hy : ¬ Outside areas y) : m' y = m y := by
  obtain ⟨r, hr, h1, h2⟩ := not_outside.mp hy
  rcases hheld r hr with hbelow | ⟨x, b, hx, hb, h3, h4⟩
  · refine h y (Nat.le_trans (hlow r hr) h1) fun x b hx => Or.inl ?_
    have hlo := (header_bounds hx).1
    omega
  · exact h.onlyHeaders.keepsUsed x b hx hb y (by omega) (by omega)

theorem Held.tail {bs : List Blk} {r : Nat × Nat} {areas : List (Nat × Nat)}
    (h : Held bs (r :: areas)) : Held bs areas :=
  fun s hs => h s (List.mem_cons_of_mem r hs)

theorem Held.head {bs : List Blk} {r : Nat × Nat} {areas : List (Nat × Nat)}
    (h : Held bs (r :: areas)) : Held bs [r] :=
  fun s hs => h s (List.mem_singleton.mp hs ▸ List.mem_cons_self ..)

/-- The heap behind a block of `n` bytes that was taken and given back. -/
def Returned (n : Nat) (bs : List Blk) (m : Mem) : Prop :=
  ∃ xs b ys, Placed (roundUp n) 0 bs (endOf heapBase xs) (xs ++ b :: ys) ∧
    (¬ Clash xs ys → Represents m (release xs b ys))

/-- `kmalloc(n)`, any writes into the area it returns, and `kfree` of it. -/
theorem Represents.lease {fuel n : Nat} {k : Machine} {bs : List Blk} {areas : List (Nat × Nat)}
    (h : Represents k.mem bs) (hheld : Held bs areas) (hlow : ∀ r ∈ areas, 12 ≤ r.1)
    (hpos : 0 < n) (hw : NoWrap k.mem n) (hfuel : bs.length < fuel) :
    ∃ p k', Kmalloc.kmalloca fuel k n 0 = some (p, k') ∧ NewArea k.mem k'.mem areas p n 0 ∧
      ∀ k₁ : Machine, Frame [(p, n)] k'.mem k₁.mem →
        ∃ k₂, Kmalloc.kfree k₁ p = some k₂ ∧ k₂.errno = k₁.errno ∧
          (∀ y, ¬ Outside areas y → k₂.mem y = k.mem y) ∧ Returned n bs k₂.mem := by
  obtain ⟨p, k', bs', hk, hp, hr, hnew, hheld', -⟩ := h.grant hheld (by decide) hpos hw.1
    (h.toForward.room hw) hfuel
  refine ⟨data p, k', hk, hnew, fun k₁ hk₁ => ?_⟩
  have hr₁ := hr.outside hheld'.head hk₁
  obtain ⟨b, hb, hu, -⟩ := hp.served
  obtain ⟨xs, ys, rfl, rfl⟩ := Tiling.place_split _ hb
  obtain ⟨m₂, hk₂, -, hrep, hout⟩ := hr₁.kfree hu
  refine ⟨_, hk₂, rfl, fun y hy => ?_, xs, b, ys, hp, hrep⟩
  calc m₂ y = k₁.mem y := hout.keeps hheld'.tail hlow hy
    _ = k.mem y := hnew.written hk₁ hy

end Foos.Kmalloc
