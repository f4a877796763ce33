import Foos.HeapRuns

/-! `kmalloc` is first fit: on the list of blocks it takes the lowest free block that is large
enough, and puts one block behind the last when there is none. -/
namespace Foos.Kmalloc
open ByteMemory Word32

/-- A free block of at least `sz` bytes. -/
def Blk.Room (sz : Nat) (b : Blk) : Prop := b.used = false ∧ sz ≤ b.size

/-- `ServedFirst sz bs x bs'`: a request of `sz` bytes is served in the block at `x` and turns
`bs` into `bs'`. A surplus of more than 24 bytes is cut off unless the block is the last. -/
inductive ServedFirst (sz : Nat) : List Blk → Nat → List Blk → Prop
  | pristine : ServedFirst sz [⟨false, 0⟩] heapBase [⟨true, sz⟩]
  | whole {xs b ys} : (∀ c ∈ xs, ¬ c.Room sz) → b.Room sz → ys = [] ∨ b.size - sz ≤ 24 →
      ServedFirst sz (xs ++ b :: ys) (endOf heapBase xs) (xs ++ ⟨true, b.size⟩ :: ys)
  | cut {xs b ys} : (∀ c ∈ xs, ¬ c.Room sz) → b.Room sz → ys ≠ [] → 24 < b.size - sz →
      ServedFirst sz (xs ++ b :: ys) (endOf heapBase xs)
        (xs ++ ⟨true, sz⟩ :: ⟨false, b.size - sz - 16⟩ :: ys)
  | append {bs} : bs ≠ [⟨false, 0⟩] → (∀ c ∈ bs, ¬ c.Room sz) →
      ServedFirst sz bs (endOf heapBase bs) (bs ++ [⟨true, sz⟩])

variable {sz a p x y : Nat} {b c : Blk} {bs bs' xs ys : List Blk}

theorem fits_room : b.Fits sz 0 a ↔ b.Room sz := by
  simp [Blk.Fits, Blk.Room]

/-- Addresses do not matter to a request without alignment. -/
theorem noFit_room (h : NoFit sz 0 a bs) : ∀ c ∈ bs, ¬ c.Room sz := by
  intro c hc
  obtain ⟨pre, post, rfl⟩ := List.append_of_mem hc
  rw [← fits_room (a := Tiling.endAt Blk.span a pre)]
  exact h _ c (Tiling.place_middle Blk.span a pre c post)

theorem widen_zero (xs : List Blk) (l : Blk) : widen xs l 0 = l := by
  have hend : endOf heapBase (xs ++ [l]) = endOf heapBase xs + (16 + l.size) := endOf_append _ _ _
  have ht : tailAt 0 (endOf heapBase (xs ++ [l])) = endOf heapBase (xs ++ [l]) :=
    if_pos (Or.inl rfl)
  have hsize : endOf heapBase xs + (16 + l.size) - endOf heapBase xs - 16 = l.size := by omega
  rw [widen, ht, hend, hsize]

/-- Without an alignment the allocator on lists is first fit. -/
theorem Placed.firstFit (h : Placed sz 0 bs p bs') : ServedFirst sz bs p bs' := by
  cases h with
  | root _ _ => exact .pristine
  | @fit xs b ys hn hf =>
    by_cases hc : ys = [] ∨ b.size - sz ≤ blockSiz + 8
    · rw [carve, if_pos hc]
      exact .whole (noFit_room hn) (fits_room.mp hf) hc
    · rw [carve, if_neg hc]
      rw [not_or, Nat.not_le] at hc
      exact .cut (noFit_room hn) (fits_room.mp hf) hc.1 hc.2
  | @tail xs l hn hz _ =>
    have ht : tailAt 0 (endOf heapBase (xs ++ [l])) = endOf heapBase (xs ++ [l]) :=
      if_pos (Or.inl rfl)
    rw [ht, widen_zero, show xs ++ [l, ⟨true, sz⟩] = (xs ++ [l]) ++ [⟨true, sz⟩] by simp]
    exact .append (fun hb => hz ⟨hb, rfl⟩) (noFit_room hn)

/-- A stretch of blocks is replaced by one of the same length. -/
theorem placed_replace {mid mid' : List Blk}
    (hend : endOf (endOf heapBase xs) mid' = endOf (endOf heapBase xs) mid)
    (hy : (y, c) ∈ placed (xs ++ (mid ++ ys)))
    (hmid : (y, c) ∉ Tiling.place Blk.span (endOf heapBase xs) mid) :
    (y, c) ∈ placed (xs ++ (mid' ++ ys)) := by
  simp only [placed, Tiling.place_append, List.mem_append] at hy ⊢
  rcases hy with hy | hy | hy
  · exact Or.inl hy
  · exact absurd hy hmid
  · have he : Tiling.endAt Blk.span (Tiling.endAt Blk.span heapBase xs) mid' =
        Tiling.endAt Blk.span (Tiling.endAt Blk.span heapBase xs) mid := hend
    rw [he]
    exact Or.inr (Or.inr hy)

theorem not_placed_single (hne : y ≠ a) : (y, c) ∉ Tiling.place Blk.span a [b] := by
  intro hy
  exact hne (Prod.mk.inj (List.mem_singleton.mp hy)).1

/-- Every block but the one served keeps its address, its size and its use. -/
theorem ServedFirst.keeps (h : ServedFirst sz bs x bs') (hy : (y, c) ∈ placed bs) (hne : y ≠ x) :
    (y, c) ∈ placed bs' := by
  cases h with
  | pristine => exact absurd hy (not_placed_single hne)
  | @whole xs b ys _ _ _ =>
    have hend : endOf (endOf heapBase xs) [⟨true, b.size⟩] = endOf (endOf heapBase xs) [b] := rfl
    exact placed_replace hend hy (not_placed_single hne)
  | @cut xs b ys _ hb _ hc =>
    have hend : endOf (endOf heapBase xs) [⟨true, sz⟩, ⟨false, b.size - sz - 16⟩] =
        endOf (endOf heapBase xs) [b] := by
      simp only [endOf_cons, endOf_nil, Blk.span, blockSiz]
      omega
    exact placed_replace hend hy (not_placed_single hne)
  | append _ _ =>
    rw [placed, Tiling.place_append]
    exact List.mem_append_left _ hy

/-- When a block has room the heap ends where it did. -/
theorem ServedFirst.end_same (h : ServedFirst sz bs x bs') (hr : ∃ b ∈ bs, b.Room sz) (hpos : 0 < sz) :
    endOf heapBase bs' = endOf heapBase bs := by
  cases h with
  | pristine =>
    obtain ⟨b, hb, hroom⟩ := hr
    rw [List.mem_singleton.mp hb] at hroom
    exact absurd hroom.2 (Nat.not_le.mpr hpos)
  | whole _ _ _ =>
    rw [endOf_append, endOf_append]
    rfl
  | @cut xs b ys _ _ _ hc =>
    rw [endOf_append, endOf_append, endOf_cons, endOf_cons, endOf_cons]
    congr 1
    simp only [Blk.span, blockSiz]
    omega
  | append _ hno =>
    obtain ⟨b, hb, hroom⟩ := hr
    exact absurd hroom (hno b hb)

end Foos.Kmalloc
