import Foos.HeapSplit

/-! `lookup` on the list of blocks: it walks past every block that does not fit, then
takes the first that does or puts a new one behind the last. -/
namespace Foos.Kmalloc
open ByteMemory Word32

/-- The block at `x` can serve a request of `sz` bytes at the given alignment. -/
def Blk.Fits (sz align x : Nat) (b : Blk) : Prop :=
  b.used = false ∧ sz ≤ b.size ∧ (align = 0 ∨ data x % 2 ^ align = 0)

instance (sz align x : Nat) (b : Blk) : Decidable (b.Fits sz align x) :=
  inferInstanceAs (Decidable (_ ∧ _ ∧ _))

def NoFit (sz align a : Nat) (bs : List Blk) : Prop :=
  ∀ x b, (x, b) ∈ Tiling.place Blk.span a bs → ¬ b.Fits sz align x

/-- Where `lookup` puts the header of a new last block when the old one ends at `e`. -/
def tailAt (align e : Nat) : Nat :=
  if align = 0 ∨ data e % 2 ^ align = 0 then e else e - e % 2 ^ align + 2 ^ align - 16

theorem lookup_hit {m : Mem} {fuel blk a sz align : Nat} {b : Blk} (hal : align < 32)
    (hc : cursor m blk = a) (ha : a ≠ 0) (hh : Header m a b) (hf : b.Fits sz align a) :
    lookup (fuel + 1) m blk sz align =
      (split (setUsed m a 1) a sz).map fun m => (a, m) := by
  obtain ⟨hu, hs, hd⟩ := hf
  have hcond : sz ≤ size m a ∧ used m a = 0 := ⟨hh.size_eq ▸ hs, hh.used_zero.mpr hu⟩
  have hmis : ¬ (align ≠ 0 ∧ data a % shl32 1 align ≠ 0) := by
    rw [shl32_one hal]
    tauto
  simp only [lookup, hc, if_neg ha, if_pos hcond, if_neg hmis]

theorem lookup_skip {m : Mem} (fuel : Nat) {blk a sz align : Nat} {b : Blk} (hal : align < 32)
    (hc : cursor m blk = a) (ha : a ≠ 0) (hh : Header m a b) (hf : ¬ b.Fits sz align a)
    (hz : ¬ (b.size = 0 ∧ align = 0)) :
    lookup (fuel + 1) m blk sz align = lookup fuel m a sz align := by
  have hz' : ¬ (size m a = 0 ∧ align = 0) := hh.size_eq ▸ hz
  simp only [lookup, hc, if_neg ha, if_neg hz']
  by_cases hcond : sz ≤ size m a ∧ used m a = 0
  · have hmis : align ≠ 0 ∧ data a % shl32 1 align ≠ 0 := by
      rw [shl32_one hal]
      by_contra hd
      refine hf ⟨hh.used_zero.mp hcond.2, hh.size_eq ▸ hcond.1, ?_⟩
      tauto
    rw [if_pos hcond, if_pos hmis]
  · rw [if_neg hcond]

/-- Walking over the blocks `xs`, none of which fits. -/
theorem lookup_walk {m : Mem} (fuel : Nat) {fin blk a sz align : Nat} (hal : align < 32)
    (xs ys : List Blk) (hc : cursor m blk = a) (ha : a ≠ 0) (hs : Seg m fin a (xs ++ ys))
    (hn : NoFit sz align a xs) (hz : ∀ b ∈ xs, ¬ (b.size = 0 ∧ align = 0)) :
    lookup (fuel + xs.length) m blk sz align = lookup fuel m (lastAt blk a xs) sz align ∧
      cursor m (lastAt blk a xs) =
        if ys = [] ∧ xs ≠ [] then fin else endOf a xs := by
  induction xs generalizing blk a with
  | nil => simp [lastAt, hc]
  | cons b xs ih =>
    obtain ⟨hh, hnext, hs'⟩ := hs
    have hskip := lookup_skip (fuel + xs.length) hal hc ha hh
      (hn a b (List.mem_cons_self ..)) (hz b (List.mem_cons_self ..))
    have hcur : cursor m a = next m a := if_neg ha
    cases xs with
    | nil =>
      change next m a = if ys = [] then fin else a + b.span at hnext
      refine ⟨hskip, ?_⟩
      rw [lastAt, lastAt, hcur, hnext]
      simp
    | cons c xs =>
      have hnx : cursor m a = a + b.span := by rw [hcur, hnext, if_neg (by simp)]
      have hpos : a + b.span ≠ 0 := by omega
      obtain ⟨h1, h2⟩ := ih hnx hpos hs' (fun x d hx => hn x d (List.mem_cons_of_mem _ hx))
        fun d hd => hz d (List.mem_cons_of_mem _ hd)
      refine ⟨hskip.trans h1, ?_⟩
      rw [lastAt, h2]
      simp

/-- The bytes a request may change when it is served by the free block `b` at `a` with
`sz` bytes kept, where another block starts at `n`. -/
def Around (m m' : Mem) (a sz e : Nat) : Prop :=
  ∀ y, (y < a ∨ a + 16 ≤ y) → (y < a + 16 + sz ∨ e ≤ y) → (y < e + 8 ∨ e + 12 ≤ y) → m' y = m y

theorem cursor_null (m : Mem) : cursor m 0 = heapBase := rfl

/-- First fit: the first block that fits is taken. -/
theorem Forward.lookup_fit {m : Mem} {xs ys : List Blk} {b : Blk} {sz align : Nat}
    (h : Forward m (xs ++ ([b] ++ ys))) (hal : align < 32) (hpos : 0 < sz) (h8 : sz % 8 = 0)
    (hn : NoFit sz align heapBase xs) (hf : b.Fits sz align (endOf heapBase xs)) :
    ∃ m', (∀ fuel, lookup (fuel + 1 + xs.length) m 0 sz align =
        some (endOf heapBase xs, m')) ∧
      Forward m' (xs ++ (carve sz b ys ++ ys)) ∧
      (Represents m (xs ++ ([b] ++ ys)) → Represents m' (xs ++ (carve sz b ys ++ ys))) ∧
      Around m m' (endOf heapBase xs) sz (endOf heapBase xs + b.span) := by
  have hz : ∀ c ∈ xs, ¬ (c.size = 0 ∧ align = 0) := by
    intro c hc
    rcases h.sized with hr | ⟨_, hall⟩
    · have hlen := congrArg List.length hr
      have hx := List.length_pos_of_mem hc
      simp at hlen
      omega
    · have := hall c (by simp [hc])
      omega
  obtain ⟨m', hsplit, hfor, hrep, hframe⟩ := h.take hpos h8 hf.2.1
  have hch := h.chain
  refine ⟨m', fun fuel => ?_, hfor, hrep, fun y h1 h2 h3 => ?_⟩
  · obtain ⟨hw, hcur⟩ := lookup_walk (fuel + 1) hal xs ([b] ++ ys) (cursor_null m)
      (by decide) hch hn hz
    rw [if_neg (by simp)] at hcur
    rw [hw, lookup_hit hal hcur (Nat.ne_of_gt (endOf_pos xs)) (hch.header_at _ _ _) hf, hsplit]
    rfl
  · have hbs : b.span = 16 + b.size := rfl
    exact hframe y h1 (by omega) fun _ => by omega

end Foos.Kmalloc
