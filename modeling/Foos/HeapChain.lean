import Foos.Kmalloc
import Foos.Tiling
import Mathlib.Data.List.Induction

/-! The heap as a list of blocks, and what it means for memory to hold that list.
Addresses follow from the sizes, so forward links, back links and contiguity are one
statement about the list. -/
namespace Foos.Kmalloc
open ByteMemory Word32

/-- What a header says about its own block. -/
structure Blk where
  used : Bool
  size : Nat
  deriving DecidableEq

def Blk.span (b : Blk) : Nat := blockSiz + b.size

abbrev endOf (a : Nat) (bs : List Blk) : Nat := Tiling.endAt Blk.span a bs
abbrev placed (bs : List Blk) : List (Nat × Blk) := Tiling.place Blk.span heapBase bs

structure Header (m : Mem) (x : Nat) (b : Blk) : Prop where
  used_eq : used m x = b.used.toNat
  size_eq : size m x = b.size

/-- Forward chain from `a`; the `next` field of the last block holds `fin`. -/
def Seg (m : Mem) (fin : Nat) : Nat → List Blk → Prop
  | _, [] => True
  | a, b :: bs =>
    Header m a b ∧ next m a = (if bs = [] then fin else a + b.span) ∧ Seg m fin (a + b.span) bs

/-- Back links from `a`; the `prev` field of the first block holds `p`. -/
def Back (m : Mem) : Nat → Nat → List Blk → Prop
  | _, _, [] => True
  | p, a, b :: bs => prev m a = p ∧ Back m a (a + b.span) bs

/-- The block in front of whatever follows `bs`, or `p` when `bs` is empty. -/
def lastAt (p a : Nat) : List Blk → Nat
  | [] => p
  | b :: bs => lastAt a (a + b.span) bs

/-- Sizes are positive multiples of eight, except in the single empty root. -/
def Sized (bs : List Blk) : Prop :=
  bs = [⟨false, 0⟩] ∨ bs ≠ [] ∧ ∀ b ∈ bs, 0 < b.size ∧ b.size % 8 = 0

/-- Everything but the back links. -/
structure Forward (m : Mem) (bs : List Blk) : Prop where
  chain : Seg m 0 heapBase bs
  sized : Sized bs
  limit : endOf heapBase bs < 4294967296
  tail : ∀ x, endOf heapBase bs ≤ x → x < 4294967296 → m x = 0

structure Represents (m : Mem) (bs : List Blk) : Prop extends Forward m bs where
  back : Back m 0 heapBase bs

/-- Blocks linked both ways, whatever their sizes and the memory above them. -/
structure Linked (m : Mem) (bs : List Blk) : Prop where
  chain : Seg m 0 heapBase bs
  back : Back m 0 heapBase bs
  limit : endOf heapBase bs ≤ 4294967296

theorem Represents.linked {m : Mem} {bs : List Blk} (h : Represents m bs) : Linked m bs :=
  ⟨h.chain, h.back, Nat.le_of_lt h.limit⟩

theorem Seg.append_iff (m : Mem) (fin a : Nat) (xs ys : List Blk) :
    Seg m fin a (xs ++ ys) ↔
      Seg m (if ys = [] then fin else endOf a xs) a xs ∧ Seg m fin (endOf a xs) ys := by
  induction xs generalizing a with
  | nil => simp [Seg, endOf, Tiling.endAt]
  | cons b xs ih =>
    have hnext : (if xs ++ ys = [] then fin else a + b.span) =
        (if xs = [] then (if ys = [] then fin else endOf a (b :: xs)) else a + b.span) := by
      cases xs <;> cases ys <;> simp [endOf, Tiling.endAt]
    simp only [List.cons_append, Seg, ih, hnext]
    simp only [endOf, Tiling.endAt]
    tauto

theorem Back.append_iff (m : Mem) (p a : Nat) (xs ys : List Blk) :
    Back m p a (xs ++ ys) ↔ Back m p a xs ∧ Back m (lastAt p a xs) (endOf a xs) ys := by
  induction xs generalizing p a with
  | nil => simp [Back, lastAt, endOf, Tiling.endAt]
  | cons b xs ih =>
    simp only [List.cons_append, Back, ih, lastAt, endOf, Tiling.endAt]
    tauto

theorem lastAt_append (p a : Nat) (xs : List Blk) (b : Blk) :
    lastAt p a (xs ++ [b]) = endOf a xs := by
  induction xs generalizing p a with
  | nil => rfl
  | cons c xs ih => exact ih a (a + c.span)

/-- A segment reads the words `used`, `size` and `next` of its own headers only. -/
theorem Seg.congr {m m' : Mem} {fin a : Nat} {bs : List Blk} (h : Seg m fin a bs)
    (hw : ∀ x b, (x, b) ∈ Tiling.place Blk.span a bs →
      used m' x = used m x ∧ size m' x = size m x ∧ next m' x = next m x) :
    Seg m' fin a bs := by
  induction bs generalizing a with
  | nil => trivial
  | cons b bs ih =>
    obtain ⟨hh, hn, hs⟩ := h
    obtain ⟨h1, h2, h3⟩ := hw a b (List.mem_cons_self ..)
    refine ⟨⟨h1.trans hh.used_eq, h2.trans hh.size_eq⟩, h3.trans hn, ?_⟩
    exact ih hs fun x c hx => hw x c (List.mem_cons_of_mem _ hx)

theorem Back.congr {m m' : Mem} {p a : Nat} {bs : List Blk} (h : Back m p a bs)
    (hw : ∀ x b, (x, b) ∈ Tiling.place Blk.span a bs → prev m' x = prev m x) :
    Back m' p a bs := by
  induction bs generalizing p a with
  | nil => trivial
  | cons b bs ih =>
    obtain ⟨hp, hs⟩ := h
    refine ⟨(hw a b (List.mem_cons_self ..)).trans hp, ?_⟩
    exact ih hs fun x c hx => hw x c (List.mem_cons_of_mem _ hx)

theorem Seg.header {m : Mem} {fin a x : Nat} {b : Blk} {bs : List Blk} (h : Seg m fin a bs)
    (hx : (x, b) ∈ Tiling.place Blk.span a bs) : Header m x b := by
  induction bs generalizing a with
  | nil => simp [Tiling.place] at hx
  | cons c bs ih =>
    cases List.mem_cons.mp hx with
    | inl he =>
      obtain ⟨rfl, rfl⟩ := Prod.mk.inj he
      exact h.1
    | inr ht => exact ih h.2.2 ht

/-- The `next` field of the block behind `xs`. -/
theorem Seg.next_at {m : Mem} {fin a : Nat} (xs : List Blk) (b : Blk) (ys : List Blk)
    (h : Seg m fin a (xs ++ b :: ys)) :
    next m (endOf a xs) = if ys = [] then fin else endOf a xs + b.span :=
  ((Seg.append_iff m fin a xs (b :: ys)).mp h).2.2.1

theorem Seg.header_at {m : Mem} {fin a : Nat} (xs : List Blk) (b : Blk) (ys : List Blk)
    (h : Seg m fin a (xs ++ b :: ys)) : Header m (endOf a xs) b :=
  ((Seg.append_iff m fin a xs (b :: ys)).mp h).2.1

theorem Back.prev_at {m : Mem} {p a : Nat} (xs : List Blk) (b : Blk) (ys : List Blk)
    (h : Back m p a (xs ++ b :: ys)) : prev m (endOf a xs) = lastAt p a xs :=
  ((Back.append_iff m p a xs (b :: ys)).mp h).2.1

theorem Header.used_zero {m : Mem} {x : Nat} {b : Blk} (h : Header m x b) :
    used m x = 0 ↔ b.used = false := by
  rw [h.used_eq]
  cases b.used <;> simp

theorem Sized.ne_nil {bs : List Blk} (h : Sized bs) : bs ≠ [] := by
  rcases h with rfl | ⟨hne, _⟩
  · simp
  · exact hne

theorem Sized.mod8 {bs : List Blk} (h : Sized bs) {b : Blk} (hb : b ∈ bs) : b.size % 8 = 0 := by
  rcases h with rfl | ⟨_, hall⟩
  · obtain rfl := List.mem_singleton.mp hb
    rfl
  · exact (hall b hb).2

/-- Blocks reached from `root` through `next`. -/
inductive InChain (m : Mem) : Nat → Prop
  | root : InChain m root
  | next {x} : InChain m x → next m x ≠ 0 → InChain m (next m x)

/-- `e` is the address behind the block at which the chain from `root` ends. -/
def EndsAt (m : Mem) (e : Nat) : Prop :=
  ∃ x, InChain m x ∧ next m x = 0 ∧ e = x + blockSiz + size m x

theorem Forward.inChain {m : Mem} {bs : List Blk} (h : Forward m bs) {x : Nat}
    (hx : InChain m x) : ∃ b, (x, b) ∈ placed bs := by
  induction hx with
  | root =>
    obtain ⟨b, bs, rfl⟩ := List.exists_cons_of_ne_nil h.sized.ne_nil
    exact ⟨b, List.mem_cons_self ..⟩
  | next _ hne ih =>
    obtain ⟨b, hb⟩ := ih
    obtain ⟨pre, post, rfl, rfl⟩ := Tiling.place_split _ hb
    have hn := h.chain.next_at _ _ _
    cases post with
    | nil => simp [hn] at hne
    | cons c post =>
      refine ⟨c, ?_⟩
      have hmid := Tiling.place_middle Blk.span heapBase (pre ++ [b]) c post
      simpa [hn, Tiling.endAt_append, Tiling.endAt] using hmid

/-- Memory that agrees below a block still has a chain that arrives there. -/
theorem Forward.reaches {m m' : Mem} {bs : List Blk} (h : Forward m bs) (pre : List Blk) (b : Blk)
    (post : List Blk) (hb : bs = pre ++ b :: post)
    (hlow : ∀ y, y < endOf heapBase pre → m' y = m y) : InChain m' (endOf heapBase pre) := by
  induction pre using List.reverseRecOn generalizing b post with
  | nil => exact InChain.root
  | append_singleton pre c ih =>
    have hstep : endOf heapBase (pre ++ [c]) = endOf heapBase pre + (16 + c.size) :=
      Tiling.endAt_append Blk.span heapBase pre [c]
    have hc := ih c (b :: post) (by simp [hb]) fun y hy => hlow y (by omega)
    have hch := h.chain
    rw [hb, List.append_assoc] at hch
    have hn := hch.next_at _ _ _
    have he : endOf heapBase (pre ++ [c]) = next m' (endOf heapBase pre) := by
      rw [next, load32_congr fun y h1 h2 => hlow y (by omega)]
      exact hstep.trans (hn.trans (if_neg (by simp))).symm
    have hpos := Tiling.le_endAt Blk.span heapBase (pre ++ [c])
    rw [he]
    refine InChain.next hc ?_
    rw [← he]
    have hbase : 0 < heapBase := by decide
    simp only [endOf]
    omega

theorem Forward.placed_inChain {m : Mem} {bs : List Blk} (h : Forward m bs)
    (pre : List Blk) (b : Blk) (post : List Blk) (hb : bs = pre ++ b :: post) :
    InChain m (endOf heapBase pre) :=
  h.reaches pre b post hb fun _ _ => rfl

theorem Forward.endsAt {m : Mem} {bs : List Blk} (h : Forward m bs) :
    EndsAt m (endOf heapBase bs) := by
  obtain ⟨pre, b, rfl⟩ : ∃ pre b, bs = pre ++ [b] :=
    ⟨_, _, (List.dropLast_append_getLast h.sized.ne_nil).symm⟩
  refine ⟨_, h.placed_inChain pre b [] rfl, by simpa using h.chain.next_at _ _ _, ?_⟩
  simp only [endOf, Tiling.endAt_append, Tiling.endAt]
  rw [(h.chain.header_at _ _ _).size_eq, Blk.span]
  omega

theorem Forward.endsAt_unique {m : Mem} {bs : List Blk} (h : Forward m bs) {e : Nat}
    (he : EndsAt m e) : e = endOf heapBase bs := by
  obtain ⟨x, hx, hn, rfl⟩ := he
  obtain ⟨b, hb⟩ := h.inChain hx
  obtain ⟨pre, post, rfl, rfl⟩ := Tiling.place_split _ hb
  have hnx := h.chain.next_at _ _ _
  have hlo := Tiling.le_endAt Blk.span heapBase pre
  cases post with
  | nil =>
    rw [(h.chain.header_at _ _ _).size_eq]
    simp [endOf, Tiling.endAt_append, Tiling.endAt, Blk.span]
    omega
  | cons c post =>
    have hbase : 0 < heapBase := by decide
    simp only [reduceCtorEq, if_false, endOf] at hnx
    omega

/-- `EndsAt` by walking the chain. -/
def chainEnd : Nat → Mem → Nat → Option Nat
  | 0, _, _ => none
  | fuel+1, m, x =>
    if next m x = 0 then some (x + blockSiz + size m x) else chainEnd fuel m (next m x)

theorem EndsAt.eq_of_chainEnd {m : Mem} {fuel e e' : Nat}
    (h : chainEnd fuel m root = some e) (he : EndsAt m e') : e' = e := by
  obtain ⟨x, hx, hn, rfl⟩ := he
  have hwalk : ∀ y, InChain m y → ∃ f, chainEnd f m y = some e := by
    intro y hy
    induction hy with
    | root => exact ⟨fuel, h⟩
    | next _ hne ih =>
      obtain ⟨f, hf⟩ := ih
      cases f with
      | zero => simp [chainEnd] at hf
      | succ f =>
        rw [chainEnd, if_neg hne] at hf
        exact ⟨f, hf⟩
  obtain ⟨f, hf⟩ := hwalk x hx
  cases f with
  | zero => simp [chainEnd] at hf
  | succ f =>
    rw [chainEnd, if_pos hn] at hf
    exact Option.some.inj hf

end Foos.Kmalloc
