import Foos.HeapFree

/-! `split` on the list of blocks: the surplus of a block that is not the last becomes a
free block of its own. -/
namespace Foos.Kmalloc
open ByteMemory Word32

/-- A used block of at least `sz` bytes in front of `ys`, cut down to `sz` where `split`
does so. -/
def carve (sz : Nat) (b : Blk) (ys : List Blk) : List Blk :=
  if ys = [] ∨ b.size - sz ≤ blockSiz + 8 then [⟨true, b.size⟩]
  else [⟨true, sz⟩, ⟨false, b.size - sz - blockSiz⟩]

/-- The stores of `split` when it does cut, in order. -/
def cut (m : Mem) (a new n s sz : Nat) : Mem :=
  setSize (setNext (setUsed (setPrev (setPrev (setSize (setNext m new n) new s) n new) new a)
    new 0) a new) a sz

theorem cut_outside {m : Mem} {a new n s sz y : Nat} (h1 : y < a ∨ a + 16 ≤ y)
    (h2 : y < new ∨ new + 16 ≤ y) (h3 : y < n + 8 ∨ n + 12 ≤ y) :
    cut m a new n s sz y = m y := by
  simp (disch := omega) only [cut, setSize, setNext, setUsed, setPrev, store32_outside]

theorem cut_words {m : Mem} {a new n s sz : Nat} (h1 : a + 16 ≤ new) (h2 : new + 16 ≤ n)
    (hn : n < 4294967296) (hs : s < 4294967296) (hz : sz < 4294967296) :
    let m' := cut m a new n s sz
    (used m' a = used m a ∧ size m' a = sz ∧ prev m' a = prev m a ∧ next m' a = new) ∧
    (used m' new = 0 ∧ size m' new = s ∧ prev m' new = a ∧ next m' new = n) ∧
    prev m' n = new := by
  have ha : a < 4294967296 := by omega
  have hnew : new < 4294967296 := by omega
  simp only [cut, used, size, prev, next, setSize, setNext, setUsed, setPrev]
  refine ⟨⟨?_, ?_, ?_, ?_⟩, ⟨?_, ?_, ?_, ?_⟩, ?_⟩ <;>
    simp (disch := omega) only [load32_store32_ne, load32_store32, Nat.mod_eq_of_lt hn,
      Nat.mod_eq_of_lt hs, Nat.mod_eq_of_lt hz, Nat.mod_eq_of_lt ha, Nat.mod_eq_of_lt hnew,
      Nat.zero_mod]

theorem split_skip {m : Mem} {a sz s : Nat} (ha : a ≠ 0) (hs : size m a = s)
    (hsz : sz ≤ s) (h : next m a = 0 ∨ s - sz ≤ blockSiz + 8) : split m a sz = some m := by
  have hs32 : s < 4294967296 := hs ▸ load32_lt _ _
  simp only [split, if_neg ha, hs, sub32_of_le hsz hs32, if_pos h]

theorem split_cut {m : Mem} {a sz s : Nat} (ha : a ≠ 0) (hs : size m a = s)
    (hn : next m a = a + 16 + s) (hd : sz + 24 < s) :
    split m a sz =
      some (cut m a (a + 16 + sz) (a + 16 + s) (s - sz - 16) sz) := by
  have hs32 : s < 4294967296 := hs ▸ load32_lt _ _
  have hn32 : a + 16 + s < 4294967296 := hn ▸ load32_lt _ _
  have hnew : add32 (data a) sz = a + 16 + sz := add32_of_lt (by simp only [data]; omega)
  have hguard : ¬ (a + 16 + s = 0 ∨ s - sz ≤ blockSiz + 8) := by
    simp only [blockSiz]
    omega
  have h1 : next (setNext m (a + 16 + sz) (a + 16 + s)) (a + 16 + sz) = a + 16 + s := by
    rw [next, setNext, load32_store32, Nat.mod_eq_of_lt hn32]
  have h2 : sub32 (a + 16 + s) (data (a + 16 + sz)) = s - sz - 16 := by
    rw [sub32_of_le (by simp only [data]; omega) hn32, data]
    omega
  have h3 (v : Nat) :
      next (setSize (setNext m (a + 16 + sz) (a + 16 + s)) (a + 16 + sz) v) (a + 16 + sz) =
        a + 16 + s := by
    refine Eq.trans ?_ h1
    simp (disch := omega) only [next, setSize, load32_store32_ne]
  simp only [split, if_neg ha, hs, hn, sub32_of_le (Nat.le_of_lt (by omega : sz < s)) hs32,
    hnew, if_neg hguard, h1, h2, h3, cut]

theorem Sized.carve {xs ys : List Blk} {b : Blk} {sz : Nat} (h : Sized (xs ++ ([b] ++ ys)))
    (hpos : 0 < sz) (h8 : sz % 8 = 0) (hb : sz ≤ b.size) :
    Sized (xs ++ (carve sz b ys ++ ys)) := by
  unfold Kmalloc.carve
  split
  · exact h.mark (Nat.lt_of_lt_of_le hpos hb) true
  · rename_i hc
    have hb8 : b.size % 8 = 0 := h.mod8 (by simp)
    simp only [blockSiz] at hc
    refine Or.inr ⟨by simp, fun e he => ?_⟩
    have hmem : e ∈ xs ∨ e = ⟨true, sz⟩ ∨ e = ⟨false, b.size - sz - blockSiz⟩ ∨ e ∈ ys := by
      simpa using he
    have hall : ∀ d ∈ xs ++ ([b] ++ ys), 0 < d.size ∧ d.size % 8 = 0 := by
      rcases h with h | ⟨_, hall⟩
      · have hbm : b ∈ [(⟨false, 0⟩ : Blk)] := h ▸ (by simp)
        obtain rfl := List.mem_singleton.mp hbm
        simp at hb
        omega
      · exact hall
    rcases hmem with hx | rfl | rfl | hy
    · exact hall e (by simp [hx])
    · exact ⟨hpos, h8⟩
    · simp only [blockSiz]
      omega
    · exact hall e (by simp [hy])

theorem carve_cut {sz : Nat} {b : Blk} {ys : List Blk}
    (hc : ¬ (ys = [] ∨ b.size - sz ≤ blockSiz + 8)) :
    carve sz b ys = [⟨true, sz⟩, ⟨false, b.size - sz - 16⟩] :=
  if_neg hc

theorem carve_ne_nil (sz : Nat) (b : Blk) (ys : List Blk) : carve sz b ys ≠ [] := by
  unfold carve
  split <;> simp

theorem endOf_carve {sz a : Nat} {b : Blk} {ys : List Blk} (hb : sz ≤ b.size) :
    endOf a (carve sz b ys) = a + b.span := by
  unfold carve
  split
  · rfl
  · rename_i hc
    simp only [blockSiz] at hc
    simp only [endOf_cons, endOf_nil, Blk.span, blockSiz]
    omega

/-- The block is cut only when there is room for a header and more. -/
theorem carve_gap {sz : Nat} {b : Blk} {ys : List Blk}
    (hc : ¬ (ys = [] ∨ b.size - sz ≤ blockSiz + 8)) : sz + 24 < b.size := by
  simp only [blockSiz] at hc
  omega

theorem Forward.limit_behind {m : Mem} {xs ys : List Blk} {b : Blk}
    (h : Forward m (xs ++ ([⟨true, b.size⟩] ++ ys))) :
    endOf (endOf heapBase xs + b.span) ys < 4294967296 := by
  have hlim := h.limit
  rwa [endOf_append, endOf_append, endOf_cons, endOf_nil] at hlim

/-- The cut, as a replacement of one block by two. -/
theorem Forward.cut {m : Mem} {xs ys : List Blk} {b : Blk} {sz : Nat}
    (h : Forward m (xs ++ ([⟨true, b.size⟩] ++ ys))) (hpos : 0 < sz) (h8 : sz % 8 = 0)
    (hb : sz ≤ b.size) (hc : ¬ (ys = [] ∨ b.size - sz ≤ blockSiz + 8)) :
    Forward (Kmalloc.cut m (endOf heapBase xs) (endOf heapBase xs + 16 + sz)
      (endOf heapBase xs + 16 + b.size) (b.size - sz - 16) sz) (xs ++ (carve sz b ys ++ ys)) := by
  have hys : ys ≠ [] := fun hn => hc (Or.inl hn)
  have hgap := carve_gap hc
  have hbs : b.span = 16 + b.size := rfl
  have hlim := h.limit_behind
  have hle := le_endOf (endOf heapBase xs + b.span) ys
  have hend : endOf (endOf heapBase xs) (carve sz b ys) = endOf heapBase xs + b.span :=
    endOf_carve hb
  have hh := h.chain.header_at xs ⟨true, b.size⟩ ys
  have hw := @cut_words m (endOf heapBase xs) (endOf heapBase xs + 16 + sz)
    (endOf heapBase xs + 16 + b.size) (b.size - sz - 16) sz (by omega)
    (by omega) (by omega) (by omega) (by omega)
  refine h.splice (fun _ => hend) ?_ ?_ (by simp) (carve_ne_nil sz b ys) ?_ ?_ ?_ ?_
  · exact Sized.carve (b := ⟨true, b.size⟩) h.sized hpos h8 hb
  · rw [endOf_append, endOf_append, hend]
    exact hlim
  · exact fun y _ hy => cut_outside (by omega) (by omega) (by omega)
  · rw [if_neg hys, hend, carve_cut hc]
    have hx : endOf heapBase xs + (⟨true, sz⟩ : Blk).span = endOf heapBase xs + 16 + sz := by
      simp only [Blk.span, blockSiz]
      omega
    refine ⟨⟨hw.1.1.trans hh.used_eq, hw.1.2.1⟩, ?_, ?_, ?_, trivial⟩
    · rw [hw.1.2.2.2, if_neg (by simp), hx]
    · rw [hx]
      exact ⟨hw.2.1.1, hw.2.1.2.1⟩
    · rw [hx, hw.2.1.2.2.2, if_pos rfl]
      omega
  · rw [hend]
    intro y h1 _ h3
    have hback : ¬ (endOf heapBase xs + b.span + 8 ≤ y ∧ y < endOf heapBase xs + b.span + 12) :=
      fun hc => h3 ⟨hys, hc⟩
    exact cut_outside (by omega) (by omega) (by omega)
  · rw [hend]
    exact Nat.le_refl _

theorem Represents.cut {m : Mem} {xs ys : List Blk} {b : Blk} {sz : Nat}
    (h : Represents m (xs ++ ([⟨true, b.size⟩] ++ ys))) (hpos : 0 < sz) (h8 : sz % 8 = 0)
    (hb : sz ≤ b.size) (hc : ¬ (ys = [] ∨ b.size - sz ≤ blockSiz + 8)) :
    Represents (Kmalloc.cut m (endOf heapBase xs) (endOf heapBase xs + 16 + sz)
      (endOf heapBase xs + 16 + b.size) (b.size - sz - 16) sz) (xs ++ (carve sz b ys ++ ys)) := by
  have hgap := carve_gap hc
  have hbs : b.span = 16 + b.size := rfl
  have hlim := h.toForward.limit_behind
  have hle := le_endOf (endOf heapBase xs + b.span) ys
  have hend : endOf (endOf heapBase xs) (carve sz b ys) = endOf heapBase xs + b.span :=
    endOf_carve hb
  have hp : prev m (endOf heapBase xs) = lastAt 0 heapBase xs := h.back.prev_at _ _ ys
  have hw := @cut_words m (endOf heapBase xs) (endOf heapBase xs + 16 + sz)
    (endOf heapBase xs + 16 + b.size) (b.size - sz - 16) sz (by omega)
    (by omega) (by omega) (by omega) (by omega)
  have hx : endOf heapBase xs + (⟨true, sz⟩ : Blk).span = endOf heapBase xs + 16 + sz := by
    simp only [Blk.span, blockSiz]
    omega
  refine h.splice (h.toForward.cut hpos h8 hb hc) (fun _ => hend) ?_ ?_ ?_ ?_
  · exact fun y _ hy => cut_outside (by omega) (by omega) (by omega)
  · rw [carve_cut hc]
    refine ⟨hw.1.2.2.1.trans hp, ?_, trivial⟩
    rw [hx, hw.2.1.2.2.1]
  · intro _
    have hn : endOf heapBase xs + 16 + b.size = endOf heapBase xs + b.span := by omega
    rw [hend, carve_cut hc, lastAt, lastAt, lastAt, hx, ← hn, hw.2.2]
  · rw [hend]
    exact fun y h1 _ => cut_outside (by omega) (by omega) (by omega)

/-- Marking a free block that is large enough as used and splitting it. -/
theorem Forward.take {m : Mem} {xs ys : List Blk} {b : Blk} {sz : Nat}
    (h : Forward m (xs ++ ([b] ++ ys))) (hpos : 0 < sz) (h8 : sz % 8 = 0) (hb : sz ≤ b.size) :
    ∃ m', split (setUsed m (endOf heapBase xs) 1) (endOf heapBase xs) sz = some m' ∧
      Forward m' (xs ++ (carve sz b ys ++ ys)) ∧
      (Represents m (xs ++ ([b] ++ ys)) → Represents m' (xs ++ (carve sz b ys ++ ys))) ∧
      ∀ y, (y < endOf heapBase xs ∨ endOf heapBase xs + 16 ≤ y) →
        (y < endOf heapBase xs + 16 + sz ∨ endOf heapBase xs + 16 + b.size ≤ y) →
        (ys ≠ [] → y < endOf heapBase xs + b.span + 8 ∨ endOf heapBase xs + b.span + 12 ≤ y) →
        m' y = m y := by
  have hm := h.mark (Nat.lt_of_lt_of_le hpos hb) true
  have hm' := fun hr : Represents m (xs ++ ([b] ++ ys)) =>
    hr.mark (Nat.lt_of_lt_of_le hpos hb) true
  rw [Bool.toNat_true] at hm hm'
  have ha : endOf heapBase xs ≠ 0 := Nat.ne_of_gt (endOf_pos xs)
  have hs : size (setUsed m (endOf heapBase xs) 1) (endOf heapBase xs) = b.size :=
    (hm.chain.header_at xs ⟨true, b.size⟩ ys).size_eq
  have hn := hm.chain.next_at xs ⟨true, b.size⟩ ys
  by_cases hc : ys = [] ∨ b.size - sz ≤ blockSiz + 8
  · have hcarve : carve sz b ys = [⟨true, b.size⟩] := if_pos hc
    rw [hcarve]
    refine ⟨_, split_skip ha hs hb (hc.imp_left fun hys => ?_), hm, hm', fun y h1 _ _ => ?_⟩
    · rw [hn, if_pos hys]
    · exact mark_outside (by omega)
  · have hys : ys ≠ [] := fun hn => hc (Or.inl hn)
    have hgap := carve_gap hc
    have hbs : b.span = 16 + b.size := rfl
    rw [if_neg hys] at hn
    refine ⟨_, split_cut ha hs (hn.trans (by simp only [Blk.span, blockSiz]; omega)) hgap,
      hm.cut hpos h8 hb hc, fun hr => (hm' hr).cut hpos h8 hb hc, fun y h1 h2 h3 => ?_⟩
    have h4 := h3 hys
    rw [cut_outside (by omega) (by omega) (by omega)]
    exact mark_outside (by omega)

end Foos.Kmalloc
