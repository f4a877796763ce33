import Foos.HeapSplice

/-! What `merge` and `kfree` do to the list of blocks. -/
namespace Foos.Kmalloc
open ByteMemory Word32

/-- The link a block carries when `ys` follows it and ends at `e`. -/
def linkTo (e : Nat) (ys : List Blk) : Nat := if ys = [] then 0 else e

theorem linkTo_bounds (e : Nat) (ys : List Blk) :
    linkTo e ys + 12 ≤ heapBase ∨ linkTo e ys = e := by
  unfold linkTo
  split
  · exact Or.inl (by decide)
  · exact Or.inr rfl

theorem merge_skip {m : Mem} {blk : Nat} (h : next m blk = 0 ∨ used m (next m blk) ≠ 0) :
    merge m blk = m := by
  unfold merge
  rw [if_neg]
  rintro ⟨h1, h2⟩
  exact h.elim h1 fun h => h h2

theorem merge_eq {m : Mem} {a n l s t : Nat} (han : a + 16 ≤ n) (hn : next m a = n)
    (hu : used m n = 0) (hs : size m a = s) (ht : size m n = t) (hl : next m n = l)
    (hlim : s + (16 + t) < 4294967296) :
    merge m a = setPrev (setNext (setSize m a (s + (16 + t))) a l) l a := by
  have hl32 : l < 4294967296 := hl ▸ load32_lt _ _
  have ht' : add32 blockSiz t = 16 + t := add32_of_lt (by simp only [blockSiz]; omega)
  have hsz : add32 s (add32 blockSiz t) = s + (16 + t) := by
    rw [ht', add32_of_lt hlim]
  have h1 (v : Nat) : next (setSize m a v) a = n := by
    rw [← hn]
    simp (disch := omega) only [next, setSize, load32_store32_ne]
  have h2 (v : Nat) : next (setSize m a v) n = l := by
    rw [← hl]
    simp (disch := omega) only [next, setSize, load32_store32_ne]
  have h3 (k : Mem) : next (setNext k a l) a = l := by
    rw [next, setNext, load32_store32, Nat.mod_eq_of_lt hl32]
  have hne : n ≠ 0 := by omega
  simp only [merge, hn, hu, hs, ht, hsz, h1, h2, h3]
  simp [hne]

/-- The header words after a merge; the link `l` points away from the header. -/
theorem merge_words {m : Mem} {a l s : Nat} (hs : s < 4294967296) (hl : l < 4294967296)
    (hal : l + 12 ≤ a ∨ a + 16 ≤ l) :
    let m' := setPrev (setNext (setSize m a s) a l) l a
    used m' a = used m a ∧ size m' a = s ∧ prev m' a = prev m a ∧ next m' a = l := by
  simp only [used, size, prev, next, setSize, setNext, setPrev]
  refine ⟨?_, ?_, ?_, ?_⟩ <;>
    simp (disch := omega) only [load32_store32_ne, load32_store32, Nat.mod_eq_of_lt hs,
      Nat.mod_eq_of_lt hl]

theorem merge_outside {m : Mem} {a l s y : Nat} (ha : y < a ∨ a + 16 ≤ y)
    (hl : y < l + 8 ∨ l + 12 ≤ y) :
    setPrev (setNext (setSize m a s) a l) l a y = m y := by
  simp (disch := omega) only [setSize, setNext, setPrev, store32_outside]

theorem Sized.merge {xs ys : List Blk} {b c d : Blk} (h : Sized (xs ++ ([b, c] ++ ys)))
    (hd : d.size = b.size + c.span) : Sized (xs ++ ([d] ++ ys)) := by
  rcases h with h | ⟨_, hall⟩
  · have hlen := congrArg List.length h
    simp at hlen
    omega
  · refine Or.inr ⟨by simp, fun e he => ?_⟩
    have hb := hall b (by simp)
    have hc := hall c (by simp)
    have hmem : e ∈ xs ∨ e = d ∨ e ∈ ys := by simpa using he
    rcases hmem with hx | rfl | hy
    · exact hall e (by simp [hx])
    · rw [hd, Blk.span, blockSiz]
      omega
    · exact hall e (by simp [hy])

/-- The words that decide a merge, read off the list. -/
theorem Seg.merge_reads {m : Mem} {xs : List Blk} (b c : Blk) (ys : List Blk)
    (h : Seg m 0 heapBase (xs ++ ([b, c] ++ ys))) :
    next m (endOf heapBase xs) = endOf heapBase xs + b.span ∧
    Header m (endOf heapBase xs) b ∧
    Header m (endOf heapBase xs + b.span) c ∧
    next m (endOf heapBase xs + b.span) =
      linkTo (endOf heapBase xs + b.span + c.span) ys := by
  have hn := h.next_at xs b (c :: ys)
  have hh := h.header_at xs b (c :: ys)
  have hsplit : xs ++ ([b, c] ++ ys) = (xs ++ [b]) ++ c :: ys := by simp
  rw [hsplit] at h
  have hn' := h.next_at _ _ _
  have hh' := h.header_at _ _ _
  simp only [endOf_append, endOf_cons, endOf_nil] at hn' hh'
  exact ⟨by simpa using hn, hh, hh', hn'⟩

theorem Forward.merge_reads {m : Mem} {xs : List Blk} (b c : Blk) (ys : List Blk)
    (h : Forward m (xs ++ ([b, c] ++ ys))) :
    next m (endOf heapBase xs) = endOf heapBase xs + b.span ∧
    Header m (endOf heapBase xs) b ∧
    Header m (endOf heapBase xs + b.span) c ∧
    next m (endOf heapBase xs + b.span) =
      linkTo (endOf heapBase xs + b.span + c.span) ys :=
  h.chain.merge_reads b c ys

theorem Seg.merge_eq {m : Mem} {xs ys : List Blk} {b c : Blk}
    (h : Seg m 0 heapBase (xs ++ ([b, c] ++ ys)))
    (hlim : endOf heapBase (xs ++ ([b, c] ++ ys)) ≤ 4294967296) (hc : c.used = false) :
    merge m (endOf heapBase xs) =
      setPrev (setNext (setSize m (endOf heapBase xs) (b.size + c.span)) (endOf heapBase xs)
        (linkTo (endOf heapBase xs + b.span + c.span) ys))
        (linkTo (endOf heapBase xs + b.span + c.span) ys) (endOf heapBase xs) := by
  obtain ⟨hn, hb, hc', hl⟩ := h.merge_reads b c ys
  have hle := le_endOf (endOf heapBase xs + b.span + c.span) ys
  have hpos := endOf_pos xs
  rw [endOf_append, endOf_append, endOf_cons, endOf_cons, endOf_nil] at hlim
  simp only [Blk.span, blockSiz] at hle hlim ⊢
  exact Kmalloc.merge_eq (by simp only [Blk.span, blockSiz]; omega) hn
    (hc'.used_zero.mpr hc) hb.size_eq hc'.size_eq
    (by simpa [Blk.span, blockSiz] using hl) (by omega)

/-- A block at NULL would have its back link below the heap. -/
theorem null_below {y : Nat} (hy : heapBase ≤ y) : 12 ≤ y := Nat.le_trans (by decide) hy

/-- A merge writes the header it extends and the back link behind the absorbed block. -/
theorem Seg.merge_frame {m : Mem} {xs : List Blk} (b c : Blk) (ys : List Blk)
    (h : Seg m 0 heapBase (xs ++ ([b, c] ++ ys)))
    (hlim : endOf heapBase (xs ++ ([b, c] ++ ys)) ≤ 4294967296) (hc : c.used = false) {y : Nat}
    (hy : 12 ≤ y) (ha : y < endOf heapBase xs ∨ endOf heapBase xs + 16 ≤ y)
    (hl : ys ≠ [] → y < endOf heapBase xs + b.span + c.span + 8 ∨
      endOf heapBase xs + b.span + c.span + 12 ≤ y) :
    Kmalloc.merge m (endOf heapBase xs) y = m y := by
  rw [h.merge_eq hlim hc]
  refine merge_outside ha ?_
  by_cases hys : ys = []
  · rw [linkTo, if_pos hys]
    omega
  · rw [linkTo, if_neg hys]
    exact hl hys

theorem endOf_merged (a : Nat) (u : Bool) (b c : Blk) :
    endOf a [⟨u, b.size + c.span⟩] = endOf a [b, c] := by
  simp only [endOf_cons, endOf_nil, Blk.span, blockSiz]
  omega

/-- The header that a merge extends. -/
theorem Seg.merge_header {m : Mem} {xs : List Blk} (b c : Blk) (ys : List Blk)
    (h : Seg m 0 heapBase (xs ++ ([b, c] ++ ys)))
    (hlim : endOf heapBase (xs ++ ([b, c] ++ ys)) ≤ 4294967296) (hc : c.used = false) :
    let m' := Kmalloc.merge m (endOf heapBase xs)
    used m' (endOf heapBase xs) = used m (endOf heapBase xs) ∧
      size m' (endOf heapBase xs) = b.size + c.span ∧
      prev m' (endOf heapBase xs) = prev m (endOf heapBase xs) ∧
      next m' (endOf heapBase xs) = linkTo (endOf heapBase xs + b.span + c.span) ys := by
  have hn := (h.merge_reads b c ys).2.2.2
  have hlink := linkTo_bounds (endOf heapBase xs + b.span + c.span) ys
  have hbase := le_endOf heapBase xs
  have hle := le_endOf (endOf heapBase xs + b.span + c.span) ys
  have hbs : b.span = 16 + b.size := rfl
  have hcs : c.span = 16 + c.size := rfl
  have hpos := endOf_pos xs
  rw [h.merge_eq hlim hc]
  rw [endOf_append, endOf_append, endOf_cons, endOf_cons, endOf_nil] at hlim
  exact merge_words (by omega) (hn ▸ load32_lt _ _) (by omega)

theorem Seg.merge {m : Mem} {xs : List Blk} (b c : Blk) (ys : List Blk)
    (h : Seg m 0 heapBase (xs ++ ([b, c] ++ ys)))
    (hlim : endOf heapBase (xs ++ ([b, c] ++ ys)) ≤ 4294967296) (hc : c.used = false) :
    Seg (Kmalloc.merge m (endOf heapBase xs)) 0 heapBase
      (xs ++ ([⟨b.used, b.size + c.span⟩] ++ ys)) := by
  have hb := (h.merge_reads b c ys).2.1
  have hwords := h.merge_header b c ys hlim hc
  have hend := endOf_merged (endOf heapBase xs) b.used b c
  have hb2 : endOf (endOf heapBase xs) [b, c] = endOf heapBase xs + b.span + c.span := rfl
  have hbs : b.span = 16 + b.size := rfl
  have hbase := le_endOf heapBase xs
  refine h.splice (fun _ => hend) ?_ (by simp) (by simp) ?_ ?_ ?_
  · rw [endOf_append, endOf_append, hend, ← endOf_append, ← endOf_append]
    exact hlim
  · exact fun y hy hy' => h.merge_frame b c ys hlim hc (null_below hy) (by omega) fun _ => by omega
  · rw [hend, hb2]
    exact ⟨⟨hwords.1.trans hb.used_eq, hwords.2.1⟩, hwords.2.2.2, trivial⟩
  · rw [hend, hb2]
    intro y h1 _ h3
    refine h.merge_frame b c ys hlim hc (null_below (by omega)) (by omega) fun hys => ?_
    have hback : ¬ (endOf heapBase xs + b.span + c.span + 8 ≤ y ∧
        y < endOf heapBase xs + b.span + c.span + 12) := fun hc => h3 ⟨hys, hc⟩
    omega

theorem Back.merge {m : Mem} {xs : List Blk} (b c : Blk) (ys : List Blk)
    (h : Back m 0 heapBase (xs ++ ([b, c] ++ ys)))
    (hs : Seg m 0 heapBase (xs ++ ([b, c] ++ ys)))
    (hlim : endOf heapBase (xs ++ ([b, c] ++ ys)) ≤ 4294967296) (hc : c.used = false) :
    Back (Kmalloc.merge m (endOf heapBase xs)) 0 heapBase
      (xs ++ ([⟨b.used, b.size + c.span⟩] ++ ys)) := by
  have hprev : prev m (endOf heapBase xs) = lastAt 0 heapBase xs := h.prev_at _ _ (c :: ys)
  have hwords := hs.merge_header b c ys hlim hc
  have hend := endOf_merged (endOf heapBase xs) b.used b c
  have hb2 : endOf (endOf heapBase xs) [b, c] = endOf heapBase xs + b.span + c.span := rfl
  have hbs : b.span = 16 + b.size := rfl
  have hbase := le_endOf heapBase xs
  refine h.splice (fun _ => hend) ?_ ?_ ?_ ?_ ?_
  · rw [endOf_append, endOf_append, hend, ← endOf_append, ← endOf_append]
    exact hlim
  · exact fun y hy hy' => hs.merge_frame b c ys hlim hc (null_below hy) (by omega) fun _ => by omega
  · exact ⟨hwords.2.2.1.trans hprev, trivial⟩
  · intro hys
    rw [endOf_append, endOf_append, hb2] at hlim
    have hle := le_endOf (endOf heapBase xs + b.span + c.span) ys
    rw [hend, hb2, hs.merge_eq (by rw [endOf_append, endOf_append, hb2]; exact hlim) hc, linkTo,
      if_neg hys, lastAt, lastAt, prev, setPrev, load32_store32]
    exact Nat.mod_eq_of_lt (by omega)
  · rw [hend, hb2]
    exact fun y h1 _ => hs.merge_frame b c ys hlim hc (null_below (by omega)) (by omega) fun _ => by omega

theorem Forward.merge {m : Mem} {xs : List Blk} (b c : Blk) (ys : List Blk)
    (h : Forward m (xs ++ ([b, c] ++ ys))) (hc : c.used = false) :
    Forward (merge m (endOf heapBase xs)) (xs ++ ([⟨b.used, b.size + c.span⟩] ++ ys)) := by
  have hlim := Nat.le_of_lt h.limit
  have hend : endOf heapBase (xs ++ ([⟨b.used, b.size + c.span⟩] ++ ys)) =
      endOf heapBase (xs ++ ([b, c] ++ ys)) := by
    rw [endOf_append, endOf_append, endOf_merged, ← endOf_append, ← endOf_append]
  refine ⟨h.chain.merge b c ys hlim hc, h.sized.merge rfl, hend ▸ h.limit, fun y hy hy32 => ?_⟩
  rw [hend] at hy
  rw [← h.tail y hy hy32]
  rw [endOf_append, endOf_append, endOf_cons, endOf_cons, endOf_nil] at hy
  have hle := le_endOf (endOf heapBase xs + b.span + c.span) ys
  have hbase := le_endOf heapBase xs
  have hbs : b.span = 16 + b.size := rfl
  refine h.chain.merge_frame b c ys hlim hc (null_below (by omega)) (by omega) fun hys => Or.inr ?_
  obtain ⟨d, zs, rfl⟩ := List.exists_cons_of_ne_nil hys
  have hle' := le_endOf (endOf heapBase xs + b.span + c.span + d.span) zs
  have hds : d.span = 16 + d.size := rfl
  rw [endOf_cons] at hy
  omega

theorem Represents.merge {m : Mem} {xs : List Blk} (b c : Blk) (ys : List Blk)
    (h : Represents m (xs ++ ([b, c] ++ ys))) (hc : c.used = false) :
    Represents (merge m (endOf heapBase xs)) (xs ++ ([⟨b.used, b.size + c.span⟩] ++ ys)) :=
  ⟨h.toForward.merge b c ys hc, h.back.merge b c ys h.chain (Nat.le_of_lt h.limit) hc⟩

end Foos.Kmalloc
