import Foos.HeapReuse

/-! What `kfree` does to both directions of the chain, and the block pointers that it goes
through on the way. -/
namespace Foos.Kmalloc
open ByteMemory Word32

/-- The block pointers that `merge` reads or writes a field of. -/
def mergeDerefs (m : Mem) (blk : Nat) : List Nat :=
  if next m blk ≠ 0 ∧ used m (next m blk) = 0 then
    let m₁ := setSize m blk (add32 (size m blk) (add32 blockSiz (size m (next m blk))))
    let m₂ := setNext m₁ blk (next m₁ (next m₁ blk))
    [blk, next m blk, next m₁ blk, next m₂ blk]
  else if next m blk ≠ 0 then [blk, next m blk]
  else [blk]

/-- The block pointers that `kfree` reads or writes a field of, in its merges as well. -/
def kfreeDerefs (k : Machine) (ptr : Nat) : List Nat :=
  let blk := ptr - blockSiz
  let m := setUsed k.mem blk 0
  let p := prev m blk
  if p = 0 then blk :: mergeDerefs m blk
  else if used m p = 0 then blk :: p :: (mergeDerefs m p ++ mergeDerefs (merge m p) blk)
  else blk :: p :: mergeDerefs m blk

theorem mergeDerefs_null {m : Mem} {a : Nat} (ha : a ≠ 0)
    (hn : next m a = 0 ∨ a + 16 ≤ next m a) :
    0 ∈ mergeDerefs m a ↔
      next m a ≠ 0 ∧ used m (next m a) = 0 ∧ next m (next m a) = 0 := by
  unfold mergeDerefs
  by_cases hcond : next m a ≠ 0 ∧ used m (next m a) = 0
  · obtain ⟨hne, hu⟩ := hcond
    have hfar := hn.resolve_left hne
    have h1 (v : Nat) : next (setSize m a v) a = next m a := by
      simp (disch := omega) only [next, setSize, load32_store32_ne]
    have h2 (v : Nat) : next (setSize m a v) (next m a) = next m (next m a) := by
      simp only [next, setSize]
      refine load32_store32_ne _ _ _ _ (Or.inr ?_)
      simp only [next] at hfar
      omega
    have h3 (k : Mem) : next (setNext k a (next m (next m a))) a = next m (next m a) := by
      rw [next, setNext, load32_store32]
      exact Nat.mod_eq_of_lt (load32_lt _ _)
    rw [if_pos ⟨hne, hu⟩]
    simp only [h1, h2, h3, List.mem_cons, List.not_mem_nil, or_false]
    constructor
    · rintro (h | h | h | h)
      · exact absurd h.symm ha
      · exact absurd h.symm hne
      · exact absurd h.symm hne
      · exact ⟨hne, hu, h.symm⟩
    · exact fun h => Or.inr (Or.inr (Or.inr h.2.2.symm))
  · rw [if_neg hcond]
    refine iff_of_false ?_ fun h => hcond ⟨h.1, h.2.1⟩
    split
    · rename_i hne
      simp [ha.symm, hne.symm]
    · simp [ha.symm]

instance (m : Mem) (x : Nat) (b : Blk) : Decidable (Header m x b) :=
  decidable_of_iff (used m x = b.used.toNat ∧ size m x = b.size)
    ⟨fun h => ⟨h.1, h.2⟩, fun h => ⟨h.used_eq, h.size_eq⟩⟩

instance Seg.decidable (m : Mem) (fin : Nat) : ∀ a bs, Decidable (Seg m fin a bs)
  | _, [] => inferInstanceAs (Decidable True)
  | a, b :: bs =>
    have := Seg.decidable m fin (a + b.span) bs
    inferInstanceAs (Decidable (_ ∧ _ ∧ _))

instance Back.decidable (m : Mem) : ∀ p a bs, Decidable (Back m p a bs)
  | _, _, [] => inferInstanceAs (Decidable True)
  | _, a, b :: bs =>
    have := Back.decidable m a (a + b.span) bs
    inferInstanceAs (Decidable (_ ∧ _))

instance (m : Mem) (bs : List Blk) : Decidable (Linked m bs) :=
  decidable_of_iff (Seg m 0 heapBase bs ∧ Back m 0 heapBase bs ∧ endOf heapBase bs ≤ 4294967296)
    ⟨fun h => ⟨h.1, h.2.1, h.2.2⟩, fun h => ⟨h.chain, h.back, h.limit⟩⟩

/-- The pointers of a merge at a header inside `d`, its own or one it has absorbed. -/
theorem Seg.mergeDerefs {m : Mem} {xs ys : List Blk} {d : Blk} {a : Nat}
    (h : Seg m 0 heapBase (xs ++ d :: ys)) (ha : endOf heapBase xs ≤ a)
    (hd : a + 16 ≤ endOf heapBase xs + d.span)
    (hn : next m a = linkTo (endOf heapBase xs + d.span) ys) :
    0 ∈ Kmalloc.mergeDerefs m a ↔ ∃ c, ys = [c] ∧ c.used = false := by
  have hpos := endOf_pos xs
  rw [mergeDerefs_null (by omega) ?_, hn]
  · cases ys with
    | nil => simp [linkTo]
    | cons c zs =>
      obtain ⟨-, -, hc, hl⟩ := h.merge_reads d c zs
      rw [linkTo, if_neg (by simp), hc.used_zero, hl]
      cases zs with
      | nil =>
        simp only [linkTo, if_true, and_true, List.cons.injEq]
        refine ⟨fun h => ⟨c, rfl, h.2⟩, fun h => ?_⟩
        obtain ⟨e, he, hu⟩ := h
        exact ⟨by omega, he ▸ hu⟩
      | cons e zs =>
        rw [linkTo, if_neg (by simp)]
        simp only [List.cons.injEq, reduceCtorEq, and_false, false_and, exists_false, iff_false]
        omega
  · rw [hn]
    unfold linkTo
    split
    · exact Or.inl rfl
    · exact Or.inr hd

theorem Linked.kfreeDerefs_alone {k : Machine} {xs ys : List Blk} {b : Blk}
    (h : Linked k.mem (xs ++ b :: ys)) (hxs : ∀ p, xs.getLast? = some p → p.used = true) :
    0 ∈ kfreeDerefs k (data (endOf heapBase xs)) ↔ ∃ c, ys = [c] ∧ c.used = false := by
  have hm : Linked (setUsed k.mem (endOf heapBase xs) 0) (xs ++ ⟨false, b.size⟩ :: ys) :=
    Linked.mark (show Linked k.mem (xs ++ ([b] ++ ys)) from h) false
  have hpos := endOf_pos xs
  have hbs : (⟨false, b.size⟩ : Blk).span = 16 + b.size := rfl
  have hpred : ¬ (prev (setUsed k.mem (endOf heapBase xs) 0) (endOf heapBase xs) ≠ 0 ∧
      used (setUsed k.mem (endOf heapBase xs) 0)
        (prev (setUsed k.mem (endOf heapBase xs) 0) (endOf heapBase xs)) = 0) := by
    rw [hm.pred_free]
    rintro ⟨p, hp, hu⟩
    simp [hxs p hp] at hu
  rw [← hm.chain.mergeDerefs (Nat.le_refl _) (by omega) (hm.chain.next_at _ _ _)]
  have hblk : data (endOf heapBase xs) - blockSiz = endOf heapBase xs := Nat.add_sub_cancel _ _
  simp only [kfreeDerefs, hblk]
  split
  · simp [hpos.ne]
  · rename_i hp
    rw [if_neg fun hu => hpred ⟨hp, hu⟩]
    simp [hpos.ne, Ne.symm hp]

theorem Linked.kfreeDerefs_joins {k : Machine} {xs ys : List Blk} {p b : Blk}
    (h : Linked k.mem (xs ++ p :: b :: ys)) (hp : p.used = false) :
    0 ∈ kfreeDerefs k (data (endOf heapBase xs + p.span)) ↔
      ys = [] ∨ ∃ c, ys = [c] ∧ c.used = false := by
  have hm := h.mark_second
  obtain ⟨hjoin, hstale, hlink⟩ := h.joined hp
  have hpos := endOf_pos xs
  have hps : p.span = 16 + p.size := rfl
  have hblk : data (endOf heapBase xs + p.span) - blockSiz = endOf heapBase xs + p.span :=
    Nat.add_sub_cancel _ _
  have hu := (hm.chain.merge_reads p ⟨false, b.size⟩ ys).2.1.used_zero.mpr hp
  simp only [kfreeDerefs, hblk, hm.back.second, hpos.ne', hu, if_true, if_false]
  have h1 : 0 ∈ mergeDerefs (setUsed k.mem (endOf heapBase xs + p.span) 0) (endOf heapBase xs) ↔
      ys = [] := by
    refine (hm.chain.mergeDerefs (Nat.le_refl _) (by omega) (hm.chain.next_at xs p _)).trans ?_
    simp
  have h2 := hjoin.chain.mergeDerefs (by omega) (by omega) hlink
  have ha : ¬ 0 = endOf heapBase xs + p.span := by omega
  simp only [List.mem_cons, List.mem_append, h1, h2, ha, hpos.ne, false_or]

/-- Memory holds at most one chain from an address. -/
theorem Seg.unique {m : Mem} {a : Nat} {bs cs : List Blk} (hb : Seg m 0 a bs) (hc : Seg m 0 a cs)
    (hbs : bs ≠ []) (hcs : cs ≠ []) : bs = cs := by
  induction bs generalizing a cs with
  | nil => exact absurd rfl hbs
  | cons b bs ih =>
    obtain ⟨c, cs, rfl⟩ := List.exists_cons_of_ne_nil hcs
    obtain ⟨hh, hn, hrest⟩ := hb
    obtain ⟨hh', hn', hrest'⟩ := hc
    have hu := hh.used_eq.symm.trans hh'.used_eq
    have hs := hh.size_eq.symm.trans hh'.size_eq
    obtain rfl : b = c := by
      obtain ⟨u, s⟩ := b
      obtain ⟨v, t⟩ := c
      cases u <;> cases v <;> simp_all
    have hspan : b.span = 16 + b.size := rfl
    have hnil : bs = [] ↔ cs = [] := by
      rw [hn] at hn'
      split_ifs at hn' with h1 h2 h2
      · exact iff_of_true h1 h2
      · omega
      · omega
      · exact iff_of_false h1 h2
    by_cases h1 : bs = []
    · rw [h1, hnil.mp h1]
    · rw [ih hrest hrest' h1 fun h2 => h1 (hnil.mpr h2)]

/-- The back link that the second merge writes when the first one has absorbed the header. -/
theorem Linked.stale_prev {m : Mem} {xs zs : List Blk} {d c e : Blk} {a : Nat}
    (h : Linked m (xs ++ d :: c :: e :: zs))
    (hd : endOf heapBase xs + d.span = a + 16 + size m a)
    (hn : next m a = linkTo (endOf heapBase xs + d.span) (c :: e :: zs)) (hc : c.used = false) :
    prev (Kmalloc.merge m a) (endOf heapBase xs + d.span + c.span) = a := by
  obtain ⟨-, -, hhc, hl⟩ := h.chain.merge_reads d c (e :: zs)
  have hlim := h.limit
  rw [endOf_append, endOf_cons, endOf_cons, endOf_cons] at hlim
  have hle := le_endOf (endOf heapBase xs + d.span + c.span + e.span) zs
  have hcs : c.span = 16 + c.size := rfl
  rw [linkTo, if_neg (by simp)] at hn hl
  rw [Kmalloc.merge_eq (by omega) hn (hhc.used_zero.mpr hc) rfl hhc.size_eq hl (by omega), prev,
    setPrev, load32_store32]
  exact Nat.mod_eq_of_lt (by omega)

/-- The space of the block at `a` lies in a free block of the list. -/
def Covered (bs : List Blk) (a : Nat) (b : Blk) : Prop :=
  ∃ z c, (z, c) ∈ placed bs ∧ c.used = false ∧ z ≤ a ∧ a + b.span ≤ z + c.span

theorem release_covers (xs : List Blk) (b : Blk) (ys : List Blk) :
    Covered (release xs b ys) (endOf heapBase xs) b := by
  by_cases hlast : ∀ p, xs.getLast? = some p → p.used = true
  · rw [release_alone b ys hlast]
    obtain ⟨d, zs, he, hu, hs⟩ := absorb_shape ⟨false, b.size⟩ ys
    rw [he]
    exact ⟨_, d, Tiling.place_middle Blk.span heapBase xs d zs, hu, Nat.le_refl _,
      Nat.add_le_add_left (Nat.add_le_add_left hs _) _⟩
  · push Not at hlast
    obtain ⟨p, hp, hpu⟩ := hlast
    obtain ⟨us, rfl⟩ := List.getLast?_eq_some_iff.mp hp
    rw [release_joins us b ys (by simpa using hpu), endOf_append, endOf_cons, endOf_nil]
    refine ⟨_, _, Tiling.place_middle Blk.span heapBase us _ ys, rfl, Nat.le_add_right _ _, ?_⟩
    simp only [endOf, Blk.span, blockSiz]
    omega

/-- The heap after `b` between `xs` and `ys` was freed: linked over the same range, `b` in a
free block, and the other used blocks where they were. -/
structure Freed (m m' : Mem) (xs : List Blk) (b : Blk) (ys bs : List Blk) : Prop where
  linked : Linked m' bs
  range : endOf heapBase bs = endOf heapBase (xs ++ b :: ys)
  covered : Covered bs (endOf heapBase xs) b
  others : ∀ x c, (x, c) ∈ placed (xs ++ b :: ys) → c.used = true → x ≠ endOf heapBase xs →
    (x, c) ∈ placed bs ∧ ∀ y, x + 16 ≤ y → y < x + 16 + c.size → m' y = m y

/-- `kfree` of `b` frees it, and meets no NULL block pointer on the way. -/
def FreedWell (k : Machine) (xs : List Blk) (b : Blk) (ys : List Blk) : Prop :=
  (∃ k' bs, kfree k (data (endOf heapBase xs)) = some k' ∧ Freed k.mem k'.mem xs b ys bs) ∧
    0 ∉ kfreeDerefs k (data (endOf heapBase xs))

/-- A free predecessor needs a used successor behind the block, and the last block is not a free
successor. -/
def Sheltered (xs ys : List Blk) : Prop :=
  (∀ p, xs.getLast? = some p → p.used = false → ∃ c zs, ys = c :: zs ∧ c.used = true) ∧
    ∀ c, ys = [c] → c.used = true

theorem Linked.freed {k : Machine} {xs ys : List Blk} {b : Blk} {m' : Mem}
    (hk : kfree k (data (endOf heapBase xs)) = some ⟨m', k.errno⟩)
    (hl : Linked m' (release xs b ys)) (hout : OnlyHeadersOrNull k.mem m' (xs ++ b :: ys)) :
    ∃ k' bs, kfree k (data (endOf heapBase xs)) = some k' ∧ Freed k.mem k'.mem xs b ys bs :=
  ⟨_, _, hk, hl, endOf_release xs b ys, release_covers xs b ys,
    fun x c hx hc hne => ⟨release_keeps hx hc hne, hout.onlyHeaders.keepsUsed x c hx hc⟩⟩

theorem Linked.freed_alone {k : Machine} {xs ys : List Blk} {b : Blk}
    (h : Linked k.mem (xs ++ b :: ys)) (hxs : ∀ p, xs.getLast? = some p → p.used = true) :
    ∃ k' bs, kfree k (data (endOf heapBase xs)) = some k' ∧ Freed k.mem k'.mem xs b ys bs := by
  have hm : Linked (setUsed k.mem (endOf heapBase xs) 0) (xs ++ ⟨false, b.size⟩ :: ys) :=
    Linked.mark (show Linked k.mem (xs ++ ([b] ++ ys)) from h) false
  refine Linked.freed (h.kfree_alone hxs) ?_ h.alone_frame
  rw [release_alone b ys hxs]
  exact hm.merge_absorb

/-- With a used successor the second merge does nothing. -/
theorem Linked.freed_joins {k : Machine} {xs zs : List Blk} {p b c : Blk}
    (h : Linked k.mem (xs ++ p :: b :: c :: zs)) (hp : p.used = false) (hc : c.used = true) :
    ∃ k' bs, kfree k (data (endOf heapBase (xs ++ [p]))) = some k' ∧
      Freed k.mem k'.mem (xs ++ [p]) b (c :: zs) bs := by
  have hend : endOf heapBase (xs ++ [p]) = endOf heapBase xs + p.span := endOf_append _ _ _
  obtain ⟨hjoin, -, hlink⟩ := h.joined hp
  have hhc := (hjoin.chain.merge_reads _ c zs).2.2.1
  set m₁ := Kmalloc.merge (setUsed k.mem (endOf heapBase xs + p.span) 0) (endOf heapBase xs)
  have hused : used m₁ (next m₁ (endOf heapBase xs + p.span)) ≠ 0 := by
    rw [hlink, linkTo, if_neg (by simp), hhc.used_eq, hc]
    decide
  have hskip := merge_skip (Or.inr hused)
  have hout := h.joins_frame hp
  have hk := h.kfree_joins hp
  rw [hskip] at hk hout
  rw [← hend] at hk
  refine Linked.freed hk ?_ (by simpa using hout)
  rw [release_joins xs b _ hp]
  exact hjoin

/-- Between two free blocks, the back link behind the successor ends up inside the predecessor. -/
theorem Linked.not_freed {k : Machine} {xs zs : List Blk} {p b c e : Blk}
    (h : Linked k.mem (xs ++ p :: b :: c :: e :: zs)) (hp : p.used = false) (hc : c.used = false) :
    ¬ ∃ k' bs, kfree k (data (endOf heapBase (xs ++ [p]))) = some k' ∧
      Freed k.mem k'.mem (xs ++ [p]) b (c :: e :: zs) bs := by
  rintro ⟨k', bs, hk, hf⟩
  have hend : endOf heapBase (xs ++ [p]) = endOf heapBase xs + p.span := endOf_append _ _ _
  have hps : p.span = 16 + p.size := rfl
  obtain ⟨hjoin, hstale, hlink⟩ := h.joined hp
  rw [hend, h.kfree_joins hp] at hk
  obtain rfl := Option.some.inj hk
  have hseg := hjoin.chain.stale_merge hjoin.limit (by omega) hstale hlink
  have hbs : bs ≠ [] := by
    rintro rfl
    obtain ⟨z, d, hd, -⟩ := hf.covered
    simp [Tiling.place] at hd
  obtain rfl := hf.linked.chain.unique hseg hbs (by simp)
  have hback := hf.linked.back
  rw [show xs ++ ⟨false, p.size + b.span⟩ :: c :: e :: zs =
    (xs ++ [⟨false, p.size + b.span⟩]) ++ ([c, e] ++ zs) by simp] at hback
  have hprev := hback.second
  rw [endOf_append, endOf_cons, endOf_nil, hjoin.stale_prev hstale hlink hc] at hprev
  omega

/-- `kfree` of a block keeps the chain, frees the block and goes through no NULL pointer exactly
when a free predecessor comes with a used successor, and a free successor is not the last block. -/
theorem kfree_links_iff {k : Machine} {xs ys : List Blk} {b : Blk}
    (h : Linked k.mem (xs ++ b :: ys)) : FreedWell k xs b ys ↔ Sheltered xs ys := by
  have hnone : (¬ ∃ c, ys = [c] ∧ c.used = false) ↔ ∀ c, ys = [c] → c.used = true := by
    simp only [not_exists, not_and, Bool.not_eq_false]
  by_cases hxs : ∀ p, xs.getLast? = some p → p.used = true
  · rw [FreedWell, and_iff_right (h.freed_alone hxs), h.kfreeDerefs_alone hxs, hnone, Sheltered]
    refine (and_iff_right fun p hp hu => ?_).symm
    simp [hxs p hp] at hu
  · push Not at hxs
    obtain ⟨p, hlast, hpu⟩ := hxs
    have hp : p.used = false := by simpa using hpu
    obtain ⟨us, rfl⟩ := List.getLast?_eq_some_iff.mp hlast
    rw [List.append_assoc] at h
    have hend : endOf heapBase (us ++ [p]) = endOf heapBase us + p.span := endOf_append _ _ _
    have hderefs := h.kfreeDerefs_joins hp
    rw [← hend] at hderefs
    rw [FreedWell, hderefs, not_or, hnone, Sheltered]
    constructor
    · rintro ⟨hf, hne, hone⟩
      refine ⟨fun _ _ _ => ?_, hone⟩
      obtain ⟨c, zs, rfl⟩ := List.exists_cons_of_ne_nil hne
      by_contra hc
      have hcu : c.used = false := by simpa using hc
      cases zs with
      | nil => simp [hone c rfl] at hcu
      | cons e zs => exact h.not_freed hp hcu hf
    · rintro ⟨hsucc, hone⟩
      obtain ⟨c, zs, rfl, hc⟩ := hsucc p hlast hp
      exact ⟨h.freed_joins hp hc, by simp, hone⟩

/-- Three allocations, of which the first is freed. -/
theorem kfree_links_iff_second : ∃ k : Machine, Linked k.mem [⟨false, 8⟩, ⟨true, 8⟩, ⟨true, 8⟩] ∧
    FreedWell k [⟨false, 8⟩] ⟨true, 8⟩ [⟨true, 8⟩] := by
  have hrun : (trace 5 zeroed [.kmalloc 8, .kmalloc 8, .kmalloc 8, .kfree 0x400010]).any
      (fun r => decide (Linked r.2.k.mem [⟨false, 8⟩, ⟨true, 8⟩, ⟨true, 8⟩])) = true := by
    decide +kernel
  obtain ⟨⟨tr, t⟩, -, h⟩ := Option.any_eq_true _ _ |>.mp hrun
  have hl : Linked t.k.mem ([⟨false, 8⟩] ++ ⟨true, 8⟩ :: [⟨true, 8⟩]) := of_decide_eq_true h
  exact ⟨t.k, hl, (kfree_links_iff hl).mpr ⟨fun _ _ _ => ⟨_, _, rfl, rfl⟩, by simp⟩⟩

/-- Two allocations, of which the second is freed: `kfree` of the first writes `prev` of NULL. -/
theorem kfree_links_fails : ¬ ∀ (k : Machine) (xs : List Blk) (b : Blk) (ys : List Blk),
    Linked k.mem (xs ++ b :: ys) → b.used = true → FreedWell k xs b ys := by
  intro hclaim
  have hrun : (trace 5 zeroed [.kmalloc 8, .kmalloc 8, .kfree 0x400028]).any
      (fun r => decide (Linked r.2.k.mem [⟨true, 8⟩, ⟨false, 8⟩])) = true := by
    decide +kernel
  obtain ⟨⟨tr, t⟩, -, h⟩ := Option.any_eq_true _ _ |>.mp hrun
  have hl : Linked t.k.mem ([] ++ ⟨true, 8⟩ :: [⟨false, 8⟩]) := of_decide_eq_true h
  exact (hclaim t.k [] ⟨true, 8⟩ [⟨false, 8⟩] hl rfl).2
    ((hl.kfreeDerefs_alone (by simp)).mpr ⟨_, rfl, rfl⟩)

end Foos.Kmalloc
