import Foos.HeapTail

/-! The allocator on lists of blocks, and that `kmalloca` in memory refines it: first fit,
else one new block behind the last. -/
namespace Foos.Kmalloc
open ByteMemory Word32

/-- `Placed sz align bs p bs'`: serving `sz` bytes turns `bs` into `bs'`, in the block at `p`. -/
inductive Placed (sz align : Nat) : List Blk → Nat → List Blk → Prop
  | root : align = 0 → heapBase + 16 + sz < 4294967296 →
      Placed sz align [⟨false, 0⟩] heapBase [⟨true, sz⟩]
  | fit {xs b ys} : NoFit sz align heapBase xs → b.Fits sz align (endOf heapBase xs) →
      Placed sz align (xs ++ ([b] ++ ys)) (endOf heapBase xs) (xs ++ (carve sz b ys ++ ys))
  | tail {xs l} : NoFit sz align heapBase (xs ++ [l]) →
      ¬ (xs ++ [l] = [⟨false, 0⟩] ∧ align = 0) → TailOk xs l align sz →
      Placed sz align (xs ++ [l]) (tailAt align (endOf heapBase (xs ++ [l])))
        (xs ++ [widen xs l align, ⟨true, sz⟩])

/-- No byte in the payload of a listed used block is changed. -/
def KeepsUsed (m m' : Mem) (bs : List Blk) : Prop :=
  ∀ x b, (x, b) ∈ placed bs → b.used = true →
    ∀ y, x + 16 ≤ y → y < x + 16 + b.size → m' y = m y

theorem OnlyHeaders.keepsUsed {m m' : Mem} {bs : List Blk} (h : OnlyHeaders m m' bs) :
    KeepsUsed m m' bs := by
  intro x b hx _ y h1 h2
  have hlo := (header_bounds hx).1
  refine h y (by omega) fun z c hz => ?_
  have hapart := header_apart hx hz
  omega

theorem Around.keepsUsed {m m' : Mem} {xs ys : List Blk} {b : Blk} {sz : Nat}
    (h : Around m m' (endOf heapBase xs) sz (endOf heapBase xs + b.span))
    (hb : b.used = false) : KeepsUsed m m' (xs ++ ([b] ++ ys)) := by
  intro x c hx hc y h1 h2
  have hlo := (header_bounds hx).1
  have hcs : c.span = 16 + c.size := rfl
  have hbs : b.span = 16 + b.size := rfl
  have hmid := Tiling.place_middle Blk.span heapBase xs b ys
  have hbehind : y < endOf heapBase xs + b.span ∨ endOf heapBase xs + b.span + 16 ≤ y := by
    cases ys with
    | nil =>
      have hhi := (header_bounds hx).2
      rw [endOf_append, List.append_nil, endOf_cons, endOf_nil] at hhi
      omega
    | cons d ys =>
      have hd := Tiling.place_middle Blk.span heapBase (xs ++ [b]) d ys
      rw [List.append_assoc, Tiling.endAt_append] at hd
      change (endOf heapBase xs + b.span, d) ∈ _ at hd
      have hds : d.span = 16 + d.size := rfl
      have hapart := header_apart hx hd
      omega
  rcases Tiling.place_apart _ hx hmid with he | he | he
  · rw [(Prod.mk.inj he).2, hb] at hc
    exact absurd hc (by decide)
  · exact h y (by simp only [endOf]; omega) (by simp only [endOf]; omega)
      (by simp only [endOf]; omega)
  · exact h y (by simp only [endOf] at *; omega) (by simp only [endOf] at *; omega)
      (by simp only [endOf] at *; omega)

theorem Represents.lookup_root {m : Mem} {sz : Nat} (h : Represents m [⟨false, 0⟩])
    (hpos : 0 < sz) (h8 : sz % 8 = 0) (hroom : heapBase + 16 + sz < 4294967296) :
    ∃ m', (∀ fuel, lookup (fuel + 1) m 0 sz 0 = some (heapBase, m')) ∧
      Represents m' [⟨true, sz⟩] ∧ ∀ y, y < heapBase ∨ heapBase + 8 ≤ y → m' y = m y := by
  have hh := h.chain.header (List.mem_cons_self ..)
  have hn := h.chain.2.1
  have hs : size m heapBase = 0 := hh.size_eq
  have hp := h.back.1
  have hout (y : Nat) (hy : y < heapBase ∨ heapBase + 8 ≤ y) :
      setUsed (setSize m heapBase sz) heapBase 1 y = m y := by
    simp (disch := omega) only [setUsed, setSize, store32_outside]
  refine ⟨setUsed (setSize m heapBase sz) heapBase 1, fun fuel => ?_, ?_, hout⟩
  · have hsmall : ¬ (sz ≤ size m heapBase ∧ used m heapBase = 0) := by
      rw [hs]
      omega
    have hroot : ¬ heapBase = 0 := by decide
    simp only [Kmalloc.lookup, cursor_null, hroot, if_false, hsmall]
    simp only [hs, and_self, if_true]
  · have hend : endOf heapBase [⟨true, sz⟩] = heapBase + 16 + sz := by
      simp only [endOf_cons, endOf_nil, Blk.span, blockSiz]
      omega
    refine ⟨⟨⟨⟨?_, ?_⟩, ?_, trivial⟩, Or.inr ⟨by simp, by simpa using ⟨hpos, h8⟩⟩, ?_, ?_⟩,
      ?_, trivial⟩
    · simp only [used, setUsed, load32_store32]
      rfl
    · simp (disch := omega) only [size, setUsed, setSize, load32_store32_ne, load32_store32]
      exact Nat.mod_eq_of_lt (by omega)
    · rw [if_pos rfl] at hn ⊢
      exact (load32_congr fun y h1 _ => hout y (Or.inr (by omega))).trans hn
    · rw [hend]
      exact hroom
    · rw [hend]
      intro y h1 h2
      rw [hout y (Or.inr (by omega))]
      exact h.tail y (by simp only [endOf_cons, endOf_nil, Blk.span, blockSiz]; omega) h2
    · exact (load32_congr fun y h1 _ => hout y (Or.inr (by omega))).trans hp

/-- `lookup` in memory refines the allocator on lists. -/
theorem Represents.lookup {m : Mem} {bs bs' : List Blk} {sz align p : Nat}
    (h : Represents m bs) (hal : align < 32) (hpos : 0 < sz) (h8 : sz % 8 = 0)
    (hp : Placed sz align bs p bs') :
    ∃ m', (∀ fuel, Kmalloc.lookup (fuel + 1 + bs.length) m 0 sz align = some (p, m')) ∧
      Represents m' bs' ∧ KeepsUsed m m' bs ∧ (∀ y, y < heapBase → m' y = m y) ∧
      ∀ y, p + 16 ≤ y → y < p + 16 + sz → m' y = m y := by
  cases hp with
  | root h0 hroom =>
    subst h0
    obtain ⟨m', hl, hr, hout⟩ := h.lookup_root hpos h8 hroom
    refine ⟨m', fun fuel => hl (fuel + 1), hr, fun x b hx hb => ?_,
      fun y hy => hout y (Or.inl hy), fun y h1 _ => hout y (Or.inr (by omega))⟩
    have he := List.mem_singleton.mp (Tiling.mem_of_place _ hx)
    rw [he] at hb
    exact absurd hb (by decide)
  | @fit xs b ys hn hf =>
    obtain ⟨m', hl, -, hr, haround⟩ := h.toForward.lookup_fit hal hpos h8 hn hf
    have hbase := le_endOf heapBase xs
    have hbs : b.span = 16 + b.size := rfl
    have hsz := hf.2.1
    have hlen (fuel : Nat) : fuel + 1 + (xs ++ ([b] ++ ys)).length =
        fuel + (1 + ys.length) + 1 + xs.length := by
      simp only [List.length_append, List.length_singleton]
      omega
    exact ⟨m', fun fuel => hlen fuel ▸ hl _, hr h, haround.keepsUsed hf.1,
      fun y hy => haround y (by omega) (by omega) (by omega),
      fun y h1 h2 => haround y (by omega) (by omega) (by omega)⟩
  | @tail xs l hn hz ht =>
    obtain ⟨m', hl, hr, hout⟩ := h.lookup_tail hal hpos h8 hn hz ht
    have habove := ht.above
    have hls : l.span = 16 + l.size := rfl
    have hend : endOf heapBase (xs ++ [l]) = endOf heapBase xs + l.span := endOf_append _ _ _
    have hbase := le_endOf heapBase xs
    refine ⟨m', hl, hr, fun x b hx _ y h1 h2 => ?_, fun y hy => hout y (by omega) (by omega),
      fun y h1 _ => ?_⟩
    · have hhi := (header_bounds hx).2
      have hlast := Tiling.place_middle Blk.span heapBase xs l []
      have hbs : b.span = 16 + b.size := rfl
      refine hout y ?_ (Or.inl (by omega))
      have hapart := header_apart hx hlast
      simp only [endOf] at *
      omega
    · exact hout y (by omega) (by omega)

theorem lookup_mono {m : Mem} {fuel blk sz align : Nat} {r : Nat × Mem}
    (h : Kmalloc.lookup fuel m blk sz align = some r) (extra : Nat) :
    Kmalloc.lookup (fuel + extra) m blk sz align = some r := by
  induction fuel generalizing m blk with
  | zero => simp [Kmalloc.lookup] at h
  | succ fuel ih =>
    rw [Nat.succ_add]
    simp only [Kmalloc.lookup] at h ⊢
    split_ifs at h ⊢ <;> first | exact h | exact ih h

theorem lookup_unique {m : Mem} {f g blk sz align : Nat} {r q : Nat × Mem}
    (hf : Kmalloc.lookup f m blk sz align = some r)
    (hg : Kmalloc.lookup g m blk sz align = some q) : r = q := by
  have h1 := lookup_mono hf g
  have h2 := lookup_mono hg f
  rw [Nat.add_comm] at h2
  exact Option.some.inj (h1.symm.trans h2)

theorem roundUp_eq {n : Nat} (h : n ≤ 4294967288) : roundUp n = (n + 7) / 8 * 8 := by
  have hand : n &&& 0x7 = n % 8 := Nat.and_two_pow_sub_one_eq_mod n 3
  simp only [roundUp, hand, Nat.shiftRight_eq_div_pow, Nat.shiftLeft_eq]
  split <;> omega

/-- A block of the chain serves the request: a free one that is large enough and aligned,
or the empty root. -/
def Serves (m : Mem) (sz align : Nat) : Prop :=
  ∃ x, InChain m x ∧
    (used m x = 0 ∧ sz ≤ size m x ∧ (align = 0 ∨ data x % 2 ^ align = 0) ∨
      size m x = 0 ∧ align = 0 ∧ x + 16 + sz < 4294967296)

/-- A new last block would lie behind the old one, leave it a positive size, and end below
the top of memory. -/
def TailRoom (m : Mem) (sz align : Nat) : Prop :=
  ∀ x, InChain m x → next m x = 0 →
    x + 16 + size m x ≤ tailAt align (x + 16 + size m x) ∧
    x + 16 < tailAt align (x + 16 + size m x) ∧
    tailAt align (x + 16 + size m x) + 16 + sz < 4294967296

theorem first_fit {sz align a : Nat} {bs : List Blk} (h : ¬ NoFit sz align a bs) :
    ∃ xs b ys, bs = xs ++ b :: ys ∧ NoFit sz align a xs ∧ b.Fits sz align (endOf a xs) := by
  induction bs generalizing a with
  | nil => exact absurd (fun x b hx => absurd hx (by simp [Tiling.place])) h
  | cons c bs ih =>
    by_cases hc : c.Fits sz align a
    · exact ⟨[], c, bs, rfl, fun x b hx => absurd hx (by simp [Tiling.place]), hc⟩
    · have hrest : ¬ NoFit sz align (a + c.span) bs := by
        refine fun hn => h fun x b hx => ?_
        cases List.mem_cons.mp hx with
        | inl he =>
          obtain ⟨rfl, rfl⟩ := Prod.mk.inj he
          exact hc
        | inr ht => exact hn x b ht
      obtain ⟨xs, b, ys, rfl, hn, hf⟩ := ih hrest
      refine ⟨c :: xs, b, ys, rfl, fun x d hx => ?_, hf⟩
      cases List.mem_cons.mp hx with
      | inl he =>
        obtain ⟨rfl, rfl⟩ := Prod.mk.inj he
        exact hc
      | inr ht => exact hn x d ht

theorem Placed.exists {m : Mem} {bs : List Blk} {sz align : Nat} (h : Forward m bs)
    (hroom : Serves m sz align ∨ TailRoom m sz align) :
    ∃ p bs', Placed sz align bs p bs' := by
  by_cases hfit : NoFit sz align heapBase bs
  · obtain ⟨xs, l, rfl⟩ : ∃ xs l, bs = xs ++ [l] :=
      ⟨_, _, (List.dropLast_append_getLast h.sized.ne_nil).symm⟩
    rcases hroom with ⟨x, hx, ⟨hu, hs, ha⟩ | ⟨hs, rfl, hlim⟩⟩ | htail
    · obtain ⟨b, hb⟩ := h.inChain hx
      have hh := h.chain.header hb
      exact absurd ⟨hh.used_zero.mp hu, hh.size_eq ▸ hs, ha⟩ (hfit x b hb)
    · obtain ⟨b, hb⟩ := h.inChain hx
      have hb0 : b.size = 0 := (h.chain.header hb).size_eq.symm.trans hs
      rcases h.sized with hr | ⟨_, hall⟩
      · rw [hr] at hb ⊢
        have hxb := (Prod.mk.inj (List.mem_singleton.mp hb)).1
        exact ⟨_, _, .root rfl (by omega)⟩
      · have := hall b (Tiling.mem_of_place _ hb)
        omega
    · by_cases hz : xs ++ [l] = [⟨false, 0⟩] ∧ align = 0
      · obtain ⟨hr, rfl⟩ := hz
        have hx := htail _ (h.placed_inChain xs l [] rfl) (by simpa using h.chain.next_at _ _ _)
        have hxs := le_endOf heapBase xs
        rw [hr]
        have ht : tailAt 0 (endOf heapBase xs + 16 + size m (endOf heapBase xs)) = _ :=
          if_pos (Or.inl rfl)
        rw [ht] at hx
        exact ⟨_, _, .root rfl (by omega)⟩
      · have hx := htail _ (h.placed_inChain xs l [] rfl) (by simpa using h.chain.next_at _ _ _)
        have hend : endOf heapBase xs + 16 + size m (endOf heapBase xs) =
            endOf heapBase (xs ++ [l]) := by
          rw [(h.chain.header_at _ _ _).size_eq, endOf_append, endOf_cons, endOf_nil]
          simp only [Blk.span, blockSiz]
          omega
        rw [hend] at hx
        exact ⟨_, _, .tail hfit hz ⟨hx.1, hx.2.1, hx.2.2⟩⟩
  · obtain ⟨xs, b, ys, rfl, hn, hf⟩ := first_fit hfit
    exact ⟨_, _, .fit hn hf⟩

/-- The block that was served is used and large enough. -/
theorem Placed.served {bs bs' : List Blk} {sz align p : Nat} (h : Placed sz align bs p bs') :
    ∃ b, (p, b) ∈ placed bs' ∧ b.used = true ∧ sz ≤ b.size := by
  cases h with
  | root _ _ => exact ⟨⟨true, sz⟩, List.mem_cons_self .., rfl, Nat.le_refl sz⟩
  | @fit xs b ys _ hf =>
    by_cases hc : ys = [] ∨ b.size - sz ≤ blockSiz + 8
    · rw [carve, if_pos hc]
      exact ⟨_, Tiling.place_middle Blk.span heapBase xs _ ys, rfl, hf.2.1⟩
    · rw [carve, if_neg hc]
      exact ⟨_, Tiling.place_middle Blk.span heapBase xs ⟨true, sz⟩ _, rfl, Nat.le_refl sz⟩
  | @tail xs l _ _ ht =>
    have hmid := Tiling.place_middle Blk.span heapBase (xs ++ [widen xs l align]) ⟨true, sz⟩ []
    have hgap := ht.gap
    have hend : Tiling.endAt Blk.span heapBase (xs ++ [widen xs l align]) =
        tailAt align (endOf heapBase (xs ++ [l])) := by
      rw [Tiling.endAt_append]
      simp only [Tiling.endAt, widen, Blk.span, blockSiz, endOf] at *
      omega
    rw [hend] at hmid
    exact ⟨⟨true, sz⟩, by simpa using hmid, rfl, Nat.le_refl sz⟩

/-- A used block keeps its address and use, and never shrinks; it is not the one served. -/
theorem Placed.keeps {bs bs' : List Blk} {sz align p x : Nat} {c : Blk}
    (h : Placed sz align bs p bs') (hx : (x, c) ∈ placed bs) (hc : c.used = true) :
    x ≠ p ∧ ∃ c', (x, c') ∈ placed bs' ∧ c'.used = true ∧ c.size ≤ c'.size := by
  cases h with
  | root _ _ =>
    rw [List.mem_singleton.mp (Tiling.mem_of_place _ hx)] at hc
    exact absurd hc (by decide)
  | @fit xs b ys _ hf =>
    have hmid := Tiling.place_middle Blk.span heapBase xs b ys
    refine ⟨?_, c, ?_, hc, Nat.le_refl _⟩
    · rintro rfl
      rcases Tiling.place_apart _ hx hmid with he | he | he
      · rw [(Prod.mk.inj he).2, hf.1] at hc
        exact absurd hc (by decide)
      · simp only [Blk.span, blockSiz, endOf] at he
        omega
      · simp only [Blk.span, blockSiz, endOf] at he
        omega
    · simp only [placed, Tiling.place_append, List.mem_append] at hx ⊢
      rcases hx with hx | hx | hx
      · exact Or.inl hx
      · rw [List.mem_singleton.mp (Tiling.mem_of_place _ hx), hf.1] at hc
        exact absurd hc (by decide)
      · have he : Tiling.endAt Blk.span (Tiling.endAt Blk.span heapBase xs) (carve sz b ys) =
            Tiling.endAt Blk.span (Tiling.endAt Blk.span heapBase xs) [b] := endOf_carve hf.2.1
        rw [he]
        exact Or.inr (Or.inr hx)
  | @tail xs l _ _ ht =>
    have hhi := (header_bounds hx).2
    have habove := ht.above
    have hls : l.span = 16 + l.size := rfl
    have hend : endOf heapBase (xs ++ [l]) = endOf heapBase xs + l.span := endOf_append _ _ _
    refine ⟨by omega, ?_⟩
    simp only [placed, Tiling.place_append, List.mem_append] at hx ⊢
    cases hx with
    | inl hx => exact ⟨c, Or.inl hx, hc, Nat.le_refl _⟩
    | inr hx =>
      obtain ⟨rfl, hcl⟩ := Prod.mk.inj (List.mem_singleton.mp hx)
      rw [hcl] at hc ⊢
      refine ⟨widen xs l align, Or.inr (List.mem_cons_self ..), hc, ?_⟩
      simp only [widen]
      omega

end Foos.Kmalloc
