import Foos.HeapSupply

/-! Where `lookup` lands when nothing fits. An alignment can put the new header into the last
eight bytes of the old last block, and then the payload word found there decides what
happens next. -/
namespace Foos.Kmalloc
open ByteMemory Word32

variable {m : Mem} {xs bs : List Blk} {l : Blk} {sz align e a s t : Nat}

theorem eight_dvd_pow (h : 3 ≤ align) : 2 ^ align % 8 = 0 :=
  Nat.mod_eq_zero_of_dvd (pow_dvd_pow 2 h : 2 ^ 3 ∣ 2 ^ align)

/-- The header lands below the old end only if that is eight below a multiple of the
alignment. -/
theorem tailAt_low_iff (he : e % 8 = 0) (h16 : 16 ≤ e) :
    tailAt align e < e ↔ 4 ≤ align ∧ e % 2 ^ align = 2 ^ align - 8 := by
  have hmod := Nat.mod_lt e (Nat.two_pow_pos align)
  have hle := Nat.mod_le e (2 ^ align)
  by_cases hal : 4 ≤ align
  · have h8 := eight_dvd_pow (show 3 ≤ align by omega)
    have hp : 2 ^ 4 ≤ 2 ^ align := Nat.pow_le_pow_right (show 0 < 2 by decide) hal
    have hr : e % 2 ^ align % 8 = 0 := by
      rw [Nat.mod_mod_of_dvd _ (Nat.dvd_of_mod_eq_zero h8)]
      exact he
    unfold tailAt
    split
    · rename_i hstay
      refine iff_of_false (Nat.lt_irrefl e) ?_
      rintro ⟨-, hlow⟩
      obtain h0 | hdata := hstay
      · omega
      · have hsum : 2 ^ align - 8 + 16 = 2 ^ align + 8 := by omega
        rw [data, ← Nat.mod_add_mod, hlow, hsum, Nat.add_mod_left,
          Nat.mod_eq_of_lt (by omega)] at hdata
        exact absurd hdata (by decide)
    · omega
  · refine iff_of_false ?_ fun h => hal h.1
    have hstay : align = 0 ∨ data e % 2 ^ align = 0 := by
      refine Or.inr (Nat.mod_eq_zero_of_dvd ?_)
      have h3 : 2 ^ align ∣ 2 ^ 3 := pow_dvd_pow 2 (by omega)
      exact h3.trans (Nat.dvd_of_mod_eq_zero (by simp only [data]; omega))
    rw [tailAt, if_pos hstay]
    exact Nat.lt_irrefl e

theorem tailAt_low (he : e % 8 = 0) (hlow : tailAt align e < e) :
    tailAt align e + 8 = e := by
  have hlt := lt_tailAt align e
  have h8 := tailAt_mod8 align he
  omega

theorem le_tailAt (align : Nat) (he : e % 8 = 0) : e ≤ tailAt align e + 8 := by
  have hlt := lt_tailAt align e
  have h8 := tailAt_mod8 align he
  omega

/-- The payload behind the new header is aligned, wherever it lands. -/
theorem data_tailAt (h16 : 16 ≤ e) : align = 0 ∨ data (tailAt align e) % 2 ^ align = 0 := by
  unfold tailAt
  split
  · assumption
  · have hmod := Nat.mod_lt e (Nat.two_pow_pos align)
    have hle := Nat.mod_le e (2 ^ align)
    have hup : data (e - e % 2 ^ align + 2 ^ align - 16) = e - e % 2 ^ align + 2 ^ align := by
      simp only [data]
      omega
    rw [hup, Nat.add_mod_right]
    exact Or.inr (Nat.mod_eq_zero_of_dvd (Nat.dvd_sub_mod e))

/-- A header whose `used` word is zero is taken at once. -/
theorem lookup_taken (fuel : Nat) (hal : align < 32) (ha : a ≠ 0) (hc : cursor m a = 0)
    (hs : size m a = s) (ht : tailAt align (a + 16 + s) = t) (hlo : a + 16 ≤ t)
    (hlim : t + 16 < 4294967296) (hz : sz < 4294967296) (hu : used m t = 0)
    (hn : next m t = 0) :
    lookup (fuel + 1) m a sz align = some (t, setUsed (link m a t sz) t 1) := by
  obtain ⟨⟨-, -, -, hna⟩, hu', hs', -, hn'⟩ := link_words (m := m) hlo (by omega) hz
  have happ : append m a sz align = link m a t sz := by
    subst ht
    exact append_at hal hs hlo hlim
  have hcur : cursor (link m a t sz) a = t := (if_neg ha).trans hna
  have hcond : sz ≤ size (link m a t sz) t ∧ used (link m a t sz) t = 0 :=
    ⟨Nat.le_of_eq hs'.symm, hu'.trans hu⟩
  have hmis : ¬ (align ≠ 0 ∧ data t % shl32 1 align ≠ 0) := by
    have hdata : align = 0 ∨ data (tailAt align (a + 16 + s)) % 2 ^ align = 0 :=
      data_tailAt (by omega)
    rw [shl32_one hal, ← ht]
    tauto
  have hlast : next (setUsed (link m a t sz) t 1) t = 0 :=
    (mark_words (by decide)).2.2.2.trans (hn'.trans hn)
  have hsplit : split (setUsed (link m a t sz) t 1) t sz =
      some (setUsed (link m a t sz) t 1) := by
    simp only [split, if_neg (show ¬ t = 0 by omega), if_pos (Or.inl hlast)]
  simp only [lookup, hc, if_true, happ, hcur, if_pos hcond, if_neg hmis, hsplit]
  rfl

/-- Behind a header whose `used` word is not zero, the search goes on. -/
theorem lookup_again (fuel : Nat) (hal : align < 32) (ha : a ≠ 0) (hc : cursor m a = 0)
    (hs : size m a = s) (ht : tailAt align (a + 16 + s) = t) (hlo : a + 16 ≤ t)
    (hlim : t + 16 < 4294967296) (hpos : 0 < sz) (hz : sz < 4294967296) (hu : used m t ≠ 0) :
    lookup (fuel + 1) m a sz align = lookup fuel (link m a t sz) t sz align := by
  obtain ⟨⟨-, -, -, hna⟩, hu', hs', -, -⟩ := link_words (m := m) hlo (by omega) hz
  have happ : append m a sz align = link m a t sz := by
    subst ht
    exact append_at hal hs hlo hlim
  have hcur : cursor (link m a t sz) a = t := (if_neg ha).trans hna
  have hcond : ¬ (sz ≤ size (link m a t sz) t ∧ used (link m a t sz) t = 0) :=
    fun h => hu (hu'.symm.trans h.2)
  have hsize : ¬ (size (link m a t sz) t = 0 ∧ align = 0) := fun h => by omega
  simp only [lookup, hc, if_true, happ, hcur, if_neg hcond, if_neg hsize]

/-- Memory behind the call when the block is put at `t` and taken. -/
def taken (m : Mem) (a t sz : Nat) : Mem := setUsed (link m a t sz) t 1

theorem taken_words (hat : a + 16 ≤ t) (ht : t < 4294967296) (hz : sz < 4294967296) :
    (used (taken m a t sz) a = used m a ∧ size (taken m a t sz) a = t - a - 16 ∧
      next (taken m a t sz) a = t) ∧
    used (taken m a t sz) t = 1 ∧ size (taken m a t sz) t = sz := by
  obtain ⟨⟨hu, hs, -, hn⟩, -, hs', -, -⟩ := link_words (m := m) hat ht hz
  obtain ⟨hmu, hms, -, -⟩ := mark_words (m := link m a t sz) (a := t) (v := 1) (by decide)
  have hword (b : Nat) (hb : b + 4 ≤ t) :
      load32 (taken m a t sz) b = load32 (link m a t sz) b :=
    load32_congr fun y _ h2 => mark_outside (by omega)
  exact ⟨⟨(hword _ (by omega)).trans hu, (hword _ (by omega)).trans hs,
    (hword _ (by omega)).trans hn⟩, hmu, hms.trans hs'⟩

theorem taken_outside {y : Nat} (h1 : y < a ∨ a + 16 ≤ y) (h2 : y < t ∨ t + 12 ≤ y) :
    taken m a t sz y = m y := by
  rw [taken, mark_outside (by omega), link_outside h1 (by omega)]

/-- A heap whose blocks do not serve the request, and where it puts the new header. -/
structure Lands (m : Mem) (xs : List Blk) (l : Blk) (sz align t : Nat) : Prop where
  heap : Represents m (xs ++ [l])
  noFit : NoFit sz align heapBase (xs ++ [l])
  used : ¬ (xs ++ [l] = [⟨false, 0⟩] ∧ align = 0)
  eq : tailAt align (endOf heapBase (xs ++ [l])) = t
  top : t + 16 < 4294967296
  small : align < 32
  pos : 0 < sz
  mod8 : sz % 8 = 0
  word : sz < 4294967296

theorem Lands.end_eq (_ : Lands m xs l sz align t) :
    endOf heapBase (xs ++ [l]) = endOf heapBase xs + 16 + l.size := by
  rw [endOf_append, endOf_cons, endOf_nil, Blk.span, blockSiz]
  omega

/-- A header that lands low takes the last eight bytes of the old last block. -/
theorem Lands.low (h : Lands m xs l sz align t) (hlow : t < endOf heapBase (xs ++ [l])) :
    8 ≤ l.size ∧ t + 8 = endOf heapBase (xs ++ [l]) := by
  have hend := h.heap.sized.all_mod8
  have hbase := le_endOf heapBase (xs ++ [l])
  have h16 : 16 ≤ heapBase := by decide
  rw [← h.eq] at hlow ⊢
  refine ⟨?_, tailAt_low hend hlow⟩
  rcases h.heap.sized with hr | ⟨-, hall⟩
  · -- the empty root ends at a multiple of sixteen
    obtain ⟨hal, hrem⟩ := (tailAt_low_iff hend (by omega)).mp hlow
    have hp : 2 ^ align % 16 = 0 := Nat.mod_eq_zero_of_dvd (pow_dvd_pow 2 hal : 2 ^ 4 ∣ 2 ^ align)
    have hpos : 2 ^ 4 ≤ 2 ^ align := Nat.pow_le_pow_right (show 0 < 2 by decide) hal
    have he : endOf heapBase (xs ++ [l]) % 16 = 0 := by
      rw [hr]
      decide
    rw [← Nat.mod_mod_of_dvd _ (Nat.dvd_of_mod_eq_zero hp), hrem] at he
    omega
  · have := hall l (by simp)
    omega

theorem Lands.above (h : Lands m xs l sz align t) : endOf heapBase xs + 16 ≤ t := by
  have hend := h.end_eq
  by_cases hlow : t < endOf heapBase (xs ++ [l])
  · have := h.low hlow
    omega
  · omega

theorem Lands.tail_word (h : Lands m xs l sz align t) {y : Nat}
    (h1 : endOf heapBase (xs ++ [l]) ≤ y) (h2 : y + 4 ≤ 4294967296) : load32 m y = 0 :=
  load32_zero fun z hz1 hz2 => h.heap.tail z (by omega) (by omega)

/-- At or above the old end the new header is zero. -/
theorem Lands.fresh (h : Lands m xs l sz align t) (hlow : ¬ t < endOf heapBase (xs ++ [l])) :
    Kmalloc.used m t = 0 :=
  h.tail_word (by omega) (by have := h.top; omega)

theorem Lands.next_zero (h : Lands m xs l sz align t) : next m t = 0 := by
  have hle := le_tailAt align h.heap.sized.all_mod8
  rw [h.eq] at hle
  exact h.tail_word (by omega) (by have := h.top; omega)

theorem Lands.take (h : Lands m xs l sz align t) (hu : Kmalloc.used m t = 0) (fuel : Nat) :
    lookup (fuel + 1 + (xs ++ [l]).length) m 0 sz align =
      some (t, taken m (endOf heapBase xs) t sz) := by
  obtain ⟨hwalk, hcur⟩ := h.heap.toForward.lookup_last h.small h.noFit h.used
  have hs := (h.heap.chain.header_at xs l []).size_eq
  have ht := h.eq
  rw [h.end_eq] at ht
  rw [hwalk]
  exact lookup_taken fuel h.small (Nat.ne_of_gt (endOf_pos xs)) hcur hs ht h.above h.top h.word hu
    h.next_zero

/-- A second new header lies clear of the first. -/
theorem Lands.far (h : Lands m xs l sz align t) : t + 16 ≤ tailAt align (t + 16 + sz) := by
  have hpos := h.pos
  have h8 := h.mod8
  have hend := tailAt_mod8 align h.heap.sized.all_mod8
  rw [h.eq] at hend
  have := le_tailAt align (show (t + 16 + sz) % 8 = 0 by omega)
  omega

/-- A payload word that is not zero sends the search to a second new block. -/
theorem Lands.skip (h : Lands m xs l sz align t) (hu : Kmalloc.used m t ≠ 0) {t₂ : Nat}
    (ht₂ : tailAt align (t + 16 + sz) = t₂) (hlim : t₂ + 16 < 4294967296) (fuel : Nat) :
    lookup (fuel + 2 + (xs ++ [l]).length) m 0 sz align =
      some (t₂, taken (link m (endOf heapBase xs) t sz) t t₂ sz) := by
  obtain ⟨hwalk, hcur⟩ := h.heap.toForward.lookup_last h.small h.noFit h.used
  have hs := (h.heap.chain.header_at xs l []).size_eq
  have ht := h.eq
  rw [h.end_eq] at ht
  have hlow : t < endOf heapBase (xs ++ [l]) := by
    by_contra hno
    exact hu (h.fresh hno)
  have heq := (h.low hlow).2
  have hfar : t + 16 ≤ t₂ := ht₂ ▸ h.far
  obtain ⟨-, -, hs', -, hn'⟩ := link_words (m := m) h.above
    (show t < 4294967296 by omega) h.word
  have hword (y : Nat) (h1 : t₂ ≤ y) (h2 : y + 4 ≤ t₂ + 16) :
      load32 (link m (endOf heapBase xs) t sz) y = 0 := by
    have habove := h.above
    rw [← h.tail_word (y := y) (by omega) (by omega)]
    exact load32_congr fun z h1 h2 => link_outside (by omega) (by omega)
  have hagain := lookup_again (fuel + 1) h.small (Nat.ne_of_gt (endOf_pos xs)) hcur hs ht h.above
    h.top h.pos h.word hu
  have ht0 : t ≠ 0 := Nat.ne_of_gt (Nat.lt_of_lt_of_le (Nat.succ_pos _) h.above)
  have hcur' : cursor (link m (endOf heapBase xs) t sz) t = 0 :=
    (if_neg ht0).trans (hn'.trans h.next_zero)
  rw [show fuel + 2 = (fuel + 1) + 1 from rfl, hwalk, hagain]
  exact lookup_taken fuel h.small ht0 hcur' hs' ht₂ hfar hlim h.word
    (hword t₂ (Nat.le_refl _) (by omega)) (hword (t₂ + 12) (by omega) (by omega))

theorem kmalloca_of_lookup {k : Machine} {fuel n p : Nat} {m' : Mem} (hn : 0 < n) (hp : p ≠ 0)
    (h : lookup fuel k.mem 0 (roundUp n) align = some (p, m')) :
    kmalloca fuel k n align = some (data p, ⟨m', k.errno⟩) := by
  have hroot : ¬ root = 0 := by decide
  simp only [kmalloca, if_neg hroot, if_neg (Nat.ne_of_gt hn), h, if_neg hp]

theorem kmalloca_unique {k : Machine} {f g n : Nat} {r q : Nat × Machine}
    (hf : kmalloca f k n align = some r) (hg : kmalloca g k n align = some q) : r = q := by
  simp only [kmalloca] at hf hg
  split_ifs at hf hg
  · exact Option.some.inj (hf.symm.trans hg)
  · cases hl : lookup f k.mem 0 (roundUp n) align with
    | none => simp [hl] at hf
    | some u =>
      cases hl' : lookup g k.mem 0 (roundUp n) align with
      | none => simp [hl'] at hg
      | some v =>
        obtain rfl := lookup_unique hl hl'
        rw [hl] at hf
        rw [hl'] at hg
        exact Option.some.inj (hf.symm.trans hg)

end Foos.Kmalloc
