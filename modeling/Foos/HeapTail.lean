import Foos.HeapLookup

/-! A new last block: `lookup` found nothing that fits and puts a header behind the old
last block, higher up when an alignment asks for it. The gap goes to the old last block. -/
namespace Foos.Kmalloc
open ByteMemory Word32

theorem next_setNext {m : Mem} {a v : Nat} (hv : v < 4294967296) :
    next (setNext m a v) a = v := by
  rw [next, setNext, load32_store32, Nat.mod_eq_of_lt hv]

/-- The stores of `append`, its intermediate values for `blk->next` left out. -/
def link (m : Mem) (a t sz : Nat) : Mem :=
  setSize (setPrev (setSize (setNext m a t) a (t - a - 16)) t a) t sz

theorem lt_tailAt (align e : Nat) : e < tailAt align e + 16 := by
  unfold tailAt
  split
  · exact Nat.lt_add_of_pos_right (by decide)
  · have hmod := Nat.mod_lt e (Nat.two_pow_pos align)
    omega

/-- `append` above the header of the old last block, also where it cuts into its payload. -/
theorem append_at {m : Mem} {a s sz align : Nat} (hal : align < 32) (hs : size m a = s)
    (hlo : a + 16 ≤ tailAt align (a + 16 + s))
    (hlim : tailAt align (a + 16 + s) + 16 < 4294967296) :
    append m a sz align = link m a (tailAt align (a + 16 + s)) sz := by
  have hle := lt_tailAt align (a + 16 + s)
  have hend : add32 (add32 a blockSiz) s = a + 16 + s := by
    have hin : add32 a blockSiz = a + 16 := add32_of_lt (by simp only [blockSiz]; omega)
    rw [hin, add32_of_lt (by omega)]
  have hnx (k : Mem) : next (setNext k a (a + 16 + s)) a = a + 16 + s := next_setNext (by omega)
  by_cases hmv : align = 0 ∨ data (a + 16 + s) % 2 ^ align = 0
  · have ht : tailAt align (a + 16 + s) = a + 16 + s := if_pos hmv
    have hstay : ¬ (align ≠ 0 ∧ data (a + 16 + s) % shl32 1 align ≠ 0) := by
      rw [shl32_one hal]
      tauto
    have hsame : setSize (setNext m a (a + 16 + s)) a (a + 16 + s - a - 16) =
        setNext m a (a + 16 + s) := by
      have hsz : a + 16 + s - a - 16 = load32 (setNext m a (a + 16 + s)) (a + 4) := by
        rw [setNext, load32_store32_ne _ _ _ _ (by omega)]
        change _ = size m a
        omega
      rw [hsz, setSize, store32_load32]
    simp only [append, hs, hend, hnx, if_neg hstay, link, ht, hsame]
    congr 1
    simp (disch := omega) only [next, setPrev, load32_store32_ne]
    exact hnx m
  · have ht : tailAt align (a + 16 + s) =
        a + 16 + s - (a + 16 + s) % 2 ^ align + 2 ^ align - 16 := if_neg hmv
    have hmove : align ≠ 0 ∧ data (a + 16 + s) % 2 ^ align ≠ 0 := by tauto
    have hmask : a + 16 + s &&& shl32 0xFFFFFFFF align =
        a + 16 + s - (a + 16 + s) % 2 ^ align := and_shl32_ones (by omega) hal
    generalize hr : a + 16 + s - (a + 16 + s) % 2 ^ align = r at *
    have hpow : 0 < 2 ^ align := Nat.two_pow_pos align
    have hup : sub32 (add32 r (2 ^ align)) blockSiz = tailAt align (a + 16 + s) := by
      rw [add32_of_lt (by omega), blockSiz, sub32_of_le (by omega) (by omega)]
      omega
    generalize tailAt align (a + 16 + s) = t at *
    have hgap : sub32 t (data a) = t - a - 16 := by
      rw [sub32_of_le (by simp only [data]; omega) (by omega), data]
      omega
    have hr' (k : Mem) : next (setNext k a r) a = r := next_setNext (by omega)
    have ht' (k : Mem) : next (setNext k a t) a = t := next_setNext (by omega)
    have htw (k : Mem) (u v : Nat) : setNext (setNext k a u) a v = setNext k a v :=
      store32_twice _ _ _ _
    have ht'' (k : Mem) (v : Nat) : next (setSize (setNext k a t) a v) a = t := by
      refine Eq.trans ?_ (ht' k)
      simp (disch := omega) only [next, setSize, load32_store32_ne]
    have ht3 (k : Mem) (v : Nat) :
        next (setPrev (setSize (setNext k a t) a v) t a) a = t := by
      refine Eq.trans ?_ (ht'' k v)
      simp (disch := omega) only [next, setPrev, load32_store32_ne]
    simp only [append, hs, hend, hnx, if_pos hmove, hmask, hr', shl32_one hal, hup, htw, ht', hgap,
      ht'', ht3, link]

theorem append_eq {m : Mem} {a s sz align : Nat} (hal : align < 32) (hs : size m a = s)
    (hle : a + 16 + s ≤ tailAt align (a + 16 + s))
    (hlim : tailAt align (a + 16 + s) + 16 < 4294967296) :
    append m a sz align = link m a (tailAt align (a + 16 + s)) sz :=
  append_at hal hs (by omega) hlim

theorem link_outside {m : Mem} {a t sz y : Nat} (h1 : y < a ∨ a + 16 ≤ y)
    (h2 : y < t + 4 ∨ t + 12 ≤ y) : link m a t sz y = m y := by
  simp (disch := omega) only [link, setSize, setNext, setPrev, store32_outside]

theorem link_words {m : Mem} {a t sz : Nat} (hat : a + 16 ≤ t) (ht : t < 4294967296)
    (hz : sz < 4294967296) :
    let m' := link m a t sz
    (used m' a = used m a ∧ size m' a = t - a - 16 ∧ prev m' a = prev m a ∧ next m' a = t) ∧
    used m' t = used m t ∧ size m' t = sz ∧ prev m' t = a ∧ next m' t = next m t := by
  have ha : a < 4294967296 := by omega
  have hg : t - a - 16 < 4294967296 := by omega
  simp only [link, used, size, prev, next, setSize, setNext, setPrev]
  refine ⟨⟨?_, ?_, ?_, ?_⟩, ?_, ?_, ?_, ?_⟩ <;>
    simp (disch := omega) only [load32_store32_ne, load32_store32, Nat.mod_eq_of_lt ht,
      Nat.mod_eq_of_lt hz, Nat.mod_eq_of_lt ha, Nat.mod_eq_of_lt hg]

theorem tailAt_aligned {align e : Nat} (he : 0 < e) (h : e ≤ tailAt align e) :
    data (tailAt align e) % 2 ^ align = 0 := by
  unfold tailAt at h ⊢
  split at h
  · rename_i hmv
    rw [if_pos hmv]
    cases hmv with
    | inl heq =>
      obtain rfl := heq
      exact Nat.mod_one _
    | inr hd => exact hd
  · rename_i hmv
    rw [if_neg hmv]
    have hle := Nat.mod_le e (2 ^ align)
    have hpow := Nat.two_pow_pos align
    have hup : data (e - e % 2 ^ align + 2 ^ align - 16) = e - e % 2 ^ align + 2 ^ align := by
      simp only [data]
      omega
    rw [hup, Nat.add_mod_right]
    exact Nat.mod_eq_zero_of_dvd (Nat.dvd_sub_mod e)

/-- The new block is behind the old end, and the old last block keeps a proper size. -/
structure TailOk (xs : List Blk) (l : Blk) (align sz : Nat) : Prop where
  above : endOf heapBase (xs ++ [l]) ≤ tailAt align (endOf heapBase (xs ++ [l]))
  gap : endOf heapBase xs + 16 < tailAt align (endOf heapBase (xs ++ [l]))
  room : tailAt align (endOf heapBase (xs ++ [l])) + 16 + sz < 4294967296

def widen (xs : List Blk) (l : Blk) (align : Nat) : Blk :=
  ⟨l.used, tailAt align (endOf heapBase (xs ++ [l])) - endOf heapBase xs - 16⟩

theorem endOf_mod8 {a : Nat} {bs : List Blk} (ha : a % 8 = 0) (h : ∀ b ∈ bs, b.size % 8 = 0) :
    endOf a bs % 8 = 0 := by
  induction bs generalizing a with
  | nil => exact ha
  | cons b bs ih =>
    have hb := h b (List.mem_cons_self ..)
    refine ih ?_ fun c hc => h c (List.mem_cons_of_mem _ hc)
    simp only [Blk.span, blockSiz]
    omega

theorem tailAt_mod8 (align : Nat) {e : Nat} (he : e % 8 = 0) : tailAt align e % 8 = 0 := by
  unfold tailAt
  split
  · exact he
  · rename_i hmv
    have h8 : 8 ∣ 2 ^ align := by
      by_contra hn
      have hlt : align < 3 := by
        by_contra hge
        exact hn (pow_dvd_pow 2 (by omega : 3 ≤ align))
      refine hmv (Or.inr (Nat.mod_eq_zero_of_dvd ?_))
      have h3 : 2 ^ align ∣ 2 ^ 3 := pow_dvd_pow 2 (by omega)
      exact h3.trans (Nat.dvd_of_mod_eq_zero (by simp only [data]; omega))
    have hle := Nat.mod_le e (2 ^ align)
    have hd : 8 ∣ e - e % 2 ^ align := h8.trans (Nat.dvd_sub_mod e)
    omega

theorem Sized.all_mod8 {bs : List Blk} (h : Sized bs) : endOf heapBase bs % 8 = 0 :=
  endOf_mod8 (by decide) fun _ hb => h.mod8 hb

theorem Sized.tail {xs : List Blk} {l : Blk} {align sz : Nat} (h : Sized (xs ++ [l]))
    (ht : TailOk xs l align sz) (hpos : 0 < sz) (h8 : sz % 8 = 0) (u : Bool) :
    Sized (xs ++ [widen xs l align, ⟨u, sz⟩]) := by
  have hend := tailAt_mod8 align h.all_mod8
  have hxs : endOf heapBase xs % 8 = 0 :=
    endOf_mod8 (by decide) fun b hb => h.mod8 (by simp [hb])
  have hgap := ht.gap
  refine Or.inr ⟨by simp, fun e he => ?_⟩
  have hmem : e ∈ xs ∨ e = widen xs l align ∨ e = ⟨u, sz⟩ := by simpa using he
  rcases hmem with hx | rfl | rfl
  · rcases h with hr | ⟨_, hall⟩
    · have hlen := congrArg List.length hr
      have hne := List.length_pos_of_mem hx
      simp only [List.length_append, List.length_singleton] at hlen
      omega
    · exact hall e (by simp [hx])
  · simp only [widen]
    omega
  · exact ⟨hpos, h8⟩

theorem Represents.link {m : Mem} {xs : List Blk} {l : Blk} {align sz : Nat}
    (h : Represents m (xs ++ [l])) (ht : TailOk xs l align sz) (hpos : 0 < sz)
    (h8 : sz % 8 = 0) :
    Represents (Kmalloc.link m (endOf heapBase xs) (tailAt align (endOf heapBase (xs ++ [l]))) sz)
      (xs ++ [widen xs l align, ⟨false, sz⟩]) := by
  have hs := h.sized.tail ht hpos h8 false
  obtain ⟨habove, hgap, hroom⟩ := ht
  have hls : l.span = 16 + l.size := rfl
  have hold : endOf heapBase (xs ++ [l]) = endOf heapBase xs + l.span := endOf_append _ _ _
  have htail := h.tail
  have hh := h.chain.header_at xs l []
  have hp : prev m (endOf heapBase xs) = lastAt 0 heapBase xs := h.back.prev_at _ _ []
  unfold widen at hs ⊢
  rw [hold] at habove hgap hroom htail hs ⊢
  generalize tailAt align (endOf heapBase xs + l.span) = t at *
  have hw := @link_words m (endOf heapBase xs) t sz (by omega)
    (by omega) (by omega)
  have hfresh (y : Nat) (h1 : t ≤ y) (h2 : y < t + 16) : m y = 0 :=
    htail y (by omega) (by omega)
  have hu : used m t = 0 := load32_zero fun y h1 h2 => hfresh y h1 (by omega)
  have hn : next m t = 0 := load32_zero fun y h1 h2 => hfresh y (by omega) (by omega)
  have hmid : endOf heapBase xs + (⟨l.used, t - endOf heapBase xs - 16⟩ : Blk).span = t := by
    simp only [Blk.span, blockSiz]
    omega
  have hend : endOf (endOf heapBase xs) [⟨l.used, t - endOf heapBase xs - 16⟩, ⟨false, sz⟩] =
      t + 16 + sz := by
    rw [endOf_cons, hmid]
    simp only [endOf_cons, endOf_nil, Blk.span, blockSiz]
    omega
  have hf : Forward (Kmalloc.link m (endOf heapBase xs) t sz)
      (xs ++ ([⟨l.used, t - endOf heapBase xs - 16⟩, ⟨false, sz⟩] ++ [])) := by
    refine Forward.splice (show Forward m (xs ++ ([l] ++ [])) by simpa using h.toForward) (by simp)
      (by simpa using hs) ?_ (by simp) (by simp) ?_ ?_ ?_ ?_
    · rw [endOf_append, List.append_nil, hend]
      exact hroom
    · exact fun y _ hy => link_outside (by omega) (by omega)
    · rw [if_pos rfl]
      refine ⟨⟨hw.1.1.trans hh.used_eq, hw.1.2.1⟩, ?_, ?_, ?_, trivial⟩
      · rw [hw.1.2.2.2, if_neg (by simp), hmid]
      · rw [hmid]
        exact ⟨hw.2.1.trans hu, hw.2.2.1⟩
      · rw [hmid, hw.2.2.2.2, hn, if_pos rfl]
    · rw [hend]
      exact fun y h1 _ _ => link_outside (by omega) (by omega)
    · rw [hend, endOf_cons, endOf_nil]
      omega
  have hr : Represents (Kmalloc.link m (endOf heapBase xs) t sz)
      (xs ++ ([⟨l.used, t - endOf heapBase xs - 16⟩, ⟨false, sz⟩] ++ [])) := by
    refine Represents.splice (show Represents m (xs ++ ([l] ++ [])) by simpa using h) hf (by simp)
      ?_ ?_ (by simp) ?_
    · exact fun y _ hy => link_outside (by omega) (by omega)
    · refine ⟨hw.1.2.2.1.trans hp, ?_, trivial⟩
      rw [hmid, hw.2.2.2.1]
    · rw [hend]
      exact fun y h1 _ => link_outside (by omega) (by omega)
  simpa using hr

/-- When nothing fits, the walk arrives at the last block. -/
theorem Forward.lookup_last {m : Mem} {xs : List Blk} {l : Blk} {sz align : Nat}
    (h : Forward m (xs ++ [l])) (hal : align < 32) (hn : NoFit sz align heapBase (xs ++ [l]))
    (hz : ¬ (xs ++ [l] = [⟨false, 0⟩] ∧ align = 0)) :
    (∀ fuel, lookup (fuel + 1 + (xs ++ [l]).length) m 0 sz align =
      lookup (fuel + 1) m (endOf heapBase xs) sz align) ∧ cursor m (endOf heapBase xs) = 0 := by
  have hnz : ∀ c ∈ xs ++ [l], ¬ (c.size = 0 ∧ align = 0) := by
    rintro c hc ⟨h1, h2⟩
    rcases h.sized with hr | ⟨_, hall⟩
    · exact hz ⟨hr, h2⟩
    · have := hall c hc
      omega
  have hwalk (fuel : Nat) := lookup_walk (fuel + 1) hal (xs ++ [l]) [] (cursor_null m)
    (by decide) (by simpa using h.chain) hn hnz
  simp only [lastAt_append] at hwalk
  refine ⟨fun fuel => (hwalk fuel).1, ?_⟩
  rw [(hwalk 0).2, if_pos (by simp)]

/-- Nothing fits: one block is put behind the last. -/
theorem Represents.lookup_tail {m : Mem} {xs : List Blk} {l : Blk} {sz align : Nat}
    (h : Represents m (xs ++ [l])) (hal : align < 32) (hpos : 0 < sz) (h8 : sz % 8 = 0)
    (hn : NoFit sz align heapBase (xs ++ [l])) (hz : ¬ (xs ++ [l] = [⟨false, 0⟩] ∧ align = 0))
    (ht : TailOk xs l align sz) :
    ∃ m', (∀ fuel, lookup (fuel + 1 + (xs ++ [l]).length) m 0 sz align =
        some (tailAt align (endOf heapBase (xs ++ [l])), m')) ∧
      Represents m' (xs ++ [widen xs l align, ⟨true, sz⟩]) ∧
      ∀ y, (y < endOf heapBase xs ∨ endOf heapBase xs + 16 ≤ y) →
        (y < tailAt align (endOf heapBase (xs ++ [l])) ∨
          tailAt align (endOf heapBase (xs ++ [l])) + 16 ≤ y) → m' y = m y := by
  have hls : l.span = 16 + l.size := rfl
  have hold : endOf heapBase (xs ++ [l]) = endOf heapBase xs + 16 + l.size := by
    rw [endOf_append, endOf_cons, endOf_nil]
    omega
  have hlink := h.link ht hpos h8
  have hh := h.chain.header_at xs l []
  obtain ⟨hwalk, hcur⟩ := h.toForward.lookup_last hal hn hz
  obtain ⟨habove, hgap, hroom⟩ := ht
  have happ : append m (endOf heapBase xs) sz align =
      Kmalloc.link m (endOf heapBase xs) (tailAt align (endOf heapBase (xs ++ [l]))) sz := by
    rw [hold] at habove hroom ⊢
    exact append_eq hal hh.size_eq habove (by omega)
  have hmid : endOf heapBase (xs ++ [widen xs l align]) =
      tailAt align (endOf heapBase (xs ++ [l])) := by
    rw [endOf_append, endOf_cons, endOf_nil]
    simp only [widen, Blk.span, blockSiz]
    omega
  have hdata : data (tailAt align (endOf heapBase (xs ++ [l]))) % 2 ^ align = 0 :=
    tailAt_aligned (endOf_pos _) habove
  have hpos' : endOf heapBase xs ≠ 0 := Nat.ne_of_gt (endOf_pos xs)
  -- the new block, as the step that follows `append` sees it
  have hl2 : Represents (Kmalloc.link m (endOf heapBase xs)
      (tailAt align (endOf heapBase (xs ++ [l]))) sz)
      ((xs ++ [widen xs l align]) ++ ([⟨false, sz⟩] ++ [])) := by simpa using hlink
  have hnew := hl2.chain.header_at _ _ _
  have hnx := hlink.chain.next_at xs (widen xs l align) [⟨false, sz⟩]
  rw [if_neg (by simp)] at hnx
  replace hnx := hnx.trans ((endOf_append heapBase xs [widen xs l align]).symm.trans hmid)
  obtain ⟨m', hsplit, -, hrep, hframe⟩ := hl2.toForward.take hpos h8 (Nat.le_refl sz)
  rw [hmid] at hnew hsplit hframe
  generalize tailAt align (endOf heapBase (xs ++ [l])) = t at *
  refine ⟨m', fun fuel => ?_, ?_, fun y h1 h2 => ?_⟩
  · have hcur' : cursor (Kmalloc.link m (endOf heapBase xs) t sz) (endOf heapBase xs) = t :=
      (if_neg hpos').trans hnx
    have hcond : sz ≤ size (Kmalloc.link m (endOf heapBase xs) t sz) t ∧
        used (Kmalloc.link m (endOf heapBase xs) t sz) t = 0 :=
      ⟨Nat.le_of_eq hnew.size_eq.symm, hnew.used_eq⟩
    have hmis : ¬ (align ≠ 0 ∧ data t % shl32 1 align ≠ 0) := by
      rw [shl32_one hal]
      tauto
    rw [hwalk fuel]
    simp only [lookup, hcur, if_true, happ, hcur', if_pos hcond, if_neg hmis, hsplit]
    rfl
  · have hc : carve sz ⟨false, sz⟩ [] = [⟨true, sz⟩] := if_pos (Or.inl rfl)
    simpa [hc] using hrep hl2
  · rw [hframe y (by omega) (by dsimp only; omega) (by simp)]
    exact link_outside h1 (by omega)

end Foos.Kmalloc
