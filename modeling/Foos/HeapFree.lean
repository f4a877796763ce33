import Foos.HeapMerge

/-! `kfree` on the list of blocks: the block becomes free, joins a free predecessor, and
otherwise absorbs a free successor. -/
namespace Foos.Kmalloc
open ByteMemory Word32

theorem mark_words {m : Mem} {a v : Nat} (hv : v < 4294967296) :
    used (setUsed m a v) a = v ∧ size (setUsed m a v) a = size m a ∧
      prev (setUsed m a v) a = prev m a ∧ next (setUsed m a v) a = next m a := by
  simp only [used, size, prev, next, setUsed]
  refine ⟨?_, ?_, ?_, ?_⟩ <;>
    simp (disch := omega) only [load32_store32_ne, load32_store32, Nat.mod_eq_of_lt hv]

theorem mark_outside {m : Mem} {a v y : Nat} (h : y < a ∨ a + 4 ≤ y) :
    setUsed m a v y = m y :=
  store32_outside m a v y h

theorem Sized.mark {xs ys : List Blk} {b : Blk} (h : Sized (xs ++ ([b] ++ ys)))
    (hpos : 0 < b.size) (u : Bool) : Sized (xs ++ ([⟨u, b.size⟩] ++ ys)) := by
  rcases h with h | ⟨_, hall⟩
  · have hb : b ∈ [(⟨false, 0⟩ : Blk)] := h ▸ (by simp)
    obtain rfl := List.mem_singleton.mp hb
    exact absurd hpos (Nat.lt_irrefl 0)
  · refine Or.inr ⟨by simp, fun e he => ?_⟩
    have hmem : e ∈ xs ∨ e = ⟨u, b.size⟩ ∨ e ∈ ys := by simpa using he
    rcases hmem with hx | rfl | hy
    · exact hall e (by simp [hx])
    · exact hall b (by simp)
    · exact hall e (by simp [hy])

theorem Seg.mark {m : Mem} {xs ys : List Blk} {b : Blk}
    (h : Seg m 0 heapBase (xs ++ ([b] ++ ys)))
    (hlim : endOf heapBase (xs ++ ([b] ++ ys)) ≤ 4294967296) (u : Bool) :
    Seg (setUsed m (endOf heapBase xs) u.toNat) 0 heapBase (xs ++ ([⟨u, b.size⟩] ++ ys)) := by
  have hu : u.toNat < 4294967296 := by cases u <;> decide
  have hw := mark_words (m := m) (a := endOf heapBase xs) hu
  have hn := h.next_at xs b ys
  have hh := h.header_at xs b ys
  rw [endOf_append, endOf_append] at hlim
  refine h.splice (fun _ => rfl) ?_ (by simp) (by simp) ?_ ?_ ?_
  · rw [endOf_append, endOf_append]
    exact hlim
  · exact fun y _ hy => mark_outside (by omega)
  · exact ⟨⟨hw.1, hw.2.1.trans hh.size_eq⟩, hw.2.2.2.trans hn, trivial⟩
  · intro y h1 _ _
    simp only [endOf_cons, endOf_nil, Blk.span, blockSiz] at h1
    exact mark_outside (by omega)

theorem Back.mark {m : Mem} {xs ys : List Blk} {b : Blk}
    (h : Back m 0 heapBase (xs ++ ([b] ++ ys)))
    (hlim : endOf heapBase (xs ++ ([b] ++ ys)) ≤ 4294967296) (u : Bool) :
    Back (setUsed m (endOf heapBase xs) u.toNat) 0 heapBase (xs ++ ([⟨u, b.size⟩] ++ ys)) := by
  have hu : u.toNat < 4294967296 := by cases u <;> decide
  have hw := mark_words (m := m) (a := endOf heapBase xs) hu
  have hp : prev m (endOf heapBase xs) = lastAt 0 heapBase xs := h.prev_at _ _ ys
  rw [endOf_append, endOf_append] at hlim
  refine h.splice (fun _ => rfl) ?_ ?_ ?_ ?_ ?_
  · rw [endOf_append, endOf_append]
    exact hlim
  · exact fun y _ hy => mark_outside (by omega)
  · exact ⟨hw.2.2.1.trans hp, trivial⟩
  · intro hys
    obtain ⟨c, ys, rfl⟩ := List.exists_cons_of_ne_nil hys
    rw [← List.append_assoc] at h
    have hp' := h.prev_at _ _ _
    rw [lastAt_append] at hp'
    simp only [endOf_append, endOf_cons, endOf_nil] at hp'
    refine Eq.trans (load32_congr fun y h1 h2 => mark_outside ?_) hp'
    simp only [endOf_cons, endOf_nil, Blk.span, blockSiz] at h1
    omega
  · intro y h1 _
    simp only [endOf_cons, endOf_nil, Blk.span, blockSiz] at h1
    exact mark_outside (by omega)

theorem Linked.mark {m : Mem} {xs ys : List Blk} {b : Blk}
    (h : Linked m (xs ++ ([b] ++ ys))) (u : Bool) :
    Linked (setUsed m (endOf heapBase xs) u.toNat) (xs ++ ([⟨u, b.size⟩] ++ ys)) := by
  refine ⟨h.chain.mark h.limit u, h.back.mark h.limit u, ?_⟩
  have hlim := h.limit
  rw [endOf_append, endOf_append] at hlim ⊢
  exact hlim

theorem Forward.mark {m : Mem} {xs ys : List Blk} {b : Blk}
    (h : Forward m (xs ++ ([b] ++ ys))) (hpos : 0 < b.size) (u : Bool) :
    Forward (setUsed m (endOf heapBase xs) u.toNat) (xs ++ ([⟨u, b.size⟩] ++ ys)) := by
  have hend : endOf heapBase (xs ++ ([⟨u, b.size⟩] ++ ys)) =
      endOf heapBase (xs ++ ([b] ++ ys)) := by
    rw [endOf_append, endOf_append, endOf_append, endOf_append]
    rfl
  refine ⟨h.chain.mark (Nat.le_of_lt h.limit) u, h.sized.mark hpos u, hend ▸ h.limit,
    fun y hy hy32 => ?_⟩
  rw [hend] at hy
  rw [← h.tail y hy hy32]
  rw [endOf_append, endOf_append, endOf_cons, endOf_nil] at hy
  have hle := le_endOf (endOf heapBase xs + b.span) ys
  simp only [Blk.span, blockSiz] at hle hy
  exact mark_outside (by omega)

theorem Represents.mark {m : Mem} {xs ys : List Blk} {b : Blk}
    (h : Represents m (xs ++ ([b] ++ ys))) (hpos : 0 < b.size) (u : Bool) :
    Represents (setUsed m (endOf heapBase xs) u.toNat) (xs ++ ([⟨u, b.size⟩] ++ ys)) :=
  ⟨h.toForward.mark hpos u, h.back.mark (Nat.le_of_lt h.limit) u⟩

theorem Sized.pos_of_used {bs : List Blk} (h : Sized bs) {b : Blk} (hb : b ∈ bs)
    (hu : b.used = true) : 0 < b.size := by
  rcases h with rfl | ⟨_, hall⟩
  · obtain rfl := List.mem_singleton.mp hb
    simp at hu
  · exact (hall b hb).1

/-- What `merge` makes of a block and the list behind it. -/
def absorb (b : Blk) : List Blk → List Blk
  | [] => [b]
  | c :: ys => if c.used then b :: c :: ys else ⟨b.used, b.size + c.span⟩ :: ys

/-- A merge either does nothing or takes in a free successor. -/
theorem Seg.merge_cases {m : Mem} {xs ys : List Blk} {b : Blk}
    (h : Seg m 0 heapBase (xs ++ b :: ys)) :
    (Kmalloc.merge m (endOf heapBase xs) = m ∧ absorb b ys = b :: ys) ∨
      ∃ c zs, ys = c :: zs ∧ c.used = false ∧
        absorb b ys = ⟨b.used, b.size + c.span⟩ :: zs := by
  cases ys with
  | nil =>
    have hn := h.next_at _ _ _
    rw [if_pos rfl] at hn
    exact Or.inl ⟨merge_skip (Or.inl hn), rfl⟩
  | cons c zs =>
    cases hc : c.used with
    | true =>
      have hr := h.merge_reads b c zs
      refine Or.inl ⟨merge_skip (Or.inr ?_), by simp [absorb, hc]⟩
      rw [hr.1, hr.2.2.1.used_eq, hc]
      decide
    | false => exact Or.inr ⟨c, zs, rfl, hc, by simp [absorb, hc]⟩

theorem Represents.merge_absorb {m : Mem} {xs ys : List Blk} {b : Blk}
    (h : Represents m (xs ++ b :: ys)) :
    Represents (Kmalloc.merge m (endOf heapBase xs)) (xs ++ absorb b ys) := by
  obtain ⟨hm, habs⟩ | ⟨c, zs, rfl, hc, habs⟩ := h.chain.merge_cases
  · rwa [hm, habs]
  · rw [habs]
    exact h.merge b c zs hc

/-- Bytes outside every header of the listed blocks are kept. -/
def OnlyHeaders (m m' : Mem) (bs : List Blk) : Prop :=
  ∀ y, heapBase ≤ y → (∀ x b, (x, b) ∈ placed bs → y < x ∨ x + 16 ≤ y) → m' y = m y

/-- So are bytes below the heap, the back link of a block at NULL apart. -/
def OnlyHeadersOrNull (m m' : Mem) (bs : List Blk) : Prop :=
  ∀ y, 12 ≤ y → (∀ x b, (x, b) ∈ placed bs → y < x ∨ x + 16 ≤ y) → m' y = m y

theorem OnlyHeadersOrNull.onlyHeaders {m m' : Mem} {bs : List Blk}
    (h : OnlyHeadersOrNull m m' bs) : OnlyHeaders m m' bs :=
  fun y hy => h y (null_below hy)

theorem Seg.merge_absorb_frame {m : Mem} {xs ys : List Blk} {b : Blk}
    (h : Seg m 0 heapBase (xs ++ b :: ys))
    (hlim : endOf heapBase (xs ++ b :: ys) ≤ 4294967296) :
    OnlyHeadersOrNull m (Kmalloc.merge m (endOf heapBase xs)) (xs ++ b :: ys) := by
  intro y hy hall
  have ha := hall _ _ (Tiling.place_middle Blk.span heapBase xs b ys)
  obtain ⟨hm, -⟩ | ⟨c, zs, rfl, hc, -⟩ := h.merge_cases
  · rw [hm]
  · refine h.merge_frame b c zs hlim hc hy ha fun hzs => ?_
    obtain ⟨d, zs, rfl⟩ := List.exists_cons_of_ne_nil hzs
    have hd := Tiling.place_middle Blk.span heapBase (xs ++ [b, c]) d zs
    rw [Tiling.endAt_append, List.append_assoc] at hd
    have hdy := hall _ _ hd
    change y < endOf heapBase xs + b.span + c.span ∨
      endOf heapBase xs + b.span + c.span + 16 ≤ y at hdy
    omega

theorem Forward.congr {m m' : Mem} {bs : List Blk} (h : Forward m bs)
    (hw : ∀ x b, (x, b) ∈ placed bs →
      used m' x = used m x ∧ size m' x = size m x ∧ next m' x = next m x)
    (ht : ∀ y, endOf heapBase bs ≤ y → m' y = m y) : Forward m' bs :=
  ⟨h.chain.congr hw, h.sized, h.limit, fun y h1 h2 => (ht y h1).trans (h.tail y h1 h2)⟩

/-- The block list after `kfree` of the used block `b` between `xs` and `ys`. A free
predecessor takes `b` in and then leaves a free successor alone. -/
def release (xs : List Blk) (b : Blk) (ys : List Blk) : List Blk :=
  match xs.getLast? with
  | none => absorb ⟨false, b.size⟩ ys
  | some p =>
    if p.used then xs ++ absorb ⟨false, b.size⟩ ys
    else xs.dropLast ++ ⟨false, p.size + b.span⟩ :: ys

/-- Both neighbours are free and a further block follows: its back link is the one that
`kfree` spoils. -/
def Clash (xs ys : List Blk) : Prop :=
  (∃ p, xs.getLast? = some p ∧ p.used = false) ∧
    ∃ c d zs, ys = c :: d :: zs ∧ c.used = false

theorem kfree_data (k : Machine) {a : Nat} {m : Mem} (ha : heapBase ≤ a)
    (hm : setUsed k.mem a 0 = m) :
    kfree k (data a) =
      some ⟨merge (if prev m a ≠ 0 ∧ used m (prev m a) = 0 then merge m (prev m a) else m) a,
        k.errno⟩ := by
  have hguard : ¬ ¬ data a > heapBase := by simp only [data]; omega
  have hblk : data a - blockSiz = a := by simp only [data, blockSiz]; omega
  simp only [kfree, if_neg hguard, hblk, hm]

theorem Linked.pred_free {m : Mem} {xs ys : List Blk} {b : Blk}
    (h : Linked m (xs ++ b :: ys)) :
    (prev m (endOf heapBase xs) ≠ 0 ∧ used m (prev m (endOf heapBase xs)) = 0) ↔
      ∃ p, xs.getLast? = some p ∧ p.used = false := by
  rw [h.back.prev_at _ _ _]
  rcases List.eq_nil_or_concat xs with rfl | ⟨zs, p, rfl⟩
  · simp [lastAt]
  · rw [List.concat_eq_append, lastAt_append]
    have hch := h.chain
    rw [List.concat_eq_append, List.append_assoc] at hch
    have hp := hch.header_at zs p _
    have hne : endOf heapBase zs ≠ 0 := Nat.ne_of_gt (endOf_pos zs)
    simp [hne, hp.used_zero]

theorem Linked.kfree_alone {k : Machine} {xs ys : List Blk} {b : Blk}
    (h : Linked k.mem (xs ++ ([b] ++ ys))) (hxs : ∀ p, xs.getLast? = some p → p.used = true) :
    kfree k (data (endOf heapBase xs)) =
      some ⟨merge (setUsed k.mem (endOf heapBase xs) 0) (endOf heapBase xs), k.errno⟩ := by
  have hm : Linked (setUsed k.mem (endOf heapBase xs) 0) (xs ++ ⟨false, b.size⟩ :: ys) :=
    h.mark false
  rw [kfree_data k (le_endOf heapBase xs) rfl, if_neg]
  rw [hm.pred_free]
  rintro ⟨p, hp, hu⟩
  rw [hxs p hp] at hu
  exact absurd hu (by decide)

theorem kfree_alone {k : Machine} {xs ys : List Blk} {b : Blk}
    (h : Represents k.mem (xs ++ ([b] ++ ys))) (_ : b.used = true)
    (hxs : ∀ p, xs.getLast? = some p → p.used = true) :
    kfree k (data (endOf heapBase xs)) =
      some ⟨merge (setUsed k.mem (endOf heapBase xs) 0) (endOf heapBase xs), k.errno⟩ :=
  h.linked.kfree_alone hxs

theorem Linked.mark_second {m : Mem} {xs ys : List Blk} {p b : Blk}
    (h : Linked m (xs ++ p :: b :: ys)) :
    Linked (setUsed m (endOf heapBase xs + p.span) 0) (xs ++ ([p, ⟨false, b.size⟩] ++ ys)) := by
  have h' : Linked m ((xs ++ [p]) ++ ([b] ++ ys)) := by simpa using h
  have hm := h'.mark false
  simpa only [endOf_append, endOf_cons, endOf_nil, Bool.toNat_false, List.append_assoc,
    List.cons_append, List.nil_append] using hm

theorem Back.second {m : Mem} {xs ys : List Blk} {p b : Blk}
    (h : Back m 0 heapBase (xs ++ ([p, b] ++ ys))) :
    prev m (endOf heapBase xs + p.span) = endOf heapBase xs := by
  have hsplit : xs ++ ([p, b] ++ ys) = (xs ++ [p]) ++ b :: ys := by simp
  rw [hsplit] at h
  have hp := h.prev_at _ _ _
  rwa [lastAt_append, endOf_append] at hp

theorem Linked.kfree_joins {k : Machine} {xs ys : List Blk} {p b : Blk}
    (h : Linked k.mem (xs ++ ([p, b] ++ ys))) (hp : p.used = false) :
    kfree k (data (endOf heapBase xs + p.span)) =
      some ⟨merge (merge (setUsed k.mem (endOf heapBase xs + p.span) 0) (endOf heapBase xs))
        (endOf heapBase xs + p.span), k.errno⟩ := by
  have hm := Linked.mark_second (show Linked k.mem (xs ++ p :: b :: ys) from h)
  have hu := (hm.chain.merge_reads p ⟨false, b.size⟩ ys).2.1.used_zero.mpr hp
  have hle := le_endOf heapBase xs
  rw [kfree_data k (by omega) rfl, hm.back.second, if_pos ⟨Nat.ne_of_gt (endOf_pos xs), hu⟩]

theorem kfree_joins {k : Machine} {xs ys : List Blk} {p b : Blk}
    (h : Represents k.mem (xs ++ ([p, b] ++ ys))) (_ : b.used = true)
    (hp : p.used = false) :
    kfree k (data (endOf heapBase xs + p.span)) =
      some ⟨merge (merge (setUsed k.mem (endOf heapBase xs + p.span) 0) (endOf heapBase xs))
        (endOf heapBase xs + p.span), k.errno⟩ :=
  h.linked.kfree_joins hp

/-- The second merge of `kfree` when the first one has already absorbed the block: the
header at `a` is stale, inside the payload of `d`. Apart from that header it only writes
the back link of the block behind a free successor. -/
theorem Seg.stale_merge_frame {m : Mem} {xs ys : List Blk} {d : Blk} {a : Nat}
    (h : Seg m 0 heapBase (xs ++ d :: ys))
    (hlim : endOf heapBase (xs ++ d :: ys) ≤ 4294967296)
    (hn : endOf heapBase xs + d.span = a + 16 + size m a)
    (hnext : next m a = linkTo (endOf heapBase xs + d.span) ys) {y : Nat}
    (hy : 12 ≤ y) (ha : y < a ∨ a + 16 ≤ y)
    (hl : ∀ c e zs, ys = c :: e :: zs → c.used = false →
      y < endOf heapBase xs + d.span + c.span + 8 ∨
        endOf heapBase xs + d.span + c.span + 12 ≤ y) :
    Kmalloc.merge m a y = m y := by
  cases ys with
  | nil => rw [merge_skip (Or.inl hnext)]
  | cons c zs =>
    obtain ⟨-, -, hc, hlk⟩ := h.merge_reads d c zs
    rw [linkTo, if_neg (by simp)] at hnext
    cases hcu : c.used with
    | true => rw [merge_skip (Or.inr (by rw [hnext, hc.used_eq, hcu]; decide))]
    | false =>
      have hcs : c.span = 16 + c.size := rfl
      rw [endOf_append, endOf_cons, endOf_cons] at hlim
      have hle := le_endOf (endOf heapBase xs + d.span + c.span) zs
      rw [Kmalloc.merge_eq (by omega) hnext (hc.used_zero.mpr hcu) rfl hc.size_eq hlk (by omega)]
      refine merge_outside ha ?_
      cases zs with
      | nil =>
        rw [linkTo, if_pos rfl]
        omega
      | cons e zs =>
        rw [linkTo, if_neg (by simp)]
        exact hl c e zs rfl hcu

theorem Seg.stale_merge {m : Mem} {xs ys : List Blk} {d : Blk} {a : Nat}
    (h : Seg m 0 heapBase (xs ++ d :: ys))
    (hlim : endOf heapBase (xs ++ d :: ys) ≤ 4294967296) (ha : endOf heapBase xs + 16 ≤ a)
    (hn : endOf heapBase xs + d.span = a + 16 + size m a)
    (hnext : next m a = linkTo (endOf heapBase xs + d.span) ys) :
    Seg (Kmalloc.merge m a) 0 heapBase (xs ++ d :: ys) := by
  have hd := Tiling.place_middle Blk.span heapBase xs d ys
  have hbase := le_endOf heapBase xs
  refine h.congr fun x b hx => words_congr fun y h1 h2 h3 => ?_
  have hlo := (header_bounds hx).1
  refine h.stale_merge_frame hlim hn hnext (null_below (by omega)) ?_ fun c e zs hys _ => ?_
  · have hapart := header_apart hx hd
    simp only [endOf, Blk.span, blockSiz] at *
    omega
  · subst hys
    have he := Tiling.place_middle Blk.span heapBase (xs ++ [d, c]) e zs
    rw [List.append_assoc, Tiling.endAt_append] at he
    have hs : e.span = 16 + e.size := rfl
    have hb : b.span = 16 + b.size := rfl
    have hpos : Tiling.endAt Blk.span (Tiling.endAt Blk.span heapBase xs) [d, c] =
        endOf heapBase xs + d.span + c.span := rfl
    rw [hpos] at he
    have hapart := header_apart hx he
    omega

theorem Forward.stale_merge_frame {m : Mem} {xs ys : List Blk} {d : Blk} {a : Nat}
    (h : Forward m (xs ++ d :: ys)) (hn : endOf heapBase xs + d.span = a + 16 + size m a)
    (hnext : next m a = linkTo (endOf heapBase xs + d.span) ys) {y : Nat}
    (hy : 12 ≤ y) (ha : y < a ∨ a + 16 ≤ y)
    (hl : ∀ c e zs, ys = c :: e :: zs → c.used = false →
      y < endOf heapBase xs + d.span + c.span + 8 ∨
        endOf heapBase xs + d.span + c.span + 12 ≤ y) :
    Kmalloc.merge m a y = m y :=
  h.chain.stale_merge_frame (Nat.le_of_lt h.limit) hn hnext hy ha hl

theorem Forward.stale_merge {m : Mem} {xs ys : List Blk} {d : Blk} {a : Nat}
    (h : Forward m (xs ++ d :: ys)) (ha : endOf heapBase xs + 16 ≤ a)
    (hn : endOf heapBase xs + d.span = a + 16 + size m a)
    (hnext : next m a = linkTo (endOf heapBase xs + d.span) ys) :
    Forward (Kmalloc.merge m a) (xs ++ d :: ys) := by
  refine ⟨h.chain.stale_merge (Nat.le_of_lt h.limit) ha hn hnext, h.sized, h.limit,
    fun y hy hy32 => ?_⟩
  rw [← h.tail y hy hy32]
  rw [endOf_append, endOf_cons] at hy
  have hbase := le_endOf heapBase xs
  have hle := le_endOf (endOf heapBase xs + d.span) ys
  refine h.stale_merge_frame hn hnext (null_below (by omega)) (by omega) fun c e zs hys _ => ?_
  subst hys
  have hle' := le_endOf (endOf heapBase xs + d.span + c.span + e.span) zs
  simp only [endOf_cons] at hy
  simp only [Blk.span, blockSiz] at *
  omega

theorem Represents.stale_merge {m : Mem} {xs ys : List Blk} {d : Blk} {a : Nat}
    (h : Represents m (xs ++ d :: ys)) (ha : endOf heapBase xs + 16 ≤ a)
    (hn : endOf heapBase xs + d.span = a + 16 + size m a)
    (hnext : next m a = linkTo (endOf heapBase xs + d.span) ys)
    (hys : ∀ c e zs, ys = c :: e :: zs → c.used = true) :
    Represents (Kmalloc.merge m a) (xs ++ d :: ys) := by
  refine ⟨h.toForward.stale_merge ha hn hnext, h.back.congr fun x b hx => load32_congr ?_⟩
  intro y h1 h2
  have hlo := (header_bounds hx).1
  have hd := Tiling.place_middle Blk.span heapBase xs d ys
  refine h.toForward.stale_merge_frame hn hnext (null_below (by omega)) ?_ fun c e zs hc hu => ?_
  · have hd' : d.span = 16 + d.size := rfl
    have hapart := header_apart hx hd
    simp only [endOf] at *
    omega
  · rw [hys c e zs hc] at hu
    exact absurd hu (by decide)

theorem placed_mark {xs ys : List Blk} {b e : Blk} {x : Nat} {u : Bool}
    (h : (x, e) ∈ placed (xs ++ ⟨u, b.size⟩ :: ys)) :
    ∃ e', (x, e') ∈ placed (xs ++ b :: ys) := by
  simp only [placed, Tiling.place_append, List.mem_append] at h ⊢
  cases h with
  | inl h => exact ⟨e, Or.inl h⟩
  | inr h =>
    cases List.mem_cons.mp h with
    | inl h => exact ⟨b, Or.inr (by simp [Tiling.place, (Prod.mk.inj h).1])⟩
    | inr h => exact ⟨e, Or.inr (List.mem_cons_of_mem _ h)⟩

theorem release_alone {xs : List Blk} (b : Blk) (ys : List Blk)
    (hxs : ∀ p, xs.getLast? = some p → p.used = true) :
    release xs b ys = xs ++ absorb ⟨false, b.size⟩ ys := by
  unfold release
  cases hl : xs.getLast? with
  | none => simp [List.getLast?_eq_none_iff.mp hl]
  | some p => simp [hxs p hl]

theorem release_joins (xs : List Blk) {p : Blk} (b : Blk) (ys : List Blk)
    (hp : p.used = false) :
    release (xs ++ [p]) b ys = xs ++ ⟨false, p.size + b.span⟩ :: ys := by
  simp [release, hp]

theorem Linked.merge {m : Mem} {xs : List Blk} (b c : Blk) (ys : List Blk)
    (h : Linked m (xs ++ ([b, c] ++ ys))) (hc : c.used = false) :
    Linked (Kmalloc.merge m (endOf heapBase xs)) (xs ++ ([⟨b.used, b.size + c.span⟩] ++ ys)) := by
  refine ⟨h.chain.merge b c ys h.limit hc, h.back.merge b c ys h.chain h.limit hc, ?_⟩
  have hlim := h.limit
  rw [endOf_append, endOf_append] at hlim ⊢
  rw [endOf_merged]
  exact hlim

theorem Linked.merge_absorb {m : Mem} {xs ys : List Blk} {b : Blk}
    (h : Linked m (xs ++ b :: ys)) :
    Linked (Kmalloc.merge m (endOf heapBase xs)) (xs ++ absorb b ys) := by
  obtain ⟨hm, habs⟩ | ⟨c, zs, rfl, hc, habs⟩ := h.chain.merge_cases
  · rwa [hm, habs]
  · rw [habs]
    exact h.merge b c zs hc

theorem Linked.alone_frame {m : Mem} {xs ys : List Blk} {b : Blk} (h : Linked m (xs ++ b :: ys)) :
    OnlyHeadersOrNull m (Kmalloc.merge (setUsed m (endOf heapBase xs) 0) (endOf heapBase xs))
      (xs ++ b :: ys) := by
  intro y hy hall
  have hm := Linked.mark (show Linked m (xs ++ ([b] ++ ys)) from h) false
  have ha := hall _ _ (Tiling.place_middle Blk.span heapBase xs b ys)
  refine (hm.chain.merge_absorb_frame hm.limit y hy fun x e hx => ?_).trans
    (mark_outside (by simp only [endOf]; omega))
  obtain ⟨e', he'⟩ := placed_mark (b := b) hx
  exact hall x e' he'

/-- `kfree` of a block with no free predecessor. -/
theorem Represents.free_alone {k : Machine} {xs ys : List Blk} {b : Blk}
    (h : Represents k.mem (xs ++ b :: ys)) (hb : b.used = true)
    (hxs : ∀ p, xs.getLast? = some p → p.used = true) :
    ∃ m', kfree k (data (endOf heapBase xs)) = some ⟨m', k.errno⟩ ∧
      Represents m' (xs ++ absorb ⟨false, b.size⟩ ys) ∧
      OnlyHeadersOrNull k.mem m' (xs ++ b :: ys) := by
  have h' : Represents k.mem (xs ++ ([b] ++ ys)) := h
  have hm := h'.mark (h.sized.pos_of_used (by simp) hb) false
  exact ⟨_, kfree_alone h' hb hxs, hm.merge_absorb, h.linked.alone_frame⟩

/-- The header of an absorbed block keeps its words: the merge writes below and behind it. -/
theorem Linked.stale_words {m : Mem} {xs ys : List Blk} {p b : Blk}
    (h : Linked m (xs ++ ([p, b] ++ ys))) (hb : b.used = false) :
    let m' := Kmalloc.merge m (endOf heapBase xs)
    size m' (endOf heapBase xs + p.span) = b.size ∧
      next m' (endOf heapBase xs + p.span) = linkTo (endOf heapBase xs + p.span + b.span) ys := by
  obtain ⟨-, -, hh, hn⟩ := h.chain.merge_reads p b ys
  have hps : p.span = 16 + p.size := rfl
  have hbs : b.span = 16 + b.size := rfl
  have hbase := le_endOf heapBase xs
  have hkeep (y : Nat) (h1 : endOf heapBase xs + p.span ≤ y)
      (h2 : y < endOf heapBase xs + p.span + 16) :
      Kmalloc.merge m (endOf heapBase xs) y = m y :=
    h.chain.merge_frame p b ys h.limit hb (null_below (by omega)) (by omega) fun _ =>
      Or.inl (by omega)
  exact ⟨(load32_congr fun y h1 h2 => hkeep y (by omega) (by omega)).trans hh.size_eq,
    (load32_congr fun y h1 h2 => hkeep y (by omega) (by omega)).trans hn⟩

/-- The chain between the two merges of `kfree`, when the first one takes the block in. -/
theorem Linked.joined {m : Mem} {xs ys : List Blk} {p b : Blk}
    (h : Linked m (xs ++ p :: b :: ys)) (hp : p.used = false) :
    let m' := Kmalloc.merge (setUsed m (endOf heapBase xs + p.span) 0) (endOf heapBase xs)
    let d : Blk := ⟨false, p.size + b.span⟩
    Linked m' (xs ++ d :: ys) ∧
      endOf heapBase xs + d.span =
        endOf heapBase xs + p.span + 16 + size m' (endOf heapBase xs + p.span) ∧
      next m' (endOf heapBase xs + p.span) = linkTo (endOf heapBase xs + d.span) ys := by
  have hm := h.mark_second
  have hjoin := hm.merge p ⟨false, b.size⟩ ys rfl
  obtain ⟨hsize, hnext⟩ := hm.stale_words rfl
  have hd : (⟨p.used, p.size + (⟨false, b.size⟩ : Blk).span⟩ : Blk) =
      ⟨false, p.size + b.span⟩ := by rw [hp]; rfl
  have hnd : endOf heapBase xs + (⟨false, p.size + b.span⟩ : Blk).span =
      endOf heapBase xs + p.span + b.span := by
    simp only [Blk.span, blockSiz]
    omega
  rw [hd] at hjoin
  refine ⟨hjoin, ?_, ?_⟩
  · rw [hnd, hsize]
    simp only [Blk.span, blockSiz]
    omega
  · rw [hnd, hnext]
    rfl

theorem Linked.joins_frame {m : Mem} {xs ys : List Blk} {p b : Blk}
    (h : Linked m (xs ++ p :: b :: ys)) (hp : p.used = false) :
    OnlyHeadersOrNull m (Kmalloc.merge
      (Kmalloc.merge (setUsed m (endOf heapBase xs + p.span) 0) (endOf heapBase xs))
      (endOf heapBase xs + p.span)) (xs ++ p :: b :: ys) := by
  intro y hy hall
  obtain ⟨hjoin, hstale, hlink⟩ := h.joined hp
  have hm := h.mark_second
  have hap := hall _ _ (Tiling.place_middle Blk.span heapBase xs p (b :: ys))
  have hmid (zs ws : List Blk) (c : Blk) (hz : xs ++ p :: b :: ys = xs ++ zs ++ c :: ws) :
      y < endOf (endOf heapBase xs) zs ∨ endOf (endOf heapBase xs) zs + 16 ≤ y := by
    have hpl := Tiling.place_middle Blk.span heapBase (xs ++ zs) c ws
    rw [Tiling.endAt_append, ← hz] at hpl
    exact hall _ _ hpl
  have hab := hmid [p] ys b (by simp)
  have hnd : endOf heapBase xs + (⟨false, p.size + b.span⟩ : Blk).span =
      endOf heapBase xs + p.span + b.span := by
    simp only [Blk.span, blockSiz]
    omega
  simp only [endOf_cons, endOf_nil] at hab
  rw [hjoin.chain.stale_merge_frame hjoin.limit hstale hlink hy hab ?_]
  · rw [hm.chain.merge_frame p ⟨false, b.size⟩ ys hm.limit rfl hy
      (by simpa only [endOf] using hap) ?_]
    · exact mark_outside (by omega)
    · intro hys
      obtain ⟨c, zs, rfl⟩ := List.exists_cons_of_ne_nil hys
      have hc := hmid [p, b] zs c (by simp)
      change y < endOf heapBase xs + p.span + b.span ∨
        endOf heapBase xs + p.span + b.span + 16 ≤ y at hc
      change y < endOf heapBase xs + p.span + b.span + 8 ∨
        endOf heapBase xs + p.span + b.span + 12 ≤ y
      omega
  · intro c e zs hc _
    have hec := hmid [p, b, c] zs e (by simpa using hc)
    simp only [endOf_cons, endOf_nil] at hec
    rw [hnd]
    omega

/-- `kfree` of a block whose predecessor `p` is free. -/
theorem Represents.free_joins {k : Machine} {xs ys : List Blk} {p b : Blk}
    (h : Represents k.mem (xs ++ p :: b :: ys)) (hb : b.used = true) (hp : p.used = false) :
    ∃ m', kfree k (data (endOf heapBase xs + p.span)) = some ⟨m', k.errno⟩ ∧
      Forward m' (xs ++ ⟨false, p.size + b.span⟩ :: ys) ∧
      ((∀ c e zs, ys = c :: e :: zs → c.used = true) →
        Represents m' (xs ++ ⟨false, p.size + b.span⟩ :: ys)) ∧
      OnlyHeadersOrNull k.mem m' (xs ++ p :: b :: ys) := by
  have h' : Represents k.mem ((xs ++ [p]) ++ ([b] ++ ys)) := by simpa using h
  have hm := h'.mark (h.sized.pos_of_used (by simp) hb) false
  simp only [endOf_append, endOf_cons, endOf_nil, Bool.toNat_false, List.append_assoc] at hm
  have hjoin := hm.merge p ⟨false, b.size⟩ _ rfl
  have hd : (⟨p.used, p.size + (⟨false, b.size⟩ : Blk).span⟩ : Blk) =
      ⟨false, p.size + b.span⟩ := by rw [hp]; rfl
  rw [hd] at hjoin
  obtain ⟨-, hstale, hlink⟩ := h.linked.joined hp
  have hps : p.span = 16 + p.size := rfl
  have ha : endOf heapBase xs + 16 ≤ endOf heapBase xs + p.span := by omega
  exact ⟨_, kfree_joins (show Represents k.mem (xs ++ ([p, b] ++ ys)) from h) hb hp,
    hjoin.toForward.stale_merge ha hstale hlink,
    fun hys => hjoin.stale_merge ha hstale hlink hys, h.linked.joins_frame hp⟩

/-- `kfree` on the list of blocks, whatever the state of the two neighbours. -/
theorem Represents.kfree {k : Machine} {xs ys : List Blk} {b : Blk}
    (h : Represents k.mem (xs ++ b :: ys)) (hb : b.used = true) :
    ∃ m', Kmalloc.kfree k (data (endOf heapBase xs)) = some ⟨m', k.errno⟩ ∧
      Forward m' (release xs b ys) ∧
      (¬ Clash xs ys → Represents m' (release xs b ys)) ∧
      OnlyHeadersOrNull k.mem m' (xs ++ b :: ys) := by
  by_cases hxs : ∀ p, xs.getLast? = some p → p.used = true
  · obtain ⟨m', hk, hr, hout⟩ := h.free_alone hb hxs
    rw [release_alone b ys hxs]
    exact ⟨m', hk, hr.toForward, fun _ => hr, hout⟩
  · push Not at hxs
    obtain ⟨p, hlast, hp⟩ := hxs
    have hpf : p.used = false := by simpa using hp
    obtain ⟨xs', rfl⟩ := List.getLast?_eq_some_iff.mp hlast
    rw [List.append_assoc] at h
    obtain ⟨m', hk, hf, hr, hout⟩ := h.free_joins hb hpf
    rw [release_joins xs' b ys hpf]
    have hend : endOf heapBase (xs' ++ [p]) = endOf heapBase xs' + p.span := endOf_append _ _ _
    refine ⟨m', hend ▸ hk, hf, fun hclash => hr fun c e zs hys => ?_, by simpa using hout⟩
    by_contra hc
    exact hclash ⟨⟨p, hlast, hpf⟩, c, e, zs, hys, by simpa using hc⟩

theorem absorb_keeps {a x : Nat} {b c : Blk} {ys : List Blk}
    (hx : (x, c) ∈ Tiling.place Blk.span a (b :: ys)) (hc : c.used = true) (hxa : x ≠ a) :
    (x, c) ∈ Tiling.place Blk.span a (absorb ⟨false, b.size⟩ ys) := by
  have hx' : (x, c) ∈ Tiling.place Blk.span (a + b.span) ys := by
    cases List.mem_cons.mp hx with
    | inl he => exact absurd (Prod.mk.inj he).1 hxa
    | inr ht => exact ht
  cases ys with
  | nil => simp [Tiling.place] at hx'
  | cons d ys =>
    cases hd : d.used with
    | true =>
      simp only [absorb, hd, if_true]
      exact List.mem_cons_of_mem _ hx'
    | false =>
      simp only [absorb, hd, Bool.false_eq_true, if_false]
      cases List.mem_cons.mp hx' with
      | inl he =>
        rw [(Prod.mk.inj he).2, hd] at hc
        exact absurd hc (by decide)
      | inr ht =>
        have hs : a + b.span + d.span = a + (⟨false, b.size + d.span⟩ : Blk).span := by
          simp only [Blk.span, blockSiz]
          omega
        rw [hs] at ht
        exact List.mem_cons_of_mem _ ht

/-- Used blocks other than the freed one stay where they are. -/
theorem release_keeps {xs ys : List Blk} {b c : Blk} {x : Nat}
    (hx : (x, c) ∈ placed (xs ++ b :: ys)) (hc : c.used = true) (hne : x ≠ endOf heapBase xs) :
    (x, c) ∈ placed (release xs b ys) := by
  by_cases hxs : ∀ p, xs.getLast? = some p → p.used = true
  · rw [release_alone b ys hxs]
    simp only [placed, Tiling.place_append, List.mem_append] at hx ⊢
    exact hx.imp_right fun hx => absorb_keeps hx hc hne
  · push Not at hxs
    obtain ⟨p, hlast, hp⟩ := hxs
    have hpf : p.used = false := by simpa using hp
    obtain ⟨xs', rfl⟩ := List.getLast?_eq_some_iff.mp hlast
    rw [release_joins xs' b ys hpf]
    have hend : endOf heapBase (xs' ++ [p]) = endOf heapBase xs' + p.span := endOf_append _ _ _
    rw [List.append_assoc] at hx
    simp only [placed, Tiling.place_append, List.mem_append] at hx ⊢
    refine hx.imp_right fun hx => ?_
    cases hx with
    | inl hx =>
      rw [List.mem_singleton.mp (Tiling.mem_of_place _ hx), hpf] at hc
      exact absurd hc (by decide)
    | inr hx =>
      cases List.mem_cons.mp hx with
      | inl he => exact absurd ((Prod.mk.inj he).1.trans hend.symm) hne
      | inr ht =>
        have hs : Tiling.endAt Blk.span (Tiling.endAt Blk.span heapBase xs') [p] + b.span =
            Tiling.endAt Blk.span heapBase xs' + (⟨false, p.size + b.span⟩ : Blk).span := by
          simp only [Tiling.endAt, Blk.span, blockSiz]
          omega
        rw [hs] at ht
        exact List.mem_cons_of_mem _ ht

/-- Both neighbours of `blk` are free, as `kfree` reads them. -/
def BothFree (m : Mem) (blk : Nat) : Prop :=
  (prev m blk ≠ 0 ∧ used m (prev m blk) = 0) ∧ next m blk ≠ 0 ∧ used m (next m blk) = 0

instance (m : Mem) (blk : Nat) : Decidable (BothFree m blk) :=
  inferInstanceAs (Decidable (_ ∧ _))

theorem Represents.pred_free {m : Mem} {xs ys : List Blk} {b : Blk}
    (h : Represents m (xs ++ b :: ys)) :
    (prev m (endOf heapBase xs) ≠ 0 ∧ used m (prev m (endOf heapBase xs)) = 0) ↔
      ∃ p, xs.getLast? = some p ∧ p.used = false :=
  h.linked.pred_free

theorem Forward.succ_free {m : Mem} {xs ys : List Blk} {b : Blk}
    (h : Forward m (xs ++ b :: ys)) :
    (next m (endOf heapBase xs) ≠ 0 ∧ used m (next m (endOf heapBase xs)) = 0) ↔
      ∃ c zs, ys = c :: zs ∧ c.used = false := by
  rw [h.chain.next_at _ _ _]
  cases ys with
  | nil => simp
  | cons c zs =>
    have hc := (h.merge_reads b c zs).2.2.1
    have hpos := endOf_pos xs
    rw [if_neg (by simp)]
    simp only [hc.used_zero, List.cons.injEq]
    constructor
    · rintro ⟨_, hu⟩
      exact ⟨c, zs, ⟨rfl, rfl⟩, hu⟩
    · rintro ⟨d, ws, ⟨rfl, rfl⟩, hu⟩
      exact ⟨by omega, hu⟩

/-- The memory condition under which `kfree` spoils a back link. -/
theorem Represents.clash_iff {m : Mem} {xs ys : List Blk} {b : Blk}
    (h : Represents m (xs ++ b :: ys)) :
    Clash xs ys ↔ BothFree m (endOf heapBase xs) ∧
      next m (next m (endOf heapBase xs)) ≠ 0 := by
  rw [BothFree, h.pred_free, h.toForward.succ_free, Clash, and_assoc]
  refine and_congr_right fun _ => ?_
  cases ys with
  | nil => simp
  | cons c zs =>
    have hr := h.toForward.merge_reads b c zs
    have hpos := endOf_pos xs
    rw [hr.1, hr.2.2.2, linkTo]
    cases zs with
    | nil => simp
    | cons d ws =>
      rw [if_neg (by simp)]
      constructor
      · rintro ⟨c', d', zs', he, hu⟩
        obtain ⟨rfl, -⟩ := List.cons.inj he
        exact ⟨⟨_, _, rfl, hu⟩, by omega⟩
      · rintro ⟨⟨c', zs', he, hu⟩, _⟩
        obtain ⟨rfl, -⟩ := List.cons.inj he
        exact ⟨_, _, _, rfl, hu⟩

end Foos.Kmalloc
