import Foos.HeapRuns
import Foos.IdentityMap

/-! The heap keeps its side of what its callers rely on: a request is served in an area of its
own, and with every block in use this area is behind the last block, in memory that is still
zero. -/
namespace Foos.Kmalloc
open ByteMemory Word32 Pmem Vmem

/-- Where a page request goes: the header just below the next page boundary. -/
theorem tailAt_page {e : Nat} (h : e % 4096 = 0 ∨ e % 4096 = 16) :
    tailAt 12 e = e - e % 4096 + 4080 := by
  have hd : ¬ (12 = 0 ∨ data e % 2 ^ 12 = 0) := by
    simp only [data]
    omega
  rw [tailAt, if_neg hd]
  omega

/-- Every area lies below the heap or in the payload of a used block. -/
def Held (bs : List Blk) (areas : List (Nat × Nat)) : Prop :=
  ∀ r ∈ areas, r.1 + r.2 ≤ heapBase ∨
    ∃ x b, (x, b) ∈ placed bs ∧ b.used = true ∧ x + 16 ≤ r.1 ∧ r.1 + r.2 ≤ x + 16 + b.size

theorem Represents.outside {m m' : Mem} {bs : List Blk} {areas : List (Nat × Nat)}
    (h : Represents m bs) (hheld : Held bs areas) (hout : ∀ y, Outside areas y → m' y = m y) :
    Represents m' bs := by
  refine h.payload fun w hlo hw => hout w fun r hr => ?_
  rcases hheld r hr with hlow | ⟨x, b, hx, -, h1, h2⟩
  · omega
  · have := hw x b hx
    omega

theorem Placed.above {bs bs' : List Blk} {sz align p : Nat} (h : Placed sz align bs p bs') :
    heapBase ≤ p := by
  obtain ⟨b, hb, -, -⟩ := h.served
  exact (header_bounds hb).1

theorem Placed.aligned {bs bs' : List Blk} {sz align p : Nat} (h : Placed sz align bs p bs') :
    data p % 2 ^ align = 0 := by
  cases h with
  | root h0 _ => rw [h0, Nat.pow_zero, Nat.mod_one]
  | @fit xs b ys _ hf =>
    cases hf.2.2 with
    | inl h0 =>
      rw [h0, Nat.pow_zero, Nat.mod_one]
    | inr hd => exact hd
  | @tail xs l _ _ ht => exact tailAt_aligned (endOf_pos _) ht.above

/-- A call of `kmalloca` for callers: an area of their own. -/
theorem Represents.grant {fuel n align : Nat} {k : Machine} {bs : List Blk}
    {areas : List (Nat × Nat)} (h : Represents k.mem bs) (hheld : Held bs areas)
    (hal : align < 32) (hpos : 0 < n) (hn : n ≤ 4294967288)
    (hroom : Serves k.mem (roundUp n) align ∨ TailRoom k.mem (roundUp n) align)
    (hfuel : bs.length < fuel) :
    ∃ p k' bs', Kmalloc.kmalloca fuel k n align = some (data p, k') ∧
      Placed (roundUp n) align bs p bs' ∧ Represents k'.mem bs' ∧
      NewArea k.mem k'.mem areas (data p) n align ∧ Held bs' ((data p, n) :: areas) ∧
      (endOf heapBase bs ≤ data p → ZeroFilled k'.mem (data p) n) := by
  obtain ⟨q, k', hret⟩ := h.kmalloca_returns hal hpos hn hroom
  have hk := hret (fuel - 1 - bs.length)
  rw [show fuel - 1 - bs.length + 1 + bs.length = fuel by omega] at hk
  obtain ⟨p, bs', rfl, hp, hr, hkeep, hlow, hpay⟩ := h.kmalloca hal hpos hn hroom hk
  have hru := roundUp_eq hn
  have habove := hp.above
  obtain ⟨b, hb, hbu, hbs⟩ := hp.served
  have hend := (header_bounds hb).2
  have hlim := hr.limit
  refine ⟨p, k', bs', hk, hp, hr, ⟨?_, hp.aligned, ?_, fun r hr => ?_, fun r hr y h1 h2 => ?_⟩,
    fun r hr => ?_, fun hz y h1 h2 => ?_⟩
  · simp only [data]
    omega
  · simp only [data]
    omega
  · rcases hheld r hr with hlow | ⟨x, c, hx, hc, h1, h2⟩
    · simp only [data]
      omega
    · obtain ⟨hne, c', hx', -, hs⟩ := hp.keeps hx hc
      have hbs' : b.span = 16 + b.size := rfl
      have hcs' : c'.span = 16 + c'.size := rfl
      simp only [data]
      have hapart := header_apart hx' hb
      omega
  · rcases hheld r hr with hl | ⟨x, c, hx, hc, h3, h4⟩
    · exact hlow y (by omega)
    · exact hkeep x c hx hc y (by omega) (by omega)
  · cases List.mem_cons.mp hr with
    | inl heq =>
      obtain rfl := heq
      exact Or.inr ⟨p, b, hb, hbu, Nat.le_refl _, by simp only [data]; omega⟩
    | inr hr =>
      rcases hheld r hr with hl | ⟨x, c, hx, hc, h1, h2⟩
      · exact Or.inl hl
      · obtain ⟨-, c', hx', hc', hs⟩ := hp.keeps hx hc
        exact Or.inr ⟨x, c', hx', hc', h1, by omega⟩
  · rw [hpay y h1 (by omega)]
    exact h.tail y (by omega) (by simp only [data] at h2; omega)

theorem Placed.only_tail {bs bs' : List Blk} {sz align p : Nat} (h : Placed sz align bs p bs')
    (hused : ∀ b ∈ bs, b.used = true) : ∃ xs l, bs = xs ++ [l] ∧ TailOk xs l align sz ∧
      p = tailAt align (endOf heapBase bs) ∧ bs' = xs ++ [widen xs l align, ⟨true, sz⟩] := by
  cases h with
  | root _ _ => exact absurd (hused _ (List.mem_singleton_self _)) (by decide)
  | @fit xs b ys _ hf =>
    have hfree := hf.1
    rw [hused b (by simp)] at hfree
    exact absurd hfree (by decide)
  | @tail xs l _ _ ht => exact ⟨xs, l, rfl, ht, rfl, rfl⟩

theorem Placed.pristine {bs' : List Blk} {sz p : Nat} (h : Placed sz 0 [⟨false, 0⟩] p bs')
    (hpos : 0 < sz) : p = heapBase ∧ bs' = [⟨true, sz⟩] := by
  generalize hl : ([⟨false, 0⟩] : List Blk) = l at h
  cases h with
  | root _ _ => exact ⟨rfl, rfl⟩
  | @fit xs b ys _ hf =>
    have hb : b ∈ ([⟨false, 0⟩] : List Blk) := hl ▸ by simp
    have hs := hf.2.1
    rw [List.mem_singleton.mp hb] at hs
    exact absurd hs (Nat.not_le.mpr hpos)
  | tail _ hz _ => exact absurd ⟨hl.symm, rfl⟩ hz

/-- With every block in use a request is served behind the last block. -/
theorem Placed.behind {bs bs' : List Blk} {sz align p : Nat} (h : Placed sz align bs p bs')
    (hused : ∀ b ∈ bs, b.used = true) :
    (∀ b ∈ bs', b.used = true) ∧ bs'.length = bs.length + 1 ∧
      p = tailAt align (endOf heapBase bs) ∧ endOf heapBase bs ≤ p ∧
      endOf heapBase bs' = p + 16 + sz := by
  obtain ⟨xs, l, rfl, ht, rfl, rfl⟩ := h.only_tail hused
  have hgap := ht.gap
  refine ⟨fun b hb => ?_, by simp, rfl, ht.above, ?_⟩
  · cases List.mem_append.mp hb with
    | inl hb => exact hused b (List.mem_append_left _ hb)
    | inr hb =>
      cases List.mem_cons.mp hb with
      | inl heq =>
        obtain rfl := heq
        exact hused l (by simp)
      | inr hb =>
        rw [List.mem_singleton.mp hb]
  · simp only [endOf_append, endOf_cons, endOf_nil, widen, Blk.span, blockSiz] at *
    omega

/-- Room for one page behind the last block. -/
theorem Represents.page_room {m : Mem} {bs : List Blk} (h : Represents m bs)
    (hend : endOf heapBase bs % 4096 = 0 ∨ endOf heapBase bs % 4096 = 16)
    (hlim : endOf heapBase bs + 8192 < 4294967296) : TailRoom m 4096 12 := by
  intro x hx hn
  have he : x + 16 + size m x = endOf heapBase bs :=
    h.toForward.endsAt_unique ⟨x, hx, hn, rfl⟩
  rw [he, tailAt_page hend]
  omega

/-- `w` page requests in a row. -/
theorem heap_supplies_pages {fuel w : Nat} {k : Machine} {bs : List Blk}
    {areas : List (Nat × Nat)} (h : Represents k.mem bs) (hused : ∀ b ∈ bs, b.used = true)
    (hend : endOf heapBase bs % 4096 = 0 ∨ endOf heapBase bs % 4096 = 16)
    (hlim : endOf heapBase bs + w * 8192 < 4294967296) (hfuel : bs.length + w ≤ fuel)
    (hheld : Held bs areas) :
    Supplies ZeroFilled (kmalloca fuel) (List.replicate w (tableSize, pageAlignShift)) k areas := by
  induction w generalizing k bs areas with
  | zero => trivial
  | succ w ih =>
    rw [List.replicate_succ]
    intro k₁ hagree
    have h₁ : Represents k₁.mem bs := h.outside hheld hagree
    have hnext : endOf heapBase bs + 8192 < 4294967296 := by omega
    have hru : roundUp tableSize = 4096 := by decide
    have hroom : TailRoom k₁.mem (roundUp tableSize) pageAlignShift :=
      hru ▸ h₁.page_room hend hnext
    obtain ⟨p, k', bs', hk, hp, hr, hnew, hheld', hzero⟩ := h₁.grant hheld
      (by decide : pageAlignShift < 32) (by decide : 0 < tableSize) (by decide) (Or.inr hroom)
      (show bs.length < fuel by omega)
    obtain ⟨hused', hlen, hpe, habove, hend'⟩ := hp.behind hused
    rw [hru] at hend'
    have hpage : p = _ := hpe.trans (tailAt_page hend)
    refine ⟨_, k', hk, hnew, hzero (by simp only [data]; omega), ih hr hused' ?_ ?_ ?_ hheld'⟩
    · omega
    · omega
    · omega

/-- What a request without alignment takes of the heap, at most. -/
def footprint (r : Nat × Nat) : Nat := r.1 + 24

/-- Requests without alignment, one after the other. -/
theorem heap_supplies {fuel : Nat} {reqs : List (Nat × Nat)} {k : Machine} {bs : List Blk}
    {areas : List (Nat × Nat)} (h : Represents k.mem bs) (hused : ∀ b ∈ bs, b.used = true)
    (hreqs : ∀ r ∈ reqs, 0 < r.1 ∧ r.2 = 0)
    (hlim : endOf heapBase bs + (reqs.map footprint).sum < 4294967296)
    (hfuel : bs.length + reqs.length ≤ fuel) (hheld : Held bs areas) :
    Supplies ZeroFilled (kmalloca fuel) reqs k areas := by
  induction reqs generalizing k bs areas with
  | nil => trivial
  | cons r reqs ih =>
    obtain ⟨n, align⟩ := r
    obtain ⟨hpos, h0⟩ : 0 < n ∧ align = 0 := hreqs _ (List.mem_cons_self ..)
    subst h0
    intro k₁ hagree
    simp only [List.map_cons, List.sum_cons, footprint, List.length_cons] at hlim hfuel
    have h₁ : Represents k₁.mem bs := h.outside hheld hagree
    have hru := roundUp_eq (n := n) (by omega)
    have hroom : TailRoom k₁.mem (roundUp n) 0 := by
      intro x hx hn
      have he : x + 16 + size k₁.mem x = endOf heapBase bs :=
        h₁.toForward.endsAt_unique ⟨x, hx, hn, rfl⟩
      obtain ⟨b, hb⟩ := h₁.toForward.inChain hx
      have hsize : size k₁.mem x = b.size := (h₁.chain.header hb).size_eq
      have hpos' : 0 < b.size := by
        rcases h₁.sized with hroot | ⟨-, hall⟩
        · exact absurd (hused _ (hroot ▸ List.mem_singleton_self _)) (by decide)
        · exact (hall b (Tiling.mem_of_place _ hb)).1
      rw [he, tailAt, if_pos (Or.inl rfl)]
      omega
    obtain ⟨p, k', bs', hk, hp, hr, hnew, hheld', hzero⟩ := h₁.grant hheld (by decide) hpos
      (by omega) (Or.inr hroom) (show bs.length < fuel by omega)
    obtain ⟨hused', hlen, hpe, habove, hend'⟩ := hp.behind hused
    rw [tailAt, if_pos (Or.inl rfl)] at hpe
    refine ⟨_, k', hk, hnew, hzero (by simp only [data]; omega),
      ih hr hused' (fun r hr => hreqs r (List.mem_cons_of_mem _ hr)) ?_ (by omega) hheld'⟩
    omega

/-- The same from the pristine heap. -/
theorem pristine_supplies {fuel : Nat} {reqs : List (Nat × Nat)} {k : Machine}
    {areas : List (Nat × Nat)} (h : Represents k.mem [⟨false, 0⟩])
    (hreqs : ∀ r ∈ reqs, 0 < r.1 ∧ r.2 = 0)
    (hlim : heapBase + (reqs.map footprint).sum < 4294967296) (hfuel : reqs.length < fuel)
    (hlow : ∀ r ∈ areas, r.1 + r.2 ≤ heapBase) :
    Supplies ZeroFilled (kmalloca fuel) reqs k areas := by
  have hheld : Held [⟨false, 0⟩] areas := fun r hr => Or.inl (hlow r hr)
  cases reqs with
  | nil => trivial
  | cons r reqs =>
    obtain ⟨n, align⟩ := r
    obtain ⟨hpos, h0⟩ : 0 < n ∧ align = 0 := hreqs _ (List.mem_cons_self ..)
    subst h0
    intro k₁ hagree
    simp only [List.map_cons, List.sum_cons, footprint, List.length_cons] at hlim hfuel
    have h₁ : Represents k₁.mem [⟨false, 0⟩] := h.outside hheld hagree
    have hru := roundUp_eq (n := n) (by omega)
    have hserve : Serves k₁.mem (roundUp n) 0 := by
      refine ⟨root, .root, Or.inr ⟨?_, rfl, ?_⟩⟩
      · exact (h₁.chain.header (List.mem_cons_self ..)).size_eq
      · simp only [root]
        omega
    obtain ⟨p, k', bs', hk, hp, hr, hnew, hheld', hzero⟩ := h₁.grant hheld (by decide) hpos
      (by omega) (Or.inl hserve) (show 1 < fuel by omega)
    obtain ⟨rfl, rfl⟩ := hp.pristine (by omega)
    refine ⟨_, k', hk, hnew, hzero (Nat.le_refl _), heap_supplies hr (by simp)
      (fun r hr => hreqs r (List.mem_cons_of_mem _ hr)) ?_ ?_ hheld'⟩
    · simp only [endOf_cons, endOf_nil, Blk.span, blockSiz]
      omega
    · simp only [List.length_singleton]
      omega

end Foos.Kmalloc

namespace Foos.Vmem
open ByteMemory Kmalloc Pmem

/-- From the pristine heap, `pmem_init` leaves a cleared bitmap and a heap with room for the
directory and four tables. -/
theorem pmemInit_supplies {s : Session} (h : Pristine s) :
    ∃ frameSet k, pmemInit (Kmalloc.kmalloc 8) s.k = some (frameSet, k) ∧
      Cleared frameSet k.mem ∧ Supplies ZeroFilled (Kmalloc.kmalloca 8)
        (List.replicate 5 pageRequest) k [(frameSet, pageSize)] := by
  have hheap := h.holds.heap
  have hru : roundUp pageSize = 4096 := by decide
  have hserve : Serves s.k.mem (roundUp pageSize) 0 := by
    refine ⟨root, .root, Or.inr ⟨?_, rfl, by decide⟩⟩
    exact (hheap.chain.header (List.mem_cons_self ..)).size_eq
  obtain ⟨q, k', hret⟩ := hheap.kmalloca_returns (by decide : 0 < 32) (by decide : 0 < pageSize)
    (by decide) (Or.inl hserve)
  have hk : Kmalloc.kmalloca 8 s.k pageSize 0 = some (q, k') := hret 6
  obtain ⟨p, bs', rfl, hp, hr, -, -, -⟩ := hheap.kmalloca (by decide) (by decide) (by decide)
    (Or.inl hserve) hk
  rw [hru] at hp
  have hbs : p = heapBase ∧ bs' = [⟨true, 4096⟩] := hp.pristine (by decide)
  obtain ⟨rfl, rfl⟩ := hbs
  have hx : (heapBase, (⟨true, 4096⟩ : Blk)) ∈ placed [⟨true, 4096⟩] := List.mem_singleton_self _
  refine ⟨data heapBase, ⟨memset k'.mem (data heapBase) 0 pageSize, k'.errno⟩,
    by rw [pmemInit, Kmalloc.kmalloc, hk]; rfl, fun y h1 h2 => if_pos ⟨h1, h2⟩, ?_⟩
  refine heap_supplies_pages (hr.payload fun w _ hw => if_neg fun hin => ?_) (by simp) ?_ ?_ ?_ ?_
  · have := hw _ _ hx
    simp only [data, pageSize] at *
    omega
  · decide
  · decide
  · decide
  · intro r hr
    rw [List.mem_singleton.mp hr]
    exact Or.inr ⟨_, _, hx, rfl, Nat.le_refl _,
      (by decide : data heapBase + pageSize ≤ heapBase + 16 + 4096)⟩

/-- Boot: the heap of the kernel serves `pmem_init` and `vmem_init`. -/
theorem vmemInit_identity_boot : ∃ frameSet k s',
    pmemInit (Kmalloc.kmalloc 8) zeroed.k = some (frameSet, k) ∧
    vmemInit (Kmalloc.kmalloca 8) ⟨k, frameSet, 0, 0⟩ = some s' ∧
      (∀ a, a < mappedMemory → ∃ e, walk s'.k.mem s'.tables a = some e ∧
        frameOf e * pageSize + a % pageSize = a ∧ Present e ∧ e &&& pWritable ≠ 0 ∧
        pdeOf s'.k.mem s'.tables a &&& pWritable ≠ 0) ∧
      (∀ a, mappedMemory ≤ a → a < 4294967296 → walk s'.k.mem s'.tables a = none) ∧
      ∀ f, f < nPages → Taken s'.frameSet s'.k.mem f := by
  obtain ⟨frameSet, k, hinit, hclear, hsup⟩ := pmemInit_supplies zeroed_pristine
  obtain ⟨s', h⟩ := vmemInit_identity (s := ⟨k, frameSet, 0, 0⟩) rfl hclear hsup
  exact ⟨frameSet, k, s', hinit, h⟩

end Foos.Vmem
