import Foos.PageTables

/-! `vmem_init` builds the identity map: page after page gets the first free frame, which is
the frame of its own number, in tables made on demand. -/
namespace Foos.Vmem
open ByteMemory Word32 Kmalloc Pmem

/-- The request for a table or for the directory. -/
def pageRequest : Nat × Nat := (tableSize, pageAlignShift)

/-- The loop with `t` tables in place and the first `i` pages mapped. -/
structure Identity (alloc : Allocator) (s : Paging) (t i : Nat) : Prop where
  directory : Directory s.k.mem s.tables
  present : ∀ a, a < 4294967296 →
    (Present (pdeOf s.k.mem s.tables a) ↔ a / pageSize / 1024 < t)
  writable : ∀ a, a < 4294967296 → Present (pdeOf s.k.mem s.tables a) →
    pdeOf s.k.mem s.tables a &&& pWritable ≠ 0
  taken : ∀ f, f < 32768 → (Taken s.frameSet s.k.mem f ↔ f < i)
  mapped : ∀ a, a < 4294967296 → a / pageSize < i →
    pteOf s.k.mem s.tables a = a / pageSize * pageSize ||| pPresent ||| pWritable
  blank : ∀ a, a < 4294967296 → i ≤ a / pageSize → Present (pdeOf s.k.mem s.tables a) →
    pteOf s.k.mem s.tables a = 0
  apart : ∀ y, InTables s.k.mem s.tables y → y < s.frameSet ∨ s.frameSet + pageSize ≤ y
  supply : ∃ k₀ areas, Supplies ZeroFilled alloc (List.replicate (4 - t) pageRequest) k₀ areas ∧
    (∀ y, Outside areas y → s.k.mem y = k₀.mem y) ∧ (s.frameSet, pageSize) ∈ areas ∧
    ∀ y, InTables s.k.mem s.tables y → ∃ r ∈ areas, r.1 ≤ y ∧ y < r.1 + r.2

theorem taken_congr {frameSet : Nat} {m m' : Mem} {f : Nat} (hf : f < 32768)
    (h : ∀ y, frameSet ≤ y → y < frameSet + pageSize → m' y = m y) :
    Taken frameSet m' f ↔ Taken frameSet m f := by
  rw [Taken, Taken, Bitmap.bit_congr fun y h1 h2 => h y ?_ ?_]
  · simp only [Bitmap.wordOf] at h1
    omega
  · simp only [Bitmap.wordOf, pageSize] at *
    omega

theorem or_writable (e : Nat) : (e ||| pWritable) &&& pWritable ≠ 0 := by
  have h : pWritable ≤ (e &&& pWritable) ||| (pWritable &&& pWritable) := Nat.right_le_or
  rw [← Nat.and_or_distrib_right] at h
  exact Nat.ne_of_gt (Nat.lt_of_lt_of_le (by decide) h)

/-- The answer to a page request, as a page for a new table. -/
theorem fresh_of_area {m m' : Mem} {areas : List (Nat × Nat)} {dir p : Nat}
    (h : NewArea m m' areas p tableSize pageAlignShift)
    (hin : ∀ y, InTables m dir y → ∃ r ∈ areas, r.1 ≤ y ∧ y < r.1 + r.2) :
    Fresh m m' dir p := by
  refine ⟨h.nonzero, h.aligned, h.below, fun y hy => ?_, fun y hy => ?_⟩
  · obtain ⟨r, hr, h1, h2⟩ := hin y hy
    have := h.apart r hr
    simp only [tableSize, pageSize] at *
    omega
  · obtain ⟨r, hr, h1, h2⟩ := hin y hy
    exact h.kept r hr y h1 h2

/-- A page in the region of the next table: `vmem_get` makes that table. -/
theorem Identity.newTable {alloc : Allocator} {s : Paging} {t i v : Nat}
    (h : Identity alloc s t i) (ht : t < 4) (hi : i ≤ t * 1024) (hv : v < 4294967296)
    (hidx : v / pageSize / 1024 = t) :
    ∃ s₁, vmemGet alloc s v s.tables = some (slotOf s₁.k.mem s.tables v, s₁) ∧
      s₁.tables = s.tables ∧ Identity alloc s₁ (t + 1) i := by
  obtain ⟨k₀, areas, hsup, hagree, hbit, hin⟩ := h.supply
  rw [show 4 - t = (4 - (t + 1)) + 1 by omega, List.replicate_succ] at hsup
  obtain ⟨p, k', hk, hnew, hfill, hsup'⟩ := hsup s.k hagree
  have hfresh := fresh_of_area hnew hin
  have hnp : ¬ Present (pdeOf s.k.mem s.tables v) := by
    rw [h.present v hv, hidx]
    exact Nat.lt_irrefl t
  have hentry (y : Nat) (h1 : s.tables + 4 * (v / pageSize / 1024) ≤ y)
      (h2 : y < s.tables + 4 * (v / pageSize / 1024) + 4) : InTables s.k.mem s.tables y := by
    have hb := pde_bounds s.tables hv
    exact inTables_dir (by omega) (by omega)
  have hbits (y : Nat) (h1 : s.frameSet ≤ y) (h2 : y < s.frameSet + pageSize) :
      hooked k'.mem s.tables v p y = s.k.mem y := by
    rw [hooked_outside, hnew.kept _ hbit y h1 h2]
    by_contra hno
    have := h.apart y (hentry y (by omega) (by omega))
    omega
  refine ⟨{ s with k := { k' with mem := hooked k'.mem s.tables v p } }, ?_, rfl,
    hfresh.directory h.directory, fun a ha => ?_,
    fun a ha hpa => ?_, fun f hf => ?_, fun a ha hai => ?_, fun a ha hai hpa => ?_,
    fun y hy => ?_, k', (p, tableSize) :: areas, hsup', fun y hy => ?_,
    List.mem_cons_of_mem _ hbit, fun y hy => ?_⟩
  · rw [vmemGet_new h.directory hnp hk]
    simp only [hfresh.slot_new rfl]
  · by_cases hav : a / pageSize / 1024 = v / pageSize / 1024
    · exact iff_of_true (hfresh.present_new hav) (by omega)
    · simp only [hfresh.pde_old ha hav, h.present a ha]
      omega
  · by_cases hav : a / pageSize / 1024 = v / pageSize / 1024
    · simp only [hfresh.pde_new hav, ← hfresh.entry.1]
      exact or_writable _
    · simp only [hfresh.pde_old ha hav] at hpa ⊢
      exact h.writable a ha hpa
  · exact (taken_congr hf hbits).trans (h.taken f hf)
  · have hav : a / pageSize / 1024 ≠ v / pageSize / 1024 := by omega
    have hpa := (h.present a ha).mpr (by omega)
    exact (hfresh.pte_old h.directory hv ha hav hpa).trans (h.mapped a ha hai)
  · by_cases hav : a / pageSize / 1024 = v / pageSize / 1024
    · refine (hfresh.pte_new hv hav).trans (load32_zero fun y h1 h2 => hfill y ?_ ?_)
      · omega
      · simp only [tableSize]
        omega
    · simp only [hfresh.pde_old ha hav] at hpa
      exact (hfresh.pte_old h.directory hv ha hav hpa).trans (h.blank a ha hai hpa)
  · rcases hfresh.inTables hy with hy | ⟨h1, h2⟩
    · exact h.apart y hy
    · have := hnew.apart _ hbit
      simp only [tableSize, pageSize] at *
      omega
  · refine hooked_outside ?_
    by_contra hno
    obtain ⟨r, hr, h1, h2⟩ := hin y (hentry y (by omega) (by omega))
    have := hy r (List.mem_cons_of_mem _ hr)
    omega
  · rcases hfresh.inTables hy with hy | ⟨h1, h2⟩
    · obtain ⟨r, hr, hry⟩ := hin y hy
      exact ⟨r, List.mem_cons_of_mem _ hr, hry⟩
    · exact ⟨_, List.mem_cons_self .., h1, h2⟩

theorem inTables_congr {m m' : Mem} {dir y : Nat}
    (h : ∀ v, v < 4294967296 → pdeOf m' dir v = pdeOf m dir v) (hy : InTables m' dir y) :
    InTables m dir y := by
  rcases hy with hy | ⟨v, hv, hp, h1, h2⟩
  · exact Or.inl hy
  · rw [h v hv] at hp h1 h2
    exact Or.inr ⟨v, hv, hp, h1, h2⟩

/-- Pages with one number have one entry. -/
theorem pteOf_page {m : Mem} {dir a i : Nat} (h : a / pageSize = i) :
    pdeOf m dir a = pdeOf m dir (i * pageSize) ∧ pteOf m dir a = pteOf m dir (i * pageSize) := by
  have hi : i * pageSize / pageSize = i := Nat.mul_div_cancel i (by decide)
  have hpde : pdeOf m dir a = pdeOf m dir (i * pageSize) := by simp only [pdeOf, h, hi]
  exact ⟨hpde, by simp only [pteOf, slotOf, hpde, h, hi]⟩

/-- Page `i` gets frame `i`, the first that is free. -/
theorem Identity.mapPage {alloc : Allocator} {s : Paging} {t i : Nat}
    (h : Identity alloc s t i) (hi : i < 4096) (hit : i / 1024 < t) :
    Identity alloc { s with k := { s.k with mem := (pmemMap s.frameSet s.k.mem
      (slotOf s.k.mem s.tables (i * pageSize)) 0 pWritable).2 } } t (i + 1) := by
  have hpage : pageSize = 4096 := rfl
  have hdiv : i * pageSize / pageSize = i := Nat.mul_div_cancel i (by decide)
  have hmul : i * pageSize = i * 4096 := rfl
  have hv : i * pageSize < 4294967296 := by omega
  have hpv : Present (pdeOf s.k.mem s.tables (i * pageSize)) := by
    rw [h.present _ hv, hdiv]
    exact hit
  have hget : pmemGetFree s.frameSet s.k.mem = i * pageSize := by
    refine pmemGetFree_first hi (fun hti => ?_) fun g hg => (h.taken g (by omega)).mpr hg
    exact Nat.lt_irrefl i ((h.taken i (by omega)).mp hti)
  have hw := wordAt_bounds s.frameSet (by omega : i * pageSize < 0x8000000)
  obtain ⟨hpde, hpte, hrest⟩ := h.directory.map 0 pWritable hv hpv
    (hget.symm.trans (if_pos rfl).symm) (by omega) (by decide) fun y hy => by
      have := h.apart y hy
      omega
  have hslot : slotOf s.k.mem s.tables (i * pageSize) + 4 ≤ s.frameSet ∨
      s.frameSet + pageSize ≤ slotOf s.k.mem s.tables (i * pageSize) := by
    have hlo := h.apart _ (inTables_slot hv hpv (Nat.le_refl _) (by omega))
    have hhi := h.apart _ (inTables_slot hv hpv (Nat.le_add_right _ 3) (by omega))
    omega
  refine ⟨h.directory.congr hpde, fun a ha => ?_, fun a ha hpa => ?_, fun f hf => ?_,
    fun a ha hai => ?_, fun a ha hai hpa => ?_, fun y hy => ?_, ?_⟩
  · rw [hpde a ha]
    exact h.present a ha
  · rw [hpde a ha] at hpa ⊢
    exact h.writable a ha hpa
  · simp only [pmemMap, if_true, hget]
    rw [taken_pmemSet, taken_store hf hslot, hdiv, h.taken f hf]
    omega
  · cases Nat.lt_or_eq_of_le (Nat.le_of_lt_succ hai) with
    | inl hlt =>
      have hpa : Present (pdeOf s.k.mem s.tables a) := by
        rw [h.present a ha]
        omega
      exact (hrest a ha hpa (by omega)).trans (h.mapped a ha hlt)
    | inr heq =>
      rw [(pteOf_page heq).2, heq]
      refine hpte.trans ?_
      rw [h.blank _ hv (by omega) hpv, Nat.zero_or]
  · rw [hpde a ha] at hpa
    exact (hrest a ha hpa (by omega)).trans (h.blank a ha (by omega) hpa)
  · exact h.apart y (inTables_congr hpde hy)
  · obtain ⟨k₀, areas, hsup, hagree, hbit, hin⟩ := h.supply
    refine ⟨k₀, areas, hsup, fun y hy => ?_, hbit, fun y hy => hin y (inTables_congr hpde hy)⟩
    refine (pmemMap_outside ?_ fun p hp => ?_).trans (hagree y hy)
    · by_contra hno
      obtain ⟨r, hr, h1, h2⟩ := hin y (inTables_slot hv hpv (by omega) (by omega))
      have := hy r hr
      omega
    · rw [if_pos rfl, hget] at hp
      subst hp
      have := hy _ hbit
      simp only at this
      omega

/-- The tables in place once the first `i` pages are mapped. -/
def tablesFor (i : Nat) : Nat := (i + 1023) / 1024

theorem Identity.step {alloc : Allocator} {s : Paging} {i : Nat}
    (h : Identity alloc s (tablesFor i) i) (hi : i < 4096) :
    ∃ s', pmemMapaddr alloc s (i * pageSize) 0 pWritable s.tables = some (0, s') ∧
      s'.tables = s.tables ∧ Identity alloc s' (tablesFor (i + 1)) (i + 1) := by
  have hdiv : i * pageSize / pageSize = i := Nat.mul_div_cancel i (by decide)
  have hv : i * pageSize < 4294967296 := by
    simp only [pageSize]
    omega
  obtain ⟨s₁, hget, htables, h₁⟩ : ∃ s₁, vmemGet alloc s (i * pageSize) s.tables =
      some (slotOf s₁.k.mem s.tables (i * pageSize), s₁) ∧ s₁.tables = s.tables ∧
      Identity alloc s₁ (tablesFor (i + 1)) i := by
    by_cases hnew : i / 1024 < tablesFor i
    · have ht : tablesFor (i + 1) = tablesFor i := by
        simp only [tablesFor] at *
        omega
      refine ⟨s, vmemGet_found h.directory hv ?_, rfl, ht ▸ h⟩
      rw [h.present _ hv, hdiv]
      exact hnew
    · have ht : i / 1024 = tablesFor i ∧ tablesFor (i + 1) = tablesFor i + 1 ∧
          i ≤ tablesFor i * 1024 ∧ tablesFor i < 4 := by
        simp only [tablesFor] at *
        omega
      obtain ⟨s₁, hget, htab, h₁⟩ := h.newTable ht.2.2.2 ht.2.2.1 hv (by rw [hdiv]; exact ht.1)
      exact ⟨s₁, hget, htab, ht.2.1 ▸ h₁⟩
  have hit : i / 1024 < tablesFor (i + 1) := by
    simp only [tablesFor]
    omega
  refine ⟨{ s₁ with k := { s₁.k with mem := (pmemMap s₁.frameSet s₁.k.mem
    (slotOf s₁.k.mem s₁.tables (i * pageSize)) 0 pWritable).2 } }, ?_, htables, h₁.mapPage hi hit⟩
  have hslot : vmemGet alloc s (i * pageSize) s.tables =
      some (slotOf s₁.k.mem s₁.tables (i * pageSize), s₁) := by rw [hget, htables]
  rw [pmemMapaddr, hslot]
  rfl

theorem Identity.loop {alloc : Allocator} {n i : Nat} {s : Paging}
    (h : Identity alloc s (tablesFor i) i) (hn : i + n = 4096) :
    ∃ s', mapPages alloc n i s = some s' ∧ Identity alloc s' 4 4096 := by
  induction n generalizing i s with
  | zero =>
    obtain rfl : i = 4096 := hn
    exact ⟨s, rfl, h⟩
  | succ n ih =>
    obtain ⟨s₁, hmap, -, h₁⟩ := h.step (by omega)
    obtain ⟨s', hloop, h'⟩ := ih h₁ (by omega)
    exact ⟨s', by simp only [mapPages, hmap, hloop], h'⟩

/-- The directory is cleared, and the loop starts with nothing mapped. -/
theorem Identity.start {alloc : Allocator} {s : Paging} {p : Nat} {k : Machine}
    (hclear : Cleared s.frameSet s.k.mem)
    (hnew : NewArea s.k.mem k.mem [(s.frameSet, pageSize)] p tableSize pageAlignShift)
    (hsup : Supplies ZeroFilled alloc (List.replicate 4 pageRequest) k
      [(p, tableSize), (s.frameSet, pageSize)]) :
    Identity alloc ⟨⟨memset k.mem p 0 dirSize, k.errno⟩, s.frameSet, p, p⟩ 0 0 := by
  have hpage : pageSize = 4096 := rfl
  have htab : tableSize = 4096 := rfl
  have hdir : dirSize = 4096 := rfl
  have happ := hnew.apart _ (List.mem_singleton_self _)
  simp only at happ
  have hzero (y : Nat) (h1 : p ≤ y) (h2 : y < p + pageSize) : memset k.mem p 0 dirSize y = 0 :=
    if_pos ⟨h1, by omega⟩
  have hout (y : Nat) (h : y < p ∨ p + pageSize ≤ y) : memset k.mem p 0 dirSize y = k.mem y :=
    if_neg (by omega)
  have hpde (a : Nat) (ha : a < 4294967296) : pdeOf (memset k.mem p 0 dirSize) p a = 0 := by
    have hb := pde_bounds p ha
    exact load32_zero fun y h1 h2 => hzero y (by omega) (by omega)
  have hnp (a : Nat) (ha : a < 4294967296) :
      ¬ Present (pdeOf (memset k.mem p 0 dirSize) p a) := by
    rw [hpde a ha]
    decide
  have hin (y : Nat) (hy : InTables (memset k.mem p 0 dirSize) p y) : p ≤ y ∧ y < p + pageSize := by
    rcases hy with hy | ⟨v, hv, hpv, -⟩
    · exact hy
    · exact absurd hpv (hnp v hv)
  refine ⟨⟨hnew.nonzero, hnew.aligned, fun v hv hp => absurd hp (hnp v hv),
    fun v w hv hw hp => absurd hp (hnp v hv)⟩, fun a ha => ?_, fun a ha hp => absurd hp (hnp a ha),
    fun f hf => ?_, fun a ha hai => absurd hai (Nat.not_lt_zero _),
    fun a ha hai hp => absurd hp (hnp a ha), fun y hy => ?_,
    k, _, hsup, fun y hy => hout y ?_, by simp, fun y hy => ?_⟩
  · exact iff_of_false (hnp a ha) (Nat.not_lt_zero _)
  · refine iff_of_false ?_ (Nat.not_lt_zero _)
    rw [Taken, Bitmap.bit]
    have hw : load32 (memset k.mem p 0 dirSize) (Bitmap.wordOf s.frameSet f) = 0 := by
      refine load32_zero fun y h1 h2 => ?_
      simp only [Bitmap.wordOf] at h1 h2
      rw [hout y (by omega), hnew.kept _ (List.mem_singleton_self _) y (by omega)
        (by simp only; omega)]
      exact hclear y (by omega) (by omega)
    simp only [hw, Nat.zero_testBit]
    decide
  · have := hin y hy
    simp only
    omega
  · have := hy (p, tableSize) (by simp)
    simp only at this
    omega
  · have := hin y hy
    exact ⟨(p, tableSize), by simp, this.1, by simp only; omega⟩

/-- With the bitmap cleared and five zeroed pages to come from the heap, `vmem_init` maps
every address below `MAPPED_MEMORY` to itself, present and writable, and no other, and marks
all its frames. -/
theorem vmemInit_identity {alloc : Allocator} {s : Paging} (htables : s.tables = 0)
    (hclear : Cleared s.frameSet s.k.mem)
    (hsup : Supplies ZeroFilled alloc (List.replicate 5 pageRequest) s.k
      [(s.frameSet, pageSize)]) :
    ∃ s', vmemInit alloc s = some s' ∧
      (∀ a, a < mappedMemory → ∃ e, walk s'.k.mem s'.tables a = some e ∧
        frameOf e * pageSize + a % pageSize = a ∧ Present e ∧ e &&& pWritable ≠ 0 ∧
        pdeOf s'.k.mem s'.tables a &&& pWritable ≠ 0) ∧
      (∀ a, mappedMemory ≤ a → a < 4294967296 → walk s'.k.mem s'.tables a = none) ∧
      ∀ f, f < nPages → Taken s'.frameSet s'.k.mem f := by
  obtain ⟨p, k, hk, hnew, -, hsup'⟩ := hsup s.k fun _ _ => rfl
  have hstart : Identity alloc _ (tablesFor 0) 0 := Identity.start hclear hnew hsup'
  obtain ⟨s', hloop, h⟩ := hstart.loop (Nat.zero_add 4096)
  have hdir : alloc s.k dirSize pageAlignShift = some (p, k) := hk
  have hpage (a : Nat) : a / pageSize < 4096 ↔ a < mappedMemory := by
    simp only [pageSize, mappedMemory]
    omega
  refine ⟨s', by simp only [vmemInit, if_pos htables, hdir, hloop], fun a ha => ?_,
    fun a ha hlt => ?_, fun f hf => ?_⟩
  · have hlt : a < 4294967296 := Nat.lt_trans ha (by decide)
    have hnum := (hpage a).mpr ha
    have hpa := (h.present a hlt).mpr (by omega)
    have hpte := h.mapped a hlt hnum
    have hpres : Present (pteOf s'.k.mem s'.tables a) := hpte ▸ present_entry _ _
    refine ⟨_, if_pos ⟨hpa, hpres⟩, ?_, hpres, ?_, h.writable a hlt hpa⟩
    · rw [hpte, frameOf_entry (Nat.mul_mod_left _ _) (by decide), Nat.mul_div_cancel _ (by decide)]
      exact Nat.div_add_mod' a pageSize
    · rw [hpte]
      exact or_writable _
  · refine if_neg fun hp => ?_
    have hnum := (h.present a hlt).mp hp.1
    have := (hpage a).mp (by omega)
    omega
  · refine (h.taken f ?_).mpr hf
    have : nPages = 4096 := rfl
    omega

end Foos.Vmem
