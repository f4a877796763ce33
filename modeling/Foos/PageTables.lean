import Foos.Vmem
import Foos.FrameRuns

/-! The translation that a directory and its tables stand for, and what mapping one page
does to it. -/
namespace Foos.Vmem
open ByteMemory Word32 Kmalloc Pmem

/-- The directory entry for `v`. -/
def pdeOf (m : Mem) (dir v : Nat) : Nat := load32 m (dir + 4 * (v / pageSize / 1024))

/-- The table that a directory entry points to. -/
def tableOf (entry : Nat) : Nat := entry - entry % pageSize

/-- The address of the table entry for `v`. -/
def slotOf (m : Mem) (dir v : Nat) : Nat :=
  tableOf (pdeOf m dir v) + 4 * (v / pageSize % 1024)

def pteOf (m : Mem) (dir v : Nat) : Nat := load32 m (slotOf m dir v)

def Present (entry : Nat) : Prop := entry % 2 = 1

instance (entry : Nat) : Decidable (Present entry) := inferInstanceAs (Decidable (_ = _))

/-- The walk of the processor: the table entry of a page that is mapped. -/
def walk (m : Mem) (dir v : Nat) : Option Nat :=
  if Present (pdeOf m dir v) ∧ Present (pteOf m dir v) then some (pteOf m dir v) else none

/-- Directory and tables are distinct pages. -/
structure Directory (m : Mem) (dir : Nat) : Prop where
  nonzero : dir ≠ 0
  aligned : dir % pageSize = 0
  table : ∀ v, v < 4294967296 → Present (pdeOf m dir v) →
    tableOf (pdeOf m dir v) ≠ 0 ∧ tableOf (pdeOf m dir v) ≠ dir
  distinct : ∀ v w, v < 4294967296 → w < 4294967296 → Present (pdeOf m dir v) →
    Present (pdeOf m dir w) → tableOf (pdeOf m dir v) = tableOf (pdeOf m dir w) →
    v / pageSize / 1024 = w / pageSize / 1024

/-- `y` is a byte of the directory or of one of its tables. -/
def InTables (m : Mem) (dir y : Nat) : Prop :=
  (dir ≤ y ∧ y < dir + pageSize) ∨ ∃ v, v < 4294967296 ∧ Present (pdeOf m dir v) ∧
    tableOf (pdeOf m dir v) ≤ y ∧ y < tableOf (pdeOf m dir v) + pageSize

/-- A page for a new table: no page of the structure, whose bytes it leaves alone. -/
structure Fresh (m m' : Mem) (dir table : Nat) : Prop where
  nonzero : table ≠ 0
  aligned : table % pageSize = 0
  below : table + pageSize ≤ 4294967296
  apart : ∀ y, InTables m dir y → y < table ∨ table + pageSize ≤ y
  kept : ∀ y, InTables m dir y → m' y = m y

theorem tableOf_aligned (entry : Nat) : tableOf entry % pageSize = 0 := by
  have := Nat.mod_add_div entry pageSize
  simp only [tableOf, pageSize] at *
  omega

theorem slot_bounds (m : Mem) (dir v : Nat) :
    tableOf (pdeOf m dir v) ≤ slotOf m dir v ∧
      slotOf m dir v + 4 ≤ tableOf (pdeOf m dir v) + pageSize := by
  simp only [slotOf, pageSize]
  omega

theorem pde_bounds (dir : Nat) {v : Nat} (hv : v < 4294967296) :
    dir ≤ dir + 4 * (v / pageSize / 1024) ∧
      dir + 4 * (v / pageSize / 1024) + 4 ≤ dir + pageSize := by
  simp only [pageSize]
  omega

theorem pdeOf_congr {m m' : Mem} {dir v : Nat} (hv : v < 4294967296)
    (h : ∀ y, dir ≤ y → y < dir + pageSize → m' y = m y) : pdeOf m' dir v = pdeOf m dir v := by
  have hb := pde_bounds dir hv
  exact load32_congr fun y h1 h2 => h y (by omega) (by omega)

theorem pteOf_congr {m m' : Mem} {dir v : Nat} (hpde : pdeOf m' dir v = pdeOf m dir v)
    (h : ∀ y, slotOf m dir v ≤ y → y < slotOf m dir v + 4 → m' y = m y) :
    pteOf m' dir v = pteOf m dir v := by
  have hslot : slotOf m' dir v = slotOf m dir v := by simp only [slotOf, hpde]
  rw [pteOf, pteOf, hslot, load32_congr h]

theorem walk_congr {m m' : Mem} {dir v : Nat} (hpde : pdeOf m' dir v = pdeOf m dir v)
    (hpte : Present (pdeOf m dir v) → pteOf m' dir v = pteOf m dir v) :
    walk m' dir v = walk m dir v := by
  by_cases hp : Present (pdeOf m dir v)
  · rw [walk, walk, hpde, hpte hp]
  · rw [walk, walk, hpde, if_neg (fun h => hp h.1), if_neg (fun h => hp h.1)]

/-- What `vmem_get` tests: a present entry whose table is not NULL. -/
theorem entry_tests (e : Nat) (he : e < 4294967296) :
    (e &&& pPresent = 0 ↔ ¬ Present e) ∧
      e &&& shl32 0xFFFFFFFF pageAlignShift = tableOf e := by
  refine ⟨?_, and_shl32_ones he (by decide)⟩
  rw [pPresent, Nat.and_one_is_mod, Present]
  omega

theorem present_or (a b : Nat) (h : Present b) : Present (a ||| b) := by
  have hb : b.testBit 0 = true := by rw [Nat.testBit_zero]; exact decide_eq_true h
  have hab : (a ||| b).testBit 0 = true := by rw [Nat.testBit_or, hb, Bool.or_true]
  rw [Nat.testBit_zero] at hab
  exact of_decide_eq_true hab

theorem present_entry (p flags : Nat) : Present (p ||| pPresent ||| flags) := by
  rw [Nat.or_right_comm]
  exact present_or _ _ (by decide)

section Mapped
variable {m : Mem} {dir v w : Nat}

/-- Slots of different pages are different words. -/
theorem Directory.slots_apart (h : Directory m dir) (hv : v < 4294967296) (hw : w < 4294967296)
    (hpv : Present (pdeOf m dir v)) (hpw : Present (pdeOf m dir w))
    (hne : w / pageSize ≠ v / pageSize) :
    slotOf m dir w + 4 ≤ slotOf m dir v ∨ slotOf m dir v + 4 ≤ slotOf m dir w := by
  have hbv := slot_bounds m dir v
  have hbw := slot_bounds m dir w
  have hav := tableOf_aligned (pdeOf m dir v)
  have haw := tableOf_aligned (pdeOf m dir w)
  by_cases hsame : tableOf (pdeOf m dir v) = tableOf (pdeOf m dir w)
  · have hidx := h.distinct v w hv hw hpv hpw hsame
    simp only [slotOf, hsame] at *
    omega
  · simp only [pageSize] at *
    omega

/-- A slot is outside the directory. -/
theorem Directory.slot_apart (h : Directory m dir) (hv : v < 4294967296)
    (hpv : Present (pdeOf m dir v)) :
    slotOf m dir v + 4 ≤ dir ∨ dir + pageSize ≤ slotOf m dir v := by
  have hbv := slot_bounds m dir v
  have hav := tableOf_aligned (pdeOf m dir v)
  have hne := (h.table v hv hpv).2
  have hal := h.aligned
  simp only [pageSize] at *
  omega

theorem inTables_slot (hv : v < 4294967296) (hpv : Present (pdeOf m dir v)) {y : Nat}
    (h1 : slotOf m dir v ≤ y) (h2 : y < slotOf m dir v + 4) : InTables m dir y := by
  have hb := slot_bounds m dir v
  exact Or.inr ⟨v, hv, hpv, by omega, by omega⟩

theorem inTables_dir {y : Nat} (h1 : dir ≤ y) (h2 : y < dir + pageSize) : InTables m dir y :=
  Or.inl ⟨h1, h2⟩

/-- The structure is read off the directory alone. -/
theorem Directory.congr {m' : Mem} (h : Directory m dir)
    (hpde : ∀ v, v < 4294967296 → pdeOf m' dir v = pdeOf m dir v) : Directory m' dir := by
  refine ⟨h.nonzero, h.aligned, fun v hv => ?_, fun v w hv hw => ?_⟩
  · rw [hpde v hv]
    exact h.table v hv
  · rw [hpde v hv, hpde w hw]
    exact h.distinct v w hv hw

/-- `pmem_map` on the slot of a page: that entry gains bits, all others stay. -/
theorem Directory.map {frameSet p : Nat} (h : Directory m dir) (physaddr flags : Nat)
    (hv : v < 4294967296) (hpv : Present (pdeOf m dir v))
    (hp : p = if physaddr = 0 then pmemGetFree frameSet m else physaddr)
    (hplt : p < 4294967296) (hflags : flags < 4294967296)
    (hword : ∀ y, InTables m dir y → y < wordAt frameSet p ∨ wordAt frameSet p + 4 ≤ y) :
    let m' := (pmemMap frameSet m (slotOf m dir v) physaddr flags).2
    (∀ w, w < 4294967296 → pdeOf m' dir w = pdeOf m dir w) ∧
    pteOf m' dir v = pteOf m dir v ||| (p ||| pPresent ||| flags) ∧
    ∀ w, w < 4294967296 → Present (pdeOf m dir w) → w / pageSize ≠ v / pageSize →
      pteOf m' dir w = pteOf m dir w := by
  intro m'
  have hslot := h.slot_apart hv hpv
  have hpde (w : Nat) (hw : w < 4294967296) : pdeOf m' dir w = pdeOf m dir w := by
    refine pdeOf_congr hw fun y h1 h2 => pmemMap_outside (by omega) fun q hq => ?_
    rw [← hp] at hq
    exact hq ▸ hword y (inTables_dir h1 h2)
  refine ⟨hpde, ?_, fun w hw hpw hne => ?_⟩
  · have hsame : slotOf m' dir v = slotOf m dir v := by simp only [slotOf, hpde v hv]
    rw [pteOf, hsame]
    refine pmemMap_entry hp ?_ hplt hflags
    have hlo := hword _ (inTables_slot hv hpv (Nat.le_refl _) (by omega))
    have hhi := hword _ (inTables_slot hv hpv (Nat.le_add_right _ 3) (by omega))
    omega
  · refine pteOf_congr (hpde w hw) fun y h1 h2 => pmemMap_outside ?_ fun q hq => ?_
    · have := h.slots_apart hv hw hpv hpw hne
      omega
    · rw [← hp] at hq
      exact hq ▸ hword y (inTables_slot hw hpw h1 h2)

end Mapped

section Get
variable {kmalloca : Allocator} {s : Paging} {dir v : Nat}

/-- `vmem_get` of a page whose table exists. -/
theorem vmemGet_found (h : Directory s.k.mem dir) (hv : v < 4294967296)
    (hp : Present (pdeOf s.k.mem dir v)) :
    vmemGet kmalloca s v dir = some (slotOf s.k.mem dir v, s) := by
  obtain ⟨htest, hmask⟩ := entry_tests (pdeOf s.k.mem dir v) (load32_lt _ _)
  have hcond : ¬ (pdeOf s.k.mem dir v &&& pPresent = 0 ∨
      pdeOf s.k.mem dir v &&& shl32 0xFFFFFFFF pageAlignShift = 0) := by
    rw [htest, hmask, not_or, not_not]
    exact ⟨hp, (h.table v hv hp).1⟩
  rw [hmask] at hcond
  simp only [pdeOf] at hcond hmask
  simp only [vmemGet, if_neg h.nonzero, hmask, if_neg hcond]
  rfl

/-- Memory with the entry of a new table for `v` put into the directory. -/
def hooked (m : Mem) (dir v table : Nat) : Mem :=
  store32 m (dir + 4 * (v / pageSize / 1024)) (table ||| pPresent ||| pWritable)

/-- `vmem_get` of a page that has no table yet. -/
theorem vmemGet_new {table : Nat} {k : Machine} (h : Directory s.k.mem dir)
    (hp : ¬ Present (pdeOf s.k.mem dir v))
    (hk : kmalloca s.k tableSize pageAlignShift = some (table, k)) :
    vmemGet kmalloca s v dir = some (table + 4 * (v / pageSize % 1024),
      { s with k := { k with mem := hooked k.mem dir v table } }) := by
  obtain ⟨htest, -⟩ := entry_tests (pdeOf s.k.mem dir v) (load32_lt _ _)
  have hcond := htest.mpr hp
  simp only [pdeOf] at hcond
  simp only [vmemGet, if_neg h.nonzero, hcond, true_or, if_true, hk, Option.map_some]
  rfl

end Get

section Hooked
variable {m m' : Mem} {dir v table : Nat}

theorem Fresh.entry (h : Fresh m m' dir table) :
    table ||| pPresent ||| pWritable = table + 3 ∧ tableOf (table + 3) = table := by
  have hal := h.aligned
  refine ⟨entry_eq hal (by decide), ?_⟩
  simp only [tableOf, pageSize] at *
  omega

/-- Bytes outside the one directory entry. -/
theorem hooked_outside {y : Nat}
    (h : y < dir + 4 * (v / pageSize / 1024) ∨ dir + 4 * (v / pageSize / 1024) + 4 ≤ y) :
    hooked m dir v table y = m y :=
  store32_outside m _ _ y h

theorem Fresh.dir_apart (h : Fresh m m' dir table) :
    table + pageSize ≤ dir ∨ dir + pageSize ≤ table := by
  have h0 := h.apart dir (Or.inl ⟨Nat.le_refl dir, Nat.lt_add_of_pos_right (by decide)⟩)
  have h1 := h.apart (dir + 4095) (Or.inl ⟨by omega, by simp only [pageSize]; omega⟩)
  simp only [pageSize] at *
  omega

theorem Fresh.pde_new (h : Fresh m m' dir table) {w : Nat}
    (hidx : w / pageSize / 1024 = v / pageSize / 1024) :
    pdeOf (hooked m' dir v table) dir w = table + 3 := by
  have hbelow := h.below
  rw [pdeOf, hidx, hooked, load32_store32, h.entry.1, Nat.mod_eq_of_lt]
  simp only [pageSize] at hbelow
  omega

theorem Fresh.pde_old (h : Fresh m m' dir table) {w : Nat} (hw : w < 4294967296)
    (hidx : w / pageSize / 1024 ≠ v / pageSize / 1024) :
    pdeOf (hooked m' dir v table) dir w = pdeOf m dir w := by
  have hb := pde_bounds dir hw
  refine load32_congr fun y h1 h2 => ?_
  rw [hooked_outside (by omega), h.kept y (inTables_dir (by omega) (by omega))]

/-- Hooking a fresh page into the directory keeps its form. -/
theorem Fresh.directory (h : Fresh m m' dir table) (hd : Directory m dir) :
    Directory (hooked m' dir v table) dir := by
  have hdir := h.dir_apart
  have hentry := h.entry.2
  have hother (w : Nat) (hw : w < 4294967296) (hpw : Present (pdeOf m dir w)) :
      tableOf (pdeOf m dir w) ≠ table := by
    intro he
    have := h.apart table (Or.inr ⟨w, hw, hpw, Nat.le_of_eq he, by simp only [pageSize]; omega⟩)
    simp only [pageSize] at this
    omega
  refine ⟨hd.nonzero, hd.aligned, fun w hw hpw => ?_, fun u w hu hw hpu hpw hsame => ?_⟩
  · by_cases hidx : w / pageSize / 1024 = v / pageSize / 1024
    · rw [h.pde_new hidx, hentry]
      refine ⟨h.nonzero, ?_⟩
      simp only [pageSize] at hdir
      omega
    · rw [h.pde_old hw hidx] at hpw ⊢
      exact hd.table w hw hpw
  · by_cases hiu : u / pageSize / 1024 = v / pageSize / 1024
    · by_cases hiw : w / pageSize / 1024 = v / pageSize / 1024
      · exact hiu.trans hiw.symm
      · rw [h.pde_new hiu, hentry, h.pde_old hw hiw] at hsame
        rw [h.pde_old hw hiw] at hpw
        exact absurd hsame.symm (hother w hw hpw)
    · rw [h.pde_old hu hiu] at hpu hsame
      by_cases hiw : w / pageSize / 1024 = v / pageSize / 1024
      · rw [h.pde_new hiw, hentry] at hsame
        exact absurd hsame (hother u hu hpu)
      · rw [h.pde_old hw hiw] at hpw hsame
        exact hd.distinct u w hu hw hpu hpw hsame

/-- The entries of the tables that were there are as before. -/
theorem Fresh.pte_old (h : Fresh m m' dir table) (hd : Directory m dir) (hv : v < 4294967296)
    {w : Nat} (hw : w < 4294967296) (hidx : w / pageSize / 1024 ≠ v / pageSize / 1024)
    (hpw : Present (pdeOf m dir w)) : pteOf (hooked m' dir v table) dir w = pteOf m dir w := by
  have hslot := hd.slot_apart hw hpw
  have hb := pde_bounds dir hv
  refine pteOf_congr (h.pde_old hw hidx) fun y h1 h2 => ?_
  rw [hooked_outside (by omega), h.kept y (inTables_slot hw hpw h1 h2)]

theorem Fresh.slot_new (h : Fresh m m' dir table) {w : Nat}
    (hidx : w / pageSize / 1024 = v / pageSize / 1024) :
    slotOf (hooked m' dir v table) dir w = table + 4 * (w / pageSize % 1024) := by
  rw [slotOf, h.pde_new hidx, h.entry.2]

/-- An entry of the new table is what the page held. -/
theorem Fresh.pte_new (h : Fresh m m' dir table) (hv : v < 4294967296) {w : Nat}
    (hidx : w / pageSize / 1024 = v / pageSize / 1024) :
    pteOf (hooked m' dir v table) dir w = load32 m' (table + 4 * (w / pageSize % 1024)) := by
  have hb := pde_bounds dir hv
  have hdir := h.dir_apart
  rw [pteOf, h.slot_new hidx]
  refine load32_congr fun y h1 h2 => hooked_outside ?_
  simp only [pageSize] at *
  omega

theorem Fresh.present_new (h : Fresh m m' dir table) {w : Nat}
    (hidx : w / pageSize / 1024 = v / pageSize / 1024) :
    Present (pdeOf (hooked m' dir v table) dir w) := by
  have hal := h.aligned
  rw [h.pde_new hidx, Present]
  simp only [pageSize] at hal
  omega

theorem Fresh.inTables (h : Fresh m m' dir table) {y : Nat}
    (hy : InTables (hooked m' dir v table) dir y) :
    InTables m dir y ∨ table ≤ y ∧ y < table + pageSize := by
  rcases hy with hy | ⟨w, hw, hpw, h1, h2⟩
  · exact Or.inl (Or.inl hy)
  · by_cases hidx : w / pageSize / 1024 = v / pageSize / 1024
    · rw [h.pde_new hidx, h.entry.2] at h1 h2
      exact Or.inr ⟨h1, h2⟩
    · rw [h.pde_old hw hidx] at hpw h1 h2
      exact Or.inl (Or.inr ⟨w, hw, hpw, h1, h2⟩)

/-- Hooking in a table changes no walk exactly when its other entries are not present. -/
theorem Fresh.walk_iff (h : Fresh m m' dir table) (hd : Directory m dir) (hv : v < 4294967296)
    (hpv : ¬ Present (pdeOf m dir v)) :
    (∀ w, w < 4294967296 → w / pageSize ≠ v / pageSize →
        walk (hooked m' dir v table) dir w = walk m dir w) ↔
      ∀ j, j < 1024 → j ≠ v / pageSize % 1024 → ¬ Present (load32 m' (table + 4 * j)) := by
  have hbefore (w : Nat) (hidx : w / pageSize / 1024 = v / pageSize / 1024) :
      walk m dir w = none := by
    have hpde : pdeOf m dir w = pdeOf m dir v := by simp only [pdeOf, hidx]
    rw [walk, hpde, if_neg (fun hp => hpv hp.1)]
  constructor
  · intro hall j hj hne hpj
    have hw : ∃ w, w < 4294967296 ∧ w / pageSize / 1024 = v / pageSize / 1024 ∧
        w / pageSize % 1024 = j := by
      refine ⟨v / 4194304 * 4194304 + j * 4096, ?_, ?_, ?_⟩
      · omega
      · simp only [pageSize]
        omega
      · simp only [pageSize]
        omega
    obtain ⟨w, hw, hidx, rfl⟩ := hw
    have hsame := hall w hw fun he => hne (by rw [he])
    rw [hbefore w hidx, walk, h.pte_new hv hidx, if_pos ⟨h.present_new hidx, hpj⟩] at hsame
    exact Option.some_ne_none _ hsame
  · intro hall w hw hne
    by_cases hidx : w / pageSize / 1024 = v / pageSize / 1024
    · have hoff : w / pageSize % 1024 ≠ v / pageSize % 1024 := by omega
      have hno := hall _ (Nat.mod_lt _ (by decide)) hoff
      rw [hbefore w hidx, walk, h.pte_new hv hidx, if_neg (fun hp => hno hp.2)]
    · exact walk_congr (h.pde_old hw hidx) fun hpw =>
        h.pte_old hd hv hw hidx (h.pde_old hw hidx ▸ hpw)

end Hooked

/-- Mapping `p` at `v` gives `v` exactly this entry and leaves the walk of every other page. -/
def MapsOnly (m m' : Mem) (dir v p flags : Nat) : Prop :=
  walk m' dir v = some (p ||| pPresent ||| flags) ∧
    ∀ w, w < 4294967296 → w / pageSize ≠ v / pageSize → walk m' dir w = walk m dir w

/-- `old` has no bit that `new` lacks. -/
def Covered (old new : Nat) : Prop := old ||| new = new

/-- What stands in the entry of `v`, and in a new table, does no harm. -/
def Harmless (kmalloca : Allocator) (s : Paging) (dir v p flags : Nat) : Prop :=
  if Present (pdeOf s.k.mem dir v) then
    Covered (pteOf s.k.mem dir v) (p ||| pPresent ||| flags)
  else ∀ table k, kmalloca s.k tableSize pageAlignShift = some (table, k) →
    Covered (load32 k.mem (table + 4 * (v / pageSize % 1024))) (p ||| pPresent ||| flags) ∧
      ∀ j, j < 1024 → j ≠ v / pageSize % 1024 → ¬ Present (load32 k.mem (table + 4 * j))

/-- A call of `pmem_mapaddr` on a well-formed structure, with the page that `kmalloca` has
for a missing table. -/
structure Mappable (kmalloca : Allocator) (s : Paging) (dir v p flags : Nat) : Prop where
  directory : Directory s.k.mem dir
  virt : v < 4294967296
  phys : p ≠ 0 ∧ p % pageSize = 0 ∧ p < 4294967296
  low : flags < pageSize
  bitmap : ∀ y, InTables s.k.mem dir y →
    y < wordAt s.frameSet p ∨ wordAt s.frameSet p + 4 ≤ y
  grant : ¬ Present (pdeOf s.k.mem dir v) → ∃ table k,
    kmalloca s.k tableSize pageAlignShift = some (table, k) ∧
    Fresh s.k.mem k.mem dir table ∧
    ∀ y, table ≤ y → y < table + pageSize → y < wordAt s.frameSet p ∨ wordAt s.frameSet p + 4 ≤ y

theorem covered_iff {old p flags : Nat} :
    some (old ||| (p ||| pPresent ||| flags)) = some (p ||| pPresent ||| flags) ↔
      Covered old (p ||| pPresent ||| flags) := by
  rw [Option.some.injEq, Covered]

/-- The walks after `pmem_map` on the slot of `v`. -/
theorem Directory.map_walk {m : Mem} {frameSet dir v p flags : Nat} (h : Directory m dir)
    (hv : v < 4294967296) (hpv : Present (pdeOf m dir v)) (hp : p ≠ 0) (hplt : p < 4294967296)
    (hlow : flags < 4294967296)
    (hword : ∀ y, InTables m dir y → y < wordAt frameSet p ∨ wordAt frameSet p + 4 ≤ y) :
    walk (pmemMap frameSet m (slotOf m dir v) p flags).2 dir v =
        some (pteOf m dir v ||| (p ||| pPresent ||| flags)) ∧
      ∀ w, w < 4294967296 → w / pageSize ≠ v / pageSize →
        walk (pmemMap frameSet m (slotOf m dir v) p flags).2 dir w = walk m dir w := by
  obtain ⟨hpde, hpte, hrest⟩ := h.map p flags hv hpv (if_neg hp).symm hplt hlow hword
  refine ⟨?_, fun w hw hne => walk_congr (hpde w hw) fun hpw => hrest w hw hpw hne⟩
  rw [walk, hpde v hv, hpte, if_pos ⟨hpv, present_or _ _ (present_entry p flags)⟩]

/-- `pmem_mapaddr` sets the entry of `v` as asked and changes no other walk exactly when the
bits already in the entry, or in the table it takes from the heap, do no harm. -/
theorem mapaddr_iff {kmalloca : Allocator} {s : Paging} {dir v p flags : Nat}
    (h : Mappable kmalloca s dir v p flags) :
    ∃ s', pmemMapaddr kmalloca s v p flags dir = some (0, s') ∧
      (MapsOnly s.k.mem s'.k.mem dir v p flags ↔ Harmless kmalloca s dir v p flags) := by
  obtain ⟨hd, hv, ⟨hp0, -, hplt⟩, hlow, hword, hgrant⟩ := h
  have hlow' : flags < 4294967296 := by
    simp only [pageSize] at hlow
    omega
  by_cases hpv : Present (pdeOf s.k.mem dir v)
  · obtain ⟨hwalk, hothers⟩ := hd.map_walk hv hpv hp0 hplt hlow' hword
    refine ⟨_, by rw [pmemMapaddr, vmemGet_found hd hv hpv]; rfl, ?_⟩
    rw [Harmless, if_pos hpv, MapsOnly, ← covered_iff, ← hwalk]
    exact and_iff_left hothers
  · obtain ⟨table, k, hk, hfresh, hapart⟩ := hgrant hpv
    have hword' : ∀ y, InTables (hooked k.mem dir v table) dir y →
        y < wordAt s.frameSet p ∨ wordAt s.frameSet p + 4 ≤ y := by
      intro y hy
      rcases hfresh.inTables hy with hy | ⟨h1, h2⟩
      · exact hword y hy
      · exact hapart y h1 h2
    obtain ⟨hwalk, hothers⟩ := (hfresh.directory hd (v := v)).map_walk hv (hfresh.present_new rfl)
      hp0 hplt hlow' hword'
    have hnew : Harmless kmalloca s dir v p flags ↔
        Covered (load32 k.mem (table + 4 * (v / pageSize % 1024))) (p ||| pPresent ||| flags) ∧
          ∀ j, j < 1024 → j ≠ v / pageSize % 1024 → ¬ Present (load32 k.mem (table + 4 * j)) := by
      rw [Harmless, if_neg hpv]
      refine ⟨fun hall => hall table k hk, fun hc table' k' hk' => ?_⟩
      obtain ⟨rfl, rfl⟩ := Prod.mk.inj (Option.some.inj (hk.symm.trans hk'))
      exact hc
    refine ⟨_, by rw [pmemMapaddr, vmemGet_new hd hpv hk]; rfl, ?_⟩
    rw [hfresh.pte_new hv rfl] at hwalk
    rw [hfresh.slot_new rfl] at hwalk hothers
    rw [hnew, MapsOnly, ← hfresh.walk_iff hd hv hpv, ← covered_iff, ← hwalk]
    refine and_congr_right fun _ => forall₃_congr fun w hw hne => ?_
    rw [← hothers w hw hne]

/-- A directory at `0x1000` with one table, at `0x2000`, whose first page is mapped. -/
def paged : Mem := store32 (store32 blank 0x1000 0x2003) 0x2000 0x5001

theorem paged_pde {w : Nat} (hw : w < 4294967296) :
    pdeOf paged 0x1000 w = if w / pageSize / 1024 = 0 then 0x2003 else 0 := by
  have hb := pde_bounds 0x1000 hw
  have hpage : pageSize = 4096 := rfl
  rw [pdeOf, paged, load32_store32_ne _ _ _ _ (by omega)]
  split
  · rename_i h0
    rw [h0, load32_store32]
  · rw [load32_store32_ne _ _ _ _ (by omega)]
    exact load32_zero fun _ _ _ => rfl

theorem paged_table {w : Nat} (hw : w < 4294967296) (hp : Present (pdeOf paged 0x1000 w)) :
    w / pageSize / 1024 = 0 ∧ tableOf (pdeOf paged 0x1000 w) = 0x2000 := by
  rw [paged_pde hw] at hp ⊢
  split
  · rename_i h0
    exact ⟨h0, rfl⟩
  · rename_i h0
    rw [if_neg h0] at hp
    exact absurd hp (by decide)

theorem paged_directory : Directory paged 0x1000 := by
  refine ⟨by decide, by decide, fun w hw hp => ?_, fun u w hu hw hpu hpw _ => ?_⟩
  · rw [(paged_table hw hp).2]
    decide
  · rw [(paged_table hu hpu).1, (paged_table hw hpw).1]

theorem paged_mappable {v p flags : Nat} (hv : v < 0x400000)
    (hp : p ≠ 0 ∧ p % pageSize = 0 ∧ p < 0x8000000) (hlow : flags < pageSize) :
    Mappable (Kmalloc.kmalloca 5) ⟨⟨paged, 0⟩, 0x8000, 0x1000, 0x1000⟩ 0x1000 v p flags := by
  have hpage : pageSize = 4096 := rfl
  refine ⟨paged_directory, by omega, ⟨hp.1, hp.2.1, by omega⟩, hlow, fun y hy => ?_, fun hno => ?_⟩
  · have hb := wordAt_bounds 0x8000 hp.2.2
    rcases hy with hy | ⟨w, hw, hpw, h1, h2⟩
    · simp only at hb ⊢
      omega
    · rw [(paged_table hw hpw).2] at h1 h2
      simp only at hb ⊢
      omega
  · refine absurd ?_ hno
    change Present (pdeOf paged 0x1000 v)
    rw [paged_pde (by omega), if_pos (by simp only [pageSize]; omega)]
    decide

theorem mapaddr_iff_second_page :
    ∃ s', pmemMapaddr (Kmalloc.kmalloca 5) ⟨⟨paged, 0⟩, 0x8000, 0x1000, 0x1000⟩ 0x1000 0x6000
        pWritable 0x1000 = some (0, s') ∧
      MapsOnly paged s'.k.mem 0x1000 0x1000 0x6000 pWritable := by
  obtain ⟨s', hs', hiff⟩ := mapaddr_iff (paged_mappable (v := 0x1000) (p := 0x6000)
    (by decide) (by decide) (by decide : pWritable < pageSize))
  refine ⟨s', hs', hiff.mpr ?_⟩
  have hold : pteOf paged 0x1000 0x1000 = 0 := by decide +kernel
  have hpde : Present (pdeOf paged 0x1000 0x1000) := by decide +kernel
  rw [Harmless, if_pos hpde, hold]
  exact Nat.zero_or _

/-- A page mapped to `0x5000` and then to `0xA000` is mapped to `0xF000`. -/
theorem mapaddr_fails : ¬ ∀ kmalloca s dir v p flags, Mappable kmalloca s dir v p flags →
    ∃ s', pmemMapaddr kmalloca s v p flags dir = some (0, s') ∧
      MapsOnly s.k.mem s'.k.mem dir v p flags := by
  intro hclaim
  obtain ⟨s', hs', hwalk, -⟩ := hclaim _ _ _ 0 0xA000 0 (paged_mappable (by decide) (by decide)
    (by decide))
  have hrun : (pmemMapaddr (Kmalloc.kmalloca 5) ⟨⟨paged, 0⟩, 0x8000, 0x1000, 0x1000⟩ 0 0xA000 0
      0x1000).any (fun r => walk r.2.k.mem 0x1000 0 == some 0xF001) = true := by decide +kernel
  rw [hs', Option.any_some, beq_iff_eq] at hrun
  rw [hrun] at hwalk
  exact absurd hwalk (by decide)

end Foos.Vmem
