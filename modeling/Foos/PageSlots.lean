import Foos.HeapSupply

/-! `vmem_get` addresses each page by a slot of its own, also where it makes tables between
two calls. -/
namespace Foos.Vmem
open ByteMemory Word32 Kmalloc Pmem

/-- `kmalloca` has a page for a new table. -/
def Grants (alloc : Allocator) (k : Machine) (dir : Nat) : Prop :=
  ∃ table k', alloc k tableSize pageAlignShift = some (table, k') ∧ Fresh k.mem k'.mem dir table

/-- The directory entries of other regions than that of `v`, and the entries of all tables,
are as before. -/
structure KeepsTables (m m' : Mem) (dir v : Nat) : Prop where
  entries : ∀ a, a < 4294967296 → a / pageSize / 1024 ≠ v / pageSize / 1024 →
    pdeOf m' dir a = pdeOf m dir a
  tables : ∀ a, a < 4294967296 → Present (pdeOf m dir a) →
    pdeOf m' dir a = pdeOf m dir a ∧ pteOf m' dir a = pteOf m dir a

variable {alloc : Allocator} {s t : Paging} {dir v w p : Nat}

theorem KeepsTables.refl (m : Mem) (dir v : Nat) : KeepsTables m m dir v :=
  ⟨fun _ _ _ => rfl, fun _ _ _ => ⟨rfl, rfl⟩⟩

theorem Fresh.keepsTables {m m' : Mem} {table : Nat} (h : Fresh m m' dir table)
    (hd : Directory m dir) (hv : v < 4294967296) (hp : ¬ Present (pdeOf m dir v)) :
    KeepsTables m (hooked m' dir v table) dir v := by
  refine ⟨fun a ha hidx => h.pde_old ha hidx, fun a ha hpa => ?_⟩
  have hidx : a / pageSize / 1024 ≠ v / pageSize / 1024 := by
    intro he
    have hpde : pdeOf m dir a = pdeOf m dir v := by simp only [pdeOf, he]
    exact hp (hpde ▸ hpa)
  exact ⟨h.pde_old ha hidx, h.pte_old hd hv ha hidx hpa⟩

/-- One call: the slot of the page in the tables as they are behind it. -/
theorem vmemGet_slot (hd : Directory s.k.mem dir) (hv : v < 4294967296)
    (hgrant : ¬ Present (pdeOf s.k.mem dir v) → Grants alloc s.k dir) :
    ∃ t, vmemGet alloc s v dir = some (slotOf t.k.mem dir v, t) ∧ Directory t.k.mem dir ∧
      Present (pdeOf t.k.mem dir v) ∧ KeepsTables s.k.mem t.k.mem dir v := by
  by_cases hp : Present (pdeOf s.k.mem dir v)
  · exact ⟨s, vmemGet_found hd hv hp, hd, hp, KeepsTables.refl _ _ _⟩
  · obtain ⟨table, k, hk, hfresh⟩ := hgrant hp
    refine ⟨{ s with k := { k with mem := hooked k.mem dir v table } }, ?_,
      hfresh.directory hd, hfresh.present_new rfl, hfresh.keepsTables hd hv hp⟩
    rw [vmemGet_new hd hp hk]
    simp only [hfresh.slot_new rfl]

/-- A page whose table exists is found again, by any of its addresses and without a call of
the allocator. -/
theorem vmemGet_again (hd : Directory t.k.mem dir)
    (hp : Present (pdeOf t.k.mem dir v)) (hw : w < 4294967296)
    (hpage : w / pageSize = v / pageSize) :
    vmemGet alloc t w dir = some (slotOf t.k.mem dir v, t) := by
  have hpde : pdeOf t.k.mem dir w = pdeOf t.k.mem dir v := by simp only [pdeOf, hpage]
  have hslot : slotOf t.k.mem dir w = slotOf t.k.mem dir v := by simp only [slotOf, hpde, hpage]
  rw [vmemGet_found hd hw (hpde ▸ hp), hslot]

/-- Two pages have one slot only if they are one page. -/
theorem Directory.slot_inj {m : Mem} (hd : Directory m dir) (hv : v < 4294967296)
    (hw : w < 4294967296) (hpv : Present (pdeOf m dir v)) (hpw : Present (pdeOf m dir w)) :
    slotOf m dir v = slotOf m dir w ↔ v / pageSize = w / pageSize := by
  constructor
  · intro hslot
    by_contra hne
    have := hd.slots_apart hw hv hpw hpv hne
    omega
  · intro hpage
    have hpde : pdeOf m dir v = pdeOf m dir w := by simp only [pdeOf, hpage]
    simp only [slotOf, hpde, hpage]

theorem Identity.grants {n i : Nat} (h : Identity alloc s n i) (hn : n < 4) :
    Grants alloc s.k s.tables := by
  obtain ⟨k₀, areas, hsup, hagree, -, hin⟩ := h.supply
  rw [show 4 - n = (4 - (n + 1)) + 1 by omega, List.replicate_succ] at hsup
  obtain ⟨p, k', hk, hnew, -⟩ := hsup s.k hagree
  exact ⟨p, k', hk, fresh_of_area hnew hin⟩

end Foos.Vmem
