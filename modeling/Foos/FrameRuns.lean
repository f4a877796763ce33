import Foos.Pmem
import Foos.Transition

/-! Runs of `pmem_map` without a given frame, on zero page-table entries, and `pmem_clear`:
which frames the entries get, also when none is left. -/
namespace Foos.Pmem
open ByteMemory Word32 Kmalloc Transition

inductive Op where
  | map (pg flags : Nat)
  | clear (addr : Nat)

/-- A zero page-table entry outside the bitmap. -/
structure ZeroEntry (frameSet : Nat) (m : Mem) (pg : Nat) : Prop where
  aligned : pg % 4 = 0
  apart : pg + 4 ≤ frameSet ∨ frameSet + pageSize ≤ pg
  zero : load32 m pg = 0

/-- `pmem_clear` is called for frames that the bitmap covers. -/
def Step (frameSet : Nat) (m : Mem) : Op → Mem → Prop
  | .map pg flags, t => ZeroEntry frameSet m pg ∧ t = (pmemMap frameSet m pg 0 flags).2
  | .clear addr, t => addr < 0x8000000 ∧ t = pmemClear frameSet m addr

/-- The number of the frame that a page-table entry holds. -/
def frameOf (entry : Nat) : Nat := entry / pageSize

/-- Two entries mapped in the run hold one frame only if it was cleared between the calls. -/
def Distinct (tr : List (Mem × Op × Mem)) : Prop :=
  ∀ pre e mid d post, tr = pre ++ e :: (mid ++ d :: post) →
    ∀ pg flags pg' flags', e.2.1 = .map pg flags → d.2.1 = .map pg' flags' →
      frameOf (load32 d.2.2 pg) = frameOf (load32 d.2.2 pg') →
      ∃ c ∈ mid, ∃ addr, c.2.1 = .clear addr ∧ addr / pageSize = frameOf (load32 d.2.2 pg)

/-- Some frame below `MAPPED_MEMORY` is free. -/
def HasFree (frameSet : Nat) (m : Mem) : Prop := ∃ f, f < nPages ∧ ¬ Taken frameSet m f

/-- With no free frame, `pmem_map` reports failure and leaves the entry as it was. -/
def Reported (frameSet : Nat) (tr : List (Mem × Op × Mem)) : Prop :=
  ∀ e ∈ tr, ∀ pg flags, e.2.1 = .map pg flags → ¬ HasFree frameSet e.1 →
    (pmemMap frameSet e.1 pg 0 flags).1 ≠ 0 ∧ load32 e.2.2 pg = load32 e.1 pg

/-- A bitmap with no frame marked. -/
def Cleared (frameSet : Nat) (m : Mem) : Prop :=
  ∀ y, frameSet ≤ y → y < frameSet + pageSize → m y = 0

/-- Flags lie below the frame address of an entry. -/
def LowFlags (tr : List (Mem × Op × Mem)) : Prop :=
  ∀ e ∈ tr, ∀ pg flags, e.2.1 = .map pg flags → flags < pageSize

/-- An entry is its frame address with the low bits added. -/
theorem entry_eq {p flags : Nat} (hp : p % pageSize = 0) (hf : flags < pageSize) :
    p ||| pPresent ||| flags = p + (pPresent ||| flags) := by
  have hlow : pPresent ||| flags < 2 ^ 12 := Nat.or_lt_two_pow (by decide) hf
  have hq : p = 2 ^ 12 * (p / 2 ^ 12) := by
    have := Nat.mod_add_div p (2 ^ 12)
    simp only [pageSize] at hp
    omega
  rw [Nat.or_assoc]
  calc p ||| (pPresent ||| flags)
      = 2 ^ 12 * (p / 2 ^ 12) ||| (pPresent ||| flags) := by rw [← hq]
    _ = 2 ^ 12 * (p / 2 ^ 12) + (pPresent ||| flags) := (Nat.two_pow_add_eq_or_of_lt hlow _).symm
    _ = p + (pPresent ||| flags) := by rw [← hq]

theorem low_lt {flags : Nat} (hf : flags < pageSize) : pPresent ||| flags < pageSize :=
  Nat.or_lt_two_pow (n := 12) (by decide) hf

theorem frameOf_entry {p flags : Nat} (hp : p % pageSize = 0) (hf : flags < pageSize) :
    frameOf (p ||| pPresent ||| flags) = p / pageSize := by
  have hlow := low_lt hf
  rw [entry_eq hp hf, frameOf]
  simp only [pageSize] at *
  omega

variable {frameSet : Nat} {m t : Mem}

/-- A map writes the entry and one word of the bitmap. -/
theorem pmemMap_outside {pg physaddr flags y : Nat} (hpg : y < pg ∨ pg + 4 ≤ y)
    (hw : ∀ p, p = (if physaddr = 0 then pmemGetFree frameSet m else physaddr) →
      y < wordAt frameSet p ∨ wordAt frameSet p + 4 ≤ y) :
    (pmemMap frameSet m pg physaddr flags).2 y = m y :=
  (pmemSet_outside (hw _ rfl)).trans (store32_outside m pg _ y hpg)

/-- The value of the entry after a map, when its word is outside the bitmap word. -/
theorem pmemMap_entry {pg physaddr flags p : Nat}
    (hp : p = if physaddr = 0 then pmemGetFree frameSet m else physaddr)
    (hw : pg + 4 ≤ wordAt frameSet p ∨ wordAt frameSet p + 4 ≤ pg)
    (hlt : p < 4294967296) (hf : flags < 4294967296) :
    load32 (pmemMap frameSet m pg physaddr flags).2 pg =
      load32 m pg ||| (p ||| pPresent ||| flags) := by
  have hbound : load32 m pg ||| (p ||| pPresent ||| flags) < 2 ^ 32 :=
    Nat.or_lt_two_pow (load32_lt m pg) (Nat.or_lt_two_pow (Nat.or_lt_two_pow hlt (by decide)) hf)
  rw [pmemMap, ← hp]
  refine (load32_congr fun y h1 h2 => pmemSet_outside (by omega)).trans ?_
  rw [load32_store32]
  exact Nat.mod_eq_of_lt hbound

theorem taken_store {pg v f : Nat} (hf : f < 32768)
    (h : pg + 4 ≤ frameSet ∨ frameSet + pageSize ≤ pg) :
    Taken frameSet (store32 m pg v) f ↔ Taken frameSet m f := by
  rw [Taken, Taken, Bitmap.bit_congr fun y h1 h2 => ?_]
  refine store32_outside m pg v y ?_
  simp only [Bitmap.wordOf, pageSize] at *
  omega

/-- What a map without a given frame does, whether or not a frame is free. -/
theorem ZeroEntry.map {pg : Nat} (h : ZeroEntry frameSet m pg) (flags : Nat) :
    ∃ f, f < nPages ∧
      (HasFree frameSet m → ¬ Taken frameSet m f ∧ ∀ g, g < f → Taken frameSet m g) ∧
      (¬ HasFree frameSet m → f = 0) ∧
      (flags < 4294967296 → load32 (pmemMap frameSet m pg 0 flags).2 pg =
        f * pageSize ||| pPresent ||| flags) ∧
      (∀ g, g < 32768 → (Taken frameSet (pmemMap frameSet m pg 0 flags).2 g ↔
        g = f ∨ Taken frameSet m g)) ∧
      ∀ y, (y < pg ∨ pg + 4 ≤ y) → (y < frameSet ∨ frameSet + pageSize ≤ y) →
        (pmemMap frameSet m pg 0 flags).2 y = m y := by
  obtain ⟨f, hf, hfree, hnone, hget⟩ : ∃ f, f < nPages ∧
      (HasFree frameSet m → ¬ Taken frameSet m f ∧ ∀ g, g < f → Taken frameSet m g) ∧
      (¬ HasFree frameSet m → f = 0) ∧ pmemGetFree frameSet m = f * pageSize := by
    by_cases hfree : HasFree frameSet m
    · obtain ⟨f, hf, hft, hbelow, hget⟩ := pmemGetFree_free hfree
      exact ⟨f, hf, fun _ => ⟨hft, hbelow⟩, fun h => absurd hfree h, hget⟩
    · refine ⟨0, by decide, fun h => absurd h hfree, fun _ => rfl, ?_⟩
      rw [pmemGetFree_none, Nat.zero_mul]
      intro g hg
      by_contra hgt
      exact hfree ⟨g, hg, hgt⟩
  have happ := h.apart
  have hlim : f * pageSize < 0x8000000 := by
    simp only [nPages, mappedMemory, pageSize] at *
    omega
  have hw := wordAt_bounds frameSet hlim
  refine ⟨f, hf, hfree, hnone, fun hflags => ?_, fun g hg => ?_, fun y hy hb => ?_⟩
  · rw [pmemMap_entry (p := f * pageSize) (by simp [hget]) (by omega) (by omega) hflags, h.zero,
      Nat.zero_or]
  · simp only [pmemMap, if_true, hget]
    rw [taken_pmemSet, taken_store hg happ, Nat.mul_div_cancel f (by decide)]
  · refine pmemMap_outside hy fun p hp => ?_
    rw [if_pos rfl, hget] at hp
    subst hp
    omega

/-- A frame stays marked until it is cleared. -/
theorem Step.taken {op : Op} {f : Nat} (hst : Step frameSet m op t) (hf : f < 32768)
    (ht : Taken frameSet m f) (hop : ∀ addr, op = .clear addr → addr / pageSize ≠ f) :
    Taken frameSet t f := by
  cases op with
  | map pg flags =>
    obtain ⟨h, rfl⟩ := hst
    obtain ⟨g, -, -, -, -, htaken, -⟩ := h.map flags
    exact (htaken f hf).mpr (Or.inr ht)
  | clear addr =>
    obtain ⟨-, rfl⟩ := hst
    exact (taken_pmemClear addr f).mpr ⟨(hop addr rfl).symm, ht⟩

/-- An entry that has been mapped keeps its value. -/
theorem Step.entry {op : Op} {pg : Nat} (hst : Step frameSet m op t) (hal : pg % 4 = 0)
    (happ : pg + 4 ≤ frameSet ∨ frameSet + pageSize ≤ pg) (hne : load32 m pg ≠ 0) :
    load32 t pg = load32 m pg := by
  cases op with
  | map pg' flags =>
    obtain ⟨h, rfl⟩ := hst
    obtain ⟨g, -, -, -, -, -, hout⟩ := h.map flags
    have hpg : pg ≠ pg' := by
      rintro rfl
      exact hne h.zero
    have hal' := h.aligned
    exact load32_congr fun y h1 h2 => hout y (by omega) (by omega)
  | clear addr =>
    obtain ⟨haddr, rfl⟩ := hst
    have hw := wordAt_bounds frameSet haddr
    exact load32_congr fun y h1 h2 => pmemClear_outside (by omega)

theorem run_entry {s : Mem} {tr : List (Mem × Op × Mem)} {pg v : Nat}
    (hr : Run (Step frameSet) s tr t) (hal : pg % 4 = 0)
    (happ : pg + 4 ≤ frameSet ∨ frameSet + pageSize ≤ pg) (hv : v ≠ 0)
    (hs : load32 s pg = v) : load32 t pg = v := by
  refine hr.invariant (P := fun m => load32 m pg = v) (Q := fun _ _ => True) ?_ hs
    fun _ _ => trivial
  intro m op u hentry _ hst
  rw [hst.entry hal happ (hentry ▸ hv), hentry]

theorem run_taken {s : Mem} {tr : List (Mem × Op × Mem)} {f : Nat}
    (hr : Run (Step frameSet) s tr t) (hf : f < 32768) (hs : Taken frameSet s f)
    (hno : ∀ c ∈ tr, ∀ addr, c.2.1 = .clear addr → addr / pageSize ≠ f) :
    Taken frameSet t f :=
  hr.invariant (P := fun m => Taken frameSet m f)
    (Q := fun _ op => ∀ addr, op = .clear addr → addr / pageSize ≠ f)
    (fun _ _ _ htaken hop hst => hst.taken hf htaken hop) hs hno

/-- Two maps that find a free frame, with no clearing of the first frame between them. -/
theorem frames_apart {m₁ m₂ : Mem} {mid : List (Mem × Op × Mem)} {pg flags pg' flags' : Nat}
    (h₁ : ZeroEntry frameSet m₁ pg) (hfl : flags < pageSize)
    (hmid : Run (Step frameSet) (pmemMap frameSet m₁ pg 0 flags).2 mid m₂)
    (h₂ : ZeroEntry frameSet m₂ pg') (hfl' : flags' < pageSize) (hfree : HasFree frameSet m₂)
    (hsame : frameOf (load32 (pmemMap frameSet m₂ pg' 0 flags').2 pg) =
      frameOf (load32 (pmemMap frameSet m₂ pg' 0 flags').2 pg')) :
    ∃ c ∈ mid, ∃ addr, c.2.1 = .clear addr ∧
      addr / pageSize = frameOf (load32 (pmemMap frameSet m₂ pg' 0 flags').2 pg) := by
  obtain ⟨f, hf, -, -, hval, htaken, -⟩ := h₁.map flags
  obtain ⟨g, hg, hgfree, -, hval', -⟩ := h₂.map flags'
  have h32 : flags < 4294967296 ∧ flags' < 4294967296 := by
    simp only [pageSize] at hfl hfl'
    omega
  have hf' : f < 32768 := by
    simp only [nPages, mappedMemory, pageSize] at hf
    omega
  have hframe (i fl : Nat) (h : fl < pageSize) :
      frameOf (i * pageSize ||| pPresent ||| fl) = i := by
    rw [frameOf_entry (Nat.mul_mod_left i pageSize) h, Nat.mul_div_cancel i (by decide)]
  have hne : f * pageSize ||| pPresent ||| flags ≠ 0 := by
    rw [entry_eq (Nat.mul_mod_left f pageSize) hfl]
    have : pPresent ≤ pPresent ||| flags := Nat.left_le_or
    simp only [pPresent] at *
    omega
  have hst : Step frameSet m₂ (.map pg' flags') (pmemMap frameSet m₂ pg' 0 flags').2 := ⟨h₂, rfl⟩
  have hkept := run_entry (hmid.snoc hst) h₁.aligned h₁.apart hne (hval h32.1)
  rw [hkept, hval' h32.2, hframe f flags hfl, hframe g flags' hfl'] at hsame
  rw [hkept, hframe f flags hfl]
  by_contra hnone
  push Not at hnone
  -- not cleared, the frame is still marked at the second call, which takes a free one
  have htaken' := run_taken hmid hf' ((htaken f hf').mpr (Or.inl rfl)) hnone
  exact (hgfree hfree).1 (hsame ▸ htaken')

/-- Along every run in which each map finds a free frame. -/
theorem distinct_of_free {s : Mem} {tr : List (Mem × Op × Mem)}
    (hr : Run (Step frameSet) s tr t) (hlow : LowFlags tr)
    (hfree : ∀ e ∈ tr, ∀ pg flags, e.2.1 = .map pg flags → HasFree frameSet e.1) :
    Distinct tr := by
  rintro pre ⟨m₁, op₁, t₁⟩ mid ⟨m₂, op₂, t₂⟩ post rfl pg flags pg' flags' hop₁ hop₂
  obtain ⟨u, -, hrest⟩ := hr.split
  obtain ⟨-, hst₁, hrest⟩ := hrest.uncons
  obtain ⟨v, hmid, hrest⟩ := hrest.split
  obtain ⟨hv, hst₂, -⟩ := hrest.uncons
  have hfl := hlow (m₁, op₁, t₁) (by simp) pg flags hop₁
  have hfl' := hlow (m₂, op₂, t₂) (by simp) pg' flags' hop₂
  have hfree' := hfree (m₂, op₂, t₂) (by simp) pg' flags' hop₂
  simp only at hop₁ hop₂ hst₁ hst₂ hmid hv
  subst hop₁ hop₂ hv
  obtain ⟨h₁, rfl⟩ := hst₁
  obtain ⟨h₂, rfl⟩ := hst₂
  exact frames_apart h₁ hfl hmid h₂ hfl' hfree'

/-- Memory with a bitmap and a table of entries that are all zero. -/
def blank : Mem := ⟨fun _ => 0⟩

/-- `k` entries mapped one after the other take the first `k` frames. -/
theorem fill {k : Nat} (hk : k ≤ nPages) : ∃ tr t, Run (Step 0x2000) blank tr t ∧
    (∀ c ∈ tr, ∃ pg, c.2.1 = .map pg 0) ∧ (∀ f, f < 32768 → (Taken 0x2000 t f ↔ f < k)) ∧
    (∀ y, 0x10000 + 4 * k ≤ y → t y = 0) ∧ tr.length = k ∧
    (0 < k → ∃ u rest, tr = (blank, .map 0x10000 0, u) :: rest) := by
  induction k with
  | zero =>
    refine ⟨[], blank, .nil, by simp, fun f _ => ?_, fun _ _ => rfl, rfl,
      fun h => absurd h (by omega)⟩
    have hz : load32 blank (Bitmap.wordOf 0x2000 f) = 0 := load32_zero fun _ _ _ => rfl
    simp [Taken, Bitmap.bit, hz]
  | succ k ih =>
    obtain ⟨tr, t, hr, hmaps, htaken, hzero, hlen, hfirst⟩ := ih (by omega)
    have hentry : ZeroEntry 0x2000 t (0x10000 + 4 * k) :=
      ⟨by omega, Or.inr (by simp only [pageSize]; omega), load32_zero fun y h1 _ => hzero y h1⟩
    have hk' : k < 32768 := by
      simp only [nPages, mappedMemory, pageSize] at hk
      omega
    have hkfree : ¬ Taken 0x2000 t k := fun h => absurd ((htaken k hk').mp h) (Nat.lt_irrefl k)
    obtain ⟨f, hf, hfree, -, -, htaken', hout⟩ := hentry.map 0
    have hfk : f = k := by
      obtain ⟨hff, hbelow⟩ := hfree ⟨k, by omega, hkfree⟩
      rcases Nat.lt_trichotomy f k with h | h | h
      · exact absurd ((htaken f (by omega)).mpr h) hff
      · exact h
      · exact absurd (hbelow k h) hkfree
    subst hfk
    refine ⟨_, _, hr.snoc (show Step 0x2000 t (.map (0x10000 + 4 * f) 0) _ from ⟨hentry, rfl⟩),
      fun c hc => ?_, fun g hg => ?_, fun y hy => ?_, by simp [hlen], fun _ => ?_⟩
    · cases List.mem_append.mp hc with
      | inl hc => exact hmaps c hc
      | inr hc =>
        obtain rfl := List.mem_singleton.mp hc
        exact ⟨_, rfl⟩
    · rw [htaken' g hg, htaken g hg]
      omega
    · rw [hout y (by omega) (Or.inr (by simp only [pageSize]; omega))]
      exact hzero y (by omega)
    · cases Nat.eq_zero_or_pos f with
      | inl heq =>
        obtain rfl := heq
        obtain rfl := List.length_eq_zero_iff.mp hlen
        obtain rfl := hr.eq_of_nil
        exact ⟨_, [], rfl⟩
      | inr hpos =>
        obtain ⟨u, rest, rfl⟩ := hfirst hpos
        exact ⟨u, _, rfl⟩

end Foos.Pmem
