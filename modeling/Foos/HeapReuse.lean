import Foos.HeapRuns

/-! Allocate, free, allocate again: the second request finds room in the chain that the first
one left, at or below the same address. -/
namespace Foos.Kmalloc
open ByteMemory Word32

theorem NoFit.prefix {sz align a : Nat} {xs ys : List Blk} (h : NoFit sz align a (xs ++ ys)) :
    NoFit sz align a xs :=
  fun x b hx => h x b (by rw [Tiling.place_append]; exact List.mem_append_left _ hx)

/-- The block that serves a request, and that nothing in front of it would have. -/
theorem Placed.shape {sz p : Nat} {bs bs' : List Blk} (h : Placed sz 0 bs p bs') :
    ∃ xs c ys, bs' = xs ++ c :: ys ∧ p = endOf heapBase xs ∧ NoFit sz 0 heapBase xs ∧
      c.used = true ∧ sz ≤ c.size := by
  cases h with
  | root _ _ =>
    exact ⟨[], ⟨true, sz⟩, [], rfl, rfl, fun x b hx => absurd hx (by simp [Tiling.place]), rfl,
      Nat.le_refl _⟩
  | @fit xs b ys hn hf =>
    refine ⟨xs, ?_⟩
    unfold carve
    split
    · exact ⟨_, ys, rfl, rfl, hn, rfl, hf.2.1⟩
    · exact ⟨_, _ :: ys, rfl, rfl, hn, rfl, Nat.le_refl _⟩
  | @tail xs l hn _ ht =>
    have htail (e : Nat) : tailAt 0 e = e := if_pos (Or.inl rfl)
    have hend : endOf heapBase (xs ++ [l]) = endOf heapBase xs + l.span := endOf_append _ _ _
    have hw : widen xs l 0 = l := by
      have hls : l.span = 16 + l.size := rfl
      simp only [widen, htail, hend]
      rw [show endOf heapBase xs + l.span - endOf heapBase xs - 16 = l.size by omega]
    exact ⟨xs ++ [l], ⟨true, sz⟩, [], by simp [hw], htail _, hn, rfl, Nat.le_refl _⟩

theorem absorb_shape (b : Blk) (ys : List Blk) :
    ∃ d zs, absorb b ys = d :: zs ∧ d.used = b.used ∧ b.size ≤ d.size := by
  cases ys with
  | nil => exact ⟨b, [], rfl, rfl, Nat.le_refl _⟩
  | cons c ys =>
    cases hc : c.used with
    | true => exact ⟨b, c :: ys, by simp [absorb, hc], rfl, Nat.le_refl _⟩
    | false =>
      exact ⟨⟨b.used, b.size + c.span⟩, ys, by simp [absorb, hc], rfl, Nat.le_add_right _ _⟩

/-- The space of a freed block is in a free block at or below its address. -/
theorem release_shape (xs : List Blk) (c : Blk) (ys : List Blk) :
    ∃ us d zs, release xs c ys = us ++ d :: zs ∧ us <+: xs ∧ d.used = false ∧
      c.size ≤ d.size := by
  by_cases hlast : ∀ p, xs.getLast? = some p → p.used = true
  · rw [release_alone c ys hlast]
    obtain ⟨d, zs, he, hu, hs⟩ := absorb_shape ⟨false, c.size⟩ ys
    exact ⟨xs, d, zs, by rw [he], List.prefix_refl xs, hu, hs⟩
  · push Not at hlast
    obtain ⟨p, hp, hpu⟩ := hlast
    obtain ⟨us, rfl⟩ := List.getLast?_eq_some_iff.mp hp
    rw [release_joins us c ys (by simpa using hpu)]
    refine ⟨us, _, ys, rfl, List.prefix_append us [p], rfl, ?_⟩
    simp only [Blk.span]
    omega

theorem endOf_absorb (a : Nat) (b : Blk) (ys : List Blk) :
    endOf a (absorb b ys) = endOf a (b :: ys) := by
  cases ys with
  | nil => rfl
  | cons c ys =>
    cases hc : c.used with
    | true => simp [absorb, hc]
    | false =>
      simp only [absorb, hc, Bool.false_eq_true, if_false, endOf_cons]
      congr 1
      simp only [Blk.span]
      omega

theorem endOf_release (xs : List Blk) (c : Blk) (ys : List Blk) :
    endOf heapBase (release xs c ys) = endOf heapBase (xs ++ c :: ys) := by
  by_cases hlast : ∀ p, xs.getLast? = some p → p.used = true
  · rw [release_alone c ys hlast, endOf_append, endOf_append, endOf_absorb]
    rfl
  · push Not at hlast
    obtain ⟨p, hp, hpu⟩ := hlast
    obtain ⟨us, rfl⟩ := List.getLast?_eq_some_iff.mp hp
    rw [release_joins us c ys (by simpa using hpu)]
    simp only [endOf_append, endOf_cons, endOf_nil]
    congr 1
    simp only [Blk.span]
    omega

theorem Forward.endsAt_iff {m : Mem} {bs : List Blk} (h : Forward m bs) (e : Nat) :
    EndsAt m e ↔ e = endOf heapBase bs :=
  ⟨h.endsAt_unique, fun he => he ▸ h.endsAt⟩

/-- A request on a chain in which a first block fits, back links or not. -/
theorem Forward.kmalloc_fit (k : Machine) {xs ys : List Blk} {d : Blk} {n : Nat}
    (h : Forward k.mem (xs ++ d :: ys)) (hpos : 0 < n) (hn : n ≤ 4294967288)
    (hno : NoFit (roundUp n) 0 heapBase xs) (hd : d.used = false) (hs : roundUp n ≤ d.size) :
    ∃ fuel k', kmalloc fuel k n = some (data (endOf heapBase xs), k') ∧
      Forward k'.mem (xs ++ (carve (roundUp n) d ys ++ ys)) := by
  have hru := roundUp_eq hn
  have h' : Forward k.mem (xs ++ ([d] ++ ys)) := h
  obtain ⟨m', hl, hf, -, -⟩ := h'.lookup_fit (by decide : 0 < 32) (by omega) (by omega) hno
    ⟨hd, hs, Or.inl rfl⟩
  have hroot : ¬ root = 0 := by decide
  have hn0 : ¬ n = 0 := by omega
  have hpos' := Nat.ne_of_gt (endOf_pos xs)
  refine ⟨0 + 1 + xs.length, ⟨m', k.errno⟩, ?_, hf⟩
  simp only [kmalloc, kmalloca, if_neg hroot, if_neg hn0, hl, if_neg hpos']

end Foos.Kmalloc
