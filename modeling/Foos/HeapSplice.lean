import Foos.HeapChain

/-! Replacing a stretch of blocks. Every allocator step rewrites a few neighbouring
headers; what lies below them is untouched and what lies above changes at most the one
back link that points into the rewritten stretch. -/
namespace Foos.Kmalloc
open ByteMemory Word32

theorem header_bounds {a x : Nat} {b : Blk} {bs : List Blk}
    (h : (x, b) ∈ Tiling.place Blk.span a bs) : a ≤ x ∧ x + 16 + b.size ≤ endOf a bs := by
  obtain ⟨hlo, hhi⟩ := Tiling.place_bounds _ h
  simp only [Blk.span, blockSiz] at hhi
  exact ⟨hlo, by simp only [endOf]; omega⟩

/-- A header is that of another block, or apart from the whole of it. -/
theorem header_apart {a x y : Nat} {b c : Blk} {bs : List Blk}
    (hx : (x, b) ∈ Tiling.place Blk.span a bs) (hy : (y, c) ∈ Tiling.place Blk.span a bs) :
    x = y ∨ x + 16 + b.size ≤ y ∨ y + 16 + c.size ≤ x := by
  have hapart := Tiling.place_apart _ hx hy
  simp only [Blk.span, blockSiz, Prod.mk.injEq] at hapart
  omega

theorem header_first {a x : Nat} {b : Blk} {bs : List Blk}
    (h : (x, b) ∈ Tiling.place Blk.span a bs) : x = a ∨ a + 16 ≤ x := by
  cases bs with
  | nil => simp [Tiling.place] at h
  | cons c bs =>
    cases List.mem_cons.mp h with
    | inl he => exact Or.inl (Prod.mk.inj he).1
    | inr ht =>
      have hlo := (header_bounds ht).1
      simp only [Blk.span, blockSiz] at hlo
      exact Or.inr (by omega)

theorem endOf_append (a : Nat) (xs ys : List Blk) :
    endOf a (xs ++ ys) = endOf (endOf a xs) ys :=
  Tiling.endAt_append Blk.span a xs ys

@[simp] theorem endOf_nil (a : Nat) : endOf a [] = a := rfl

@[simp] theorem endOf_cons (a : Nat) (b : Blk) (bs : List Blk) :
    endOf a (b :: bs) = endOf (a + b.span) bs := rfl

theorem le_endOf (a : Nat) (bs : List Blk) : a ≤ endOf a bs :=
  Tiling.le_endAt Blk.span a bs

theorem endOf_pos (bs : List Blk) : 0 < endOf heapBase bs :=
  Nat.lt_of_lt_of_le (by decide) (le_endOf heapBase bs)

/-- Three words of a header are unchanged when its bytes are, the back link apart. -/
theorem words_congr {m m' : Mem} {x : Nat}
    (h : ∀ y, x ≤ y → y < x + 16 → ¬ (x + 8 ≤ y ∧ y < x + 12) → m' y = m y) :
    used m' x = used m x ∧ size m' x = size m x ∧ next m' x = next m x :=
  ⟨load32_congr fun y h1 h2 => h y (by omega) (by omega) (by omega),
    load32_congr fun y h1 h2 => h y (by omega) (by omega) (by omega),
    load32_congr fun y h1 h2 => h y (by omega) (by omega) (by omega)⟩

/-- The chain behind a stretch that is replaced, and in front of it. -/
theorem Seg.splice {m m' : Mem} {xs mid mid' ys : List Blk}
    (h : Seg m 0 heapBase (xs ++ (mid ++ ys)))
    (hend : ys ≠ [] → endOf (endOf heapBase xs) mid' = endOf (endOf heapBase xs) mid)
    (hlimit : endOf heapBase (xs ++ (mid' ++ ys)) ≤ 4294967296)
    (hne : mid ≠ []) (hne' : mid' ≠ [])
    (hlow : ∀ y, heapBase ≤ y → y < endOf heapBase xs → m' y = m y)
    (hmid : Seg m' (if ys = [] then 0 else endOf (endOf heapBase xs) mid')
      (endOf heapBase xs) mid')
    (hhigh : ∀ y, endOf (endOf heapBase xs) mid' ≤ y → y < 4294967296 →
      ¬ (ys ≠ [] ∧ endOf (endOf heapBase xs) mid' + 8 ≤ y ∧
        y < endOf (endOf heapBase xs) mid' + 12) → m' y = m y) :
    Seg m' 0 heapBase (xs ++ (mid' ++ ys)) := by
  have hold := (Seg.append_iff m 0 heapBase xs (mid ++ ys)).mp h
  have hold' := (Seg.append_iff m 0 _ mid ys).mp hold.2
  have happ : mid ++ ys ≠ [] := by simp [hne]
  have happ' : mid' ++ ys ≠ [] := by simp [hne']
  rw [endOf_append, endOf_append] at hlimit
  refine (Seg.append_iff m' 0 heapBase xs (mid' ++ ys)).mpr ⟨?_, ?_⟩
  · have hxs := hold.1
    rw [if_neg happ] at hxs
    rw [if_neg happ']
    refine hxs.congr fun x b hx => words_congr fun y h1 h2 _ => ?_
    obtain ⟨hlo, hhi⟩ := header_bounds hx
    exact hlow y (by omega) (by omega)
  · refine (Seg.append_iff m' 0 _ mid' ys).mpr ⟨hmid, ?_⟩
    by_cases hys : ys = []
    · simp [hys, Seg]
    · have hys' := hold'.2
      rw [← hend hys] at hys'
      refine hys'.congr fun x b hx => words_congr fun y h1 h2 h3 => ?_
      obtain ⟨hlo, hhi⟩ := header_bounds hx
      cases header_first hx with
      | inl heq =>
        obtain rfl := heq
        exact hhigh y h1 (by omega) fun hc => h3 hc.2
      | inr hfar => exact hhigh y (by omega) (by omega) fun hc => by omega

theorem Back.splice {m m' : Mem} {xs mid mid' ys : List Blk}
    (h : Back m 0 heapBase (xs ++ (mid ++ ys)))
    (hend : ys ≠ [] → endOf (endOf heapBase xs) mid' = endOf (endOf heapBase xs) mid)
    (hlimit : endOf heapBase (xs ++ (mid' ++ ys)) ≤ 4294967296)
    (hlow : ∀ y, heapBase ≤ y → y < endOf heapBase xs → m' y = m y)
    (hmid : Back m' (lastAt 0 heapBase xs) (endOf heapBase xs) mid')
    (hprev : ys ≠ [] → prev m' (endOf (endOf heapBase xs) mid') =
      lastAt (lastAt 0 heapBase xs) (endOf heapBase xs) mid')
    (hhigh : ∀ y, endOf (endOf heapBase xs) mid' + 16 ≤ y → y < 4294967296 → m' y = m y) :
    Back m' 0 heapBase (xs ++ (mid' ++ ys)) := by
  have hold := (Back.append_iff m 0 heapBase xs (mid ++ ys)).mp h
  have hold' := (Back.append_iff m _ _ mid ys).mp hold.2
  refine (Back.append_iff m' 0 heapBase xs (mid' ++ ys)).mpr ⟨?_, ?_⟩
  · refine hold.1.congr fun x b hx => load32_congr fun y h1 h2 => ?_
    obtain ⟨hlo, hhi⟩ := header_bounds hx
    exact hlow y (by omega) (by omega)
  · refine (Back.append_iff m' _ _ mid' ys).mpr ⟨hmid, ?_⟩
    cases ys with
    | nil => trivial
    | cons c ys =>
      have hys := hold'.2
      rw [← hend (by simp)] at hys
      refine ⟨hprev (by simp), hys.2.congr fun x b hx => load32_congr fun y h1 h2 => ?_⟩
      obtain ⟨hlo, hhi⟩ := header_bounds hx
      rw [endOf_append, endOf_append, endOf_cons] at hlimit
      simp only [Blk.span, blockSiz] at hlo hhi hlimit
      exact hhigh y (by omega) (by omega)

theorem Forward.splice {m m' : Mem} {xs mid mid' ys : List Blk}
    (h : Forward m (xs ++ (mid ++ ys)))
    (hend : ys ≠ [] → endOf (endOf heapBase xs) mid' = endOf (endOf heapBase xs) mid)
    (hsized : Sized (xs ++ (mid' ++ ys)))
    (hlimit : endOf heapBase (xs ++ (mid' ++ ys)) < 4294967296)
    (hne : mid ≠ []) (hne' : mid' ≠ [])
    (hlow : ∀ y, heapBase ≤ y → y < endOf heapBase xs → m' y = m y)
    (hmid : Seg m' (if ys = [] then 0 else endOf (endOf heapBase xs) mid')
      (endOf heapBase xs) mid')
    (hhigh : ∀ y, endOf (endOf heapBase xs) mid' ≤ y → y < 4294967296 →
      ¬ (ys ≠ [] ∧ endOf (endOf heapBase xs) mid' + 8 ≤ y ∧
        y < endOf (endOf heapBase xs) mid' + 12) → m' y = m y)
    (hgrow : endOf (endOf heapBase xs) mid ≤ endOf (endOf heapBase xs) mid') :
    Forward m' (xs ++ (mid' ++ ys)) := by
  refine ⟨h.chain.splice hend (Nat.le_of_lt hlimit) hne hne' hlow hmid hhigh, hsized, hlimit, ?_⟩
  intro y hy hy32
  rw [endOf_append, endOf_append] at hy
  have htail := h.tail y
  rw [endOf_append, endOf_append] at htail
  have hle := le_endOf (endOf (endOf heapBase xs) mid') ys
  by_cases hys : ys = []
  · subst hys
    simp only [endOf_nil] at hy htail
    rw [hhigh y hy hy32 (by simp)]
    exact htail (by omega) hy32
  · rw [← hend hys] at htail
    rw [hhigh y (by omega) hy32 ?_]
    · exact htail hy hy32
    · obtain ⟨c, ys', rfl⟩ := List.exists_cons_of_ne_nil hys
      have hc := le_endOf (endOf (endOf heapBase xs) mid' + c.span) ys'
      simp only [endOf_cons] at hy
      simp only [Blk.span, blockSiz] at hc hy
      intro hbad
      omega

theorem Represents.splice {m m' : Mem} {xs mid mid' ys : List Blk}
    (h : Represents m (xs ++ (mid ++ ys))) (hf : Forward m' (xs ++ (mid' ++ ys)))
    (hend : ys ≠ [] → endOf (endOf heapBase xs) mid' = endOf (endOf heapBase xs) mid)
    (hlow : ∀ y, heapBase ≤ y → y < endOf heapBase xs → m' y = m y)
    (hmid : Back m' (lastAt 0 heapBase xs) (endOf heapBase xs) mid')
    (hprev : ys ≠ [] → prev m' (endOf (endOf heapBase xs) mid') =
      lastAt (lastAt 0 heapBase xs) (endOf heapBase xs) mid')
    (hhigh : ∀ y, endOf (endOf heapBase xs) mid' + 16 ≤ y → y < 4294967296 → m' y = m y) :
    Represents m' (xs ++ (mid' ++ ys)) :=
  ⟨hf, h.back.splice hend (Nat.le_of_lt hf.limit) hlow hmid hprev hhigh⟩

end Foos.Kmalloc
