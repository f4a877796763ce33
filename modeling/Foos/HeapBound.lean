import Foos.HeapLanding

/-! `HEAP_SIZE` is never looked at: `kmalloca` stays inside the region of the heap only as
long as the block it finds or makes happens to fit there, and it never reports ENOMEM. -/
namespace Foos.Kmalloc
open ByteMemory Word32

/-- The first address behind the region of the heap. -/
def heapTop : Nat := heapBase + heapSize

/-- `kmalloca(n, align)` fails cleanly or returns a payload inside the heap that is large
enough. -/
def Bounded (k : Machine) (n align : Nat) : Prop :=
  ∃ fuel r k', kmalloca fuel k n align = some (r, k') ∧
    (r = 0 ∧ k'.errno = ENOMEM ∧ k'.mem = k.mem ∨
      heapBase ≤ r ∧ r + size k'.mem (r - blockSiz) ≤ heapTop ∧ n ≤ size k'.mem (r - blockSiz))

/-- The header of a block put behind a heap that ends at `e`: an alignment can move it into
the last block, where a payload word that is not zero makes it a second block behind that. -/
def landing (m : Mem) (sz align e : Nat) : Nat :=
  if used m (tailAt align e) = 0 then tailAt align e
  else tailAt align (tailAt align e + 16 + sz)

/-- A block that serves the request is there, or there is room for one below `heapTop`. -/
def Room (m : Mem) (bs : List Blk) (sz align : Nat) : Prop :=
  (∃ x b, (x, b) ∈ placed bs ∧ b.Fits sz align x) ∨
  (if bs = [⟨false, 0⟩] ∧ align = 0 then heapBase + 16 + sz ≤ heapTop
    else landing m sz align (endOf heapBase bs) + 16 + sz ≤ heapTop)

variable {m : Mem} {xs bs : List Blk} {l : Blk} {sz align e t n : Nat} {k : Machine}

theorem tailAt_le (align e : Nat) : tailAt align e ≤ e + 2 ^ align := by
  have hle := Nat.mod_le e (2 ^ align)
  unfold tailAt
  split <;> omega

/-- The search behind the last block ends at `landing`, in a block of the size asked for. -/
theorem Lands.served (h : Lands m xs l sz align t)
    (hlim : landing m sz align (endOf heapBase (xs ++ [l])) + 16 < 4294967296) :
    ∃ fuel m', lookup fuel m 0 sz align =
        some (landing m sz align (endOf heapBase (xs ++ [l])), m') ∧
      size m' (landing m sz align (endOf heapBase (xs ++ [l]))) = sz := by
  have htop := h.top
  by_cases hu : Kmalloc.used m t = 0
  · have hland : landing m sz align (endOf heapBase (xs ++ [l])) = t := by
      rw [landing, h.eq, if_pos hu]
    rw [hland]
    exact ⟨_, _, h.take hu 0, (taken_words h.above (by omega) h.word).2.2⟩
  · have hland : landing m sz align (endOf heapBase (xs ++ [l])) =
        tailAt align (t + 16 + sz) := by
      rw [landing, h.eq, if_neg hu]
    rw [hland] at hlim ⊢
    exact ⟨_, _, h.skip hu rfl hlim 0, (taken_words h.far (by omega) h.word).2.2⟩

theorem landing_le (m : Mem) (xs : List Blk) (l : Blk) (sz align : Nat) :
    landing m sz align (endOf heapBase (xs ++ [l])) ≤
      endOf heapBase (xs ++ [l]) + 2 ^ align + 16 + sz + 2 ^ align := by
  have h1 := tailAt_le align (endOf heapBase (xs ++ [l]))
  have h2 := tailAt_le align (tailAt align (endOf heapBase (xs ++ [l])) + 16 + sz)
  have hpow := Nat.two_pow_pos align
  unfold landing
  split <;> omega

theorem Lands.base_le (h : Lands m xs l sz align t) :
    heapBase ≤ landing m sz align (endOf heapBase (xs ++ [l])) := by
  have habove := h.above
  have hbase := le_endOf heapBase xs
  have hfar := h.far
  rw [landing, h.eq]
  split <;> omega

/-- What `lookup` finds on a heap below `heapTop`, and when that stays below it. -/
theorem Represents.finds (h : Represents m bs) (hend : endOf heapBase bs ≤ heapTop)
    (hal : align ≤ 12) (hpos : 0 < sz) (h8 : sz % 8 = 0) (hsz : sz ≤ heapTop) :
    ∃ fuel p m', Kmalloc.lookup fuel m 0 sz align = some (p, m') ∧ heapBase ≤ p ∧ sz ≤ size m' p ∧
      (p + 16 + size m' p ≤ heapTop ↔ Room m bs sz align) := by
  have htop : heapTop = 0x800000 := rfl
  have hbase : heapBase = 0x400000 := rfl
  by_cases hfit : NoFit sz align heapBase bs
  · have hno : ¬ ∃ x b, (x, b) ∈ placed bs ∧ b.Fits sz align x :=
      fun ⟨x, b, hb, hf⟩ => hfit x b hb hf
    by_cases hroot : bs = [⟨false, 0⟩] ∧ align = 0
    · obtain ⟨rfl, rfl⟩ := hroot
      obtain ⟨m', hl, hr, -⟩ := h.lookup_root hpos h8 (by omega)
      have hs : size m' heapBase = sz := (hr.chain.header (List.mem_cons_self ..)).size_eq
      refine ⟨1, heapBase, m', hl 0, Nat.le_refl _, Nat.le_of_eq hs.symm, ?_⟩
      rw [hs, Room, or_iff_right hno, if_pos ⟨rfl, rfl⟩]
    · obtain ⟨xs, l, rfl⟩ : ∃ xs l, bs = xs ++ [l] :=
        ⟨_, _, (List.dropLast_append_getLast h.sized.ne_nil).symm⟩
      have hpow : 2 ^ align ≤ 2 ^ 12 := Nat.pow_le_pow_right (by decide) hal
      have hle := tailAt_le align (endOf heapBase (xs ++ [l]))
      have hlands : Lands m xs l sz align (tailAt align (endOf heapBase (xs ++ [l]))) :=
        ⟨h, hfit, hroot, rfl, by omega, by omega, hpos, h8, by omega⟩
      have hland := landing_le m xs l sz align
      obtain ⟨fuel, m', hl, hs⟩ := hlands.served (by omega)
      refine ⟨fuel, _, m', hl, hlands.base_le, Nat.le_of_eq hs.symm, ?_⟩
      rw [hs, Room, or_iff_right hno, if_neg hroot]
  · obtain ⟨xs, b, ys, rfl, hn, hf⟩ := first_fit hfit
    have hp : Placed sz align (xs ++ ([b] ++ ys)) (endOf heapBase xs)
        (xs ++ (carve sz b ys ++ ys)) := .fit hn hf
    obtain ⟨m', hl, hr, -⟩ := h.lookup (show align < 32 by omega) hpos h8 hp
    obtain ⟨c, hc, -, hcs⟩ := hp.served
    have hs : size m' (endOf heapBase xs) = c.size := (hr.chain.header hc).size_eq
    have hin := (header_bounds hc).2
    have hsame : endOf heapBase (xs ++ (carve sz b ys ++ ys)) =
        endOf heapBase (xs ++ ([b] ++ ys)) := by
      rw [endOf_append, endOf_append, endOf_append, endOf_append, endOf_carve hf.2.1, endOf_cons,
        endOf_nil]
    have hend' : endOf heapBase (xs ++ ([b] ++ ys)) ≤ heapTop := hend
    refine ⟨_, _, m', hl 0, le_endOf heapBase xs, by omega, iff_of_true (by omega) (Or.inl ?_)⟩
    exact ⟨_, b, Tiling.place_middle Blk.span heapBase xs b ys, hf⟩

theorem kmalloca_ne_zero {fuel r : Nat} {k' : Machine} (hn : 0 < n)
    (h : kmalloca fuel k n align = some (r, k')) : r ≠ 0 := by
  have hroot : ¬ root = 0 := by decide
  simp only [kmalloca, if_neg hroot, if_neg (Nat.ne_of_gt hn)] at h
  cases hl : lookup fuel k.mem 0 (roundUp n) align with
  | none => simp [hl] at h
  | some u =>
    simp only [hl, Option.some.injEq, Prod.mk.injEq] at h
    rw [← h.1]
    exact Nat.succ_ne_zero _

/-- A call for a moderate size. -/
theorem Represents.kmalloca_finds (h : Represents k.mem bs) (hend : endOf heapBase bs ≤ heapTop)
    (hn : 0 < n) (hal : align ≤ 12) (hle : n ≤ 4294967288) (hsz : roundUp n ≤ heapTop) :
    ∃ fuel p m', Kmalloc.kmalloca fuel k n align = some (data p, ⟨m', k.errno⟩) ∧
      heapBase ≤ p ∧ n ≤ size m' p ∧
      (p + 16 + size m' p ≤ heapTop ↔ Room k.mem bs (roundUp n) align) := by
  have hbase : heapBase = 0x400000 := rfl
  have hru := roundUp_eq hle
  obtain ⟨fuel, p, m', hl, hp, hs, hiff⟩ := h.finds hend hal (by omega) (by omega) hsz
  exact ⟨fuel, p, m', kmalloca_of_lookup hn (by omega) hl, hp, by omega, hiff⟩

theorem blk_data (p : Nat) : data p - blockSiz = p := Nat.add_sub_cancel p 16

theorem Bounded.room (hb : Bounded k n align) (h : Represents k.mem bs)
    (hend : endOf heapBase bs ≤ heapTop) (hn : 0 < n) (hal : align ≤ 12) :
    n ≤ 4294967288 ∧ Room k.mem bs (roundUp n) align := by
  have htop : heapTop = 0x800000 := rfl
  obtain ⟨fuel, r, k', hk, ⟨h0, -⟩ | ⟨h1, h2, h3⟩⟩ := hb
  · exact absurd h0 (kmalloca_ne_zero hn hk)
  · -- a payload below `heapTop` is no longer than the heap
    have hle : n ≤ 4294967288 := by omega
    have hru := roundUp_eq hle
    obtain ⟨f, p, m', hk', -, -, hiff⟩ := h.kmalloca_finds hend hn hal hle (by omega)
    obtain ⟨rfl, rfl⟩ := Prod.mk.inj (kmalloca_unique hk hk')
    rw [blk_data] at h2
    exact ⟨hle, hiff.mp h2⟩

theorem Room.bounded (hroom : Room k.mem bs (roundUp n) align) (h : Represents k.mem bs)
    (hend : endOf heapBase bs ≤ heapTop) (hn : 0 < n) (hal : align ≤ 12) (hle : n ≤ 4294967288) :
    Bounded k n align := by
  have htop : heapTop = 0x800000 := rfl
  have hsz : roundUp n ≤ heapTop := by
    rcases hroom with ⟨x, b, hb, hf⟩ | hlow
    · have hin := (header_bounds hb).2
      have hs := hf.2.1
      omega
    · split at hlow <;> omega
  obtain ⟨fuel, p, m', hk, hp, hs, hiff⟩ := h.kmalloca_finds hend hn hal hle hsz
  refine ⟨fuel, _, _, hk, Or.inr ⟨Nat.le_trans hp (Nat.le_add_right p 16), ?_, ?_⟩⟩
  · rw [blk_data]
    exact hiff.mpr hroom
  · rw [blk_data]
    exact hs

/-- `kmalloca` is bounded exactly when the size does not wrap and a block that serves the
request is there, or room for one below `heapTop`. -/
theorem kmalloca_bounded_iff (h : Represents k.mem bs) (hend : endOf heapBase bs ≤ heapTop)
    (hn : 0 < n) (_ : n < 4294967296) (hal : align ≤ 12) :
    Bounded k n align ↔ n ≤ 4294967288 ∧ Room k.mem bs (roundUp n) align :=
  ⟨fun hb => hb.room h hend hn hal, fun hr => hr.2.bounded h hend hn hal hr.1⟩

theorem pristine_room (sz align : Nat) (hpos : 0 < sz) :
    Room zeroed.k.mem [⟨false, 0⟩] sz align ↔
      if align = 0 then heapBase + 16 + sz ≤ heapTop
      else tailAt align (heapBase + 16) + 16 + sz ≤ heapTop := by
  have hno : ¬ ∃ x b, (x, b) ∈ placed [⟨false, 0⟩] ∧ b.Fits sz align x := by
    rintro ⟨x, b, hb, hf⟩
    obtain ⟨-, rfl⟩ := Prod.mk.inj (List.mem_singleton.mp hb)
    exact absurd hf.2.1 (Nat.not_le.mpr hpos)
  have hzero (x : Nat) : used zeroed.k.mem x = 0 := load32_zero fun _ _ _ => rfl
  rw [Room, or_iff_right hno]
  simp only [true_and, landing, hzero, if_true]
  rfl

/-- A page for a table on the pristine heap. -/
theorem kmalloca_bounded_iff_page : Represents zeroed.k.mem [⟨false, 0⟩] ∧
    endOf heapBase [⟨false, 0⟩] ≤ heapTop ∧ Bounded zeroed.k 0x1000 12 := by
  have h := zeroed_pristine.holds.heap
  have hend : endOf heapBase [⟨false, 0⟩] ≤ heapTop := by decide
  refine ⟨h, hend, ?_⟩
  refine (kmalloca_bounded_iff h hend (by decide) (by decide) (by decide)).mpr ⟨by decide, ?_⟩
  exact (pristine_room _ _ (by decide)).mpr (by decide)

/-- The first request asks for all of `HEAP_SIZE`: its payload ends sixteen bytes behind. -/
theorem kmalloca_bounded_fails : ¬ ∀ k bs n align, Represents k.mem bs →
    endOf heapBase bs ≤ heapTop → 0 < n → n < 4294967296 → align ≤ 12 → Bounded k n align := by
  intro hclaim
  have h := zeroed_pristine.holds.heap
  have hend : endOf heapBase [⟨false, 0⟩] ≤ heapTop := by decide
  have hb := hclaim zeroed.k [⟨false, 0⟩] heapSize 0 h hend (by decide) (by decide) (by decide)
  have hroom := (pristine_room _ _ (by decide)).mp (hb.room h hend (by decide) (by decide)).2
  exact absurd hroom (by decide)

end Foos.Kmalloc
