import Foos.HeapLanding

/-! Aligned allocation. Behind a heap that ends eight below a multiple of the alignment, the
new header is put into the payload of the old last block. -/
namespace Foos.Kmalloc
open ByteMemory Word32

/-- Every used block is still there and has not shrunk. -/
def UsedStay (bs bs' : List Blk) : Prop :=
  ∀ x c, (x, c) ∈ placed bs → c.used = true →
    ∃ c', (x, c') ∈ placed bs' ∧ c'.used = true ∧ c.size ≤ c'.size

/-- `kmalloca(n, align)` ends with an aligned payload that is large enough, in a well-formed
heap in which the used blocks and their payloads are as before. -/
def AlignedWell (k : Machine) (bs : List Blk) (n align : Nat) : Prop :=
  ∃ fuel p k' bs', kmalloca fuel k n align = some (data p, k') ∧ data p % 2 ^ align = 0 ∧
    (∃ b, (p, b) ∈ placed bs' ∧ n ≤ b.size) ∧ Represents k'.mem bs' ∧ UsedStay bs bs' ∧
    KeepsUsed k.mem k'.mem bs

/-- Some block of the heap serves the request. -/
def SomeFits (bs : List Blk) (sz align : Nat) : Prop :=
  ∃ x b, (x, b) ∈ placed bs ∧ b.Fits sz align x

/-- No size and no address wraps, whatever the payloads hold: a header that lands below the
old end can be followed by a second one. -/
def AlignedNoWrap (bs : List Blk) (n align : Nat) : Prop :=
  align < 32 ∧ n ≤ 4294967288 ∧ (SomeFits bs (roundUp n) align ∨
    let t := tailAt align (endOf heapBase bs)
    t + 16 + roundUp n < 4294967296 ∧ (t < endOf heapBase bs →
      tailAt align (t + 16 + roundUp n) + 16 + roundUp n < 4294967296))

/-- The heap ends eight below a multiple of the alignment, or it is pristine and the payload
behind its empty root is aligned. -/
def Misfit (bs : List Blk) (align : Nat) : Prop :=
  4 ≤ align ∧ endOf heapBase bs % 2 ^ align = 2 ^ align - 8 ∨ bs = [⟨false, 0⟩] ∧ align ≤ 5

variable {m m' : Mem} {xs bs bs' : List Blk} {l : Blk} {sz align n t t₂ x : Nat} {k : Machine}

theorem pristine_tail (hal : align < 32) :
    heapBase + 16 < tailAt align (heapBase + 16) ↔ ¬ align ≤ 5 := by
  have hall : ∀ a, a < 32 →
      (heapBase + 16 < tailAt a (heapBase + 16) ↔ ¬ a ≤ 5) := by decide
  exact hall align hal

theorem root_end : endOf heapBase [⟨false, 0⟩] = heapBase + 16 := rfl

/-- Where neither a block fits nor the new header goes wrong, it goes behind the old end. -/
theorem tailOk_of_clear (h : Represents m (xs ++ [l])) (hal : align < 32)
    (hclear : ¬ Misfit (xs ++ [l]) align)
    (hroom : tailAt align (endOf heapBase (xs ++ [l])) + 16 + sz < 4294967296) :
    TailOk xs l align sz := by
  have hend := h.sized.all_mod8
  have hbase := le_endOf heapBase (xs ++ [l])
  have h16 : 16 ≤ heapBase := by decide
  have hls : endOf heapBase (xs ++ [l]) = endOf heapBase xs + (16 + l.size) := endOf_append _ _ _
  rw [Misfit, not_or] at hclear
  have habove : endOf heapBase (xs ++ [l]) ≤ tailAt align (endOf heapBase (xs ++ [l])) := by
    rw [← Nat.not_lt, tailAt_low_iff hend (by omega)]
    exact hclear.1
  refine ⟨habove, ?_, hroom⟩
  rcases h.sized with hr | ⟨-, hall⟩
  · have hsmall : ¬ align ≤ 5 := fun h5 => hclear.2 ⟨hr, h5⟩
    have hgap := (pristine_tail hal).mpr hsmall
    rw [← root_end, ← hr] at hgap
    omega
  · have := hall l (by simp)
    omega

/-- The call of a heap on which it goes well. -/
theorem Placed.alignedWell {p : Nat} (hp : Placed (roundUp n) align bs p bs')
    (h : Represents k.mem bs) (hal : align < 32) (hn : 0 < n) (hle : n ≤ 4294967288) :
    AlignedWell k bs n align := by
  have hru := roundUp_eq hle
  have hbase : 0 < heapBase := by decide
  obtain ⟨m', hl, hr, hkeep, -⟩ := h.lookup hal (by omega) (by omega) hp
  obtain ⟨b, hb, -, hs⟩ := hp.served
  have hpos := hp.above
  exact ⟨_, p, _, bs', kmalloca_of_lookup hn (by omega) (hl 0), hp.aligned, ⟨b, hb, by omega⟩, hr,
    fun x c hx hc => (hp.keeps hx hc).2, hkeep⟩

/-- In a well-formed heap no header of the chain holds another `used` than 0 or 1. -/
theorem Represents.used_le (h : Represents m bs) (hx : InChain m x) : used m x ≤ 1 := by
  obtain ⟨b, hb⟩ := h.toForward.inChain hx
  rw [(h.chain.header hb).used_eq]
  exact Bool.toNat_le b.used

/-- An empty block with a successor is in no well-formed heap. -/
theorem Represents.size_pos (h : Represents m bs) (hx : InChain m x) (hn : next m x ≠ 0) :
    0 < size m x := by
  obtain ⟨b, hb⟩ := h.toForward.inChain hx
  rw [(h.chain.header hb).size_eq]
  rcases h.sized with hr | ⟨-, hall⟩
  · subst hr
    obtain ⟨rfl, -⟩ := Prod.mk.inj (List.mem_singleton.mp hb)
    exact absurd h.chain.2.1 hn
  · exact (hall b (Tiling.mem_of_place _ hb)).1

/-- A payload word 2 where the header lands stays in the chain as a `used` field. -/
theorem Lands.spoiled (h : Lands m xs l sz align t) (hu : Kmalloc.used m t = 2)
    (hlim : tailAt align (t + 16 + sz) + 16 < 4294967296) :
    ¬ Represents (taken (link m (endOf heapBase xs) t sz) t (tailAt align (t + 16 + sz)) sz)
      bs' := by
  intro hr
  have htop := h.top
  have habove := h.above
  have hfar := h.far
  have hword := h.word
  obtain ⟨⟨-, -, -, hnext⟩, hused, -⟩ := link_words (m := m) habove
    (show t < 4294967296 by omega) hword
  set L := link m (endOf heapBase xs) t sz with hL
  set M := taken L t (tailAt align (t + 16 + sz)) sz with hM
  have hbelow (y : Nat) (hy : y < t) : M y = L y := taken_outside (by omega) (by omega)
  have hreach : InChain M (endOf heapBase xs) := by
    refine h.heap.toForward.reaches xs l [] rfl fun y hy => ?_
    rw [hbelow y (by omega), hL, link_outside (by omega) (by omega)]
  have hnext' : next M (endOf heapBase xs) = t :=
    (load32_congr fun y _ h2 => hbelow y (by omega)).trans hnext
  have hchain : InChain M t := by
    have hstep := InChain.next hreach (by omega)
    rwa [hnext'] at hstep
  have hle := hr.used_le hchain
  obtain ⟨⟨husedM, -, -⟩, -, -⟩ := taken_words (m := L) hfar (by omega) hword
  rw [husedM, hused, hu] at hle
  omega

/-- Directly behind the empty root the new block leaves an empty block in the chain. -/
theorem Lands.rootless (h : Lands m xs l sz align t) (hroot : xs ++ [l] = [⟨false, 0⟩])
    (heq : t = heapBase + 16) : ¬ Represents (taken m (endOf heapBase xs) t sz) bs' := by
  intro hr
  obtain ⟨rfl, -⟩ : xs = [] ∧ l = ⟨false, 0⟩ := by simpa [List.append_eq_singleton_iff] using hroot
  have htop := h.top
  have habove : heapBase + 16 ≤ t := h.above
  obtain ⟨⟨-, hsize, hnext⟩, -⟩ := taken_words (m := m) habove (by omega) h.word
  have hpos : 0 < size (taken m heapBase t sz) heapBase :=
    hr.size_pos .root (hnext.trans_ne (by omega))
  omega

/-- A word may be put into the payload of the last block. -/
theorem Represents.poke (h : Represents m (xs ++ [l])) (v : Nat)
    (h1 : endOf heapBase xs + 16 ≤ x) (h2 : x + 4 ≤ endOf heapBase (xs ++ [l])) :
    Represents (store32 m x v) (xs ++ [l]) := by
  refine h.payload fun w _ hw => store32_outside m x v w ?_
  have hlast := hw _ l (Tiling.place_middle Blk.span heapBase xs l [])
  have hls : endOf heapBase (xs ++ [l]) = endOf heapBase xs + (16 + l.size) := endOf_append _ _ _
  simp only [endOf] at *
  omega

/-- Some contents of the payloads make the call go wrong on a heap where nothing fits and the
new header does not go behind the old end. -/
theorem Misfit.fails (hmis : Misfit (xs ++ [l]) align) (h : Represents m (xs ++ [l]))
    (hpos : 0 < align) (hn : 0 < n) (hw : AlignedNoWrap (xs ++ [l]) n align)
    (hfit : ¬ SomeFits (xs ++ [l]) (roundUp n) align) :
    ∃ k, Represents k.mem (xs ++ [l]) ∧ ¬ AlignedWell k (xs ++ [l]) n align := by
  obtain ⟨hal, hle, hroom⟩ := hw
  have hru := roundUp_eq hle
  obtain ⟨htop, hsecond⟩ := hroom.resolve_left hfit
  have hlands (m' : Mem) (h' : Represents m' (xs ++ [l])) :
      Lands m' xs l (roundUp n) align (tailAt align (endOf heapBase (xs ++ [l]))) :=
    ⟨h', fun x b hb hf => hfit ⟨x, b, hb, hf⟩, fun hz => by omega, rfl, by omega, hal, by omega,
      by omega, by omega⟩
  have hbase : heapBase = 0x400000 := rfl
  have hend := h.sized.all_mod8
  have hlo := le_endOf heapBase (xs ++ [l])
  -- the call, and that its memory holds no well-formed heap
  have hbad (m' : Mem) (h' : Represents m' (xs ++ [l])) (fuel p : Nat) (u : Mem) (hp : p ≠ 0)
      (hl : lookup fuel m' 0 (roundUp n) align = some (p, u))
      (hu : ∀ bs', ¬ Represents u bs') :
      ∃ k, Represents k.mem (xs ++ [l]) ∧ ¬ AlignedWell k (xs ++ [l]) n align := by
    refine ⟨⟨m', 0⟩, h', ?_⟩
    rintro ⟨f, q, k', bs', hk, -, -, hr, -⟩
    obtain ⟨-, rfl⟩ := Prod.mk.inj (kmalloca_unique hk (kmalloca_of_lookup (k := ⟨m', 0⟩) hn hp hl))
    exact hu bs' hr
  rcases hmis with hlow | ⟨hroot, h5⟩
  · have hlt := (tailAt_low_iff hend (by omega)).mpr hlow
    have hat := (hlands m h).low hlt
    have habove := (hlands m h).above
    have hpoke := h.poke (x := tailAt align (endOf heapBase (xs ++ [l]))) 2 habove (by omega)
    have hused : used (store32 m (tailAt align (endOf heapBase (xs ++ [l]))) 2)
        (tailAt align (endOf heapBase (xs ++ [l]))) = 2 := load32_store32 _ _ _
    have h2 := hsecond hlt
    have hfar := (hlands _ hpoke).far
    exact hbad _ hpoke _ _ _ (by omega) ((hlands _ hpoke).skip (by omega) rfl (by omega) 0)
      fun bs' => (hlands _ hpoke).spoiled hused (by omega)
  · have heq : tailAt align (endOf heapBase (xs ++ [l])) = heapBase + 16 := by
      have hgap := (pristine_tail hal).not.mpr (not_not.mpr h5)
      have hle := (hlands m h).above
      have hxs := le_endOf heapBase xs
      rw [hroot, root_end] at hle ⊢
      omega
    have hfresh := (hlands m h).fresh (by rw [heq, hroot, root_end]; omega)
    exact hbad m h _ _ _ (by omega) ((hlands m h).take hfresh 0)
      fun bs' => (hlands m h).rootless hroot heq

theorem aligned_of_clear (h : Represents k.mem bs) (hn : 0 < n) (hw : AlignedNoWrap bs n align)
    (hclear : SomeFits bs (roundUp n) align ∨ ¬ Misfit bs align) (hpos : 0 < align) :
    AlignedWell k bs n align := by
  obtain ⟨hal, hle, hroom⟩ := hw
  by_cases hfit : NoFit (roundUp n) align heapBase bs
  · have hno : ¬ SomeFits bs (roundUp n) align := fun ⟨x, b, hb, hf⟩ => hfit x b hb hf
    obtain ⟨xs, l, rfl⟩ : ∃ xs l, bs = xs ++ [l] :=
      ⟨_, _, (List.dropLast_append_getLast h.sized.ne_nil).symm⟩
    have ht := tailOk_of_clear h hal (hclear.resolve_left hno) (hroom.resolve_left hno).1
    exact (Placed.tail hfit (fun hz => by omega) ht).alignedWell h hal hn hle
  · obtain ⟨xs, b, ys, rfl, hnf, hf⟩ := first_fit hfit
    exact (Placed.fit hnf hf).alignedWell h hal hn hle

/-- Aligned allocation keeps every heap of this form intact, whatever its payloads hold,
exactly when a block fits or the heap does not end where the new header goes wrong. -/
theorem kmalloca_aligned_iff (hbs : ∃ m, Represents m bs) (hn : 0 < n) (hpos : 0 < align)
    (hw : AlignedNoWrap bs n align) :
    (∀ k : Machine, Represents k.mem bs → AlignedWell k bs n align) ↔
      SomeFits bs (roundUp n) align ∨ ¬ Misfit bs align := by
  refine ⟨fun hall => ?_, fun hclear k h => aligned_of_clear h hn hw hclear hpos⟩
  by_contra hno
  rw [not_or, not_not] at hno
  obtain ⟨m, h⟩ := hbs
  obtain ⟨xs, l, rfl⟩ : ∃ xs l, bs = xs ++ [l] :=
    ⟨_, _, (List.dropLast_append_getLast h.sized.ne_nil).symm⟩
  obtain ⟨k, hk, hbad⟩ := hno.2.fails h hpos hn hw hno.1
  exact hbad (hall k hk)

/-- The heap behind `kmalloc(8)`. -/
theorem first_block : ∃ m, Represents m [⟨true, 8⟩] := by
  have hp : Placed 8 0 [⟨false, 0⟩] heapBase [⟨true, 8⟩] := .root rfl (by decide)
  obtain ⟨m, -, hr, -⟩ := zeroed_pristine.holds.heap.lookup (by decide) (by decide) (by decide) hp
  exact ⟨m, hr⟩

theorem kmalloca_aligned_iff_page : (∃ m, Represents m [⟨true, 8⟩]) ∧
    AlignedNoWrap [⟨true, 8⟩] 0x1000 12 ∧
    ∀ k : Machine, Represents k.mem [⟨true, 8⟩] → AlignedWell k [⟨true, 8⟩] 0x1000 12 := by
  have hw : AlignedNoWrap [⟨true, 8⟩] 0x1000 12 :=
    ⟨by decide, by decide, Or.inr ⟨by decide, fun _ => by decide⟩⟩
  refine ⟨first_block, hw, ?_⟩
  refine (kmalloca_aligned_iff first_block (by decide) (by decide) hw).mpr (Or.inr ?_)
  simp only [Misfit]
  decide

/-- Behind `kmalloc(8)` the heap ends at `0x400018`: a block aligned to 16 takes its header
from the payload of the first one. -/
theorem kmalloca_aligned_fails : ¬ ∀ bs n align, (∃ m, Represents m bs) → 0 < n → 0 < align →
    AlignedNoWrap bs n align → ∀ k : Machine, Represents k.mem bs → AlignedWell k bs n align := by
  intro hclaim
  have hw : AlignedNoWrap [⟨true, 8⟩] 8 4 :=
    ⟨by decide, by decide, Or.inr ⟨by decide, fun _ => by decide⟩⟩
  have hmis : Misfit ([] ++ [⟨true, 8⟩]) 4 := Or.inl (by decide)
  have hfit : ¬ SomeFits [⟨true, 8⟩] (roundUp 8) 4 := by
    rintro ⟨x, b, hb, hf⟩
    obtain ⟨-, rfl⟩ := Prod.mk.inj (List.mem_singleton.mp hb)
    exact absurd hf.1 (by decide)
  obtain ⟨m, h⟩ := first_block
  obtain ⟨k, hk, hbad⟩ := hmis.fails h (by decide) (by decide) hw hfit
  exact hbad (hclaim [⟨true, 8⟩] 8 4 ⟨m, h⟩ (by decide) (by decide) hw k hk)

end Foos.Kmalloc
