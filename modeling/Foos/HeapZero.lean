import Foos.HeapRuns

/-! Whether allocated memory is zero. The allocator clears nothing: a block behind the old
end is zero because nothing was there, a recycled block holds what its last use left. -/
namespace Foos.Kmalloc
open ByteMemory Word32 Transition

/-- The block at `x` is free, large enough and aligned. -/
def Suits (m : Mem) (sz align x : Nat) : Prop :=
  used m x = 0 ∧ sz ≤ size m x ∧ (align = 0 ∨ data x % 2 ^ align = 0)

instance (m : Mem) (sz align x : Nat) : Decidable (Suits m sz align x) :=
  inferInstanceAs (Decidable (_ ∧ _ ∧ _))

def FirstFit (m : Mem) (sz align x : Nat) : Prop :=
  InChain m x ∧ Suits m sz align x ∧ ∀ y, InChain m y → y < x → ¬ Suits m sz align y

/-- The first block that suits an allocation, if there is one, has a zero payload. -/
def Clean (s : Session) (op : Op) : Prop :=
  ∀ n align, op = .kmalloca n align → 0 < n → ∀ x, FirstFit s.k.mem (roundUp n) align x →
    ∀ y, data x ≤ y → y < data x + n → s.k.mem y = 0

/-- If the step is an allocation, the payload that it returns is zero. -/
def ZeroReturned (s : Session) (op : Op) (t : Session) : Prop :=
  ∀ n align q, op = .kmalloca n align → t.live = (q, n) :: s.live →
    ∀ y, q ≤ y → y < q + n → t.k.mem y = 0

theorem Forward.suits_iff {m : Mem} {bs : List Blk} (h : Forward m bs) {sz align x : Nat}
    {b : Blk} (hx : (x, b) ∈ placed bs) : Suits m sz align x ↔ b.Fits sz align x := by
  have hh := h.chain.header hx
  rw [Suits, Blk.Fits, hh.used_zero, hh.size_eq]

theorem Forward.not_suits {m : Mem} {bs : List Blk} (h : Forward m bs) {sz align x : Nat}
    (hn : NoFit sz align heapBase bs) (hx : InChain m x) : ¬ Suits m sz align x := by
  obtain ⟨b, hb⟩ := h.inChain hx
  rw [h.suits_iff hb]
  exact hn x b hb

theorem FirstFit.unique {m : Mem} {sz align x y : Nat} (hx : FirstFit m sz align x)
    (hy : FirstFit m sz align y) : x = y := by
  rcases Nat.lt_trichotomy x y with h | h | h
  · exact absurd hx.2.1 (hy.2.2 x hx.1 h)
  · exact h
  · exact absurd hy.2.1 (hx.2.2 y hy.1 h)

/-- Served from the first block that suits, or from zero memory when none does. -/
theorem Placed.source {m : Mem} {bs bs' : List Blk} {sz align p : Nat}
    (h : Placed sz align bs p bs') (hf : Forward m bs) (hpos : 0 < sz) :
    FirstFit m sz align p ∨ (∀ x, ¬ FirstFit m sz align x) ∧
      ∀ y, data p ≤ y → y < data p + sz → m y = 0 := by
  cases h with
  | root _ hroom =>
    refine Or.inr ⟨fun x hx => ?_, fun y h1 h2 => hf.tail y ?_ ?_⟩
    · refine hf.not_suits (fun z c hz hfit => ?_) hx.1 hx.2.1
      obtain ⟨-, rfl⟩ := Prod.mk.inj (List.mem_singleton.mp hz)
      exact absurd hfit.2.1 (Nat.not_le.mpr hpos)
    · simpa only [data, endOf_cons, endOf_nil, Blk.span, blockSiz] using h1
    · simp only [data] at h2
      omega
  | @fit xs b ys hn hfit =>
    have hplace := Tiling.place_middle Blk.span heapBase xs b ys
    refine Or.inl ⟨hf.placed_inChain xs b ys rfl, (hf.suits_iff hplace).mpr hfit, ?_⟩
    intro y hy hlt
    obtain ⟨c, hc⟩ := hf.inChain hy
    rw [hf.suits_iff hc]
    refine hn y c ?_
    rw [placed, Tiling.place_append, List.mem_append] at hc
    refine hc.resolve_right fun hc => ?_
    have := (Tiling.place_bounds Blk.span hc).1
    simp only [endOf] at hlt
    omega
  | @tail xs l hn _ ht =>
    have habove := ht.above
    have hroom := ht.room
    refine Or.inr ⟨fun x hx => hf.not_suits hn hx.1 hx.2.1, fun y h1 h2 => hf.tail y ?_ ?_⟩
    · simp only [data] at h1
      omega
    · simp only [data] at h2
      omega

/-- One sound allocation returns zero memory exactly when the first block that suits it
holds zeros. -/
theorem Holds.zero_iff {s t : Session} {bs : List Blk} {op : Op} (h : Holds s bs)
    (hok : Sound s op) (hst : Step s op t) : ZeroReturned s op t ↔ Clean s op := by
  cases op with
  | kmalloca n align =>
    obtain ⟨fuel, q, k', hk, rfl⟩ := hst.kmalloca
    cases Nat.eq_zero_or_pos n with
    | inl hnone =>
      subst hnone
      refine iff_of_true (fun n align q' hop _ y h1 h2 => ?_) fun n align hop hpos => ?_
      · obtain ⟨rfl, -⟩ := Op.kmalloca.inj hop
        omega
      · obtain ⟨rfl, -⟩ := Op.kmalloca.inj hop
        exact absurd hpos (Nat.lt_irrefl 0)
    | inr hpos =>
      obtain ⟨hal, hn, hroom⟩ := hok hpos
      have hru := roundUp_eq hn
      obtain ⟨p, bs', rfl, hp, -, -, -, hpay⟩ := h.heap.kmalloca hal hpos hn hroom hk
      have hsource := hp.source h.heap.toForward (by omega)
      constructor
      · intro hzero n' align' hop _ x hx y h1 h2
        obtain ⟨rfl, rfl⟩ := Op.kmalloca.inj hop
        cases hsource with
        | inl hfirst =>
          obtain rfl := hx.unique hfirst
          rw [← hpay y h1 (by omega)]
          exact hzero n align (data x) rfl (if_neg (Nat.ne_of_gt hpos)) y h1 h2
        | inr hfresh => exact absurd hx (hfresh.1 x)
      · intro hclean n' align' q' hop hlive y h1 h2
        obtain ⟨rfl, rfl⟩ := Op.kmalloca.inj hop
        simp only [if_neg (Nat.ne_of_gt hpos)] at hlive
        obtain ⟨rfl, -⟩ := Prod.mk.inj (List.cons.inj hlive).1
        have hbyte := hpay y h1 (by omega)
        refine hbyte.trans ?_
        cases hsource with
        | inl hfirst => exact hclean n align rfl hpos p hfirst y h1 h2
        | inr hfresh => exact hfresh.2 y h1 (by omega)
  | kfree p => exact iff_of_true (fun _ _ _ h => by simp at h) fun _ _ h => by simp at h
  | write a v => exact iff_of_true (fun _ _ _ h => by simp at h) fun _ _ h => by simp at h

/-- The addresses of the chain from `x` on. -/
def chainFrom : Nat → Mem → Nat → Option (List Nat)
  | 0, _, _ => none
  | fuel+1, m, x => if next m x = 0 then some [x] else (chainFrom fuel m (next m x)).map (x :: ·)

theorem mem_chainFrom {fuel : Nat} {m : Mem} {l : List Nat} (h : chainFrom fuel m root = some l)
    {y : Nat} (hy : InChain m y) : y ∈ l := by
  have hwalk : ∀ y, InChain m y → ∃ f l', chainFrom f m y = some l' ∧ l' ⊆ l := by
    intro y hy
    induction hy with
    | root => exact ⟨fuel, l, h, List.Subset.refl l⟩
    | next _ hne ih =>
      obtain ⟨f, l', hf, hsub⟩ := ih
      cases f with
      | zero => simp [chainFrom] at hf
      | succ f =>
        rw [chainFrom, if_neg hne] at hf
        obtain ⟨l'', hl'', rfl⟩ := Option.map_eq_some_iff.mp hf
        exact ⟨f, l'', hl'', fun z hz => hsub (List.mem_cons_of_mem _ hz)⟩
  obtain ⟨f, l', hf, hsub⟩ := hwalk y hy
  refine hsub ?_
  cases f with
  | zero => simp [chainFrom] at hf
  | succ f =>
    rw [chainFrom] at hf
    split at hf
    · rw [← Option.some.inj hf]
      exact List.mem_singleton_self y
    · obtain ⟨l'', -, rfl⟩ := Option.map_eq_some_iff.mp hf
      exact List.mem_cons_self ..

/-- An allocation with room behind the last block, whose suitable blocks all hold zeros, or
a `kfree` that spoils no back link. -/
def spotless (fuel : Nat) (e : Session × Op × Session) : Bool :=
  match e.2.1 with
  | .kmalloca n align =>
    decide (align < 32 ∧ n ≤ 4294967288) &&
      (chainFrom fuel e.1.k.mem root).any fun l => l.all fun x =>
        decide ((next e.1.k.mem x = 0 →
          x + 16 + size e.1.k.mem x ≤ tailAt align (x + 16 + size e.1.k.mem x) ∧
          x + 16 < tailAt align (x + 16 + size e.1.k.mem x) ∧
          tailAt align (x + 16 + size e.1.k.mem x) + 16 + roundUp n < 4294967296) ∧
        (Suits e.1.k.mem (roundUp n) align x → ∀ i < n, e.1.k.mem (data x + i) = 0))
  | .kfree p => !decide (Spoils e.1.k.mem (p - blockSiz))
  | .write _ _ => true

theorem spotless_clean {fuel : Nat} {e : Session × Op × Session}
    (h : spotless fuel e = true) : Sound e.1 e.2.1 ∧ Clean e.1 e.2.1 := by
  obtain ⟨s, op, t⟩ := e
  cases op with
  | kmalloca n align =>
    simp only [spotless, Bool.and_eq_true, decide_eq_true_eq] at h
    obtain ⟨⟨hal, hn⟩, hchain⟩ := h
    obtain ⟨l, hl, hall⟩ := Option.any_eq_true _ _ |>.mp hchain
    have hmem {x : Nat} (hx : InChain s.k.mem x) :=
      of_decide_eq_true (List.all_eq_true.mp hall x (mem_chainFrom hl hx))
    refine ⟨fun _ => ⟨hal, hn, Or.inr fun x hx => (hmem hx).1⟩, ?_⟩
    intro n' align' hop _ x hx y h1 h2
    obtain ⟨rfl, rfl⟩ := Op.kmalloca.inj hop
    have hz := (hmem hx.1).2 hx.2.1 (y - data x) (by omega)
    rwa [Nat.add_sub_cancel' h1] at hz
  | kfree p =>
    simp only [spotless, Bool.not_eq_true', decide_eq_false_iff_not] at h
    exact ⟨h, fun _ _ hop => by simp at hop⟩
  | write a v => exact ⟨trivial, fun _ _ hop => by simp at hop⟩

def isRequest (n align : Nat) : Op → Bool
  | .kmalloca n' align' => n' == n && align' == align
  | .kfree _ | .write _ _ => false

end Foos.Kmalloc
