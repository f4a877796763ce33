import Foos.HeapRuns
import Foos.Printf

/-! `kmalloc_info`, the command `mem`: what it prints of the heap accounts for every live
allocation and for nothing else. -/
namespace Foos.Kmalloc
open ByteMemory Word32 Transition Printf

/-- The line for a block. -/
def blockLine (blk used size : Nat) : Call :=
  printf "block at 0x%x: used=%d, size=%d\n"
    [.word (UInt32.ofNat blk), .word (UInt32.ofNat used), .word (UInt32.ofNat size)]

def doBlock : Nat → Mem → Nat → Option (List Call)
  | 0, _, _ => none
  | fuel+1, m, blk =>
    let line := blockLine blk (used m blk) (size m blk)
    if next m blk ≠ 0 then (doBlock fuel m (next m blk)).map (line :: ·) else some [line]

def kmallocInfo (fuel : Nat) (m : Mem) : Option (List Call) := doBlock fuel m root

/-- The lines for placed blocks. -/
def report (blocks : List (Nat × Blk)) : List Call :=
  blocks.map fun e => blockLine e.1 e.2.used.toNat e.2.size

/-- Every used block belongs to a live allocation. -/
def Accounts (bs : List Blk) (live : List (Nat × Nat)) : Prop :=
  ∀ x b, (x, b) ∈ placed bs → b.used = true → ∃ r ∈ live, r.1 = data x

variable {m : Mem} {bs bs' xs ys : List Blk} {b c : Blk} {sz align p x : Nat}
  {live : List (Nat × Nat)}

theorem Seg.doBlock {a fuel : Nat} (h : Seg m 0 a bs) (hbs : bs ≠ []) (hfuel : bs.length ≤ fuel) :
    doBlock fuel m a = some (report (Tiling.place Blk.span a bs)) := by
  induction bs generalizing a fuel with
  | nil => exact absurd rfl hbs
  | cons b bs ih =>
    obtain ⟨fuel, rfl⟩ : ∃ n, fuel = n + 1 := ⟨fuel - 1, by
      simp only [List.length_cons] at hfuel
      omega⟩
    obtain ⟨hhead, hnext, hrest⟩ := h
    rw [Kmalloc.doBlock, hhead.used_eq, hhead.size_eq]
    by_cases hlast : bs = []
    · rw [if_pos hlast] at hnext
      rw [if_neg (not_not_intro hnext), hlast]
      rfl
    · rw [if_neg hlast] at hnext
      have hne : next m a ≠ 0 := by
        rw [hnext]
        simp only [Blk.span, blockSiz]
        omega
      rw [if_pos hne, hnext, ih hrest hlast (Nat.le_of_succ_le_succ hfuel)]
      rfl

/-- A used block behind an allocation is the one served, or was used before. -/
theorem Placed.used_from (h : Placed sz align bs p bs') (hx : (x, c) ∈ placed bs')
    (hc : c.used = true) : x = p ∨ ∃ b, (x, b) ∈ placed bs ∧ b.used = true := by
  cases h with
  | root _ _ => exact Or.inl (Prod.mk.inj (List.mem_singleton.mp hx)).1
  | @fit xs b ys _ hf =>
    simp only [placed, Tiling.place_append, List.mem_append] at hx ⊢
    have hend : Tiling.endAt Blk.span (Tiling.endAt Blk.span heapBase xs) (carve sz b ys) =
        Tiling.endAt Blk.span (Tiling.endAt Blk.span heapBase xs) [b] := endOf_carve hf.2.1
    cases hx with
    | inl hx => exact Or.inr ⟨c, Or.inl hx, hc⟩
    | inr hx =>
      cases hx with
      | inl hx =>
        refine Or.inl ?_
        unfold carve at hx
        split at hx
        · exact (Prod.mk.inj (List.mem_singleton.mp hx)).1
        · cases List.mem_cons.mp hx with
          | inl heq => exact (Prod.mk.inj heq).1
          | inr hx =>
            rw [(Prod.mk.inj (List.mem_singleton.mp hx)).2] at hc
            exact absurd hc Bool.false_ne_true
      | inr hx =>
        rw [hend] at hx
        exact Or.inr ⟨c, Or.inr (Or.inr hx), hc⟩
  | @tail xs l _ _ ht =>
    have hgap := ht.gap
    simp only [placed, Tiling.place_append, List.mem_append] at hx ⊢
    cases hx with
    | inl hx => exact Or.inr ⟨c, Or.inl hx, hc⟩
    | inr hx =>
      cases List.mem_cons.mp hx with
      | inl heq =>
        obtain ⟨rfl, rfl⟩ := Prod.mk.inj heq
        exact Or.inr ⟨l, Or.inr (List.mem_singleton_self _), hc⟩
      | inr hx =>
        refine Or.inl ((Prod.mk.inj (List.mem_singleton.mp hx)).1.trans ?_)
        simp only [widen, Blk.span, blockSiz, endOf] at *
        omega

theorem Accounts.place (h : Accounts bs live) (hp : Placed sz align bs p bs') (n : Nat) :
    Accounts bs' ((data p, n) :: live) := by
  intro x c hx hc
  cases hp.used_from hx hc with
  | inl heq => exact ⟨(data p, n), List.mem_cons_self .., by rw [heq]⟩
  | inr hold =>
    obtain ⟨b, hb, hu⟩ := hold
    obtain ⟨r, hr, heq⟩ := h x b hb hu
    exact ⟨r, List.mem_cons_of_mem _ hr, heq⟩

/-- The used blocks behind a freed block were there before. -/
theorem absorb_from {a : Nat} (hx : (x, c) ∈ Tiling.place Blk.span a (absorb ⟨false, b.size⟩ ys))
    (hc : c.used = true) : (x, c) ∈ Tiling.place Blk.span (a + b.span) ys := by
  cases ys with
  | nil =>
    rw [(Prod.mk.inj (List.mem_singleton.mp hx)).2] at hc
    exact absurd hc Bool.false_ne_true
  | cons d ys =>
    cases hd : d.used with
    | true =>
      simp only [absorb, hd, if_true] at hx
      cases List.mem_cons.mp hx with
      | inl heq =>
        rw [(Prod.mk.inj heq).2] at hc
        exact absurd hc Bool.false_ne_true
      | inr hx => exact hx
    | false =>
      simp only [absorb, hd, Bool.false_eq_true, if_false] at hx
      cases List.mem_cons.mp hx with
      | inl heq =>
        rw [(Prod.mk.inj heq).2] at hc
        exact absurd hc Bool.false_ne_true
      | inr hx =>
        have hs : a + (⟨false, b.size + d.span⟩ : Blk).span = a + b.span + d.span := by
          simp only [Blk.span, blockSiz]
          omega
        rw [hs] at hx
        exact List.mem_cons_of_mem _ hx

theorem release_from (hx : (x, c) ∈ placed (release xs b ys)) (hc : c.used = true) :
    (x, c) ∈ placed (xs ++ b :: ys) ∧ x ≠ endOf heapBase xs := by
  have hbehind : ∀ {a : Nat}, (x, c) ∈ Tiling.place Blk.span (a + b.span) ys → x ≠ a := by
    intro a hy
    have hlo := (header_bounds hy).1
    simp only [Blk.span, blockSiz] at hlo
    omega
  have hfront : ∀ {zs : List Blk}, (x, c) ∈ Tiling.place Blk.span heapBase zs →
      x < endOf heapBase zs := fun hz => by
    have hhi := (header_bounds hz).2
    omega
  by_cases hxs : ∀ p, xs.getLast? = some p → p.used = true
  · rw [release_alone b ys hxs] at hx
    simp only [placed, Tiling.place_append, List.mem_append] at hx ⊢
    cases hx with
    | inl hx => exact ⟨Or.inl hx, Nat.ne_of_lt (hfront hx)⟩
    | inr hx =>
      have hy := absorb_from hx hc
      exact ⟨Or.inr (List.mem_cons_of_mem _ hy), hbehind hy⟩
  · push Not at hxs
    obtain ⟨p, hlast, hp⟩ := hxs
    have hpf : p.used = false := by simpa using hp
    obtain ⟨xs', rfl⟩ := List.getLast?_eq_some_iff.mp hlast
    rw [release_joins xs' b ys hpf] at hx
    have hend : endOf heapBase (xs' ++ [p]) = endOf heapBase xs' + p.span := endOf_append _ _ _
    simp only [placed, Tiling.place_append, List.mem_append] at hx ⊢
    cases hx with
    | inl hx =>
      have hlt := hfront hx
      exact ⟨Or.inl (Or.inl hx), by omega⟩
    | inr hx =>
      cases List.mem_cons.mp hx with
      | inl heq =>
        rw [(Prod.mk.inj heq).2] at hc
        exact absurd hc Bool.false_ne_true
      | inr hx =>
        have hs : Tiling.endAt Blk.span heapBase xs' + (⟨false, p.size + b.span⟩ : Blk).span =
            endOf heapBase (xs' ++ [p]) + b.span := by
          rw [hend]
          simp only [Blk.span, blockSiz, endOf]
          omega
        rw [hs] at hx
        exact ⟨Or.inr (List.mem_cons_of_mem _ hx), hbehind hx⟩

theorem Accounts.release (h : Accounts (xs ++ b :: ys) live) :
    Accounts (Kmalloc.release xs b ys)
      (live.filter fun r => decide (r.1 ≠ data (endOf heapBase xs))) := by
  intro x c hx hc
  obtain ⟨hold, hne⟩ := release_from hx hc
  obtain ⟨r, hr, heq⟩ := h x c hold hc
  refine ⟨r, List.mem_filter.mpr ⟨hr, decide_eq_true ?_⟩, heq⟩
  rw [heq]
  simp only [data]
  omega

/-- The blocks are as listed, the used ones those of the live allocations. -/
structure Accounted (s : Session) (bs : List Blk) : Prop where
  holds : Holds s bs
  accounts : Accounts bs s.live

theorem Accounted.step {s t : Session} {op : Op} (h : Accounted s bs) (hok : Sound s op)
    (hst : Step s op t) : ∃ bs', Accounted t bs' := by
  cases op with
  | kmalloca n align =>
    obtain ⟨fuel, q, k', hk, rfl⟩ := hst.kmalloca
    cases Nat.eq_zero_or_pos n with
    | inl hzero =>
      subst hzero
      obtain ⟨rfl, hm⟩ := kmalloca_zero hk
      refine ⟨bs, ⟨?_, h.holds.owns⟩, h.accounts⟩
      simpa only [hm] using h.holds.heap
    | inr hpos =>
      obtain ⟨hal, hn, hroom⟩ := hok hpos
      obtain ⟨p, bs', rfl, hp, hr, -, -⟩ := h.holds.heap.kmalloca hal hpos hn hroom hk
      have howns := h.holds.owns.place hn hp
      have haccounts := h.accounts.place hp n
      refine ⟨bs', ⟨hr, ?_⟩, ?_⟩
      · simpa only [if_neg (Nat.ne_of_gt hpos)] using howns
      · simpa only [if_neg (Nat.ne_of_gt hpos)] using haccounts
  | kfree p =>
    obtain ⟨xs, b, ys, m', rfl, rfl, -, -, hrep, -, rfl⟩ := h.holds.freed hst
    have hclash : ¬ Clash xs ys := by
      rw [h.holds.heap.clash_iff]
      exact hok
    exact ⟨_, ⟨hrep hclash, h.holds.owns.release⟩, h.accounts.release⟩
  | write a v =>
    obtain ⟨bs', hholds, hmoves, -⟩ := h.holds.step hok hst
    obtain ⟨-, rfl⟩ := hst.write
    cases hmoves with
    | write => exact ⟨bs, hholds, h.accounts⟩

theorem Pristine.accounted {s : Session} (h : Pristine s) : Accounted s [⟨false, 0⟩] := by
  refine ⟨h.holds, fun x b hx hb => ?_⟩
  rw [(Prod.mk.inj (List.mem_singleton.mp hx)).2] at hb
  exact absurd hb Bool.false_ne_true

theorem place_increasing (a : Nat) (bs : List Blk) :
    (Tiling.place Blk.span a bs).Pairwise fun e e' => e.1 < e'.1 := by
  induction bs generalizing a with
  | nil => exact .nil
  | cons b bs ih =>
    refine List.pairwise_cons.mpr ⟨fun e he => ?_, ih _⟩
    have hlo := (header_bounds (x := e.1) (b := e.2) he).1
    simp only [Blk.span, blockSiz] at hlo
    omega

/-- The payloads of the used blocks. -/
def inUse (blocks : List (Nat × Blk)) : List Nat :=
  (blocks.filter fun e => e.2.used).map fun e => data e.1

/-- The used blocks are the live allocations, each of them once. -/
theorem Accounted.inUse {s : Session} (h : Accounted s bs) :
    (inUse (placed bs)).Perm (s.live.map Prod.fst) := by
  have hused : (Kmalloc.inUse (placed bs)).Nodup := by
    refine List.pairwise_map.mpr (((place_increasing heapBase bs).filter _).imp fun hlt => ?_)
    simp only [data]
    omega
  have hlive : (s.live.map Prod.fst).Nodup := List.pairwise_map.mpr h.holds.owns.distinct
  refine (List.perm_ext_iff_of_nodup hused hlive).mpr fun p => ?_
  simp only [Kmalloc.inUse, List.mem_map, List.mem_filter]
  constructor
  · rintro ⟨e, ⟨he, hu⟩, hp⟩
    obtain ⟨r, hr, heq⟩ := h.accounts e.1 e.2 he hu
    exact ⟨r, hr, heq.trans hp⟩
  · rintro ⟨r, hr, hp⟩
    obtain ⟨x, b, hx, hu, heq, -⟩ := h.holds.owns.block r hr
    exact ⟨(x, b), ⟨hx, hu⟩, heq.symm.trans hp⟩

/-- The sound steps of a run are those that the heap's invariant needs. -/
theorem sound_run {s t : Session} {tr : List (Session × Op × Session)} (hs : Pristine s)
    (hr : Run Step s tr t) (hplain : KmallocOnly tr) (hwrap : Unwrapped tr)
    (hfree : ∀ e ∈ tr, ∀ p, e.2.1 = .kfree p → ¬ Spoils e.1.k.mem (p - blockSiz)) :
    ∀ e ∈ tr, Sound e.1 e.2.1 := by
  let Q : Session → Op → Prop := fun s op =>
    (∀ n align, op = .kmalloca n align → align = 0) ∧
    (∀ n align, op = .kmalloca n align → 0 < n → NoWrap s.k.mem n) ∧
    ∀ p, op = .kfree p → ¬ Spoils s.k.mem (p - blockSiz)
  have hstep : ∀ s op t, (∃ bs, Holds s bs) → Q s op → Step s op t → ∃ bs, Holds t bs := by
    intro s op t ⟨bs, hb⟩ ⟨h1, h2, h3⟩ hst
    obtain ⟨bs', hb', -⟩ := hb.step (sound_of_plain hb h1 h2 h3) hst
    exact ⟨bs', hb'⟩
  have hq : ∀ e ∈ tr, Q e.1 e.2.1 := fun e he => ⟨hplain e he, hwrap e he, hfree e he⟩
  intro e he
  obtain ⟨⟨bs, hb⟩, -⟩ := hr.invariant_at hstep ⟨_, hs.holds⟩ hq he
  obtain ⟨h1, h2, h3⟩ := hq e he
  exact sound_of_plain hb h1 h2 h3

end Foos.Kmalloc
