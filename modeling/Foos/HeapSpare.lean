import Foos.HeapLease
import Foos.HeapReuse

/-! A heap on which every block is in use but perhaps the last one: blocks that are taken and given
back one after the other leave it so, with a last block of bounded size. -/
namespace Foos.Kmalloc
open ByteMemory

/-- The blocks in use, and at most one free block behind them. -/
structure Spare (limit : Nat) (us bs : List Blk) : Prop where
  used : ∀ b ∈ us, b.used = true
  shape : bs = us ∨ ∃ f, f ≤ 2 * limit + 16 ∧ bs = us ++ [⟨false, f⟩]

section
variable {us bs bs' xs ys : List Blk} {b : Blk} {limit sz f p n : Nat} {m : Mem}
  {areas : List (Nat × Nat)}

theorem Blk.span_pos (b : Blk) : 0 < b.span :=
  Nat.lt_of_lt_of_le (by decide) (Nat.le_add_right 16 _)

theorem endOf_unique {xs' ys' : List Blk} (h : xs ++ ys = xs' ++ ys')
    (hend : endOf heapBase xs = endOf heapBase xs') : xs = xs' :=
  Tiling.prefix_unique Blk.span Blk.span_pos h hend

/-- The only free block of such a heap is the last one. -/
theorem last_free (hused : ∀ b ∈ us, b.used = true) (hb : b.used = false)
    (h : us ++ [⟨false, f⟩] = xs ++ b :: ys) : xs = us ∧ b = ⟨false, f⟩ ∧ ys = [] := by
  cases List.eq_nil_or_concat ys with
  | inl hnil =>
    subst hnil
    obtain ⟨hxs, hlast⟩ := List.append_inj' h rfl
    exact ⟨hxs.symm, (List.singleton_inj.mp hlast).symm, rfl⟩
  | inr hcons =>
    obtain ⟨zs, z, rfl⟩ := hcons
    have h' : us ++ [⟨false, f⟩] = (xs ++ b :: zs) ++ [z] := by simpa using h
    have hus := (List.append_inj' h' rfl).1
    have hmem : b ∈ us := hus ▸ List.mem_append_right _ (List.mem_cons_self ..)
    exact absurd (hb.symm.trans (hused b hmem)) nofun

theorem widen_plain (xs : List Blk) (l : Blk) : widen xs l 0 = l := by
  obtain ⟨used, size⟩ := l
  rw [widen, tailAt, if_pos (Or.inl rfl), endOf_append, endOf_cons, endOf_nil]
  simp only [Blk.span, blockSiz, Blk.mk.injEq, true_and]
  omega

theorem not_clash_last : ¬ Clash xs [] := fun h => by
  obtain ⟨-, c, d, zs, hnil, -⟩ := h
  exact absurd hnil nofun

/-- A request is served by the last block or behind it. -/
theorem Spare.serves (h : Spare limit us bs) (hne : us ≠ []) (hp : Placed sz 0 bs p bs') :
    ∃ f, (f = sz ∧ bs = us ∨ sz ≤ f ∧ bs = us ++ [⟨false, f⟩]) ∧ p = endOf heapBase us ∧
        bs' = us ++ [⟨true, f⟩] ∨
      f < sz ∧ bs = us ++ [⟨false, f⟩] ∧ p = endOf heapBase bs ∧ bs' = bs ++ [⟨true, sz⟩] := by
  cases h.shape with
  | inl hall =>
    subst hall
    obtain ⟨zs, l, rfl, -, rfl, rfl⟩ := hp.only_tail h.used
    refine ⟨sz, Or.inl ⟨Or.inl ⟨rfl, rfl⟩, if_pos (Or.inl rfl), ?_⟩⟩
    rw [widen_plain]
    simp
  | inr hfree =>
    obtain ⟨f, -, rfl⟩ := hfree
    refine ⟨f, ?_⟩
    generalize hl : us ++ [⟨false, f⟩] = l at hp
    cases hp with
    | root _ _ =>
      have hlen := congrArg List.length hl
      have hpos := List.length_pos_of_ne_nil hne
      simp only [List.length_append, List.length_singleton] at hlen
      omega
    | @fit xs b ys hno hfits =>
      obtain ⟨rfl, rfl, rfl⟩ := last_free h.used hfits.1 hl
      refine Or.inl ⟨Or.inr ⟨hfits.2.1, rfl⟩, rfl, ?_⟩
      rw [carve, if_pos (Or.inl rfl)]
      rfl
    | @tail xs l hno _ _ =>
      obtain ⟨rfl, hlast⟩ := List.append_inj' hl rfl
      obtain rfl := List.singleton_inj.mp hlast
      have hsmall : f < sz := by
        by_contra hbig
        exact hno _ _ (Tiling.place_middle Blk.span heapBase us _ [])
          ⟨rfl, Nat.le_of_not_lt hbig, Or.inl rfl⟩
      refine Or.inr ⟨hsmall, rfl, if_pos (Or.inl rfl), ?_⟩
      rw [widen_plain]
      simp

/-- What is given back joins the last block. -/
theorem Spare.returned (h : Spare limit us bs) (hne : us ≠ []) (hn : roundUp n ≤ limit)
    (hret : Returned n bs m) : ∃ bs', Represents m bs' ∧ Spare limit us bs' := by
  obtain ⟨xs, b, ys, hp, hrep⟩ := hret
  have hused : ∀ p, us.getLast? = some p → p.used = true :=
    fun p hlast => h.used p (List.mem_of_getLast? hlast)
  obtain ⟨f, ⟨hcase, hend, hlist⟩ | ⟨hsmall, rfl, hend, hlist⟩⟩ := h.serves hne hp
  · obtain rfl := endOf_unique hlist hend
    obtain ⟨rfl, rfl⟩ := List.cons.inj (List.append_cancel_left hlist)
    have hrel : release xs ⟨true, f⟩ [] = xs ++ [⟨false, f⟩] := release_alone _ _ hused
    refine ⟨_, hrel ▸ hrep not_clash_last, h.used, Or.inr ⟨f, ?_, rfl⟩⟩
    cases hcase with
    | inl hnew =>
      obtain ⟨rfl, -⟩ := hnew
      omega
    | inr hold =>
      obtain ⟨-, rfl⟩ := hold
      cases h.shape with
      | inl hall => exact absurd (congrArg List.length hall) (by simp)
      | inr hfree =>
        obtain ⟨f', hle, heq⟩ := hfree
        have hlast := List.append_cancel_left heq
        rw [List.singleton_inj, Blk.mk.injEq] at hlast
        omega
  · obtain rfl := endOf_unique hlist hend
    obtain ⟨rfl, rfl⟩ := List.cons.inj (List.append_cancel_left hlist)
    have hrel : release (us ++ [⟨false, f⟩]) ⟨true, roundUp n⟩ [] =
        us ++ [⟨false, f + (16 + roundUp n)⟩] := release_joins us _ _ rfl
    exact ⟨_, hrel ▸ hrep not_clash_last, h.used, Or.inr ⟨_, by omega, rfl⟩⟩

/-- A block that is in use is in use whatever is behind it. -/
theorem Spare.held (h : Spare limit us bs) (hheld : Held us areas) : Held bs areas := by
  cases h.shape with
  | inl hall => exact hall ▸ hheld
  | inr hfree =>
    obtain ⟨f, -, rfl⟩ := hfree
    refine fun r hr => (hheld r hr).imp_right fun hin => ?_
    obtain ⟨x, b, hx, hrest⟩ := hin
    refine ⟨x, b, ?_, hrest⟩
    rw [placed, Tiling.place_append]
    exact List.mem_append_left _ hx

theorem Spare.endOf_le (h : Spare limit us bs) :
    endOf heapBase bs ≤ endOf heapBase us + (2 * limit + 32) := by
  cases h.shape with
  | inl hall => exact hall ▸ Nat.le_add_right _ _
  | inr hfree =>
    obtain ⟨f, hf, rfl⟩ := hfree
    simp only [endOf_append, endOf_cons, endOf_nil, Blk.span, blockSiz]
    omega

theorem Spare.length_le (h : Spare limit us bs) : bs.length ≤ us.length + 1 := by
  cases h.shape with
  | inl hall => exact hall ▸ Nat.le_succ _
  | inr hfree =>
    obtain ⟨f, -, rfl⟩ := hfree
    simp

/-- There is room for the next request. -/
theorem Spare.noWrap (h : Spare limit us bs) (hr : Represents m bs) (hn : roundUp n ≤ limit)
    (hbig : n ≤ 4294967288) (htop : endOf heapBase us + (3 * limit + 48) < 4294967296) :
    NoWrap m n := by
  have hle := h.endOf_le
  refine ⟨hbig, Or.inr fun e he => ?_⟩
  rw [(hr.toForward.endsAt_iff e).mp he, blockSiz]
  omega

end

end Foos.Kmalloc
