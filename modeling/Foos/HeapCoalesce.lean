import Foos.HeapRuns
import Mathlib.Data.List.Chain

/-! Free neighbours. The allocator keeps free blocks apart except where `kfree` meets a
block between two free ones: the first merge makes the second one work on a stale header. -/
namespace Foos.Kmalloc
open ByteMemory Word32 Transition

/-- No two consecutive blocks of the chain are both free. -/
def Coalesced (m : Mem) : Prop :=
  ∀ x, InChain m x → next m x ≠ 0 → ¬ (used m x = 0 ∧ used m (next m x) = 0)

def NoPair (b c : Blk) : Prop := ¬ (b.used = false ∧ c.used = false)

theorem Forward.coalesced_iff {m : Mem} {bs : List Blk} (h : Forward m bs) :
    Coalesced m ↔ bs.IsChain NoPair := by
  rw [List.isChain_iff_forall_rel_of_append_cons_cons]
  constructor
  · rintro hc b c xs ys rfl ⟨hb, hcu⟩
    have hr := h.merge_reads b c ys
    have hpos := endOf_pos xs
    refine hc _ (h.placed_inChain xs b (c :: ys) rfl) (by omega) ⟨hr.2.1.used_zero.mpr hb, ?_⟩
    rw [hr.1]
    exact hr.2.2.1.used_zero.mpr hcu
  · rintro hb x hx hn ⟨hu, hun⟩
    obtain ⟨b, hxb⟩ := h.inChain hx
    obtain ⟨xs, ys, rfl, rfl⟩ := Tiling.place_split _ hxb
    cases ys with
    | nil => exact hn (by simpa using h.chain.next_at _ _ _)
    | cons c ys =>
      have hr := h.merge_reads b c ys
      change used m (next m (endOf heapBase xs)) = 0 at hun
      rw [hr.1] at hun
      exact hb rfl ⟨hr.2.1.used_zero.mp hu, hr.2.2.1.used_zero.mp hun⟩

theorem noPair_of_used {b c : Blk} (h : b.used = true ∨ c.used = true) : NoPair b c := by
  rintro ⟨hb, hc⟩
  simp [hb, hc] at h

theorem Placed.coalesced {bs bs' : List Blk} {sz align p : Nat}
    (h : Placed sz align bs p bs') (hc : bs.IsChain NoPair) : bs'.IsChain NoPair := by
  cases h with
  | root _ _ => simp
  | @fit xs b ys _ hf =>
    obtain ⟨hxs, hys, hjoin⟩ := List.isChain_append.mp hc
    obtain ⟨hhead, hys⟩ := List.isChain_cons.mp hys
    have hused : ∀ c ∈ ys.head?, c.used = true := by
      intro c hcy
      by_contra hcu
      exact hhead c hcy ⟨hf.1, by simpa using hcu⟩
    refine List.isChain_append.mpr ⟨hxs, ?_, fun c _ d hd => noPair_of_used (Or.inr ?_)⟩
    · unfold carve
      split
      · exact List.isChain_cons.mpr ⟨fun c _ => noPair_of_used (Or.inl rfl), hys⟩
      · refine List.isChain_cons.mpr ⟨fun c _ => noPair_of_used (Or.inl rfl), ?_⟩
        exact List.isChain_cons.mpr ⟨fun c hcy => noPair_of_used (Or.inr (hused c hcy)), hys⟩
    · unfold carve at hd
      split at hd <;> simp at hd <;> rw [← hd]
  | @tail xs l _ _ _ =>
    obtain ⟨hxs, _, hjoin⟩ := List.isChain_append.mp hc
    refine List.isChain_append.mpr ⟨hxs, ?_, fun c hcx d hd => ?_⟩
    · exact List.isChain_cons.mpr ⟨fun c hd => noPair_of_used (Or.inr (by simp at hd; simp [← hd])),
        by simp⟩
    · have hdl : d.used = l.used := by
        simp at hd
        rw [← hd, widen]
      exact fun hp => hjoin c hcx l (by simp) ⟨hp.1, hdl ▸ hp.2⟩

/-- Absorbing a free successor keeps free blocks apart. -/
theorem absorb_coalesced {b : Blk} {ys : List Blk} (hys : ys.IsChain NoPair) :
    (absorb ⟨false, b.size⟩ ys).IsChain NoPair := by
  cases ys with
  | nil => simp [absorb]
  | cons c ys =>
    obtain ⟨hhead, hrest⟩ := List.isChain_cons.mp hys
    cases hc : c.used with
    | true =>
      simp only [absorb, hc, if_true]
      refine List.isChain_cons.mpr ⟨fun d hd => noPair_of_used (Or.inr ?_), hys⟩
      simp at hd
      rw [← hd, hc]
    | false =>
      simp only [absorb, hc, Bool.false_eq_true, if_false]
      exact List.isChain_cons.mpr ⟨fun d hd hp => hhead d hd ⟨hc, hp.2⟩, hrest⟩

/-- `kfree` keeps free blocks apart exactly when not both neighbours were free. -/
theorem release_coalesced {xs ys : List Blk} {b : Blk} (h : (xs ++ b :: ys).IsChain NoPair) :
    (release xs b ys).IsChain NoPair ↔
      ¬ ((∃ p, xs.getLast? = some p ∧ p.used = false) ∧
        ∃ c zs, ys = c :: zs ∧ c.used = false) := by
  obtain ⟨hxs, hys, hjoin⟩ := List.isChain_append.mp h
  have hys' := (List.isChain_cons.mp hys).2
  by_cases hlast : ∀ p, xs.getLast? = some p → p.used = true
  · rw [release_alone b ys hlast]
    refine iff_of_true (List.isChain_append.mpr ⟨hxs, absorb_coalesced hys', ?_⟩) ?_
    · exact fun p hp d _ => noPair_of_used (Or.inl (hlast p hp))
    · rintro ⟨⟨p, hp, hpf⟩, _⟩
      rw [hlast p hp] at hpf
      exact absurd hpf (by decide)
  · push Not at hlast
    obtain ⟨p, hp, hpu⟩ := hlast
    have hpf : p.used = false := by simpa using hpu
    obtain ⟨xs', rfl⟩ := List.getLast?_eq_some_iff.mp hp
    rw [release_joins xs' b ys hpf]
    obtain ⟨hxs', _, hjoin'⟩ := List.isChain_append.mp hxs
    constructor
    · rintro hc ⟨_, c, zs, rfl, hcf⟩
      have hpair := (List.isChain_append.mp hc).2.1
      exact (List.isChain_cons_cons.mp hpair).1 ⟨rfl, hcf⟩
    · intro hno
      refine List.isChain_append.mpr ⟨hxs', List.isChain_cons.mpr ⟨fun c hc hpair => ?_, hys'⟩, ?_⟩
      · obtain ⟨zs, rfl⟩ := List.head?_eq_some_iff.mp hc
        exact hno ⟨⟨p, hp, hpf⟩, c, zs, rfl, hpair.2⟩
      · intro q hq d hd hpair
        exact hjoin' q hq p (by simp) ⟨hpair.1, hpf⟩

/-- Whatever the neighbours are, `kfree` of a live pointer releases its block and leaves the
forward chain right. -/
theorem Holds.kfree {s t : Session} {bs : List Blk} {p : Nat} (h : Holds s bs)
    (hst : Step s (.kfree p) t) :
    ∃ xs b ys, bs = xs ++ b :: ys ∧ p = data (endOf heapBase xs) ∧
      Forward t.k.mem (release xs b ys) := by
  obtain ⟨xs, b, ys, m', hbs, hp, -, hf, -, -, rfl⟩ := h.freed hst
  exact ⟨xs, b, ys, hbs, hp, hf⟩

theorem Represents.bothFree_iff {m : Mem} {xs ys : List Blk} {b : Blk}
    (h : Represents m (xs ++ b :: ys)) :
    BothFree m (endOf heapBase xs) ↔
      (∃ p, xs.getLast? = some p ∧ p.used = false) ∧ ∃ c zs, ys = c :: zs ∧ c.used = false := by
  rw [BothFree, h.pred_free, h.toForward.succ_free]

/-- The step does not free a block between two free ones. -/
def Calm (s : Session) (op : Op) : Prop :=
  ∀ p, op = .kfree p → ¬ BothFree s.k.mem (p - blockSiz)

/-- Memory holds a list of blocks, no two free ones side by side. -/
def Settled (s : Session) : Prop := ∃ bs, Holds s bs ∧ bs.IsChain NoPair

theorem Settled.coalesced {s : Session} (h : Settled s) : Coalesced s.k.mem := by
  obtain ⟨bs, hb, hc⟩ := h
  exact hb.heap.toForward.coalesced_iff.mpr hc

theorem Settled.step {s t : Session} {op : Op} (h : Settled s) (hok : Sound s op)
    (hcalm : Calm s op) (hst : Step s op t) : Settled t := by
  obtain ⟨bs, hb, hc⟩ := h
  obtain ⟨bs', hb', hmove, -⟩ := hb.step hok hst
  refine ⟨bs', hb', ?_⟩
  cases hmove with
  | refuse => exact hc
  | place _ hp => exact hp.coalesced hc
  | free _ =>
    refine (release_coalesced hc).mpr fun hboth => hcalm _ rfl ?_
    exact hb.heap.bothFree_iff.mpr hboth
  | write => exact hc

/-- Freeing a block between two free ones leaves two free blocks side by side. -/
theorem Settled.uncoalesced {s t : Session} {p : Nat} (h : Settled s)
    (hboth : BothFree s.k.mem (p - blockSiz)) (hst : Step s (.kfree p) t) :
    ¬ Coalesced t.k.mem := by
  obtain ⟨bs, hb, hc⟩ := h
  obtain ⟨xs, b, ys, rfl, rfl, hf⟩ := hb.kfree hst
  rw [hf.coalesced_iff, release_coalesced hc]
  exact not_not_intro (hb.heap.bothFree_iff.mp hboth)

/-- Along a run of `kmalloc`, `kfree` and client writes, free blocks stay apart in every
state exactly when no step frees a block between two free ones. -/
theorem coalescing_iff {s t : Session} {tr : List (Session × Op × Session)}
    (hs : Pristine s) (hr : Run Step s tr t) (hplain : KmallocOnly tr) (hwrap : Unwrapped tr) :
    (Coalesced s.k.mem ∧ ∀ e ∈ tr, Coalesced e.2.2.k.mem) ↔ ∀ e ∈ tr, Calm e.1 e.2.1 := by
  let Q : Session → Op → Prop := fun s op =>
    (∀ n align, op = .kmalloca n align → align = 0) ∧
    (∀ n align, op = .kmalloca n align → 0 < n → NoWrap s.k.mem n) ∧ Calm s op
  have hstart : Settled s := ⟨_, hs.holds, by simp⟩
  have hstep : ∀ s op t, Settled s → Q s op → Step s op t → Settled t := by
    rintro s op t hset ⟨h1, h2, h3⟩ hst
    obtain ⟨bs, hb, _⟩ := id hset
    exact hset.step (sound_of_plain hb h1 h2 fun p hp hsp => h3 p hp hsp.1) h3 hst
  constructor
  · rintro ⟨_, hall⟩
    by_contra hcalm
    obtain ⟨pre, ⟨s', op, u⟩, post, rfl, hpre, hst, hq, hne⟩ := hr.first hcalm
    have hin : ∀ d ∈ pre, d ∈ pre ++ (s', op, u) :: post := fun d hd => List.mem_append_left _ hd
    have hset : Settled s' := hpre.invariant hstep hstart fun d hd =>
      ⟨hplain d (hin d hd), hwrap d (hin d hd), hq d hd⟩
    simp only [Calm] at hne
    push Not at hne
    obtain ⟨p, rfl, hboth⟩ := hne
    exact hset.uncoalesced hboth hst (hall (s', .kfree p, u) (by simp))
  · intro hcalm
    have hq : ∀ e ∈ tr, Q e.1 e.2.1 := fun e he => ⟨hplain e he, hwrap e he, hcalm e he⟩
    refine ⟨hstart.coalesced, fun e he => ?_⟩
    obtain ⟨hset, hst⟩ := hr.invariant_at hstep hstart hq he
    exact (hstep _ _ _ hset (hq e he) hst).coalesced

/-- Three blocks freed from the first to the last, joining one after the other. -/
theorem coalescing_iff_in_order : ∃ (t : Session) (tr : List (Session × Op × Session)),
    tr.length = 6 ∧ Coalesced zeroed.k.mem ∧ (∀ e ∈ tr, Coalesced e.2.2.k.mem) ∧
    size t.k.mem root = 56 := by
  have hrun : (trace 5 zeroed [.kmalloc 8, .kmalloc 8, .kmalloc 8,
      .kfree 0x400010, .kfree 0x400028, .kfree 0x400040]).any
      (fun r => r.1.all (roomy 5) && r.1.length == 6 && size r.2.k.mem root == 56 &&
        r.1.all fun e =>
          match e.2.1 with
          | .kfree p => !decide (BothFree e.1.k.mem (p - blockSiz))
          | _ => true) = true := by decide +kernel
  obtain ⟨⟨tr, t⟩, htr, hc⟩ := Option.any_eq_true _ _ |>.mp hrun
  simp only [Bool.and_eq_true, beq_iff_eq] at hc
  obtain ⟨⟨⟨hroom, hlen⟩, hsize⟩, hcalm⟩ := hc
  obtain ⟨hplain, hwrap⟩ := roomy_plain hroom
  have hall : ∀ e ∈ tr, Calm e.1 e.2.1 := by
    intro e he p hp
    have := List.all_eq_true.mp hcalm e he
    simpa [hp] using this
  obtain ⟨h0, h1⟩ := (coalescing_iff zeroed_pristine (trace_run htr) hplain hwrap).mpr hall
  exact ⟨t, tr, hlen, h0, h1, hsize⟩

/-- Three blocks: the outer two are freed, then the one between them. It joins the first, and
the third stays free behind it. -/
theorem coalescing_fails : ¬ ∀ s t tr, Pristine s → Run Step s tr t → KmallocOnly tr →
    Unwrapped tr → Coalesced s.k.mem ∧ ∀ e ∈ tr, Coalesced e.2.2.k.mem := by
  intro hclaim
  have hrun : (trace 5 zeroed [.kmalloc 8, .kmalloc 8, .kmalloc 8,
      .kfree 0x400010, .kfree 0x400040, .kfree 0x400028]).any
      (fun r => r.1.all (roomy 5) && r.1.any fun e =>
        next e.2.2.k.mem root != 0 && (used e.2.2.k.mem root == 0 &&
          used e.2.2.k.mem (next e.2.2.k.mem root) == 0)) = true := by decide +kernel
  obtain ⟨⟨tr, t⟩, htr, hc⟩ := Option.any_eq_true _ _ |>.mp hrun
  obtain ⟨hroom, hbad⟩ := (Bool.and_eq_true _ _).mp hc
  obtain ⟨hplain, hwrap⟩ := roomy_plain hroom
  obtain ⟨e, he, hb⟩ := List.any_eq_true.mp hbad
  simp only [Bool.and_eq_true, bne_iff_ne, beq_iff_eq] at hb
  exact (hclaim _ t tr zeroed_pristine (trace_run htr) hplain hwrap).2 e he root .root hb.1 hb.2

end Foos.Kmalloc
