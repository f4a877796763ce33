import Foos.HeapSpec
import Foos.Transition

/-! Runs of the allocator: allocations, frees of live pointers, and client writes inside
live payloads, in any order. The invariant says which list of blocks memory holds and that
every live allocation sits in a used block of its own. -/
namespace Foos.Kmalloc
open ByteMemory Word32 Transition

/-- The machine and the live allocations, each with its pointer and requested size. -/
structure Session where
  k : Machine
  live : List (Nat × Nat)

inductive Op where
  | kmalloca (n align : Nat)
  | kfree (p : Nat)
  | write (a : Nat) (v : UInt8)

/-- `kmalloc(n)` is `kmalloca(n,0)`. -/
def Op.kmalloc (n : Nat) : Op := .kmalloca n 0

/-- A request for no bytes returns NULL and makes nothing live. -/
def perform (fuel : Nat) (s : Session) : Op → Option Session
  | .kmalloca n align =>
    if n < 4294967296 then
      (kmalloca fuel s.k n align).map fun r =>
        ⟨r.2, if n = 0 then s.live else (r.1, n) :: s.live⟩
    else none
  | .kfree p =>
    if p ∈ s.live.map Prod.fst then
      (kfree s.k p).map fun k => ⟨k, s.live.filter fun r => r.1 ≠ p⟩
    else none
  | .write a v =>
    if ∃ r ∈ s.live, r.1 ≤ a ∧ a < r.1 + r.2 then
      some ⟨{ s.k with mem := store8 s.k.mem a v }, s.live⟩
    else none

def Step (s : Session) (op : Op) (t : Session) : Prop := ∃ fuel, perform fuel s op = some t

theorem Step.kmalloca {s t : Session} {n align : Nat} (h : Step s (.kmalloca n align) t) :
    ∃ fuel q k', Kmalloc.kmalloca fuel s.k n align = some (q, k') ∧
      t = ⟨k', if n = 0 then s.live else (q, n) :: s.live⟩ := by
  obtain ⟨fuel, hst⟩ := h
  rw [perform] at hst
  split at hst
  · obtain ⟨⟨q, k'⟩, hk, ht⟩ := Option.map_eq_some_iff.mp hst
    exact ⟨fuel, q, k', hk, ht.symm⟩
  · cases hst

theorem Step.kfree {s t : Session} {p : Nat} (h : Step s (.kfree p) t) :
    ∃ r ∈ s.live, p = r.1 ∧ ∃ k', Kmalloc.kfree s.k p = some k' ∧
      t = ⟨k', s.live.filter fun r => r.1 ≠ p⟩ := by
  obtain ⟨fuel, hst⟩ := h
  rw [perform] at hst
  split at hst
  next hmem =>
    obtain ⟨k', hk, ht⟩ := Option.map_eq_some_iff.mp hst
    obtain ⟨r, hr, hrp⟩ := List.mem_map.mp hmem
    exact ⟨r, hr, hrp.symm, k', hk, ht.symm⟩
  next => cases hst

theorem Step.write {s t : Session} {a : Nat} {v : UInt8} (h : Step s (.write a v) t) :
    (∃ r ∈ s.live, r.1 ≤ a ∧ a < r.1 + r.2) ∧
      t = ⟨{ s.k with mem := store8 s.k.mem a v }, s.live⟩ := by
  obtain ⟨fuel, hst⟩ := h
  rw [perform] at hst
  split at hst
  next hlive => exact ⟨hlive, (Option.some.inj hst).symm⟩
  next => cases hst

/-- The empty root at `heapBase` and nothing but zeros above it. -/
structure Pristine (s : Session) : Prop where
  zero : ∀ y, heapBase ≤ y → y < 4294967296 → s.k.mem y = 0
  none_live : s.live = []

/-- Live payloads are apart from each other and from every header of the chain. -/
structure Intact (s : Session) : Prop where
  apart : s.live.Pairwise fun r q => r.1 + r.2 ≤ q.1 ∨ q.1 + q.2 ≤ r.1
  clear : ∀ r ∈ s.live, ∀ x, InChain s.k.mem x → r.1 + r.2 ≤ x ∨ x + blockSiz ≤ r.1

/-- An allocator step changes no byte of a payload that is live before and after it. -/
def Kept (s : Session) (op : Op) (t : Session) : Prop :=
  (∀ a v, op ≠ .write a v) → ∀ r ∈ s.live, r ∈ t.live →
    ∀ y, r.1 ≤ y → y < r.1 + r.2 → t.k.mem y = s.k.mem y

/-- Every allocation of the run is a `kmalloc`. -/
def KmallocOnly (tr : List (Session × Op × Session)) : Prop :=
  ∀ e ∈ tr, ∀ n align, e.2.1 = .kmalloca n align → align = 0

/-- The size of the request does not wrap, nor the address of a block made for it. -/
def NoWrap (m : Mem) (n : Nat) : Prop :=
  n ≤ 4294967288 ∧
    (Serves m (roundUp n) 0 ∨ ∀ e, EndsAt m e → e + blockSiz + roundUp n < 4294967296)

def Unwrapped (tr : List (Session × Op × Session)) : Prop :=
  ∀ e ∈ tr, ∀ n align, e.2.1 = .kmalloca n align → 0 < n → NoWrap e.1.k.mem n

/-- `kfree` of the block at `blk` leaves a wrong back link behind: both neighbours are free
and the free successor has a successor. -/
def Spoils (m : Mem) (blk : Nat) : Prop := BothFree m blk ∧ next m (next m blk) ≠ 0

/-- What a step must meet for the invariant to survive it. -/
def Sound (s : Session) : Op → Prop
  | .kmalloca n align =>
    0 < n → align < 32 ∧ n ≤ 4294967288 ∧
      (Serves s.k.mem (roundUp n) align ∨ TailRoom s.k.mem (roundUp n) align)
  | .kfree p => ¬ Spoils s.k.mem (p - blockSiz)
  | .write _ _ => True

/-- Every live allocation has a used block of its own. -/
structure Owns (bs : List Blk) (live : List (Nat × Nat)) : Prop where
  distinct : live.Pairwise fun r q => r.1 ≠ q.1
  block : ∀ r ∈ live, ∃ x b, (x, b) ∈ placed bs ∧ b.used = true ∧ r.1 = data x ∧ r.2 ≤ b.size

structure Holds (s : Session) (bs : List Blk) : Prop where
  heap : Represents s.k.mem bs
  owns : Owns bs s.live

instance (m : Mem) (blk : Nat) : Decidable (Spoils m blk) :=
  inferInstanceAs (Decidable (_ ∧ _))

/-- The steps that a list of operations makes from `s`, and the state it ends in. -/
def trace (fuel : Nat) (s : Session) :
    List Op → Option (List (Session × Op × Session) × Session)
  | [] => some ([], s)
  | op :: ops =>
    match perform fuel s op with
    | none => none
    | some t => (trace fuel t ops).map fun r => ((s, op, t) :: r.1, r.2)

theorem trace_run {fuel : Nat} {s t : Session} {ops : List Op}
    {tr : List (Session × Op × Session)} (h : trace fuel s ops = some (tr, t)) :
    Run Step s tr t := by
  induction ops generalizing s tr with
  | nil =>
    obtain ⟨rfl, rfl⟩ := Prod.mk.inj (Option.some.inj h)
    exact .nil
  | cons op ops ih =>
    simp only [trace] at h
    cases hp : perform fuel s op with
    | none => simp [hp] at h
    | some u =>
      simp only [hp] at h
      obtain ⟨⟨tr', t'⟩, ht, he⟩ := Option.map_eq_some_iff.mp h
      obtain ⟨rfl, rfl⟩ := Prod.mk.inj he
      exact Run.cons ⟨fuel, hp⟩ (ih ht)

/-- A step that allocates nothing, or a `kmalloc` with room behind the last block. -/
def roomy (fuel : Nat) (e : Session × Op × Session) : Bool :=
  match e.2.1 with
  | .kmalloca n align =>
    align == 0 && decide (n ≤ 4294967288) &&
      (chainEnd fuel e.1.k.mem root).any fun x => decide (x + blockSiz + roundUp n < 4294967296)
  | _ => true

theorem roomy_plain {fuel : Nat} {tr : List (Session × Op × Session)}
    (h : tr.all (roomy fuel) = true) : KmallocOnly tr ∧ Unwrapped tr := by
  have hall (e : Session × Op × Session) (he : e ∈ tr) (n align : Nat)
      (hop : e.2.1 = .kmalloca n align) : align = 0 ∧ NoWrap e.1.k.mem n := by
    have hr := List.all_eq_true.mp h e he
    simp only [roomy, hop, Bool.and_eq_true, beq_iff_eq, decide_eq_true_eq] at hr
    obtain ⟨⟨h0, hn⟩, hend⟩ := hr
    obtain ⟨x, hx, hlim⟩ := Option.any_eq_true _ _ |>.mp hend
    refine ⟨h0, hn, Or.inr fun e' he' => ?_⟩
    rw [EndsAt.eq_of_chainEnd hx he']
    exact of_decide_eq_true hlim
  exact ⟨fun e he n align hop => (hall e he n align hop).1,
    fun e he n align hop _ => (hall e he n align hop).2⟩

/-- A session before the first allocation. -/
def zeroed : Session := ⟨⟨⟨fun _ => 0⟩, 0⟩, []⟩

theorem zeroed_pristine : Pristine zeroed := ⟨fun _ _ _ => rfl, rfl⟩

theorem Pristine.holds {s : Session} (h : Pristine s) : Holds s [⟨false, 0⟩] := by
  have hz (a : Nat) (h1 : heapBase ≤ a) (h2 : a + 4 ≤ 4294967296) : load32 s.k.mem a = 0 :=
    load32_zero fun x hx1 hx2 => h.zero x (by omega) (by omega)
  have hb : heapBase + 16 ≤ 4294967296 := by decide
  refine ⟨⟨⟨⟨⟨?_, ?_⟩, ?_, trivial⟩, Or.inl rfl, by decide, fun x h1 h2 => ?_⟩, ?_, trivial⟩, ?_⟩
  · exact hz _ (Nat.le_refl _) (by omega)
  · exact hz _ (by omega) (by omega)
  · exact hz _ (by omega) (by omega)
  · simp only [endOf_cons, endOf_nil, Blk.span, blockSiz] at h1
    exact h.zero x (by omega) h2
  · exact hz _ (by omega) (by omega)
  · rw [h.none_live]
    exact ⟨List.Pairwise.nil, fun r hr => absurd hr (by simp)⟩

theorem Holds.intact {s : Session} {bs : List Blk} (h : Holds s bs) : Intact s := by
  obtain ⟨hheap, hdist, hblock⟩ := h
  refine ⟨hdist.imp_of_mem fun {r q} hr hq hne => ?_, fun r hr x hx => ?_⟩
  · obtain ⟨x, b, hx, _, hrx, hrb⟩ := hblock r hr
    obtain ⟨y, c, hy, _, hqy, hqc⟩ := hblock q hq
    simp only [data] at hrx hqy
    have hapart := header_apart hx hy
    omega
  · obtain ⟨z, b, hz, _, hrz, hrb⟩ := hblock r hr
    obtain ⟨c, hc⟩ := hheap.toForward.inChain hx
    simp only [data] at hrz
    simp only [blockSiz]
    have hapart := header_apart hz hc
    omega

theorem kmalloca_zero {k k' : Machine} {fuel align q : Nat}
    (h : Kmalloc.kmalloca fuel k 0 align = some (q, k')) : q = 0 ∧ k'.mem = k.mem := by
  have hroot : ¬ root = 0 := by decide
  simp only [Kmalloc.kmalloca, if_neg hroot, if_true, Option.some.injEq, Prod.mk.injEq] at h
  obtain ⟨rfl, rfl⟩ := h
  exact ⟨rfl, rfl⟩

/-- A successful call of `kmalloca`, in terms of the list of blocks. -/
theorem Represents.kmalloca {k k' : Machine} {bs : List Blk} {fuel n align q : Nat}
    (h : Represents k.mem bs) (hal : align < 32) (hpos : 0 < n) (hn : n ≤ 4294967288)
    (hroom : Serves k.mem (roundUp n) align ∨ TailRoom k.mem (roundUp n) align)
    (hk : Kmalloc.kmalloca fuel k n align = some (q, k')) :
    ∃ p bs', q = data p ∧ Placed (roundUp n) align bs p bs' ∧ Represents k'.mem bs' ∧
      KeepsUsed k.mem k'.mem bs ∧ (∀ y, y < heapBase → k'.mem y = k.mem y) ∧
      ∀ y, q ≤ y → y < q + roundUp n → k'.mem y = k.mem y := by
  have hru := roundUp_eq hn
  obtain ⟨p, bs', hp⟩ := Placed.exists h.toForward hroom
  obtain ⟨m', hl, hr, hkeep, hlow, hpay⟩ := h.lookup hal (by omega) (by omega) hp
  have hroot : ¬ root = 0 := by decide
  have hn0 : ¬ n = 0 := by omega
  simp only [Kmalloc.kmalloca, if_neg hroot, if_neg hn0] at hk
  cases hg : Kmalloc.lookup fuel k.mem 0 (roundUp n) align with
  | none => simp [hg] at hk
  | some r =>
    obtain rfl := lookup_unique (hl 0) hg
    simp only [hg, Option.some.injEq, Prod.mk.injEq] at hk
    obtain ⟨rfl, rfl⟩ := hk
    refine ⟨p, bs', rfl, hp, ?_, ?_, ?_, ?_⟩
    · split <;> exact hr
    · split <;> exact hkeep
    · split <;> exact hlow
    · split <;> exact hpay

/-- The call does return. -/
theorem Represents.kmalloca_returns {k : Machine} {bs : List Blk} {n align : Nat}
    (h : Represents k.mem bs) (hal : align < 32) (hpos : 0 < n) (hn : n ≤ 4294967288)
    (hroom : Serves k.mem (roundUp n) align ∨ TailRoom k.mem (roundUp n) align) :
    ∃ q k', ∀ fuel, Kmalloc.kmalloca (fuel + 1 + bs.length) k n align = some (q, k') := by
  have hru := roundUp_eq hn
  obtain ⟨p, bs', hp⟩ := Placed.exists h.toForward hroom
  obtain ⟨m', hl, -⟩ := h.lookup hal (by omega) (by omega) hp
  have hroot : ¬ root = 0 := by decide
  have hn0 : ¬ n = 0 := by omega
  exact ⟨_, _, fun fuel => by simp only [Kmalloc.kmalloca, if_neg hroot, if_neg hn0, hl]; rfl⟩

/-- Writing inside payloads leaves the list of blocks as it is. -/
theorem Represents.payload {m m' : Mem} {bs : List Blk} (h : Represents m bs)
    (hout : ∀ w, heapBase ≤ w →
      (∀ x b, (x, b) ∈ placed bs → w < x + 16 ∨ x + 16 + b.size ≤ w) → m' w = m w) :
    Represents m' bs := by
  have hhead (z : Nat) (c : Blk) (hz : (z, c) ∈ placed bs) (w : Nat) (hw1 : z ≤ w)
      (hw2 : w < z + 16) : m' w = m w := by
    have hlo := (header_bounds hz).1
    refine hout w (by omega) fun x b hx => ?_
    have hapart := header_apart hx hz
    omega
  have htail (w : Nat) (hw : endOf heapBase bs ≤ w) : m' w = m w := by
    have hbase := le_endOf heapBase bs
    refine hout w (by omega) fun x b hx => Or.inr ?_
    have hhi := (header_bounds hx).2
    omega
  refine ⟨h.toForward.congr (fun z c hz => words_congr fun w hw1 hw2 _ => hhead z c hz w hw1 hw2)
    htail, h.back.congr fun z c hz => ?_⟩
  exact load32_congr fun w hw1 hw2 => hhead z c hz w (by omega) (by omega)

theorem Represents.write {m : Mem} {bs : List Blk} (h : Represents m bs) {x y : Nat} {b : Blk}
    (v : UInt8) (hx : (x, b) ∈ placed bs) (h1 : x + 16 ≤ y) (h2 : y < x + 16 + b.size) :
    Represents (store8 m y v) bs := by
  refine h.payload fun w _ hw => store8_ne m y w v ?_
  rintro rfl
  have := hw x b hx
  omega

/-- The step that a heap operation makes on the list of blocks. -/
inductive Moves : Op → List Blk → List Blk → Prop
  | refuse {align bs} : Moves (.kmalloca 0 align) bs bs
  | place {n align bs p bs'} : 0 < n → Placed (roundUp n) align bs p bs' →
      Moves (.kmalloca n align) bs bs'
  | free {xs b ys} : b.used = true →
      Moves (.kfree (data (endOf heapBase xs))) (xs ++ b :: ys) (release xs b ys)
  | write {a v bs} : Moves (.write a v) bs bs

theorem Owns.place {bs bs' : List Blk} {live : List (Nat × Nat)} {n align p : Nat}
    (h : Owns bs live) (hn : n ≤ 4294967288) (hp : Placed (roundUp n) align bs p bs') :
    Owns bs' ((data p, n) :: live) := by
  have hru := roundUp_eq hn
  refine ⟨List.pairwise_cons.mpr ⟨fun r hr => ?_, h.distinct⟩, fun r hr => ?_⟩
  · obtain ⟨x, b, hx, hb, hrx, _⟩ := h.block r hr
    have hne := (hp.keeps hx hb).1
    simp only [hrx, data]
    omega
  · cases List.mem_cons.mp hr with
    | inl heq =>
      obtain rfl := heq
      obtain ⟨b, hx, hb, hs⟩ := hp.served
      exact ⟨p, b, hx, hb, rfl, by simp only; omega⟩
    | inr hr =>
      obtain ⟨x, b, hx, hb, hrx, hrb⟩ := h.block r hr
      obtain ⟨_, b', hx', hb', hs⟩ := hp.keeps hx hb
      exact ⟨x, b', hx', hb', hrx, Nat.le_trans hrb hs⟩

theorem Owns.release {xs ys : List Blk} {b : Blk} {live : List (Nat × Nat)}
    (h : Owns (xs ++ b :: ys) live) :
    Owns (Kmalloc.release xs b ys)
      (live.filter fun r => decide (r.1 ≠ data (endOf heapBase xs))) := by
  refine ⟨h.distinct.filter _, fun r hr => ?_⟩
  obtain ⟨hr, hne⟩ := List.mem_filter.mp hr
  obtain ⟨x, c, hx, hc, hrx, hrb⟩ := h.block r hr
  have hxa : x ≠ endOf heapBase xs := by
    rintro rfl
    simp [hrx] at hne
  exact ⟨x, c, release_keeps hx hc hxa, hc, hrx, hrb⟩

theorem KeepsUsed.kept {m m' : Mem} {bs : List Blk} {live : List (Nat × Nat)}
    (h : KeepsUsed m m' bs) (ho : Owns bs live) {r : Nat × Nat} (hr : r ∈ live) {y : Nat}
    (h1 : r.1 ≤ y) (h2 : y < r.1 + r.2) : m' y = m y := by
  obtain ⟨x, b, hx, hb, hrx, hrb⟩ := ho.block r hr
  rw [hrx, data] at h1 h2
  exact h x b hx hb y (by omega) (by omega)

/-- A `kfree` of the run releases a used block of the list. -/
theorem Holds.freed {s t : Session} {bs : List Blk} {p : Nat} (h : Holds s bs)
    (hst : Step s (.kfree p) t) :
    ∃ xs b ys m', bs = xs ++ b :: ys ∧ p = data (endOf heapBase xs) ∧ b.used = true ∧
      Forward m' (release xs b ys) ∧ (¬ Clash xs ys → Represents m' (release xs b ys)) ∧
      OnlyHeadersOrNull s.k.mem m' (xs ++ b :: ys) ∧
      t = ⟨⟨m', s.k.errno⟩, s.live.filter fun r => r.1 ≠ p⟩ := by
  obtain ⟨r, hr, rfl, k', hk, rfl⟩ := hst.kfree
  obtain ⟨x, b, hx, hb, hrx, _⟩ := h.owns.block r hr
  obtain ⟨xs, ys, rfl, rfl⟩ := Tiling.place_split _ hx
  obtain ⟨m', hk', hf, hrep, hout⟩ := h.heap.kfree hb
  rw [hrx] at hk
  obtain rfl := Option.some.inj (hk'.symm.trans hk)
  exact ⟨xs, b, ys, m', rfl, hrx, hb, hf, hrep, hout, rfl⟩

/-- One step, when it is sound: memory follows the list of blocks, and live payloads keep
their bytes. -/
theorem Holds.step {s t : Session} {bs : List Blk} {op : Op} (h : Holds s bs)
    (hok : Sound s op) (hst : Step s op t) :
    ∃ bs', Holds t bs' ∧ Moves op bs bs' ∧ Kept s op t := by
  cases op with
  | kmalloca n align =>
    obtain ⟨fuel, q, k', hk, rfl⟩ := hst.kmalloca
    cases Nat.eq_zero_or_pos n with
    | inl hzero =>
      subst hzero
      obtain ⟨rfl, hm⟩ := kmalloca_zero hk
      refine ⟨bs, ⟨?_, h.owns⟩, .refuse, fun _ _ _ _ y _ _ => ?_⟩
      · simpa only [hm] using h.heap
      · simp only [hm]
    | inr hpos =>
      obtain ⟨hal, hn, hroom⟩ := hok hpos
      obtain ⟨p, bs', rfl, hp, hr, hkeep, _⟩ := h.heap.kmalloca hal hpos hn hroom hk
      refine ⟨bs', ⟨hr, ?_⟩, .place hpos hp, fun _ r hr _ y h1 h2 => hkeep.kept h.owns hr h1 h2⟩
      simpa only [if_neg (Nat.ne_of_gt hpos)] using h.owns.place hn hp
  | kfree p =>
    obtain ⟨xs, b, ys, m', rfl, rfl, hb, -, hrep, hout, rfl⟩ := h.freed hst
    have hclash : ¬ Clash xs ys := by
      rw [h.heap.clash_iff]
      exact hok
    exact ⟨_, ⟨hrep hclash, h.owns.release⟩, .free hb,
      fun _ q hq _ y h1 h2 => hout.onlyHeaders.keepsUsed.kept h.owns hq h1 h2⟩
  | write a v =>
    obtain ⟨⟨r, hr, h1, h2⟩, rfl⟩ := hst.write
    obtain ⟨x, b, hx, _, hrx, hrb⟩ := h.owns.block r hr
    rw [hrx, data] at h1 h2
    exact ⟨bs, ⟨h.heap.write v hx (by omega) (by omega), h.owns⟩, .write,
      fun hw => absurd rfl (hw a v)⟩

/-- Without an alignment, a request that does not wrap finds room. -/
theorem Forward.room {m : Mem} {bs : List Blk} {n : Nat} (h : Forward m bs) (hw : NoWrap m n) :
    Serves m (roundUp n) 0 ∨ TailRoom m (roundUp n) 0 := by
  obtain ⟨_, hw⟩ := hw
  cases hw with
  | inl hserve => exact Or.inl hserve
  | inr hend =>
    have htail (e : Nat) : tailAt 0 e = e := if_pos (Or.inl rfl)
    rcases h.sized with hr | ⟨_, hall⟩
    · have hsize : size m root = 0 :=
        (h.chain.header (x := heapBase) (b := ⟨false, 0⟩) (by
          rw [hr]
          exact List.mem_cons_self ..)).size_eq
      have hlim := hend _ h.endsAt
      rw [hr] at hlim
      simp only [endOf_cons, endOf_nil, Blk.span, blockSiz] at hlim
      refine Or.inl ⟨root, .root, Or.inr ⟨hsize, rfl, ?_⟩⟩
      simp only [root]
      omega
    · refine Or.inr fun x hx hnx => ?_
      obtain ⟨b, hb⟩ := h.inChain hx
      have hpos := (hall b (Tiling.mem_of_place _ hb)).1
      have hsize := (h.chain.header hb).size_eq
      have hlim := hend _ ⟨x, hx, hnx, rfl⟩
      simp only [blockSiz] at hlim
      rw [htail]
      omega

theorem sound_of_plain {s : Session} {bs : List Blk} {op : Op} (h : Holds s bs)
    (hplain : ∀ n align, op = .kmalloca n align → align = 0)
    (hwrap : ∀ n align, op = .kmalloca n align → 0 < n → NoWrap s.k.mem n)
    (hfree : ∀ p, op = .kfree p → ¬ Spoils s.k.mem (p - blockSiz)) : Sound s op := by
  cases op with
  | kmalloca n align =>
    obtain rfl := hplain n align rfl
    intro hpos
    have hw := hwrap n 0 rfl hpos
    exact ⟨by decide, hw.1, h.heap.toForward.room hw⟩
  | kfree p => exact hfree p rfl
  | write a v => trivial

/-- Along every run of `kmalloc`, `kfree` and client writes in which no freed block has two
free neighbours with a further block behind them, the heap stays intact and live payloads
keep their bytes. -/
theorem heap_integrity {s t : Session} {tr : List (Session × Op × Session)}
    (hs : Pristine s) (hr : Run Step s tr t) (hplain : KmallocOnly tr) (hwrap : Unwrapped tr)
    (hfree : ∀ e ∈ tr, ∀ p, e.2.1 = .kfree p → ¬ Spoils e.1.k.mem (p - blockSiz)) :
    Intact t ∧ ∀ e ∈ tr, Intact e.1 ∧ Kept e.1 e.2.1 e.2.2 := by
  let Q : Session → Op → Prop := fun s op =>
    (∀ n align, op = .kmalloca n align → align = 0) ∧
    (∀ n align, op = .kmalloca n align → 0 < n → NoWrap s.k.mem n) ∧
    ∀ p, op = .kfree p → ¬ Spoils s.k.mem (p - blockSiz)
  have hstep : ∀ s op t, (∃ bs, Holds s bs) → Q s op → Step s op t → ∃ bs, Holds t bs := by
    rintro s op t ⟨bs, hb⟩ ⟨h1, h2, h3⟩ hst
    obtain ⟨bs', hb', -⟩ := hb.step (sound_of_plain hb h1 h2 h3) hst
    exact ⟨bs', hb'⟩
  have hq : ∀ e ∈ tr, Q e.1 e.2.1 := fun e he => ⟨hplain e he, hwrap e he, hfree e he⟩
  refine ⟨?_, fun e he => ?_⟩
  · obtain ⟨bs, hb⟩ := hr.invariant hstep ⟨_, hs.holds⟩ hq
    exact hb.intact
  · obtain ⟨⟨bs, hb⟩, hst⟩ := hr.invariant_at hstep ⟨_, hs.holds⟩ hq he
    obtain ⟨h1, h2, h3⟩ := hq e he
    obtain ⟨-, -, -, hkept⟩ := hb.step (sound_of_plain hb h1 h2 h3) hst
    exact ⟨hb.intact, hkept⟩

theorem heap_integrity_reused : ∃ (t : Session) (tr : List (Session × Op × Session)),
    tr.length = 4 ∧ Intact t ∧
    ∀ e ∈ tr, Intact e.1 ∧ Kept e.1 e.2.1 e.2.2 := by
  have hrun : (trace 5 zeroed [.kmalloc 8, .write 0x400011 7, .kfree 0x400010, .kmalloc 5]).any
      (fun r => r.1.all (roomy 5) && r.1.length == 4 && r.1.all fun e =>
        match e.2.1 with
        | .kfree p => !decide (Spoils e.1.k.mem (p - blockSiz))
        | _ => true) = true := by decide +kernel
  obtain ⟨⟨tr, t⟩, htr, hc⟩ := Option.any_eq_true _ _ |>.mp hrun
  simp only [Bool.and_eq_true, beq_iff_eq] at hc
  obtain ⟨⟨hroom, hlen⟩, hcalm⟩ := hc
  obtain ⟨hplain, hwrap⟩ := roomy_plain hroom
  refine ⟨t, tr, hlen, heap_integrity zeroed_pristine (trace_run htr) hplain hwrap ?_⟩
  intro e he p hp
  have := List.all_eq_true.mp hcalm e he
  simpa [hp] using this

/-- The byte of the freed middle block's stale `size` field that the last step rewrites. -/
def spoiltByte : Nat := 0x40001C

/-- Four blocks; the first and third are freed, then the second between them, which leaves
the back link of the fourth on a stale header. The first block is allocated again over that
header, and freeing the fourth writes into it. -/
theorem heap_integrity_fails : ¬ ∀ s t tr, Pristine s → Run Step s tr t → KmallocOnly tr →
    Unwrapped tr → Intact t ∧ ∀ e ∈ tr, Intact e.1 ∧ Kept e.1 e.2.1 e.2.2 := by
  intro hclaim
  have hrun : (trace 12 zeroed [.kmalloc 8, .kmalloc 8, .kmalloc 8, .kmalloc 8,
      .kfree 0x400010, .kfree 0x400040, .kfree 0x400028, .kmalloc 32, .kfree 0x400058]).any
      (fun r => r.1.all (roomy 12) && r.1.any fun e =>
        (match e.2.1 with | .kfree _ => true | _ => false) &&
          e.1.live.contains (0x400010, 32) && e.2.2.live.contains (0x400010, 32) &&
          e.2.2.k.mem spoiltByte != e.1.k.mem spoiltByte) = true := by decide +kernel
  obtain ⟨⟨tr, t⟩, htr, hc⟩ := Option.any_eq_true _ _ |>.mp hrun
  obtain ⟨hroom, hbad⟩ := (Bool.and_eq_true _ _).mp hc
  obtain ⟨hplain, hwrap⟩ := roomy_plain hroom
  obtain ⟨e, he, hb⟩ := List.any_eq_true.mp hbad
  simp only [Bool.and_eq_true, List.contains_iff_mem, bne_iff_ne] at hb
  obtain ⟨⟨⟨hop, h1⟩, h2⟩, hne⟩ := hb
  refine hne (((hclaim _ t tr zeroed_pristine (trace_run htr) hplain hwrap).2 e he).2 ?_ _ h1 h2
    spoiltByte (by decide) (by decide))
  intro a v hw
  simp [hw] at hop

end Foos.Kmalloc
