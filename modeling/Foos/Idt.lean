import Mathlib.Logic.Function.Basic
import Foos.HeapSupply
import Foos.Transition

/-! The interrupt descriptor table and the table of handlers in `kernel/interrupt.c`: what
`int_init` builds, what the processor reads from it, and what the hooks of the drivers change. -/
namespace Foos.Idt
open ByteMemory Kmalloc Transition

def CODESEG : Nat := 0x08
def entriesSz : Nat := 2048
def handlersSz : Nat := 1024

def store16 (m : Mem) (a v : Nat) : Mem := store8 (store8 m a (byteOf v 0)) (a + 1) (byteOf v 1)

/-- Where the linker puts `int0` to `int31` and `irq0` to `irq15`, and the two handlers of
`interrupt.c`. -/
structure IntLink where
  stub : Nat → Nat
  zeroDivision : Nat
  generalProtection : Nat
  stub_lt : ∀ n, stub n < 4294967296
  zeroDivision_lt : zeroDivision < 4294967296
  generalProtection_lt : generalProtection < 4294967296

/-- The heap and the statics of `interrupt.c`; `idtr` is what `lidt` has loaded. -/
structure State where
  k : Machine
  entries : Nat
  handlers : Nat
  idtrLimit : Nat
  idtrBase : Nat

def State.onMem (s : State) (f : Mem → Mem) : State := { s with k := { s.k with mem := f s.k.mem } }

@[simp] theorem State.onMem_mem (s : State) (f : Mem → Mem) : (s.onMem f).k.mem = f s.k.mem := rfl

@[simp] theorem State.onMem_entries (s : State) (f : Mem → Mem) :
    (s.onMem f).entries = s.entries := rfl

/-- The fields of `struct idt_entry` are set one after the other. -/
def idtHook (entries num fp segment : Nat) (flags : UInt8) (m : Mem) : Mem :=
  let e := entries + num * 8
  let m := store16 m e (fp &&& 0xFFFF)
  let m := store16 m (e + 6) ((fp >>> 16) &&& 0xFFFF)
  let m := store16 m (e + 2) segment
  let m := store8 m (e + 4) 0
  store8 m (e + 5) flags

/-- The hooks from `num` on. -/
def hookFrom (L : IntLink) (entries : Nat) : Nat → Nat → Mem → Mem
  | _, 0, m => m
  | num, n+1, m => hookFrom L entries (num + 1) n (idtHook entries num (L.stub num) CODESEG 0x8E m)

/-- `irq_init` without the ports of the controllers. -/
def irqInit (L : IntLink) (s : State) : State := s.onMem (hookFrom L s.entries 32 16)

/-- A table that is made when the pointer to it is still NULL. -/
def allocTable (alloc : Allocator) (k : Machine) (table sz : Nat) : Option (Nat × Machine) :=
  if table = 0 then
    (alloc k sz 0).map fun r => (r.1, { r.2 with mem := memset r.2.mem r.1 0 sz })
  else some (table, k)

def idtInit (alloc : Allocator) (L : IntLink) (s : State) : Option State := do
  let (entries, k) ← allocTable alloc s.k s.entries entriesSz
  let (handlers, k) ← allocTable alloc k s.handlers handlersSz
  let s : State := ⟨k, entries, handlers, entriesSz - 1, entries⟩
  some (irqInit L (s.onMem (hookFrom L s.entries 0 32)))

def intHookHandler (handlers no handler : Nat) (m : Mem) : Mem :=
  store32 m (handlers + no * 4) handler

def intInit (alloc : Allocator) (L : IntLink) (s : State) : Option State :=
  (idtInit alloc L s).map fun s =>
    let s := s.onMem (intHookHandler s.handlers 0x00 L.zeroDivision)
    s.onMem (intHookHandler s.handlers 0x0D L.generalProtection)

/- What the processor makes of an entry. -/

structure Gate where
  offset : Nat
  selector : Nat
  flags : UInt8
  deriving DecidableEq

def gateAt (m : Mem) (e : Nat) : Gate :=
  ⟨load16 m e + 65536 * load16 m (e + 6), load16 m (e + 2), m (e + 5)⟩

/-- The gate of a vector, when the table has it and its present bit is set. -/
def lookup (limit base : Nat) (m : Mem) (n : Nat) : Option Gate :=
  if n * 8 + 7 ≤ limit ∧ (gateAt m (base + n * 8)).flags &&& 0x80 ≠ 0 then
    some (gateAt m (base + n * 8))
  else none

theorem frame_store16 {m m' : Mem} {a n p v : Nat} (h : Frame [(a, n)] m m') (h1 : a ≤ p)
    (h2 : p + 2 ≤ a + n) : Frame [(a, n)] m (store16 m' p v) :=
  (h.store8 h1 (by omega)).store8 (by omega) (by omega)

theorem load16_congr {m m' : Mem} {a : Nat} (h0 : m' a = m a) (h1 : m' (a + 1) = m (a + 1)) :
    load16 m' a = load16 m a := by
  rw [load16, load16, h0, h1]

theorem load16_store16 (m : Mem) (a v : Nat) : load16 (store16 m a v) a = v % 65536 := by
  simp only [load16, store16, store8, byteOf, if_true]
  rw [if_neg (by omega)]
  simp only [UInt8.toNat_ofNat', Nat.pow_zero, Nat.div_one, Nat.pow_one]
  omega

theorem load16_store8_ne {a b : Nat} {v : UInt8} (m : Mem) (h : a < b ∨ b + 2 ≤ a) :
    load16 (store8 m a v) b = load16 m b :=
  load16_congr (store8_ne m a b v (by omega)) (store8_ne m a (b + 1) v (by omega))

theorem load16_store16_ne {a b v : Nat} (m : Mem) (h : a + 2 ≤ b ∨ b + 2 ≤ a) :
    load16 (store16 m a v) b = load16 m b := by
  rw [store16, load16_store8_ne _ (by omega), load16_store8_ne _ (by omega)]

theorem idtHook_frame (entries num fp segment : Nat) (flags : UInt8) (m : Mem) :
    Frame [(entries + num * 8, 8)] m (idtHook entries num fp segment flags m) := by
  have h0 := frame_store16 (Frame.refl [(entries + num * 8, 8)] m) (v := fp &&& 0xFFFF)
    (Nat.le_refl _) (by omega)
  have h1 := frame_store16 h0 (v := (fp >>> 16) &&& 0xFFFF)
    (Nat.le_add_right (entries + num * 8) 6) (by omega)
  have h2 := frame_store16 h1 (v := segment) (Nat.le_add_right (entries + num * 8) 2) (by omega)
  exact (h2.store8 (Nat.le_add_right (entries + num * 8) 4) (by omega)).store8
    (Nat.le_add_right (entries + num * 8) 5) (by omega)

theorem idtHook_gate {fp segment : Nat} (hfp : fp < 4294967296) (hseg : segment < 65536)
    (entries num : Nat) (flags : UInt8) (m : Mem) :
    gateAt (idtHook entries num fp segment flags m) (entries + num * 8) =
      ⟨fp, segment, flags⟩ := by
  have hlo : fp &&& 0xFFFF = fp % 65536 := Nat.and_two_pow_sub_one_eq_mod fp 16
  have hhi : fp >>> 16 &&& 0xFFFF = fp / 65536 % 65536 := by
    rw [Nat.shiftRight_eq_div_pow]
    exact Nat.and_two_pow_sub_one_eq_mod _ 16
  simp only [idtHook, hlo, hhi, gateAt]
  generalize entries + num * 8 = e
  rw [load16_store8_ne _ (by omega), load16_store8_ne _ (by omega),
    load16_store16_ne _ (by omega), load16_store16_ne _ (by omega), load16_store16,
    load16_store8_ne _ (by omega), load16_store8_ne _ (by omega),
    load16_store16_ne _ (by omega), load16_store16,
    load16_store8_ne _ (by omega), load16_store8_ne _ (by omega), load16_store16, store8_same,
    Nat.mod_eq_of_lt hseg]
  congr 1
  omega

theorem gateAt_congr {m m' : Mem} {e : Nat} (h : ∀ y, e ≤ y → y < e + 8 → m' y = m y) :
    gateAt m' e = gateAt m e := by
  simp only [gateAt, load16, h e (by omega) (by omega), h (e + 1) (by omega) (by omega),
    h (e + 2) (by omega) (by omega), h (e + 2 + 1) (by omega) (by omega),
    h (e + 5) (by omega) (by omega), h (e + 6) (by omega) (by omega),
    h (e + 6 + 1) (by omega) (by omega)]

theorem hookFrom_frame (L : IntLink) (entries num n : Nat) (m : Mem) :
    Frame [(entries + num * 8, n * 8)] m (hookFrom L entries num n m) := by
  induction n generalizing num m with
  | zero => exact Frame.refl _ m
  | succ n ih =>
    intro y hy
    rw [outside_single] at hy
    refine (ih (num + 1) _ y ?_).trans (idtHook_frame _ _ _ _ _ _ y ?_)
    · rw [outside_single]
      omega
    · rw [outside_single]
      omega

/-- The gates of the hooks from `num` on. -/
theorem hookFrom_gate (L : IntLink) (entries : Nat) {num n i : Nat} (m : Mem) (h1 : num ≤ i)
    (h2 : i < num + n) :
    gateAt (hookFrom L entries num n m) (entries + i * 8) = ⟨L.stub i, CODESEG, 0x8E⟩ := by
  induction n generalizing num m with
  | zero => omega
  | succ n ih =>
    by_cases hi : num = i
    · obtain rfl := hi
      refine Eq.trans (gateAt_congr fun y _ hy => ?_)
        (idtHook_gate (L.stub_lt num) (by decide) entries num 0x8E m)
      refine hookFrom_frame L entries (num + 1) n _ y ?_
      rw [outside_single]
      omega
    · exact ih _ (by omega) (by omega)

/- The tables while the kernel runs. -/

/-- The processor finds the entry code of the 48 vectors and nothing else, and the handlers are
those of `tab`. -/
structure Installed (L : IntLink) (entries handlers : Nat) (tab : Nat → Nat) (m : Mem) : Prop where
  gate : ∀ n, n < 48 → gateAt m (entries + n * 8) = ⟨L.stub n, CODESEG, 0x8E⟩
  absent : ∀ n, 48 ≤ n → n < 256 → (gateAt m (entries + n * 8)).flags = 0
  handler : ∀ n, n < 256 → load32 m (handlers + n * 4) = tab n

/-- The bytes of the two tables. -/
def tables (entries handlers : Nat) : List (Nat × Nat) :=
  [(entries, entriesSz), (handlers, handlersSz)]

/-- The two tables do not overlap. -/
def Disjoint (entries handlers : Nat) : Prop :=
  entries + entriesSz ≤ handlers ∨ handlers + handlersSz ≤ entries

variable {L : IntLink} {entries handlers : Nat} {tab : Nat → Nat} {m m' : Mem}

theorem Installed.congr (h : Installed L entries handlers tab m)
    (hm : ∀ y, ¬ Outside (tables entries handlers) y → m' y = m y) :
    Installed L entries handlers tab m' := by
  have hentries : ∀ n, n < 256 → gateAt m' (entries + n * 8) = gateAt m (entries + n * 8) := by
    intro n hn
    refine gateAt_congr fun y h1 h2 => hm y ?_
    simp only [tables, outside_cons, entriesSz]
    omega
  constructor
  · intro n hn
    rw [hentries n (by omega)]
    exact h.gate n hn
  · intro n h1 h2
    rw [hentries n h2]
    exact h.absent n h1 h2
  · intro n hn
    refine (load32_congr fun y h1 h2 => hm y ?_).trans (h.handler n hn)
    simp only [tables, outside_cons, handlersSz]
    omega

/-- A hook changes the entry of its vector only. -/
theorem Installed.hook (h : Installed L entries handlers tab m) (hd : Disjoint entries handlers)
    {no handler : Nat} (hno : no < 256) (hlt : handler < 4294967296) :
    Installed L entries handlers (Function.update tab no handler)
      (intHookHandler handlers no handler m) := by
  have hentries : ∀ n, n < 256 →
      gateAt (intHookHandler handlers no handler m) (entries + n * 8) =
        gateAt m (entries + n * 8) := by
    intro n hn
    refine gateAt_congr fun y h1 h2 => store32_outside _ _ _ _ ?_
    simp only [Disjoint, entriesSz, handlersSz] at hd
    omega
  constructor
  · intro n hn
    rw [hentries n (by omega)]
    exact h.gate n hn
  · intro n h1 h2
    rw [hentries n h2]
    exact h.absent n h1 h2
  · intro n hn
    by_cases heq : n = no
    · obtain rfl := heq
      rw [Function.update_self]
      exact (load32_store32 _ _ _).trans (Nat.mod_eq_of_lt hlt)
    · rw [Function.update_of_ne heq]
      refine (load32_store32_ne _ _ _ _ ?_).trans (h.handler n hn)
      omega

theorem memset_frame (m : Mem) (s : Nat) (c : UInt8) (n : Nat) :
    Frame [(s, n)] m (memset m s c n) :=
  (Frame.refl _ m).memset (Nat.le_refl s) (Nat.le_refl _)

/-- The two handlers that `int_init` hooks itself. -/
def bootHandlers (L : IntLink) : Nat → Nat :=
  Function.update (Function.update (fun _ => 0) 0x00 L.zeroDivision) 0x0D L.generalProtection

/-- Two zero-filled tables get the 48 gates. -/
theorem hooks_installed (hd : Disjoint entries handlers)
    (he : ZeroFilled m entries entriesSz) (hh : ZeroFilled m handlers handlersSz) :
    Installed L entries handlers (fun _ => 0)
      (hookFrom L entries 32 16 (hookFrom L entries 0 32 m)) := by
  have hframe :
      Frame [(entries, 384)] m (hookFrom L entries 32 16 (hookFrom L entries 0 32 m)) := by
    intro y hy
    rw [outside_single] at hy
    refine (hookFrom_frame L entries 32 16 _ y ?_).trans (hookFrom_frame L entries 0 32 _ y ?_)
    · rw [outside_single]
      omega
    · rw [outside_single]
      omega
  constructor
  · intro n hn
    by_cases hirq : 32 ≤ n
    · exact hookFrom_gate L entries _ hirq (by omega)
    · refine (gateAt_congr fun y _ hy => hookFrom_frame L entries 32 16 _ y ?_).trans
        (hookFrom_gate L entries m (Nat.zero_le n) (by omega))
      rw [outside_single]
      omega
  · intro n h1 h2
    refine (hframe _ ?_).trans (he _ ?_ ?_)
    · rw [outside_single]
      omega
    · omega
    · simp only [entriesSz]
      omega
  · intro n hn
    simp only [Disjoint, entriesSz, handlersSz] at hd
    refine load32_zero fun y h1 h2 => (hframe y ?_).trans (hh y ?_ ?_)
    · rw [outside_single]
      omega
    · omega
    · simp only [handlersSz]
      omega

/-- `int_init` at boot, with areas of their own for the two tables. -/
theorem intInit_installed {alloc : Allocator} {s : State} {areas : List (Nat × Nat)}
    {fill : Mem → Nat → Nat → Prop}
    (hsup : Supplies fill alloc [(entriesSz, 0), (handlersSz, 0)] s.k areas) (he : s.entries = 0)
    (hh : s.handlers = 0) :
    ∃ t, intInit alloc L s = some t ∧ Disjoint t.entries t.handlers ∧ t.idtrLimit = 2047 ∧
      t.idtrBase = t.entries ∧ Installed L t.entries t.handlers (bootHandlers L) t.k.mem ∧
      ∀ r ∈ areas, Apart (tables t.entries t.handlers) r.1 r.2 := by
  obtain ⟨p, k, hk, hp, -, hrest⟩ := hsup s.k fun _ _ => rfl
  have hzero : ∀ y, Outside ((p, entriesSz) :: areas) y →
      memset k.mem p 0 entriesSz y = k.mem y := fun y hy =>
    memset_frame k.mem p 0 entriesSz y (outside_single.mpr (outside_cons.mp hy).1)
  obtain ⟨q, k', hk', hq, -, -⟩ := hrest { k with mem := memset k.mem p 0 entriesSz } hzero
  have hd : Disjoint p q := by
    have := hq.apart (p, entriesSz) (List.mem_cons_self ..)
    simp only [Disjoint]
    omega
  have hfill : ZeroFilled (memset k'.mem q 0 handlersSz) p entriesSz := by
    intro y h1 h2
    simp only [Disjoint] at hd
    refine (memset_frame k'.mem q 0 handlersSz y ?_).trans
      ((hq.kept _ (List.mem_cons_self ..) y h1 h2).trans (memset_inside h1 h2))
    rw [outside_single]
    omega
  have hgates := hooks_installed (L := L) hd hfill fun y h1 h2 => memset_inside h1 h2
  have hhooks := (hgates.hook hd (by decide : 0 < 256) L.zeroDivision_lt).hook hd
    (by decide : 0x0D < 256) L.generalProtection_lt
  let u : State := ⟨{ k' with mem := memset k'.mem q 0 handlersSz }, p, q, entriesSz - 1, p⟩
  have hinit : intInit alloc L s = some (((irqInit L (u.onMem (hookFrom L p 0 32))).onMem
      (intHookHandler q 0x00 L.zeroDivision)).onMem
        (intHookHandler q 0x0D L.generalProtection)) := by
    simp only [intInit, idtInit, allocTable, he, hh, if_true, hk, Option.map_some,
      Option.bind_eq_bind, Option.bind_some, hk']
    rfl
  refine ⟨_, hinit, hd, rfl, rfl, ?_, fun r hr => ?_⟩
  · simp only [State.onMem_mem, irqInit]
    exact hhooks
  · have h1 := hp.apart r hr
    have h2 := hq.apart r (List.mem_cons_of_mem _ hr)
    exact apart_cons.mpr ⟨h1.symm, apart_cons.mpr ⟨h2.symm, apart_nil⟩⟩

/-- What happens to memory afterwards: drivers hook their handlers, and the rest of the kernel
writes anywhere outside the two tables. -/
inductive Act where
  | hook (no : UInt8) (handler : UInt32)
  | other

def Step (entries handlers : Nat) (m : Mem) : Act → Mem → Prop
  | .hook no handler, m' => m' = intHookHandler handlers no.toNat handler.toNat m
  | .other, m' => ∀ y, ¬ Outside (tables entries handlers) y → m' y = m y

/-- The table that the hooks of a run leave: the last hook of a vector counts. -/
def hooked (tab : Nat → Nat) (tr : List (Mem × Act × Mem)) : Nat → Nat :=
  tr.foldl (fun tab e => match e.2.1 with
    | .hook no handler => Function.update tab no.toNat handler.toNat
    | .other => tab) tab

theorem Installed.run {tr : List (Mem × Act × Mem)} (h : Installed L entries handlers tab m)
    (hd : Disjoint entries handlers) (hrun : Run (Step entries handlers) m tr m') :
    Installed L entries handlers (hooked tab tr) m' := by
  induction hrun with
  | nil => exact h
  | @snoc tr t i u _ hst ih =>
    rw [hooked, List.foldl_append, List.foldl_cons, List.foldl_nil]
    cases i with
    | hook no handler =>
      obtain rfl := hst
      exact ih.hook hd no.toNat_lt handler.toNat_lt
    | other => exact ih.congr hst

/-- A gate of these flags is present. -/
theorem Installed.lookup (h : Installed L entries handlers tab m) (n : Nat) :
    Idt.lookup 2047 entries m n =
      if n < 48 then some ⟨L.stub n, CODESEG, 0x8E⟩ else none := by
  rw [Idt.lookup]
  by_cases hn : n < 48
  · rw [if_pos hn, h.gate n hn, if_pos ⟨by omega, (by decide : (0x8E : UInt8) &&& 0x80 ≠ 0)⟩]
  · rw [if_neg hn]
    refine if_neg fun hp => hp.2 ?_
    rw [h.absent n (by omega) (by omega), UInt8.zero_and]

/-- After `int_init`, and whatever is hooked and written elsewhere from then on, the processor
finds the entry code of its vector for the first 48 vectors and no gate for any other, and the
handler of a vector is the one hooked last. -/
theorem vectors_lead {alloc : Allocator} {s : State} {areas : List (Nat × Nat)}
    {fill : Mem → Nat → Nat → Prop} (L : IntLink)
    (hsup : Supplies fill alloc [(entriesSz, 0), (handlersSz, 0)] s.k areas) (he : s.entries = 0)
    (hh : s.handlers = 0) :
    ∃ t, intInit alloc L s = some t ∧ ∀ tr m, Run (Step t.entries t.handlers) t.k.mem tr m →
      ∀ n, (Idt.lookup t.idtrLimit t.idtrBase m n =
          if n < 48 then some ⟨L.stub n, CODESEG, 0x8E⟩ else none) ∧
        (n < 256 → load32 m (t.handlers + n * 4) = hooked (bootHandlers L) tr n) := by
  obtain ⟨t, ht, hd, hlimit, hbase, hinst, -⟩ := intInit_installed (L := L) hsup he hh
  refine ⟨t, ht, fun tr m hrun n => ?_⟩
  have h := hinst.run hd hrun
  rw [hlimit, hbase]
  exact ⟨h.lookup n, h.handler n⟩

/-- Entry codes of 32 bytes each behind `0x2000`. -/
def someLink : IntLink where
  stub n := 0x2000 + n % 48 * 32
  zeroDivision := 0x3000
  generalProtection := 0x3100
  stub_lt n := by omega
  zeroDivision_lt := by decide
  generalProtection_lt := by decide

/-- Boot: the heap of the kernel serves `int_init`, and the keyboard is hooked. -/
theorem vectors_lead_boot : ∃ t m, intInit (kmalloca 3) someLink ⟨zeroed.k, 0, 0, 0, 0⟩ = some t ∧
    m = intHookHandler t.handlers 0x21 0x5000 t.k.mem ∧
    Idt.lookup t.idtrLimit t.idtrBase m 0x21 = some ⟨0x2420, CODESEG, 0x8E⟩ ∧
    load32 m (t.handlers + 0x21 * 4) = 0x5000 := by
  have hsup : Supplies ZeroFilled (kmalloca 3) [(entriesSz, 0), (handlersSz, 0)] zeroed.k [] :=
    pristine_supplies zeroed_pristine.holds.heap (by decide) (by decide) (by decide) nofun
  obtain ⟨t, ht, hall⟩ := vectors_lead someLink hsup (s := ⟨zeroed.k, 0, 0, 0, 0⟩) rfl rfl
  have hrun : Run (Step t.entries t.handlers) t.k.mem
      [(t.k.mem, .hook 0x21 0x5000, intHookHandler t.handlers 0x21 0x5000 t.k.mem)]
      (intHookHandler t.handlers 0x21 0x5000 t.k.mem) :=
    Run.cons rfl .nil
  obtain ⟨hgate, hhandler⟩ := hall _ _ hrun 0x21
  exact ⟨t, _, ht, rfl, hgate, hhandler (by decide)⟩

end Foos.Idt
