import Foos.Transition
import Foos.TtyDevice

/-! The life of the devices in the device table under `dev_open` and `dev_close`. -/
namespace Foos.Devices
open Terminal Program Word32 Kmalloc Transition

/-- An allocator beside the `kfree` of the kernel. -/
def heap (alloc : Allocator) : Heap := ⟨alloc, Kmalloc.kfree⟩

theorem tty_or_ramdisk {no : Nat} (h : no < 2) : no = DEV_TTY ∨ no = DEV_RAMDISK := by
  have htty : DEV_TTY = 0 := rfl
  have hrd : DEV_RAMDISK = 1 := rfl
  omega

def freeAll {δ : Type} (h : Heap) : List Nat → Code δ Unit
  | [] => pure ()
  | p :: ps => do
    kfree h p
    freeAll h ps

/-- The pointers that `dev_close(no)` passes to `kfree`. -/
def freed (w : World Driver) (no : Nat) : List Nat :=
  if no = DEV_RAMDISK ∧ (w.devs no).data = 0 then [] else [(w.devs no).data]

/-- `dev_open` frees nothing. -/
theorem devOpen_kfree (alloc : Allocator) (free free' : Machine → Nat → Option Machine)
    (no flags : Nat) :
    devOpen (table ⟨alloc, free⟩) no flags = devOpen (table ⟨alloc, free'⟩) no flags := by
  rcases no with _ | _ | no <;> rfl

theorem freeAll_single {δ α : Type} (h : Heap) (p : Nat) (f : Unit → Code δ α) (w : World δ) :
    (freeAll h [p] >>= f) w = (kfree h p >>= f) w := by
  rw [freeAll, bind_assoc_run]
  rfl

theorem freed_tty (w : World Driver) : freed w DEV_TTY = [(w.devs DEV_TTY).data] :=
  if_neg fun h => absurd h.1 (by decide)

theorem freed_ramdisk_closed {w : World Driver} (h : (w.devs DEV_RAMDISK).data = 0) :
    freed w DEV_RAMDISK = [] := if_pos ⟨rfl, h⟩

theorem freed_ramdisk_open {w : World Driver} (h : (w.devs DEV_RAMDISK).data ≠ 0) :
    freed w DEV_RAMDISK = [(w.devs DEV_RAMDISK).data] := if_neg fun h0 => h h0.2

/-- What `dev_close` does before the hook of the driver. -/
def beginClose (no : Nat) (w : World Driver) : World Driver := (w.log (.device no)).setOffset no 0

@[simp] theorem beginClose_data (no : Nat) (w : World Driver) (j : Nat) :
    ((beginClose no w).devs j).data = (w.devs j).data := by
  simp only [beginClose, World.setOffset_data, World.log_devs]

/-- What the driver of the terminal does when the structure is freed. -/
def finishClose (no : Nat) (w : World Driver) : World Driver :=
  if no = DEV_TTY then
    let w := w.setData no 0
    { w with driver := Function.update w.driver no { w.driver no with irq1 := false } }
  else w

/-- Whatever the heap: `dev_close` frees these pointers and does no other work on it. -/
theorem devClose_freed (h : Heap) {no : Nat} (hno : no < 2) (w : World Driver) :
    devClose (table h) no w = (freeAll h (freed w no) >>= fun _ =>
      modify (finishClose no) >>= fun _ => pure 0) (beginClose no w) := by
  cases tty_or_ramdisk hno with
  | inl heq =>
    obtain rfl := heq
    have hrun : devClose (table h) DEV_TTY w = ttydevClose h DEV_TTY (beginClose DEV_TTY w) := rfl
    rw [hrun, freed_tty, freeAll_single, ttydevClose, read_bind_run, beginClose_data]
    rfl
  | inr heq =>
    obtain rfl := heq
    have hrun : devClose (table h) DEV_RAMDISK w =
        ramdiskClose h DEV_RAMDISK (beginClose DEV_RAMDISK w) := rfl
    rw [hrun, ramdiskClose, read_bind_run, beginClose_data]
    by_cases h0 : (w.devs DEV_RAMDISK).data = 0
    · rw [if_neg fun hne : ¬ _ => hne h0, freed_ramdisk_closed h0]
      rfl
    · rw [if_pos h0, freed_ramdisk_open h0, freeAll_single]
      rfl

theorem kfree_spin {δ : Type} (alloc : Allocator) {p : Nat} (hp : ¬ p > heapBase) (w : World δ) :
    kfree (heap alloc) p w = .spin w := by
  refine update_spin ?_
  have hk : (heap alloc).kfree w.k p = none := if_pos hp
  rw [hk]
  rfl

theorem kfree_run {δ : Type} (alloc : Allocator) {p : Nat} (hp : p > heapBase) (w : World δ) :
    ∃ k, kfree (heap alloc) p w = .ret () { w with k := k } := by
  have hk : ∃ k, (heap alloc).kfree w.k p = some k := ⟨_, if_neg (not_not.mpr hp)⟩
  obtain ⟨k, hk⟩ := hk
  exact ⟨k, update_run (by rw [hk]; rfl)⟩

/-- The number of bytes that the open hook asks for. -/
def structSize (no : Nat) : Nat := if no = DEV_TTY then ttySize else ramdiskSize

theorem devOpen_busy (h : Heap) {no : Nat} (hno : no < 2) (flags : Nat) {w : World Driver}
    (hdata : (w.devs no).data ≠ 0) : ∃ t, devOpen (table h) no flags w = .ret (-EBUSY) t ∧
      t = { beginClose no w with k := { w.k with errno := EBUSY } } := by
  cases tty_or_ramdisk hno with
  | inl heq =>
    obtain rfl := heq
    have hrun : devOpen (table h) DEV_TTY flags w =
        ttydevOpen h DEV_TTY flags (beginClose DEV_TTY w) := rfl
    rw [hrun, ttydevOpen, read_bind_run, beginClose_data, if_pos hdata]
    exact ⟨_, rfl, rfl⟩
  | inr heq =>
    obtain rfl := heq
    have hrun : devOpen (table h) DEV_RAMDISK flags w =
        ramdiskOpen h DEV_RAMDISK flags (beginClose DEV_RAMDISK w) := rfl
    rw [hrun, ramdiskOpen, read_bind_run, beginClose_data, if_neg hdata]
    exact ⟨_, rfl, rfl⟩

theorem ttyInit_run (no : Nat) (w : World Driver) : ∃ r t, ttyInit no w = .ret r t ∧
    t.k = w.k ∧ t.devs = w.devs := by
  rw [ttyInit, read_bind_run]
  split
  · exact ⟨_, _, rfl, rfl, rfl⟩
  · exact ⟨_, _, rfl, rfl, rfl⟩

/-- A new structure is allocated, and its address kept. -/
theorem devOpen_new {h : Heap} {no : Nat} (hno : no < 2) (flags : Nat) {w : World Driver}
    {p : Nat} {k : Machine} (hdata : (w.devs no).data = 0)
    (halloc : h.kmalloca w.k (structSize no) 0 = some (p, k)) :
    ∃ t, devOpen (table h) no flags w = .ret 0 t ∧ (t.devs no).data = p ∧
      ∀ j, j ≠ no → (t.devs j).data = (w.devs j).data := by
  cases tty_or_ramdisk hno with
  | inl heq =>
    obtain rfl := heq
    have hrun : devOpen (table h) DEV_TTY flags w =
        ttydevOpen h DEV_TTY flags (beginClose DEV_TTY w) := rfl
    obtain ⟨r, u, hinit, hk, hdevs⟩ := ttyInit_run DEV_TTY (beginClose DEV_TTY w)
    have hmalloc : kmalloc h ttySize u = .ret p { u with k := k } :=
      kmalloc_run (by rw [hk]; exact halloc)
    rw [hrun, ttydevOpen, read_bind_run, beginClose_data, if_neg (not_not.mpr hdata),
      bind_ret hinit, bind_ret hmalloc]
    refine ⟨_, rfl, World.setData_same _ _ p, fun j hj => ?_⟩
    rw [World.setData_ne _ p hj]
    exact (congrArg (fun devs => (devs j).data) hdevs).trans (beginClose_data _ w j)
  | inr heq =>
    obtain rfl := heq
    have hrun : devOpen (table h) DEV_RAMDISK flags w =
        ramdiskOpen h DEV_RAMDISK flags (beginClose DEV_RAMDISK w) := rfl
    have hmalloc : kmalloc h ramdiskSize (beginClose DEV_RAMDISK w) =
      .ret p { beginClose DEV_RAMDISK w with k := k } := kmalloc_run halloc
    rw [hrun, ramdiskOpen, read_bind_run, beginClose_data, if_pos hdata, bind_ret hmalloc]
    refine ⟨_, rfl, World.setData_same _ _ p, fun j hj => ?_⟩
    rw [World.setData_ne _ p hj]
    exact beginClose_data _ w j

/-- The devices, those opened and not closed since, and the blocks that `kmalloc` returned and
that were not freed since. -/
structure State where
  w : World Driver
  isOpen : Nat → Bool
  live : List Nat

inductive Call where
  | openDev (no flags : Nat)
  | closeDev (no : Nat)

def Call.no : Call → Nat
  | .openDev no _ => no
  | .closeDev no => no

def after (alloc : Allocator) (s : State) : Call → State
  | .openDev no flags =>
    match devOpen (table (heap alloc)) no flags s.w with
    | .ret r t =>
      if r = 0 then ⟨t, Function.update s.isOpen no true, (t.devs no).data :: s.live⟩
      else { s with w := t }
    | .halt t | .spin t => { s with w := t }
  | .closeDev no => ⟨(devClose (table (heap alloc)) no s.w).final,
      Function.update s.isOpen no false, s.live.filter fun p => p ∉ freed s.w no⟩

/-- `kmalloc` returns a block of the heap that is not in use. -/
def Fresh (alloc : Allocator) (s : State) : Call → Prop
  | .openDev no _ =>
    ∃ p k, alloc s.w.k (structSize no) 0 = some (p, k) ∧ p > heapBase ∧ p ∉ s.live
  | .closeDev _ => True

def Step (alloc : Allocator) (s : State) (c : Call) (t : State) : Prop :=
  c.no < 2 ∧ Fresh alloc s c ∧ t = after alloc s c

/-- The data pointer is NULL when the device is closed, and a live block when it is open. -/
structure Kept (s : State) (no : Nat) : Prop where
  closed : s.isOpen no = false → (s.w.devs no).data = 0
  opened : s.isOpen no = true → (s.w.devs no).data ∈ s.live

/-- `dev_open` succeeds exactly when the device is not open; `dev_close` frees the block of an open
device, which is live, and no other. -/
def Lawful (alloc : Allocator) (s : State) : Call → Prop
  | .openDev no flags =>
    (∃ t, devOpen (table (heap alloc)) no flags s.w =
      .ret (if s.isOpen no then -EBUSY else 0) t) ∧
    ∀ j < 2, Kept (after alloc s (.openDev no flags)) j
  | .closeDev no =>
    (∃ r t, devClose (table (heap alloc)) no s.w = .ret r t) ∧
    (freed s.w no = if s.isOpen no then [(s.w.devs no).data] else []) ∧
    (∀ p ∈ freed s.w no, p ∈ s.live) ∧
    ∀ j < 2, Kept (after alloc s (.closeDev no)) j

/-- The terminal is closed only while it is open, the ramdisk only while it is not. -/
def Allowed (s : State) : Call → Prop
  | .openDev _ _ => True
  | .closeDev no => s.isOpen no = decide (no = DEV_TTY)

structure Inv (s : State) : Prop where
  kept : ∀ no < 2, Kept s no
  blocks : ∀ p ∈ s.live, p > heapBase
  apart : s.isOpen DEV_TTY = true → s.isOpen DEV_RAMDISK = true →
    (s.w.devs DEV_TTY).data ≠ (s.w.devs DEV_RAMDISK).data

theorem after_openDev {alloc : Allocator} {s : State} {no flags : Nat} {r : Int}
    {t : World Driver} (h : devOpen (table (heap alloc)) no flags s.w = .ret r t) :
    after alloc s (.openDev no flags) =
      if r = 0 then ⟨t, Function.update s.isOpen no true, (t.devs no).data :: s.live⟩
      else { s with w := t } := by
  simp only [after, h]

theorem Inv.sameData {s : State} (h : Inv s) {w : World Driver}
    (hdata : ∀ j, (w.devs j).data = (s.w.devs j).data) : Inv { s with w := w } := by
  refine ⟨fun j hj => ⟨fun hc => ?_, fun ho => ?_⟩, h.blocks, fun ho ho' => ?_⟩
  · exact (hdata j).trans ((h.kept j hj).closed hc)
  · exact (congrArg (· ∈ s.live) (hdata j)).mpr ((h.kept j hj).opened ho)
  · show (w.devs DEV_TTY).data ≠ (w.devs DEV_RAMDISK).data
    rw [hdata, hdata]
    exact h.apart ho ho'

/-- A device is opened with a block that is not in use. -/
theorem Inv.opened {s : State} (h : Inv s) {no : Nat} {t : World Driver}
    (hp : (t.devs no).data > heapBase) (hnew : (t.devs no).data ∉ s.live)
    (hdata : ∀ j, j ≠ no → (t.devs j).data = (s.w.devs j).data) :
    Inv ⟨t, Function.update s.isOpen no true, (t.devs no).data :: s.live⟩ := by
  have hself : Function.update s.isOpen no true no = true := Function.update_self ..
  have hsame : ∀ j, j ≠ no → Function.update s.isOpen no true j = s.isOpen j := fun j hj =>
    Function.update_of_ne hj _ _
  have hother : ∀ j, j < 2 → j ≠ no → Function.update s.isOpen no true j = true →
      (t.devs j).data ∈ s.live := fun j hj hne ho =>
    hdata j hne ▸ (h.kept j hj).opened ((hsame j hne).symm.trans ho)
  refine ⟨fun j hj => ?_, ?_, fun htty hrd heq => ?_⟩
  · by_cases hne : j = no
    · subst hne
      exact ⟨fun hc => absurd (hself.symm.trans hc) (by decide), fun _ => List.mem_cons_self⟩
    · exact ⟨fun hc => (hdata j hne).trans ((h.kept j hj).closed ((hsame j hne).symm.trans hc)),
        fun ho => List.mem_cons_of_mem _ (hother j hj hne ho)⟩
  · intro p hmem
    cases List.mem_cons.mp hmem with
    | inl heq =>
      obtain rfl := heq
      exact hp
    | inr hmem => exact h.blocks p hmem
  · -- the new block is neither device's unless the device is the one opened
    by_cases hne : DEV_TTY = no
    · have hmem := hother DEV_RAMDISK (by decide) (by subst hne; decide) hrd
      rw [← heq, hne] at hmem
      exact hnew hmem
    · have hmem := hother DEV_TTY (by decide) hne htty
      by_cases hne' : DEV_RAMDISK = no
      · rw [heq, hne'] at hmem
        exact hnew hmem
      · refine h.apart ((hsame _ hne).symm.trans htty) ((hsame _ hne').symm.trans hrd) ?_
        rw [← hdata _ hne, ← hdata _ hne']
        exact heq

theorem Inv.openDev {alloc : Allocator} {s : State} {no flags : Nat} (h : Inv s)
    (hfresh : Fresh alloc s (.openDev no flags)) (hno : no < 2) :
    (∃ t, devOpen (table (heap alloc)) no flags s.w =
      .ret (if s.isOpen no then -EBUSY else 0) t) ∧ Inv (after alloc s (.openDev no flags)) := by
  cases ho : s.isOpen no with
  | true =>
    have hpos : (s.w.devs no).data ≠ 0 := by
      have := h.blocks _ ((h.kept no hno).opened ho)
      omega
    obtain ⟨t, hrun, ht⟩ := devOpen_busy (heap alloc) hno flags hpos
    refine ⟨⟨t, hrun⟩, ?_⟩
    rw [after_openDev hrun, if_neg (by decide)]
    exact h.sameData fun j => ht ▸ beginClose_data no s.w j
  | false =>
    obtain ⟨p, k, halloc, hp, hnew⟩ := hfresh
    obtain ⟨t, hrun, hdata, hother⟩ :=
      devOpen_new (h := heap alloc) hno flags ((h.kept no hno).closed ho) halloc
    refine ⟨⟨t, hrun⟩, ?_⟩
    rw [after_openDev hrun, if_pos rfl]
    exact h.opened (hdata ▸ hp) (hdata ▸ hnew) hother

theorem devClose_block (alloc : Allocator) {no p : Nat} (hno : no < 2) {w : World Driver}
    (hfreed : freed w no = [p]) (hp : p > heapBase) :
    ∃ k, devClose (table (heap alloc)) no w =
      .ret 0 (finishClose no { beginClose no w with k := k }) := by
  obtain ⟨k, hk⟩ := kfree_run alloc hp (beginClose no w)
  refine ⟨k, ?_⟩
  rw [devClose_freed _ hno, hfreed, freeAll_single, bind_ret hk]
  rfl

theorem devClose_null (alloc : Allocator) {no : Nat} (hno : no < 2) {w : World Driver}
    (hfreed : freed w no = [0]) : devClose (table (heap alloc)) no w = .spin (beginClose no w) := by
  have hk := kfree_spin alloc (p := 0) (by decide) (beginClose no w)
  rw [devClose_freed _ hno, hfreed, freeAll_single, bind_spin hk]

theorem devClose_nothing (alloc : Allocator) {no : Nat} (hno : no < 2) {w : World Driver}
    (hfreed : freed w no = []) :
    devClose (table (heap alloc)) no w = .ret 0 (finishClose no (beginClose no w)) := by
  rw [devClose_freed _ hno, hfreed]
  rfl

/-- The terminal is closed: its block is freed, and no other device holds it. -/
theorem Inv.closeTty {alloc : Allocator} {s : State} (h : Inv s)
    (ho : s.isOpen DEV_TTY = true) :
    Lawful alloc s (.closeDev DEV_TTY) ∧ Inv (after alloc s (.closeDev DEV_TTY)) := by
  have hmem := (h.kept DEV_TTY (by decide)).opened ho
  have hfreed := freed_tty s.w
  obtain ⟨k, hrun⟩ := devClose_block alloc (by decide) hfreed (h.blocks _ hmem)
  have hinv : Inv (after alloc s (.closeDev DEV_TTY)) := by
    have hrd : DEV_RAMDISK ≠ DEV_TTY := by decide
    have hself : Function.update s.isOpen DEV_TTY false DEV_TTY = false :=
      Function.update_self ..
    rw [after, hrun, hfreed]
    refine ⟨fun j hj => ?_, fun p hp => h.blocks p (List.mem_filter.mp hp).1, fun ho' => ?_⟩
    · cases tty_or_ramdisk hj with
      | inl heq =>
        obtain rfl := heq
        exact ⟨fun _ => World.setData_same _ _ 0, fun ho' =>
          absurd (hself.symm.trans ho') (by decide)⟩
      | inr heq =>
        obtain rfl := heq
        have hopen : Function.update s.isOpen DEV_TTY false DEV_RAMDISK = s.isOpen DEV_RAMDISK :=
          Function.update_of_ne hrd _ _
        have hdata : ((finishClose DEV_TTY { beginClose DEV_TTY s.w with k := k }).devs
            DEV_RAMDISK).data = (s.w.devs DEV_RAMDISK).data := by
          simp [finishClose, beginClose, World.setData_ne _ 0 hrd]
        refine ⟨fun hc => hdata.trans ((h.kept _ hj).closed (hopen.symm.trans hc)), fun ho' => ?_⟩
        have hopen' := hopen.symm.trans ho'
        have hmem' := (h.kept _ hj).opened hopen'
        have hne := h.apart ho hopen'
        simp only [Res.final, hdata]
        exact List.mem_filter.mpr ⟨hmem', by simpa using fun heq => hne heq.symm⟩
    · exact absurd (hself.symm.trans ho') (by decide)
  refine ⟨⟨⟨_, _, hrun⟩, ?_, ?_, hinv.kept⟩, hinv⟩
  · rw [hfreed, ho, if_pos rfl]
  · intro p hp
    rw [hfreed] at hp
    rw [List.mem_singleton.mp hp]
    exact hmem

/-- A closed ramdisk is closed again. -/
theorem Inv.closeRamdisk {alloc : Allocator} {s : State} (h : Inv s)
    (hc : s.isOpen DEV_RAMDISK = false) :
    Lawful alloc s (.closeDev DEV_RAMDISK) ∧ Inv (after alloc s (.closeDev DEV_RAMDISK)) := by
  have hdata := (h.kept DEV_RAMDISK (by decide)).closed hc
  have hfreed := freed_ramdisk_closed hdata
  have hrun := devClose_nothing alloc (by decide) hfreed
  have hinv : Inv (after alloc s (.closeDev DEV_RAMDISK)) := by
    have hopen : Function.update s.isOpen DEV_RAMDISK false = s.isOpen := by
      rw [← hc, Function.update_eq_self]
    rw [after, hrun, hfreed, hopen, List.filter_eq_self.mpr (by simp)]
    exact h.sameData fun j => by simp [finishClose, beginClose, Res.final, DEV_RAMDISK, DEV_TTY]
  refine ⟨⟨⟨_, _, hrun⟩, ?_, ?_, hinv.kept⟩, hinv⟩
  · rw [hfreed, hc]
    rfl
  · rw [hfreed]
    exact fun p hp => absurd hp List.not_mem_nil

/-- An open ramdisk keeps its data pointer when it is closed. -/
theorem not_lawful_closeRamdisk {alloc : Allocator} {s : State} (h : Inv s)
    (ho : s.isOpen DEV_RAMDISK = true) : ¬ Lawful alloc s (.closeDev DEV_RAMDISK) := by
  rintro ⟨-, -, -, hkept⟩
  have hpos := h.blocks _ ((h.kept DEV_RAMDISK (by decide)).opened ho)
  have hfreed := freed_ramdisk_open (Nat.ne_zero_of_lt hpos)
  obtain ⟨k, hrun⟩ := devClose_block alloc (by decide) hfreed hpos
  have hnull := (hkept DEV_RAMDISK (by decide)).closed
  rw [after, hrun] at hnull
  have hdata : ((finishClose DEV_RAMDISK { beginClose DEV_RAMDISK s.w with k := k }).devs
      DEV_RAMDISK).data = (s.w.devs DEV_RAMDISK).data := by
    simp [finishClose, beginClose, DEV_RAMDISK, DEV_TTY]
  have hself : Function.update s.isOpen DEV_RAMDISK false DEV_RAMDISK = false :=
    Function.update_self ..
  have hzero := hdata.symm.trans (hnull hself)
  omega

/-- `kfree(NULL)` stops the kernel. -/
theorem not_lawful_closeTty {alloc : Allocator} {s : State} (h : Inv s)
    (hc : s.isOpen DEV_TTY = false) : ¬ Lawful alloc s (.closeDev DEV_TTY) := by
  rintro ⟨⟨r, t, hrun⟩, -⟩
  have hdata := (h.kept DEV_TTY (by decide)).closed hc
  have hfreed : freed s.w DEV_TTY = [0] := (freed_tty s.w).trans (by rw [hdata])
  rw [devClose_null alloc (by decide) hfreed] at hrun
  cases hrun

theorem lawful_iff {alloc : Allocator} {s : State} {c : Call} (h : Inv s)
    (hfresh : Fresh alloc s c) (hno : c.no < 2) : Lawful alloc s c ↔ Allowed s c := by
  cases c with
  | openDev no flags =>
    obtain ⟨hrun, hinv⟩ := h.openDev hfresh hno
    exact iff_of_true ⟨hrun, hinv.kept⟩ trivial
  | closeDev no =>
    cases tty_or_ramdisk hno with
    | inl heq =>
      obtain rfl := heq
      cases ho : s.isOpen DEV_TTY with
      | true => exact iff_of_true (h.closeTty ho).1 ho
      | false =>
        refine iff_of_false (not_lawful_closeTty h ho) fun ha => ?_
        exact absurd (ho.symm.trans ha) (by decide)
    | inr heq =>
      obtain rfl := heq
      cases ho : s.isOpen DEV_RAMDISK with
      | true =>
        refine iff_of_false (not_lawful_closeRamdisk h ho) fun ha => ?_
        exact absurd (ho.symm.trans ha) (by decide)
      | false => exact iff_of_true (h.closeRamdisk ho).1 ho

theorem Inv.step {alloc : Allocator} {s t : State} {c : Call} (h : Inv s) (ha : Allowed s c)
    (hst : Step alloc s c t) : Inv t := by
  obtain ⟨hno, hfresh, rfl⟩ := hst
  cases c with
  | openDev no flags => exact (h.openDev hfresh hno).2
  | closeDev no =>
    cases tty_or_ramdisk hno with
    | inl heq =>
      obtain rfl := heq
      exact (h.closeTty ha).2
    | inr heq =>
      obtain rfl := heq
      exact (h.closeRamdisk ha).2

/-- Every device is closed, and the blocks in use are other blocks of the heap. -/
structure Boot (s : State) : Prop where
  closed : ∀ no < 2, s.isOpen no = false ∧ (s.w.devs no).data = 0
  blocks : ∀ p ∈ s.live, p > heapBase

theorem Boot.inv {s : State} (h : Boot s) : Inv s := by
  refine ⟨fun no hno => ⟨fun _ => (h.closed no hno).2, fun ho => ?_⟩, h.blocks, fun ho => ?_⟩
  · exact absurd ((h.closed no hno).1.symm.trans ho) (by decide)
  · exact absurd ((h.closed DEV_TTY (by decide)).1.symm.trans ho) (by decide)

/-- In every sequence of `dev_open` and `dev_close` calls, all calls are lawful exactly when the
terminal is closed only while it is open and the ramdisk only while it is not. -/
theorem run_lawful_iff {alloc : Allocator} {s t : State} {tr : List (State × Call × State)}
    (hboot : Boot s) (hrun : Run (Step alloc) s tr t) :
    (∀ e ∈ tr, Lawful alloc e.1 e.2.1) ↔ ∀ e ∈ tr, Allowed e.1 e.2.1 := by
  have hstep : ∀ s c t, Inv s → Allowed s c → Step alloc s c t → Inv t := fun _ _ _ h ha hst =>
    h.step ha hst
  have hstep' : ∀ s c t, Inv s → Lawful alloc s c → Step alloc s c t → Inv t :=
    fun s c t h hl hst => h.step ((lawful_iff h hst.2.1 hst.1).mp hl) hst
  constructor
  · intro hall e he
    obtain ⟨h, hst⟩ := hrun.invariant_at hstep' hboot.inv hall he
    exact (lawful_iff h hst.2.1 hst.1).mp (hall e he)
  · intro hall e he
    obtain ⟨h, hst⟩ := hrun.invariant_at hstep hboot.inv hall he
    exact (lawful_iff h hst.2.1 hst.1).mpr (hall e he)

/-- The first block of the heap for every request. -/
def firstBlock : Allocator := fun k _ _ => some (heapBase + blockSiz, k)

def bootState : State :=
  ⟨⟨⟨⟨fun _ => 0⟩, 0⟩, fun _ => ⟨0, 0⟩, fun _ => ⟨⟨⟨0, fun _ => 0, fun _ => blank⟩, (ttyCreate ⟨0,
    fun _ => 0, fun _ => blank⟩).tty⟩, false, false, []⟩, 0, 0, 0, 0, []⟩, fun _ => false, []⟩

theorem bootState_boot : Boot bootState := ⟨fun _ _ => ⟨rfl, rfl⟩, nofun⟩

/-- A device is opened, closed and opened again. -/
def reopen (no : Nat) : List Call := [.openDev no 0, .closeDev no, .openDev no 0]

theorem firstBlock_fresh {s : State} {c : Call}
    (h : s.live = [] ∨ ∃ no, c = .closeDev no) : Fresh firstBlock s c := by
  cases c with
  | openDev no flags =>
    rcases h with hlive | ⟨no', hc⟩
    · exact ⟨_, s.w.k, rfl, by decide, hlive ▸ List.not_mem_nil⟩
    · cases hc
  | closeDev no => trivial

theorem reopen_run {no : Nat} (hno : no < 2) :
    Run (Step firstBlock) bootState (trace (after firstBlock) bootState (reopen no))
      ((reopen no).foldl (after firstBlock) bootState) := by
  have hlive : (after firstBlock (after firstBlock bootState (.openDev no 0)) (.closeDev no)).live
      = [] := by
    cases tty_or_ramdisk hno with
    | inl heq =>
      obtain rfl := heq
      decide +kernel
    | inr heq =>
      obtain rfl := heq
      decide +kernel
  refine Run.of_trace _ fun e he => ?_
  simp only [reopen, Transition.trace, List.mem_cons, List.not_mem_nil, or_false] at he
  rcases he with rfl | rfl | rfl
  · exact ⟨hno, firstBlock_fresh (Or.inl rfl), rfl⟩
  · exact ⟨hno, trivial, rfl⟩
  · exact ⟨hno, firstBlock_fresh (Or.inl hlive), rfl⟩

theorem run_lawful_iff_tty :
    (∀ e ∈ trace (after firstBlock) bootState (reopen DEV_TTY), Lawful firstBlock e.1 e.2.1) ↔
      ∀ e ∈ trace (after firstBlock) bootState (reopen DEV_TTY), Allowed e.1 e.2.1 :=
  run_lawful_iff bootState_boot (reopen_run (by decide))

/-- After it was closed the ramdisk is busy for ever, its data pointer the freed block. -/
theorem run_lawful_fails :
    Run (Step firstBlock) bootState (trace (after firstBlock) bootState (reopen DEV_RAMDISK))
      ((reopen DEV_RAMDISK).foldl (after firstBlock) bootState) ∧ Boot bootState ∧
    (∃ s t, (s, Call.openDev DEV_RAMDISK 0, after firstBlock s (.openDev DEV_RAMDISK 0)) ∈
        trace (after firstBlock) bootState (reopen DEV_RAMDISK) ∧
      s.isOpen DEV_RAMDISK = false ∧ (s.w.devs DEV_RAMDISK).data = 0x400010 ∧ s.live = [] ∧
      devOpen (table (heap firstBlock)) DEV_RAMDISK 0 s.w = .ret (-EBUSY) t) ∧
    ¬ ∀ e ∈ trace (after firstBlock) bootState (reopen DEV_RAMDISK),
      Lawful firstBlock e.1 e.2.1 := by
  refine ⟨reopen_run (by decide), bootState_boot, ?_, fun hall => ?_⟩
  · let s := after firstBlock (after firstBlock bootState (.openDev DEV_RAMDISK 0))
      (.closeDev DEV_RAMDISK)
    have hdata : (s.w.devs DEV_RAMDISK).data = 0x400010 := by decide +kernel
    obtain ⟨t, hbusy, -⟩ := devOpen_busy (heap firstBlock) (w := s.w)
      (show DEV_RAMDISK < 2 by decide) 0 (hdata ▸ by decide)
    exact ⟨s, t, List.mem_cons_of_mem _ (List.mem_cons_of_mem _ (List.mem_singleton_self _)), rfl,
      hdata, by decide +kernel, hbusy⟩
  · have hopen : Inv (after firstBlock bootState (.openDev DEV_RAMDISK 0)) :=
      (bootState_boot.inv.openDev (firstBlock_fresh (Or.inl rfl)) (by decide)).2
    exact not_lawful_closeRamdisk hopen rfl
      (hall _ (List.mem_cons_of_mem _ List.mem_cons_self))

end Foos.Devices
