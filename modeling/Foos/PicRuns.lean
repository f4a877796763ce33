import Mathlib.Data.List.Find
import Foos.Pic

/-! Interrupts and their end in any order of steps: what is in service while the processor is in
`irq_handler`, that nothing is left in service behind it, and which line comes first. -/
namespace Foos.Pic
open Interrupts Transition

/-- No interrupt is in service. -/
def Clear (p : Pair) : Prop := p.master.isr = 0 ∧ p.slave.isr = 0

/-- The bits in service while the processor is at the entry for a vector; line 7 of a chip may
stand for a request that has gone away. -/
def InService (p : Pair) (vector : Nat) : Prop :=
  if vector < 0x28 then
    p.slave.isr = 0 ∧ (p.master.isr = lineBit (vector - 0x20) ∨ vector = 0x27 ∧ p.master.isr = 0)
  else p.master.isr = lineBit 2 ∧
    (p.slave.isr = lineBit (vector - 0x28) ∨ vector = 0x2F ∧ p.slave.isr = 0)

/-- The chips are initialized and line 2 of the master follows the slave only. -/
structure Wired (p : Pair) : Prop where
  set : p.Set
  noTwo : bit p.master.irr 2 = false

theorem Chip.ready_lt {c : Chip} {requests : UInt8} {k : Nat} (h : c.ready requests = some k) :
    k < 8 := List.mem_range.mp (List.mem_of_find?_eq_some h)

theorem Chip.ready_bit {c : Chip} {requests : UInt8} {k : Nat} (h : c.ready requests = some k) :
    bit (requests &&& ~~~c.imr) k = true := by
  have hp : c.passes requests k = true := List.find?_some h
  exact (Bool.and_eq_true_iff.mp hp).1

/-- The bit of the cascade word is line 2. -/
theorem cascade_bit : ∀ k < 8, bit 4 k = true ↔ k = 2 := by decide

theorem Chip.Set.take {c : Chip} {offset cascade : UInt8} (h : c.Set offset cascade) (k : Nat) :
    (c.take k).Set offset cascade := ⟨h.expect, h.icw1, h.offset, h.cascade, h.mode⟩

theorem take_two {c : Chip} (h : bit c.irr 2 = false) (k : Nat) :
    bit (c.take k).irr 2 = false := by
  rw [Chip.take, bit_and _ _ (by decide), h, Bool.false_and]

theorem Chip.take_isr {c : Chip} (h : c.isr = 0) (k : Nat) : (c.take k).isr = lineBit k := by
  rw [Chip.take, h, UInt8.zero_or]

/-- Line 2 passes only when the slave has a line to pass on. -/
theorem Wired.slave_ready {p : Pair} (hw : Wired p) (h : p.master.ready p.requests = some 2) :
    ∃ j, p.slave.ready p.slave.irr = some j := by
  cases hs : p.slave.ready p.slave.irr with
  | some j => exact ⟨j, rfl⟩
  | none =>
    have hbit := Chip.ready_bit h
    have hreq : p.requests = p.master.irr := by
      rw [Pair.requests, hs]
      rfl
    rw [hreq, bit_and _ _ (by decide), hw.noTwo] at hbit
    exact absurd hbit Bool.false_ne_true

/-- What an acknowledge cycle does: nothing is requested any more, or a line of the master is
taken, or a line of the slave and with it line 2 of the master. -/
theorem Wired.inta_cases {p : Pair} (hw : Wired p) :
    (p.master.ready p.requests = none ∧ inta p = (0x27, p)) ∨
    (∃ k, p.master.ready p.requests = some k ∧ k ≠ 2 ∧
      inta p = (0x20 + k, { p with master := p.master.take k })) ∨
    ∃ j, p.master.ready p.requests = some 2 ∧ p.slave.ready p.slave.irr = some j ∧
      inta p = (0x28 + j, ⟨p.master.take 2, p.slave.take j⟩) := by
  have hm : p.master.offset.toNat = 0x20 := congrArg UInt8.toNat hw.set.master.offset
  have hs : p.slave.offset.toNat = 0x28 := congrArg UInt8.toNat hw.set.slave.offset
  have hid : p.slave.cascade.toNat = 2 := congrArg UInt8.toNat hw.set.slave.cascade
  cases hready : p.master.ready p.requests with
  | none =>
    refine Or.inl ⟨rfl, ?_⟩
    simp only [inta, hready, hm]
  | some k =>
    have hcas := cascade_bit k (Chip.ready_lt hready)
    rw [← hw.set.master.cascade] at hcas
    by_cases h2 : k = 2
    · obtain rfl := h2
      obtain ⟨j, hj⟩ := hw.slave_ready hready
      refine Or.inr (Or.inr ⟨j, rfl, hj, ?_⟩)
      simp only [inta, hready, hcas, not_true, if_false, hid, if_true, hj, hs]
    · refine Or.inr (Or.inl ⟨k, rfl, h2, ?_⟩)
      simp only [inta, hready, hcas, h2, not_false_eq_true, if_true, hm]

/-- An acknowledge cycle leads to an entry code of `irq0` to `irq15` and marks its line. -/
theorem Wired.inta_service {p : Pair} (hw : Wired p) (hc : Clear p) :
    IsIrq (inta p).1 ∧ InService (inta p).2 (inta p).1 ∧ Wired (inta p).2 := by
  obtain ⟨-, h⟩ | ⟨k, hready, h2, h⟩ | ⟨j, -, hready, h⟩ := hw.inta_cases
  · rw [h]
    exact ⟨(by decide : IsIrq 0x27), (if_pos (by decide : 0x27 < 0x28)).mpr
      ⟨hc.2, Or.inr ⟨rfl, hc.1⟩⟩, hw⟩
  · have hk := Chip.ready_lt hready
    rw [h]
    refine ⟨?_, ?_, ⟨⟨hw.set.master.take k, hw.set.slave⟩, take_two hw.noTwo k⟩⟩
    · simp only [IsIrq]
      omega
    · have hlt : 0x20 + k < 0x28 := by omega
      rw [InService, if_pos hlt, Nat.add_sub_cancel_left]
      exact ⟨hc.2, Or.inl (Chip.take_isr hc.1 k)⟩
  · have hj := Chip.ready_lt hready
    rw [h]
    refine ⟨?_, ?_, ⟨⟨hw.set.master.take 2, hw.set.slave.take j⟩, take_two hw.noTwo 2⟩⟩
    · simp only [IsIrq]
      omega
    · have hge : ¬ 0x28 + j < 0x28 := by omega
      rw [InService, if_neg hge, Nat.add_sub_cancel_left]
      exact ⟨Chip.take_isr hc.1 2, Or.inl (Chip.take_isr hc.2 j)⟩

/-- When the slave loses its request meanwhile its line 7 stands for it. -/
theorem Wired.late_service {p : Pair} (hw : Wired p) (hc : Clear p) {line : Nat}
    (hready : p.master.ready p.requests = some line) (hcas : bit p.master.cascade line = true) :
    IsIrq (p.slave.offset.toNat + 7) ∧
      InService { p with master := p.master.take line } (p.slave.offset.toNat + 7) ∧
      Wired { p with master := p.master.take line } := by
  have hs : p.slave.offset.toNat + 7 = 0x2F := by
    rw [hw.set.slave.offset]
    rfl
  rw [hw.set.master.cascade] at hcas
  obtain rfl := (cascade_bit line (Chip.ready_lt hready)).mp hcas
  rw [hs]
  refine ⟨by decide, ?_, ⟨⟨hw.set.master.take 2, hw.set.slave⟩, take_two hw.noTwo 2⟩⟩
  exact (if_neg (by decide : ¬ 0x2F < 0x28)).mpr
    ⟨Chip.take_isr hc.1 2, Or.inr ⟨rfl, hc.2⟩⟩

/-- The end of interrupt clears the bit of a line that is alone in service. -/
theorem eoi_lineBit : ∀ k < 8, lineBit k &&& (lineBit k - 1) = 0 := by decide

theorem command_eoi (c : Chip) : c.command PIC_EOI = { c with isr := c.isr &&& (c.isr - 1) } := by
  have hinit : ¬ PIC_EOI &&& ICW1_INIT ≠ 0 := by decide
  rw [Chip.command, if_neg hinit, if_pos rfl]

theorem eoi_zero : (0 : UInt8) &&& (0 - 1) = 0 := by decide

/-- Whatever line was accepted, after `pic_send_eoi` nothing is in service. -/
theorem InService.eoi {p : Pair} {vector : Nat} (h : InService p vector) (hirq : IsIrq vector) :
    Clear (picSendEoi p (vector - 0x20)) := by
  simp only [IsIrq] at hirq
  by_cases hmaster : vector < 0x28
  · rw [InService, if_pos hmaster] at h
    have hle : ¬ 8 ≤ vector - 0x20 := by omega
    simp only [picSendEoi, if_neg hle, outb_PIC1_CMD, command_eoi]
    refine ⟨?_, h.1⟩
    cases h.2 with
    | inl hbit =>
      simp only [hbit]
      exact eoi_lineBit _ (by omega)
    | inr hgone =>
      simp only [hgone.2]
      exact eoi_zero
  · rw [InService, if_neg hmaster] at h
    have hle : 8 ≤ vector - 0x20 := by omega
    simp only [picSendEoi, if_pos hle, outb_PIC1_CMD, outb_PIC2_CMD, command_eoi]
    constructor
    · simp only [h.1]
      exact eoi_lineBit 2 (by decide)
    · cases h.2 with
      | inl hbit =>
        simp only [hbit]
        exact eoi_lineBit _ (by omega)
      | inr hgone =>
        simp only [hgone.2]
        exact eoi_zero

theorem Wired.eoi {p : Pair} (hw : Wired p) (irq : Nat) : Wired (picSendEoi p irq) := by
  obtain ⟨⟨hm, hs⟩, htwo⟩ := hw
  have hkeep : ∀ {c : Chip} {offset cascade : UInt8}, c.Set offset cascade →
      (c.command PIC_EOI).Set offset cascade := by
    intro c offset cascade h
    rw [command_eoi]
    exact ⟨h.expect, h.icw1, h.offset, h.cascade, h.mode⟩
  have htwo' : bit (p.master.command PIC_EOI).irr 2 = false := by
    rw [command_eoi]
    exact htwo
  rw [picSendEoi]
  split
  · rw [outb_PIC1_CMD, outb_PIC2_CMD]
    exact ⟨⟨hkeep hm, hkeep hs⟩, htwo'⟩
  · rw [outb_PIC1_CMD]
    exact ⟨⟨hkeep hm, hs⟩, htwo'⟩

theorem Chip.data_mask {c : Chip} (h : c.expect = .mask) (v : UInt8) :
    c.data v = { c with imr := v } := by
  cases c
  cases h
  rfl

/-- Once they are initialized, a byte at a data port is the mask. -/
theorem Wired.outb_data {p : Pair} (hw : Wired p) (no : Nat) (v : UInt8) :
    ∃ m s, outb p (picOf no + 1) v = ⟨{ p.master with imr := m }, { p.slave with imr := s }⟩ := by
  have hm := Chip.data_mask hw.set.master.expect v
  have hs := Chip.data_mask hw.set.slave.expect v
  by_cases hno : no < 8
  · have hport : picOf no + 1 = PIC1_DATA := by
      rw [picOf, if_pos hno]
      rfl
    rw [hport, outb_PIC1_DATA, hm]
    exact ⟨v, p.slave.imr, rfl⟩
  · have hport : picOf no + 1 = PIC2_DATA := by
      rw [picOf, if_neg hno]
      rfl
    rw [hport, outb_PIC2_DATA, hs]
    exact ⟨p.master.imr, v, rfl⟩

/-- Other masks. -/
theorem Wired.masks {p : Pair} (hw : Wired p) (m s : UInt8) :
    Wired ⟨{ p.master with imr := m }, { p.slave with imr := s }⟩ :=
  ⟨⟨⟨hw.set.master.expect, hw.set.master.icw1, hw.set.master.offset, hw.set.master.cascade,
    hw.set.master.mode⟩, ⟨hw.set.slave.expect, hw.set.slave.icw1, hw.set.slave.offset,
    hw.set.slave.cascade, hw.set.slave.mode⟩⟩, hw.noTwo⟩

theorem Wired.irqDisable {p : Pair} (hw : Wired p) (no : Nat) :
    ∃ m s, irqDisable p no = ⟨{ p.master with imr := m }, { p.slave with imr := s }⟩ :=
  hw.outb_data no _

theorem Wired.irqEnable {p : Pair} (hw : Wired p) (no : Nat) :
    ∃ m s, irqEnable p no = ⟨{ p.master with imr := m }, { p.slave with imr := s }⟩ :=
  hw.outb_data no _

theorem bit_lineBit : ∀ k < 8, k ≠ 2 → bit (lineBit k) 2 = false := by decide

/-- A request of a device leaves everything but the requests alone. -/
theorem Wired.request {p : Pair} (hw : Wired p) {line : Nat} (h2 : line ≠ 2)
    (on : Bool) : Wired (request p line on) ∧ (request p line on).master.isr = p.master.isr ∧
      (request p line on).slave.isr = p.slave.isr := by
  rw [Pic.request]
  by_cases hmaster : line < 8
  · rw [if_pos hmaster]
    refine ⟨⟨⟨⟨hw.set.master.expect, hw.set.master.icw1, hw.set.master.offset,
      hw.set.master.cascade, hw.set.master.mode⟩, hw.set.slave⟩, ?_⟩, rfl, rfl⟩
    cases on with
    | true =>
      refine (bit_or _ _ (by decide)).trans ?_
      rw [hw.noTwo, bit_lineBit _ (Nat.mod_lt _ (by decide)) (by omega)]
      rfl
    | false =>
      refine (bit_and _ _ (by decide)).trans ?_
      rw [hw.noTwo]
      rfl
  · rw [if_neg hmaster]
    exact ⟨⟨⟨hw.set.master, ⟨hw.set.slave.expect, hw.set.slave.icw1, hw.set.slave.offset,
      hw.set.slave.cascade, hw.set.slave.mode⟩⟩, hw.noTwo⟩, rfl, rfl⟩

/-- In every phase: what is in service, and which vectors are still to be handled. -/
def Phase.Holds (s : System) : Phase → Prop
  | .kernel _ => Clear s.pics ∧ s.accepted = s.handled
  | .entered v => IsIrq v ∧ InService s.pics v ∧ s.accepted = s.handled ++ [v]
  | .serving v => IsIrq v ∧ Clear s.pics ∧ s.accepted = s.handled ++ [v]

structure Inv (s : System) : Prop where
  wired : Wired s.pics
  phase : s.phase.Holds s
  irqs : ∀ v ∈ s.accepted, IsIrq v

/-- Only the bits in service matter. -/
theorem Phase.Holds.congr {s : System} {q : Pair} {ph : Phase} (h : ph.Holds s)
    (hm : q.master.isr = s.pics.master.isr) (hs : q.slave.isr = s.pics.slave.isr) :
    ph.Holds { s with pics := q } := by
  cases ph with
  | kernel ints => exact ⟨⟨hm.trans h.1.1, hs.trans h.1.2⟩, h.2⟩
  | entered v =>
    refine ⟨h.1, ?_, h.2.2⟩
    have hin := h.2.1
    simp only [InService] at hin ⊢
    rw [hm, hs]
    exact hin
  | serving v => exact ⟨h.1, ⟨hm.trans h.2.1.1, hs.trans h.2.1.2⟩, h.2.2⟩

theorem irqs_append {vs : List Nat} {v : Nat} (h : ∀ v ∈ vs, IsIrq v) (hv : IsIrq v) :
    ∀ u ∈ vs ++ [v], IsIrq u := by
  intro u hu
  cases List.mem_append.mp hu with
  | inl hu => exact h u hu
  | inr hu => exact List.mem_singleton.mp hu ▸ hv

theorem Inv.step {s t : System} {a : Act} (h : Inv s) (hst : Step s a t) : Inv t := by
  obtain ⟨hw, hp, hirqs⟩ := h
  cases hst with
  | request on hline h2 =>
    obtain ⟨hw', hm, hs⟩ := hw.request h2 on
    exact ⟨hw', hp.congr hm hs, hirqs⟩
  | @irqDisable no hno hph =>
    obtain ⟨m, v, heq⟩ := hw.irqDisable no
    simp only [heq]
    exact ⟨hw.masks m v, hp.congr rfl rfl, hirqs⟩
  | @irqEnable no hno hph =>
    obtain ⟨m, v, heq⟩ := hw.irqEnable no
    simp only [heq]
    exact ⟨hw.masks m v, hp.congr rfl rfl, hirqs⟩
  | setInts on hph =>
    rw [hph] at hp
    exact ⟨hw, hp, hirqs⟩
  | accept hph =>
    rw [hph] at hp
    obtain ⟨hirq, hin, hw'⟩ := hw.inta_service hp.1
    exact ⟨hw', ⟨hirq, hin, congrArg (· ++ [(inta s.pics).1]) hp.2⟩, irqs_append hirqs hirq⟩
  | @acceptLate line hph hready hslave =>
    rw [hph] at hp
    obtain ⟨hirq, hin, hw'⟩ := hw.late_service hp.1 hready hslave
    exact ⟨hw', ⟨hirq, hin, congrArg (· ++ [s.pics.slave.offset.toNat + 7]) hp.2⟩,
      irqs_append hirqs hirq⟩
  | sendEoi hph hirq =>
    rw [hph] at hp
    exact ⟨hw.eoi _, ⟨hirq, hp.2.1.eoi hirq, hp.2.2⟩, hirqs⟩
  | handle hph =>
    rw [hph] at hp
    exact ⟨hw, ⟨hp.2.1, hp.2.2⟩, hirqs⟩

theorem start_inv (p : Pair) : Inv (start p) := by
  have hp := picRemap_eq p 0x20 0x28
  constructor
  · simp only [start, hp]
    exact ⟨⟨⟨rfl, rfl, rfl, rfl, rfl⟩, ⟨rfl, rfl, rfl, rfl, rfl⟩⟩, (by decide : bit 0 2 = false)⟩
  · simp only [start, hp]
    exact ⟨⟨rfl, rfl⟩, rfl⟩
  · exact fun v hv => absurd hv List.not_mem_nil

theorem run_inv {p : Pair} {tr : List (System × Act × System)} {s : System}
    (h : Run Step (start p) tr s) : Inv s :=
  h.invariant (Q := fun _ _ => True) (fun _ _ _ hi _ hst => hi.step hst) (start_inv p)
    fun _ _ => trivial

/-- The vector that is being handled. -/
def Phase.current : Phase → List Nat
  | .kernel _ => []
  | .entered v => [v]
  | .serving v => [v]

/-- Whatever state the controllers were in before, and in whatever order devices, kernel and
processor take their steps: every vector that the processor accepts is one of `irq0` to `irq15`
and none is lost or handled twice, one is handled at a time, and outside the entry of
`irq_handler` nothing is in service. -/
theorem irqs_served {p : Pair} {tr : List (System × Act × System)} {s : System}
    (h : Run Step (start p) tr s) :
    s.pics.Set ∧ (∀ v ∈ s.accepted, IsIrq v) ∧ s.accepted = s.handled ++ s.phase.current ∧
      ((∀ v, s.phase ≠ .entered v) → Clear s.pics) := by
  obtain ⟨hw, hp, hirqs⟩ := run_inv h
  refine ⟨hw.set, hirqs, ?_, ?_⟩
  · cases hph : s.phase with
    | kernel ints =>
      rw [hph] at hp
      exact hp.2.trans (List.append_nil _).symm
    | entered v =>
      rw [hph] at hp
      exact hp.2.2
    | serving v =>
      rw [hph] at hp
      exact hp.2.2
  · intro hne
    cases hph : s.phase with
    | kernel ints =>
      rw [hph] at hp
      exact hp.1
    | entered v => exact absurd hph (hne v)
    | serving v =>
      rw [hph] at hp
      exact hp.2.1

/-- Chips as a boot program may leave them, with all lines masked. -/
def someChips : Pair :=
  ⟨⟨.icw3, 0x11, 8, 4, 1, 0xFF, 0x41, 3⟩, ⟨.mask, 0x11, 0x70, 2, 1, 0xFF, 0, 0x80⟩⟩

/-- A key, from the request to the end of the handler. -/
theorem irqs_served_key : ∃ tr s, Run Step (start someChips) tr s ∧ s.handled = [0x21] ∧
    Clear s.pics := by
  have h1 := Run.snoc Run.nil (Step.irqEnable (s := start someChips) (by decide : 1 < 16) nofun)
  have h2 := h1.snoc (.setInts true rfl)
  have h3 := h2.snoc (.request true (by decide : 1 < 16) (by decide))
  have h4 := h3.snoc (.accept rfl)
  have h5 := h4.snoc (.sendEoi rfl (by decide))
  have h6 := h5.snoc (.handle rfl)
  exact ⟨_, _, h6, rfl, (irqs_served h6).2.2.2 nofun⟩

/- Which line comes first. -/

/-- The lines of the slave. -/
def slaveLines : List Nat := (List.range 8).map (8 + ·)

/-- The lines in the order of their priority: those of the slave stand at line 2. -/
def order : List Nat := [0, 1] ++ (slaveLines ++ [3, 4, 5, 6, 7])

def requested (p : Pair) (line : Nat) : Bool :=
  if line < 8 then bit p.master.irr line else bit p.slave.irr (line - 8)

/-- A requested line that is not masked; for a line of the slave line 2 must not be masked
either. -/
def Deliverable (p : Pair) (line : Nat) : Prop :=
  requested p line = true ∧ ¬ Masked (inb p) line ∧ (8 ≤ line → ¬ Masked (inb p) 2)

instance (p : Pair) (line : Nat) : Decidable (Deliverable p line) :=
  inferInstanceAs (Decidable (_ ∧ _ ∧ _))

theorem masked_master (p : Pair) {line : Nat} (h : line < 8) :
    Masked (inb p) line ↔ bit p.master.imr line = true := by
  have hport : picOf line + 1 = PIC1_DATA := by
    rw [picOf, if_pos h]
    rfl
  rw [Masked, hport, inb_PIC1_DATA, Nat.mod_eq_of_lt h, bit, decide_eq_true_iff]

theorem masked_slave (p : Pair) {j : Nat} (h : j < 8) :
    Masked (inb p) (8 + j) ↔ bit p.slave.imr j = true := by
  have hport : picOf (8 + j) + 1 = PIC2_DATA := by
    rw [picOf, if_neg (by omega)]
    rfl
  have hmod : (8 + j) % 8 = j := by omega
  rw [Masked, hport, inb_PIC2_DATA, hmod, bit, decide_eq_true_iff]

/-- With nothing in service a chip passes on what is requested and not masked. -/
theorem Chip.passes_clear {c : Chip} (h : c.isr = 0) (requests : UInt8) {k : Nat} (hk : k < 8) :
    c.passes requests k = (bit requests k && !bit c.imr k) := by
  have hall : ((List.range (k + 1)).all fun j => !bit c.isr j) = true := by
    rw [h]
    refine List.all_eq_true.mpr fun j _ => ?_
    simp [bit]
  rw [Chip.passes, hall, Bool.and_true, bit_and _ _ hk, bit_not _ hk]

/-- A search that stops at 2 when the search of another list finds something. -/
theorem find_cascade {d g : Nat → Bool} {l : List Nat} (hg : ∀ k < 8, k ≠ 2 → g k = d k)
    (h2 : g 2 = (l.find? d).isSome) :
    ([0, 1] ++ (l ++ [3, 4, 5, 6, 7])).find? d =
      ((List.range 8).find? g).bind fun k => if k = 2 then l.find? d else some k := by
  have hrange : List.range 8 = [0, 1] ++ 2 :: [3, 4, 5, 6, 7] := rfl
  have hrest : [3, 4, 5, 6, 7].find? g = [3, 4, 5, 6, 7].find? d := by
    simp only [List.find?_cons, List.find?_nil, hg 3 (by decide) (by decide),
      hg 4 (by decide) (by decide), hg 5 (by decide) (by decide), hg 6 (by decide) (by decide),
      hg 7 (by decide) (by decide)]
  have hfirst : [0, 1].find? g = [0, 1].find? d := by
    simp only [List.find?_cons, List.find?_nil, hg 0 (by decide) (by decide),
      hg 1 (by decide) (by decide)]
  have hsecond : (2 :: [3, 4, 5, 6, 7]).find? g =
      if (l.find? d).isSome then some 2 else [3, 4, 5, 6, 7].find? d := by
    rw [List.find?_cons, h2, hrest]
    cases (l.find? d).isSome <;> rfl
  rw [hrange, List.find?_append, List.find?_append, List.find?_append, hfirst, hsecond]
  cases h01 : [0, 1].find? d with
  | some k =>
    have hk : k ≠ 2 := by
      have := List.mem_of_find?_eq_some h01
      simp at this
      omega
    simp [hk]
  | none =>
    cases hl : l.find? d with
    | some j => simp
    | none =>
      cases h37 : [3, 4, 5, 6, 7].find? d with
      | none => rfl
      | some k =>
        have hk : k ≠ 2 := by
          have := List.mem_of_find?_eq_some h37
          simp at this
          omega
        simp [hk]

/-- A line of the master that passes is deliverable, and the other way round. -/
theorem passes_deliverable {p : Pair} (hw : Wired p) (hc : Clear p) {k : Nat} (hk : k < 8)
    (h2 : k ≠ 2) : p.master.passes p.requests k = decide (Deliverable p k) := by
  have hreq : bit p.requests k = bit p.master.irr k := by
    have hcas : bit p.master.cascade k = false := by
      rw [hw.set.master.cascade]
      exact Bool.eq_false_iff.mpr fun hb => h2 ((cascade_bit k hk).mp hb)
    rw [Pair.requests]
    split
    · rw [bit_or _ _ hk, hcas, Bool.or_false]
    · rfl
  rw [Chip.passes_clear hc.1 _ hk, hreq]
  have hmasked := masked_master p hk
  have hhigh : ¬ 8 ≤ k := by omega
  cases hr : bit p.master.irr k <;> cases hm : bit p.master.imr k <;>
    simp [Deliverable, requested, hk, hr, hm, hmasked, hhigh]

/-- The same for a line of the slave, when line 2 is not masked. -/
theorem passes_slave {p : Pair} (hc : Clear p) (h2 : bit p.master.imr 2 = false) {j : Nat}
    (hj : j < 8) : p.slave.passes p.slave.irr j = decide (Deliverable p (8 + j)) := by
  have hmasked := masked_slave p hj
  have hline2 := masked_master p (by decide : 2 < 8)
  have hhigh : ¬ 8 + j < 8 := by omega
  rw [Chip.passes_clear hc.2 _ hj]
  cases hr : bit p.slave.irr j <;> cases hm : bit p.slave.imr j <;>
    simp [Deliverable, requested, hhigh, hr, hm, hmasked, hline2, h2]

theorem slave_first {p : Pair} (hc : Clear p) :
    slaveLines.find? (fun line => decide (Deliverable p line)) =
      if bit p.master.imr 2 then none else (p.slave.ready p.slave.irr).map (8 + ·) := by
  rw [slaveLines, List.find?_map]
  cases h2 : bit p.master.imr 2 with
  | true =>
    have hline2 := masked_master p (by decide : 2 < 8)
    refine Option.map_eq_none_iff.mpr (List.find?_eq_none.mpr fun j _ => ?_)
    have hhigh : 8 ≤ 8 + j := Nat.le_add_right 8 j
    simp [Deliverable, hline2, h2]
  | false =>
    refine congrArg _ (List.find?_congr fun j hj => ?_)
    exact (passes_slave hc h2 (List.mem_range.mp hj)).symm

/-- Line 2 passes exactly when a line of the slave is deliverable. -/
theorem passes_two {p : Pair} (hw : Wired p) (hc : Clear p) :
    p.master.passes p.requests 2 =
      (slaveLines.find? fun line => decide (Deliverable p line)).isSome := by
  have hcas : bit p.master.cascade 2 = true := by
    rw [hw.set.master.cascade]
    decide
  have hreq : bit p.requests 2 = (p.slave.ready p.slave.irr).isSome := by
    rw [Pair.requests]
    cases (p.slave.ready p.slave.irr).isSome with
    | true => rw [if_pos rfl, bit_or _ _ (by decide), hcas, Bool.or_true]
    | false => exact hw.noTwo
  rw [Chip.passes_clear hc.1 _ (by decide), hreq, slave_first hc]
  cases bit p.master.imr 2 <;> simp

/-- With nothing in service the line that comes first is delivered, or line 7 of the master stands
for none. -/
theorem inta_first {p : Pair} (hw : Wired p) (hc : Clear p) :
    (inta p).1 = 0x20 + ((order.find? fun line => decide (Deliverable p line)).getD 7) := by
  have hready : order.find? (fun line => decide (Deliverable p line)) =
      (p.master.ready p.requests).bind fun k =>
        if k = 2 then slaveLines.find? (fun line => decide (Deliverable p line)) else some k :=
    find_cascade (fun k hk h2 => passes_deliverable hw hc hk h2) (passes_two hw hc)
  obtain ⟨hnone, h⟩ | ⟨k, hk, h2, h⟩ | ⟨j, htwo, hj, h⟩ := hw.inta_cases
  · rw [hready, hnone, h]
    rfl
  · rw [hready, hk, h, Option.bind_some, if_neg h2]
    rfl
  · have hbit := Chip.ready_bit htwo
    rw [bit_and _ _ (by decide), bit_not _ (by decide), Bool.and_eq_true, Bool.not_eq_true'] at hbit
    rw [hready, htwo, h, Option.bind_some, if_pos rfl, slave_first hc, hbit.2, hj]
    exact Nat.add_assoc 0x20 8 j

end Foos.Pic
