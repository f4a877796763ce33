import Mathlib.Data.List.Basic
import Foos.Serial

/-! The serial line over whole runs: every byte that a caller asks for goes out once and in its
order, also when an interrupt handler sends in between. -/
namespace Foos.Serial
open Transition

/-- What a thread still has to write, as far as it is known. -/
def pending (ops : List Op) : List UInt8 :=
  ops.filterMap fun op => match op with
    | .out c => some c
    | _ => none

def bytesOf (t : Thread) (written : List (Thread × UInt8)) : List UInt8 :=
  (written.filter fun e => e.1 = t).map Prod.snd

/-- Writes, each with its loop in front. -/
def Guarded : List Op → Prop
  | [] => True
  | .waitSend :: .out _ :: ops => Guarded ops
  | _ => False

/-- The same of a thread that may be behind the first of these loops. -/
def Sending (ops : List Op) : Prop := Guarded ops ∨ ∃ c rest, ops = .out c :: rest ∧ Guarded rest

/-- `serial_read` before its echo. -/
def Reading (ops : List Op) : Prop := ops = [.waitData, .readData] ∨ ops = [.readData]

/-- Where a thread is behind a loop of its own: the transmitter is empty for the handler, at most
one byte of a handler is in it for the kernel, and a byte is there to be read. -/
structure Ready (s : System) : Prop where
  room : s.uart.thr.length ≤ 2
  kernel : ∀ c ops, s.todo .kernel = .out c :: ops → s.uart.thr.length ≤ 1
  handler : ∀ c ops, s.todo .handler = .out c :: ops → s.uart.thr = []
  read : ∀ ops, s.todo .kernel = .readData :: ops → s.uart.rbr ≠ []

/-- The histories agree with the chip and with what is still to be done. -/
structure Kept (s : System) : Prop where
  sent : s.uart.line ++ s.uart.thr = s.written.map Prod.snd
  due : ∀ t, bytesOf t s.written ++ pending (s.todo t) = s.due t
  got : s.got ++ s.uart.rbr = s.accepted

structure Inv (s : System) : Prop where
  dlab : s.uart.dlab = false
  fifo : s.uart.capacity = 16
  lost : s.uart.lost = []
  started : ∀ t, Sending (s.todo t) ∨ t = .kernel ∧ Reading (s.todo t)
  ready : Ready s
  kept : Kept s

theorem Guarded.append {xs ys : List Op} (hx : Guarded xs) (hy : Guarded ys) :
    Guarded (xs ++ ys) := by
  induction xs using Guarded.induct with
  | case1 => exact hy
  | case2 c ops ih => exact ih hx
  | case3 ops h1 h2 => simp only [Guarded] at hx

theorem serialSend_guarded (c : UInt8) : Guarded (serialSend true c) := by
  rw [serialSend, if_neg (by decide)]
  split <;> exact trivial

theorem serialWrite_guarded (s : List UInt8) : Guarded (serialWrite true s) := by
  induction s with
  | nil => trivial
  | cons c s ih => exact (serialSend_guarded c).append ih

theorem pending_append (xs ys : List Op) : pending (xs ++ ys) = pending xs ++ pending ys :=
  List.filterMap_append

theorem pending_serialSend (c : UInt8) : pending (serialSend true c) = crlf [c] := by
  rw [serialSend, if_neg (by decide), crlf, List.flatMap_singleton]
  by_cases hc : c = 10
  · rw [if_pos hc, if_pos hc, hc]
    rfl
  · rw [if_neg hc, if_neg hc]
    rfl

theorem pending_serialWrite (s : List UInt8) : pending (serialWrite true s) = crlf s := by
  induction s with
  | nil => rfl
  | cons c s ih =>
    have hcrlf : crlf (c :: s) = crlf [c] ++ crlf s := by
      simp only [crlf, List.flatMap_cons, List.flatMap_nil, List.append_nil]
    rw [serialWrite, List.flatMap_cons, pending_append, pending_serialSend, hcrlf]
    exact congrArg _ ih

theorem bytesOf_append (t : Thread) (w : List (Thread × UInt8)) (r : Thread) (c : UInt8) :
    bytesOf t (w ++ [(r, c)]) = bytesOf t w ++ if r = t then [c] else [] := by
  rw [bytesOf, List.filter_append, List.map_append]
  by_cases h : r = t
  · simp [h, bytesOf]
  · simp [h, bytesOf]

/-- A bit of the line status. -/
theorem or_and (a b m : UInt8) : (a ||| b) &&& m = (a &&& m) ||| (b &&& m) :=
  UInt8.toBitVec_inj.mp (BitVec.and_or_distrib_right)

theorem linestat_send (u : Uart) : u.linestat &&& 0x20 = 0 ↔ u.thr ≠ [] := by
  have herr : u.errors &&& 0xDE &&& 0x20 = u.errors &&& (0xDE &&& 0x20) := UInt8.and_assoc ..
  have hzero : u.errors &&& (0xDE &&& 0x20) = 0 := UInt8.and_zero
  have hone : (1 : UInt8) &&& 0x20 = 0 := rfl
  rw [Uart.linestat, or_and, or_and, herr, hzero]
  by_cases hr : u.rbr = [] <;> by_cases ht : u.thr = [] <;> simp [hr, ht, hone]

theorem linestat_data (u : Uart) : u.linestat &&& 0x1 = 0 ↔ u.rbr = [] := by
  have herr : u.errors &&& 0xDE &&& 0x1 = u.errors &&& (0xDE &&& 0x1) := UInt8.and_assoc ..
  have hzero : u.errors &&& (0xDE &&& 0x1) = 0 := UInt8.and_zero
  have hone : (0x20 : UInt8) &&& 0x1 = 0 := rfl
  rw [Uart.linestat, or_and, or_and, herr, hzero]
  by_cases hr : u.rbr = [] <;> by_cases ht : u.thr = [] <;> simp [hr, ht, hone]

theorem not_guarded_out {c : UInt8} {ops : List Op} : ¬ Guarded (.out c :: ops) := by
  simp [Guarded]

theorem not_guarded_read {ops : List Op} : ¬ Guarded (.readData :: ops) := by
  simp [Guarded]

/-- Behind the loop on the transmitter comes a write. -/
theorem Sending.waitSend {ops : List Op} (h : Sending (.waitSend :: ops)) :
    ∃ c rest, ops = .out c :: rest ∧ Guarded rest := by
  obtain h | ⟨c, rest, heq, -⟩ := h
  · cases ops with
    | nil => simp [Guarded] at h
    | cons op rest =>
      cases op with
      | out c => exact ⟨c, rest, rfl, h⟩
      | _ => simp [Guarded] at h
  · simp at heq

theorem Sending.out {c : UInt8} {ops : List Op} (h : Sending (.out c :: ops)) : Guarded ops := by
  obtain h | ⟨d, rest, heq, hrest⟩ := h
  · exact absurd h not_guarded_out
  · exact (List.cons.inj heq).2 ▸ hrest

theorem not_sending_wait {ops : List Op} : ¬ Sending (.waitData :: ops) := by
  simp [Sending, Guarded]

theorem not_sending_read {ops : List Op} : ¬ Sending (.readData :: ops) := by
  simp [Sending, Guarded]

theorem not_reading_waitSend {ops : List Op} : ¬ Reading (.waitSend :: ops) := by
  simp [Reading]

theorem not_reading_out {c : UInt8} {ops : List Op} : ¬ Reading (.out c :: ops) := by
  simp [Reading]

section
variable {s s' : System} {t : Thread} {ops : List Op}

@[simp] theorem next_same (s : System) (t : Thread) (ops : List Op) : (s.next t ops).todo t = ops :=
  if_pos rfl

theorem next_other (s : System) {t r : Thread} (ops : List Op) (h : r ≠ t) :
    (s.next t ops).todo r = s.todo r := if_neg h

theorem owe_nil (s : System) (t : Thread) : s.owe t [] = s := by
  have hdue : (s.owe t []).due = s.due := by
    funext r
    change (if r = t then s.due r ++ [] else s.due r) = s.due r
    rw [List.append_nil, ite_self]
  exact congrArg (fun d => { s with due := d }) hdue

/-- A thread goes on with other accesses; it owes the bytes that they write beyond those before. -/
theorem Inv.next (h : Inv s) (ops : List Op) (cs : List UInt8)
    (hst : Sending ops ∨ t = .kernel ∧ Reading ops)
    (hpend : pending ops = pending (s.todo t) ++ cs)
    (hkernel : t = .kernel → ∀ c rest, ops = .out c :: rest → s.uart.thr.length ≤ 1)
    (hhandler : t = .handler → ∀ c rest, ops = .out c :: rest → s.uart.thr = [])
    (hread : t = .kernel → ∀ rest, ops = .readData :: rest → s.uart.rbr ≠ []) :
    Inv ((s.next t ops).owe t cs) := by
  have hkeep : ∀ r, r ≠ t → ((s.next t ops).owe t cs).todo r = s.todo r := fun r hr =>
    next_other s ops hr
  have hnow : ((s.next t ops).owe t cs).todo t = ops := next_same s t ops
  refine ⟨h.dlab, h.fifo, h.lost, fun r => ?_, ⟨h.ready.room, ?_, ?_, ?_⟩,
    ⟨h.kept.sent, fun r => ?_, h.kept.got⟩⟩
  · by_cases hr : r = t
    · rw [hr, hnow]
      exact hst
    · rw [hkeep r hr]
      exact h.started r
  · intro c rest heq
    by_cases hr : Thread.kernel = t
    · rw [hr, hnow] at heq
      exact hkernel hr.symm c rest heq
    · rw [hkeep _ hr] at heq
      exact h.ready.kernel c rest heq
  · intro c rest heq
    by_cases hr : Thread.handler = t
    · rw [hr, hnow] at heq
      exact hhandler hr.symm c rest heq
    · rw [hkeep _ hr] at heq
      exact h.ready.handler c rest heq
  · intro rest heq
    by_cases hr : Thread.kernel = t
    · rw [hr, hnow] at heq
      exact hread hr.symm rest heq
    · rw [hkeep _ hr] at heq
      exact h.ready.read rest heq
  · by_cases hr : r = t
    · rw [hr, hnow, hpend, ← List.append_assoc]
      exact (congrArg (· ++ cs) (h.kept.due t)).trans (if_pos rfl).symm
    · rw [hkeep r hr]
      exact (h.kept.due r).trans (if_neg hr).symm

/-- A call of `serial_write` on a thread that is not in one. -/
theorem Inv.write (h : Inv s) (ht : s.todo t = []) (text : List UInt8) :
    Inv ((s.next t (serialWrite true text)).owe t (crlf text)) := by
  have hops := serialWrite_guarded text
  refine h.next _ _ (Or.inl (Or.inl hops)) ?_ ?_ ?_ ?_
  · rw [ht, pending_serialWrite]
    rfl
  · intro _ c rest heq
    exact absurd (heq ▸ hops) not_guarded_out
  · intro _ c rest heq
    exact absurd (heq ▸ hops) not_guarded_out
  · intro _ rest heq
    exact absurd (heq ▸ hops) not_guarded_read

theorem Inv.read (h : Inv s) (ht : s.todo .kernel = []) :
    Inv (s.next .kernel (serialRead true)) := by
  have hnext := h.next (t := .kernel) (serialRead true) []
    (Or.inr ⟨rfl, Or.inl rfl⟩) (by rw [ht]; rfl) ?_ nofun ?_
  · rwa [owe_nil] at hnext
  · intro _ c rest heq
    simp [serialRead] at heq
  · intro _ rest heq
    simp [serialRead] at heq

theorem Inv.waitSend (h : Inv s) (ht : s.todo t = .waitSend :: ops) :
    Inv (exec s t ops .waitSend) := by
  rw [exec]
  split
  · exact h
  · next hready =>
    have hthr : s.uart.thr = [] := by
      rw [linestat_send, not_not] at hready
      exact hready
    obtain ⟨c, rest, rfl, hrest⟩ : ∃ c rest, ops = .out c :: rest ∧ Guarded rest := by
      cases ht ▸ h.started t with
      | inl hs => exact hs.waitSend
      | inr hr => exact absurd hr.2 not_reading_waitSend
    have hnext := h.next (t := t) (.out c :: rest) []
      (Or.inl (Or.inr ⟨c, rest, rfl, hrest⟩)) ?_ ?_ ?_ ?_
    · rwa [owe_nil] at hnext
    · rw [ht, List.append_nil]
      rfl
    · intro _ c' rest' _
      rw [hthr]
      exact Nat.zero_le 1
    · exact fun _ _ _ _ => hthr
    · intro _ rest' heq
      simp at heq

theorem Inv.waitData (h : Inv s) (ht : s.todo t = .waitData :: ops) :
    Inv (exec s t ops .waitData) := by
  rw [exec]
  split
  · exact h
  · next hready =>
    rw [linestat_data] at hready
    obtain ⟨rfl, rfl⟩ : t = .kernel ∧ ops = [.readData] := by
      cases ht ▸ h.started t with
      | inl hs => exact absurd hs not_sending_wait
      | inr hr => exact ⟨hr.1, by simpa [Reading] using hr.2⟩
    have hnext := h.next (t := .kernel) [.readData] []
      (Or.inr ⟨rfl, Or.inr rfl⟩) (by rw [ht]; rfl) ?_ nofun fun _ _ _ => hready
    · rwa [owe_nil] at hnext
    · intro _ c rest heq
      simp at heq

/-- A byte at the data port goes to the transmitter, which has room for it. -/
theorem outb_data {u : Uart} (hd : u.dlab = false) (hc : u.capacity = 16) (hr : u.thr.length < 16)
    (c : UInt8) : u.outb SERIAL_DATA c = { u with thr := u.thr ++ [c] } := by
  rw [Uart.outb, if_pos rfl, if_neg (by rw [hd]; decide), if_pos (by rw [hc]; exact hr)]

theorem Inv.out (h : Inv s) {c : UInt8} (ht : s.todo t = .out c :: ops)
    (hh : t = .kernel → s.todo .handler = []) : Inv (exec s t ops (.out c)) := by
  have hroom := h.ready.room
  have hops : Guarded ops := by
    cases ht ▸ h.started t with
    | inl hs => exact hs.out
    | inr hr => exact absurd hr.2 not_reading_out
  have hbound : s.uart.thr.length + 1 ≤ 2 ∧ (t = .handler → s.uart.thr = []) := by
    cases t with
    | kernel => exact ⟨Nat.succ_le_succ (h.ready.kernel c ops ht), nofun⟩
    | handler =>
      have hnil := h.ready.handler c ops ht
      exact ⟨by rw [hnil]; decide, fun _ => hnil⟩
  have hkeep : ∀ r, r ≠ t → (s.next t ops).todo r = s.todo r := fun r hr => next_other s ops hr
  have hnow := next_same s t ops
  rw [exec, outb_data h.dlab h.fifo (by omega)]
  refine ⟨h.dlab, h.fifo, h.lost, fun r => ?_, ⟨?_, ?_, ?_, ?_⟩, ⟨?_, fun r => ?_, h.kept.got⟩⟩
  · by_cases hr : r = t
    · subst hr
      exact Or.inl (Or.inl (hnow.symm ▸ hops))
    · exact (hkeep r hr).symm ▸ h.started r
  · simpa using hbound.1
  · intro d rest heq
    by_cases hr : Thread.kernel = t
    · subst hr
      rw [hnow] at heq
      exact absurd (heq ▸ hops) not_guarded_out
    · -- the handler has written the only byte
      have hhandler : t = .handler := by
        cases t with
        | kernel => exact absurd rfl hr
        | handler => rfl
      simp [hbound.2 hhandler]
  · intro d rest heq
    by_cases hr : Thread.handler = t
    · subst hr
      rw [hnow] at heq
      exact absurd (heq ▸ hops) not_guarded_out
    · have hkernel : t = .kernel := by
        cases t with
        | kernel => rfl
        | handler => exact absurd rfl hr
      rw [hkeep _ hr, hh hkernel] at heq
      simp at heq
  · intro rest heq
    by_cases hr : Thread.kernel = t
    · subst hr
      rw [hnow] at heq
      exact absurd (heq ▸ hops) not_guarded_read
    · rw [hkeep _ hr] at heq
      exact h.ready.read rest heq
  · rw [List.map_append, ← h.kept.sent, List.append_assoc]
    rfl
  · have hdue := h.kept.due r
    rw [bytesOf_append]
    by_cases hr : r = t
    · subst hr
      rw [if_pos rfl, hnow, List.append_assoc]
      rw [ht] at hdue
      exact hdue
    · rw [if_neg fun heq => hr heq.symm, List.append_nil, hkeep r hr]
      exact hdue

/-- A byte is read where no other read is due. -/
theorem Inv.taken (h : Inv s) {c : UInt8} {rest : List UInt8} (hr : s.uart.rbr = c :: rest)
    (hk : ∀ ops, s.todo .kernel ≠ .readData :: ops) :
    Inv { s with uart := { s.uart with rbr := rest }, got := s.got ++ [c] } := by
  have hgot := h.kept.got
  rw [hr] at hgot
  exact ⟨h.dlab, h.fifo, h.lost, h.started,
    ⟨h.ready.room, h.ready.kernel, h.ready.handler, fun ops heq => absurd heq (hk ops)⟩,
    ⟨h.kept.sent, h.kept.due, (List.append_assoc ..).trans hgot⟩⟩

theorem Inv.readData (h : Inv s) (ht : s.todo t = .readData :: ops) :
    Inv (exec s t ops .readData) := by
  obtain ⟨rfl, rfl⟩ : t = .kernel ∧ ops = [] := by
    cases ht ▸ h.started t with
    | inl hs => exact absurd hs not_sending_read
    | inr hr => exact ⟨hr.1, by simpa [Reading] using hr.2⟩
  obtain ⟨c, rest, hr⟩ := List.exists_cons_of_ne_nil (h.ready.read [] ht)
  have hdata : s.uart.data = (c, { s.uart with rbr := rest }) := by
    rw [Uart.data, h.dlab, hr]
    rfl
  have hops : Guarded (serialSend true c ++ []) := (List.append_nil _).symm ▸ serialSend_guarded c
  have hnext := h.next (t := .kernel) _ (crlf [c]) (Or.inl (Or.inl hops)) ?_ ?_ nofun ?_
  · simp only [exec, hdata]
    refine hnext.taken hr fun ops' heq => ?_
    have hnow : ((s.next .kernel (serialSend true c ++ [])).owe .kernel (crlf [c])).todo .kernel =
        serialSend true c ++ [] := next_same s .kernel _
    rw [hnow] at heq
    exact not_guarded_read (heq ▸ hops)
  · rw [List.append_nil, pending_serialSend, ht]
    rfl
  · intro _ d rest' heq
    exact absurd (heq ▸ hops) not_guarded_out
  · intro _ rest' heq
    exact absurd (heq ▸ hops) not_guarded_read

/-- The line sends a byte. -/
theorem Inv.transmit (h : Inv s) : Inv { s with uart := s.uart.transmit } := by
  cases hthr : s.uart.thr with
  | nil =>
    have hsame : s.uart.transmit = s.uart := by
      rw [Uart.transmit, hthr]
    rwa [hsame]
  | cons c thr =>
    have hnext : s.uart.transmit = { s.uart with thr := thr, line := s.uart.line ++ [c] } := by
      rw [Uart.transmit, hthr]
    have hroom := h.ready.room
    have hsent := h.kept.sent
    rw [hthr] at hsent hroom
    rw [List.length_cons] at hroom
    rw [hnext]
    refine ⟨h.dlab, h.fifo, h.lost, h.started, ⟨?_, ?_, ?_, h.ready.read⟩,
      ⟨(List.append_assoc ..).trans hsent, h.kept.due, h.kept.got⟩⟩
    · exact Nat.le_of_succ_le hroom
    · exact fun _ _ _ => Nat.le_of_succ_le_succ hroom
    · intro d ops heq
      exact absurd (h.ready.handler d ops heq) (by simp [hthr])

theorem Inv.receive (h : Inv s) (c : UInt8) : Inv
    { s with
      uart := s.uart.receive c
      accepted := if s.uart.receives then s.accepted ++ [c] else s.accepted } := by
  by_cases hr : s.uart.receives
  · simp only [Uart.receive, if_pos hr]
    have hgot := congrArg (· ++ [c]) h.kept.got
    refine ⟨h.dlab, h.fifo, h.lost, h.started, ⟨h.ready.room, h.ready.kernel, h.ready.handler, ?_⟩,
      ⟨h.kept.sent, h.kept.due, (List.append_assoc ..).symm.trans hgot⟩⟩
    exact fun _ _ => by simp
  · simp only [Uart.receive, if_neg hr]
    exact h

theorem Inv.step {a : Act} (h : Inv s) (hst : Step s a s') : Inv s' := by
  cases hst with
  | write text ht hh => exact h.write ht text
  | read ht hh => exact h.read ht
  | @access t op ops ht hh =>
    cases op with
    | waitSend => exact h.waitSend ht
    | out c => exact h.out ht hh
    | waitData => exact h.waitData ht
    | readData => exact h.readData ht
  | transmit => exact h.transmit
  | receive c => exact h.receive c
  | errors v =>
    obtain ⟨hroom, hkernel, hhandler, hread⟩ := h.ready
    obtain ⟨hsent, hdue, hgot⟩ := h.kept
    exact ⟨h.dlab, h.fifo, h.lost, h.started, ⟨hroom, hkernel, hhandler, hread⟩,
      ⟨hsent, hdue, hgot⟩⟩

end

/-- Whatever the chip was set to before, afterwards its data port is the data port and it is
empty. -/
theorem serialInit_fields (u : Uart) : (serialInit u).dlab = false ∧
    (serialInit u).capacity = 16 ∧ (serialInit u).thr = [] ∧ (serialInit u).rbr = [] := by
  have heq : serialInit u =
      { u.outb SERIAL_INT 0 with lcr := 0x03, fcr := 0xC7, rbr := [], thr := [] } := rfl
  rw [heq]
  exact ⟨decide_eq_false (by decide : ¬ (0x03 : UInt8) &&& 0x80 ≠ 0),
    if_pos (by decide : (0xC7 : UInt8) &&& 1 ≠ 0), rfl, rfl⟩

theorem start_inv (u : Uart) : Inv (start u) := by
  obtain ⟨hdlab, hcap, hthr, hrbr⟩ := serialInit_fields u
  have hthr : (start u).uart.thr = [] := hthr
  have hguard := serialWrite_guarded greeting
  refine ⟨hdlab, hcap, rfl, fun t => ?_, ⟨?_, fun c ops _ => ?_, fun _ _ _ => hthr, ?_⟩,
    ⟨?_, fun t => ?_, ?_⟩⟩
  · cases t with
    | kernel => exact Or.inl (Or.inl hguard)
    | handler => exact Or.inl (Or.inl trivial)
  · rw [hthr]
    exact Nat.zero_le 2
  · rw [hthr]
    exact Nat.zero_le 1
  · intro ops heq
    have hops : (start u).todo .kernel = serialWrite true greeting := rfl
    rw [hops] at heq
    exact absurd (heq ▸ hguard) not_guarded_read
  · rw [hthr]
    rfl
  · cases t with
    | kernel => exact pending_serialWrite greeting
    | handler => rfl
  · exact hrbr

theorem run_inv {u : Uart} {tr : List (System × Act × System)} {s : System}
    (h : Run Step (start u) tr s) : Inv s :=
  h.invariant (Q := fun _ _ => True) (fun _ _ _ hi _ hst => hi.step hst) (start_inv u)
    fun _ _ => trivial

/-- Whatever state the chip was in before `serial_init`, and in whatever order kernel, interrupt
handlers and line take their steps: no byte is lost, what is on the line or still in the chip is
what was written, each thread has written a part of what its callers have asked for and goes on
with the rest, and the bytes read are those received, in their order. -/
theorem serial_delivers {u : Uart} {tr : List (System × Act × System)} {s : System}
    (h : Run Step (start u) tr s) : s.uart.lost = [] ∧
      s.uart.line ++ s.uart.thr = s.written.map Prod.snd ∧
      (∀ t, bytesOf t s.written ++ pending (s.todo t) = s.due t) ∧
      s.got ++ s.uart.rbr = s.accepted := by
  have hi := run_inv h
  exact ⟨hi.lost, hi.kept.sent, hi.kept.due, hi.kept.got⟩

/-- A chip that has been left with the divisor in the place of the data, and two bytes in it. -/
def someUart : Uart := ⟨5, 0, 0x83, 1, 0, [1, 2], [], [3], [], 0x40⟩

/-- A handler sends between the loop of the kernel and its write: both bytes go out. -/
theorem serial_delivers_both : ∃ tr s, Run Step (start someUart) tr s ∧
    s.uart.line = [33, 91] ∧ s.uart.lost = [] := by
  have h1 := Run.snoc .nil (Step.access (s := start someUart) (t := .kernel) rfl fun _ => rfl)
  have h2 := h1.snoc (.write (t := .handler) [33] rfl rfl)
  have h3 := h2.snoc (.access (t := .handler) rfl nofun)
  have h4 := h3.snoc (.access (t := .handler) rfl nofun)
  have h5 := h4.snoc (.access (t := .kernel) rfl fun _ => rfl)
  have h6 := (h5.snoc .transmit).snoc .transmit
  exact ⟨_, _, h6, by decide +kernel, (serial_delivers h6).1⟩

/- How long a call takes. -/

def Act.accesses (t : Thread) : Act → Bool
  | .access r => r = t
  | _ => false

/-- A new call of the thread. -/
def Act.calls (t : Thread) : Act → Bool
  | .write r _ => r = t
  | .read => t = .kernel
  | _ => false

/-- The accesses of the thread that find the transmitter empty. -/
def effective (t : Thread) (tr : List (System × Act × System)) : Nat :=
  tr.countP fun e => e.2.1.accesses t && e.1.uart.thr.isEmpty

theorem exec_other {s : System} {t r : Thread} (ops : List Op) (op : Op) (h : r ≠ t) :
    (exec s t ops op).todo r = s.todo r ∧ (exec s t ops op).due r = s.due r := by
  cases op with
  | waitSend =>
    rw [exec]
    split
    · exact ⟨rfl, rfl⟩
    · exact ⟨next_other s ops h, rfl⟩
  | out c => exact ⟨next_other s ops h, rfl⟩
  | waitData =>
    rw [exec]
    split
    · exact ⟨rfl, rfl⟩
    · exact ⟨next_other s ops h, rfl⟩
  | readData => exact ⟨next_other s _ h, if_neg h⟩

/-- An access of a thread that only sends completes an operation, or it finds the transmitter
busy and does nothing. -/
theorem exec_sending {s : System} {t : Thread} {op : Op} {ops : List Op}
    (ht : s.todo t = op :: ops) (hs : Sending (op :: ops)) :
    (exec s t ops op).due t = s.due t ∧
      ((exec s t ops op).todo t = ops ∧ Sending ops ∨
        s.uart.thr ≠ [] ∧ (exec s t ops op).todo t = op :: ops) := by
  cases op with
  | waitSend =>
    rw [exec]
    split
    · next hbusy => exact ⟨rfl, Or.inr ⟨(linestat_send s.uart).mp hbusy, ht⟩⟩
    · exact ⟨rfl, Or.inl ⟨next_same s t ops, Or.inr hs.waitSend⟩⟩
  | out c => exact ⟨rfl, Or.inl ⟨next_same s t ops, Or.inl hs.out⟩⟩
  | waitData => exact absurd hs not_sending_wait
  | readData => exact absurd hs not_sending_read

theorem Step.sending {s s' : System} {a : Act} {t : Thread} (hst : Step s a s')
    (hno : a.calls t = false) (hs : Sending (s.todo t)) :
    s'.due t = s.due t ∧ Sending (s'.todo t) ∧
      (s'.todo t).length + (if a.accesses t && s.uart.thr.isEmpty then 1 else 0) ≤
        (s.todo t).length := by
  cases hst with
  | @write r text ht hh =>
    have hr : r ≠ t := of_decide_eq_false hno
    have hkeep : ((s.next r (serialWrite true text)).owe r (crlf text)).todo t = s.todo t :=
      next_other s _ hr.symm
    rw [hkeep]
    exact ⟨if_neg hr.symm, hs, Nat.le_refl _⟩
  | read ht hh =>
    have hr : t ≠ .kernel := of_decide_eq_false hno
    rw [next_other s _ hr]
    exact ⟨rfl, hs, Nat.le_refl _⟩
  | @access r op ops ht hh =>
    by_cases hr : t = r
    · subst hr
      rw [ht] at hs ⊢
      obtain ⟨hdue, ⟨htodo, hs'⟩ | ⟨hbusy, htodo⟩⟩ := exec_sending ht hs
      · rw [htodo]
        refine ⟨hdue, hs', ?_⟩
        rw [List.length_cons]
        split
        · exact Nat.le_refl _
        · exact Nat.le_succ _
      · rw [htodo, List.isEmpty_eq_false_iff.mpr hbusy, Bool.and_false]
        exact ⟨hdue, hs, Nat.le_refl _⟩
    · have hacc : (Act.access r).accesses t = false := decide_eq_false fun heq => hr heq.symm
      obtain ⟨htodo, hdue⟩ := exec_other (s := s) ops op hr
      rw [htodo, hacc]
      exact ⟨hdue, hs, Nat.le_refl _⟩
  | transmit => exact ⟨rfl, hs, Nat.le_refl _⟩
  | receive c => exact ⟨rfl, hs, Nat.le_refl _⟩
  | errors v => exact ⟨rfl, hs, Nat.le_refl _⟩

/-- Each effective access takes an operation off. -/
theorem sending_run {s s' : System} {tr : List (System × Act × System)} {t : Thread}
    (hrun : Run Step s tr s') (hno : ∀ e ∈ tr, e.2.1.calls t = false) (hs : Sending (s.todo t)) :
    s'.due t = s.due t ∧ Sending (s'.todo t) ∧
      (s'.todo t).length + effective t tr ≤ (s.todo t).length := by
  induction hrun with
  | nil => exact ⟨rfl, hs, Nat.le_refl _⟩
  | @snoc tr u a v _ hst ih =>
    obtain ⟨hdu, hsu, hle⟩ := ih fun e he => hno e (List.mem_append_left _ he)
    obtain ⟨hdv, hsv, hstep⟩ := hst.sending
      (hno _ (List.mem_append_right _ (List.mem_singleton_self _))) hsu
    refine ⟨hdv.trans hdu, hsv, ?_⟩
    have hcount : effective t (tr ++ [(u, a, v)]) =
        effective t tr + if a.accesses t && u.uart.thr.isEmpty then 1 else 0 := by
      rw [effective, List.countP_append, List.countP_singleton]
      rfl
    omega

theorem serialWrite_length (text : List UInt8) :
    (serialWrite true text).length = 2 * (crlf text).length := by
  induction text with
  | nil => rfl
  | cons c text ih =>
    have hc : (serialSend true c).length = 2 * (if c = 10 then [13, 10] else [c]).length := by
      rw [serialSend, if_neg (by decide)]
      split <;> rfl
    simp only [serialWrite, crlf, List.flatMap_cons, List.length_append] at ih ⊢
    omega

/-- A call is through after two accesses that find the transmitter empty for each byte that goes
out, whatever comes in between. -/
theorem send_returns {u : Uart} {tr tr' : List (System × Act × System)} {s t v : System}
    {thread : Thread} {text : List UInt8} (h : Run Step (start u) tr s)
    (hcall : Step s (.write thread text) t) (hrun : Run Step t tr' v)
    (hno : ∀ e ∈ tr', e.2.1.calls thread = false)
    (hmany : 2 * (crlf text).length ≤ effective thread tr') :
    v.todo thread = [] ∧ bytesOf thread v.written = s.due thread ++ crlf text := by
  have hi := (run_inv h).step hcall
  cases hcall with
  | write ht hh =>
    have htodo : ((s.next thread (serialWrite true text)).owe thread (crlf text)).todo thread =
        serialWrite true text := next_same s thread _
    have hdue : ((s.next thread (serialWrite true text)).owe thread (crlf text)).due thread =
        s.due thread ++ crlf text := if_pos rfl
    have hs : Sending (((s.next thread (serialWrite true text)).owe thread
        (crlf text)).todo thread) := by
      rw [htodo]
      exact Or.inl (serialWrite_guarded text)
    obtain ⟨hkeep, -, hle⟩ := sending_run hrun hno hs
    rw [htodo, serialWrite_length] at hle
    have hnil : v.todo thread = [] := List.length_eq_zero_iff.mp (by omega)
    have hv : Inv v := hrun.invariant (Q := fun _ _ => True) (fun _ _ _ hi _ hst => hi.step hst) hi
      fun _ _ => trivial
    have hwritten := hv.kept.due thread
    rw [hnil, hkeep, hdue] at hwritten
    exact ⟨hnil, (List.append_nil _).symm.trans hwritten⟩

/-- The character `!` of a handler, after the greeting. -/
theorem send_returns_mark : ∃ tr s t tr' v, Run Step (start someUart) tr s ∧
    Step s (.write .handler [33]) t ∧ Run Step t tr' v ∧ v.todo .handler = [] ∧
    bytesOf .handler v.written = [33] := by
  have hstart : Run Step (start someUart) [] (start someUart) := .nil
  have hcall := Step.write (s := start someUart) (t := .handler) [33] rfl rfl
  have h1 := Run.snoc .nil
    (Step.access (s := (((start someUart).next .handler (serialWrite true [33])).owe .handler
      (crlf [33]))) (t := .handler) rfl nofun)
  have h2 := h1.snoc (.access (t := .handler) rfl nofun)
  obtain ⟨hnil, hbytes⟩ := send_returns hstart hcall h2 (by decide +kernel) (by decide +kernel)
  exact ⟨_, _, _, _, _, hstart, hcall, h2, hnil, hbytes⟩

end Foos.Serial
