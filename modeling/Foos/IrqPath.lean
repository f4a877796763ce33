import Foos.Idt
import Foos.PicRuns
import Foos.Printf
import Foos.Stubs

/-! An interrupt from the acknowledge cycle of the controllers to the `iret` of its entry code: the
gate that `int_init` has put in the table, the code of `kernel/asm.S` that it leads to, and the two
functions of `kernel/interrupt.c` that call the hooked handlers. -/
namespace Foos.IrqPath
open X86 ByteMemory Transition Stubs Idt Pic Printf

/-- The controllers, and the lines printed so far. -/
structure Io where
  pics : Pair
  printed : List Call

/-- Beside them each call of a handler is written down, with the copy of the structure that the
handler got. -/
structure Devices where
  io : Io
  calls : List (Nat × Registers)

def Devices.withPics (d : Devices) (p : Pair) : Devices := { d with io := { d.io with pics := p } }

/-- The kernel as it is linked: the entry codes at their addresses, the address behind their calls,
and what the handlers do. A handler is called with a copy, and is back where it was called. -/
structure Image where
  link : IntLink
  codeAt : Nat → Option Stubs.Code
  linked : ∀ n < 48, codeAt (link.stub n) = Stubs.entries[n]?
  ret : UInt32
  function : Nat → Registers → Machine Io → Option (Machine Io)

/-- The statics of `interrupt.c` that are read at an interrupt. -/
structure Tables where
  handlers : Nat
  idtrLimit : Nat
  idtrBase : Nat

/-- `h(regs)` -/
def Image.call (K : Image) (h : Nat) (regs : Registers) (m : Machine Devices) :
    Option (Machine Devices) :=
  (K.function h regs ⟨m.cpu, m.dev.io⟩).map fun t => ⟨t.cpu, ⟨t.dev, m.dev.calls ++ [(h, regs)]⟩⟩

def ret (m : Machine Devices) : Machine Devices := m.onCpu fun s => s.discard 4

def intHandler (K : Image) (handlers : Nat) (m : Machine Devices) : Option (Machine Devices) :=
  let regs := registers m.cpu.mem (m.cpu.esp + 4)
  let h := load32 m.cpu.mem (handlers + regs.intNo.toNat * 4)
  if h ≠ 0 then (K.call h regs m).map ret
  else
    let line := printf "Unhandled interrupt 0x%x\n" [.word regs.intNo]
    let io := { m.dev.io with printed := m.dev.io.printed ++ [line] }
    some (ret { m with dev := { m.dev with io := io } })

/-- The argument of `pic_send_eoi` is a byte. -/
def irqHandler (K : Image) (handlers : Nat) (m : Machine Devices) : Option (Machine Devices) :=
  let regs := registers m.cpu.mem (m.cpu.esp + 4)
  let irq := (regs.intNo - 0x20).toUInt8.toNat
  let m := { m with dev := m.dev.withPics (picSendEoi m.dev.io.pics irq) }
  let h := load32 m.cpu.mem (handlers + regs.intNo.toNat * 4)
  if h ≠ 0 then (K.call h regs m).map ret else some (ret m)

def callee (K : Image) (handlers : Nat) :
    Callee → Machine Devices → Option (Machine Devices)
  | .intHandler => intHandler K handlers
  | .irqHandler => irqHandler K handlers

/-- The processor goes through the gate of a vector, which has to be one of 32 bits that turns
interrupts off. -/
def interrupt (K : Image) (T : Tables) (n : Nat) (code : Option UInt32) (m : Machine Devices) :
    Option (Machine Devices) := do
  let g ← lookup T.idtrLimit T.idtrBase m.cpu.mem n
  if g.flags &&& 0x1F ≠ 0x0E then none
  else
    let is ← K.codeAt g.offset
    let cpu := deliver (UInt16.ofNat g.selector) (UInt32.ofNat g.offset) code m.cpu
    run K.ret (callee K T.handlers) is ⟨cpu, m.dev⟩

/-- The vector that the processor reads from the controllers; a request of the slave may go away
in between. -/
def Acknowledged (p : Pair) (r : Nat × Pair) : Prop :=
  r = inta p ∨ ∃ line, p.master.ready p.requests = some line ∧
    bit p.master.cascade line = true ∧
    r = (p.slave.offset.toNat + 7, { p with master := p.master.take line })

def irq (K : Image) (T : Tables) (r : Nat × Pair) (m : Machine Devices) :
    Option (Machine Devices) :=
  interrupt K T r.1 none { m with dev := m.dev.withPics r.2 }

/-- What the code relies on in the handlers that return: the stack pointer and the frame are as
they were, the two tables too, and what is in service. -/
def Tame (K : Image) (T : Tables) : Prop :=
  ∀ h regs m t, K.function h regs m = some t →
    t.cpu.reg .esp = m.cpu.reg .esp ∧
    (∀ y, m.cpu.esp ≤ y → y < m.cpu.esp + 60 → t.cpu.mem y = m.cpu.mem y) ∧
    (∀ y, ¬ Outside (tables T.idtrBase T.handlers) y → t.cpu.mem y = m.cpu.mem y) ∧
    (Wired m.dev.pics → Wired t.dev.pics) ∧
    (Clear m.dev.pics → Clear t.dev.pics)

/-- The stack that `kernel/entry.S` gives the kernel. -/
def kernelStack : Nat × Nat := (0x100000, 0x300000)

/-- There is room on it for the frame of an entry code. -/
def OnStack (s : Cpu) : Prop := 0x100000 + 64 ≤ s.esp ∧ s.esp ≤ 0x400000

instance (s : Cpu) : Decidable (OnStack s) := inferInstanceAs (Decidable (_ ∧ _))

/-- There is room for the frame, apart from the tables. -/
structure Room (T : Tables) (s : Cpu) : Prop where
  low : 64 ≤ s.esp
  apart : Apart (tables T.idtrBase T.handlers) (s.esp - 64) 64

section
variable {K : Image} {T : Tables} {tab : Nat → Nat} {m t : Machine Devices} {n : Nat}

/-- The gates lead to the entry codes. -/
theorem interrupt_stub (hlimit : T.idtrLimit = 2047)
    (hinst : Installed K.link T.idtrBase T.handlers tab m.cpu.mem) (hn : n < 48)
    {is : Stubs.Code} (his : Stubs.entries[n]? = some is) (code : Option UInt32) :
    interrupt K T n code m = run K.ret (callee K T.handlers) is
      ⟨deliver 8 (UInt32.ofNat (K.link.stub n)) code m.cpu, m.dev⟩ := by
  have hlook := hinst.lookup n
  rw [if_pos hn] at hlook
  have hgate : ¬ (0x8E : UInt8) &&& 0x1F ≠ 0x0E := by decide
  have hseg : UInt16.ofNat CODESEG = 8 := rfl
  rw [interrupt, hlimit, hlook]
  simp only [Option.bind_eq_bind, Option.bind_some, if_neg hgate, K.linked n hn, his, hseg]

theorem entry_of {n : Nat} (hn : n < 48) : ∃ is, Stubs.entries[n]? = some is :=
  ⟨_, entries_get n hn⟩

/-- At the entry of the function the tables are still those that were installed. -/
theorem called_installed {c s : Cpu} {code : UInt32}
    (hinst : Installed K.link T.idtrBase T.handlers tab s.mem) (hc : Called s n code c)
    (hroom : Room T s) : Installed K.link T.idtrBase T.handlers tab c.mem := by
  refine hinst.congr fun y hy => hc.mem y ?_
  rw [outside_single]
  by_contra hin
  exact hy (hroom.apart.outside (by omega) (by omega))

theorem saved_number (s : Cpu) (no code : UInt32) : (saved s no code).intNo = no := rfl

theorem number_toNat (hn : n < 48) : (UInt32.ofNat n).toNat = n := by
  rw [UInt32.toNat_ofNat']
  exact Nat.mod_eq_of_lt (by omega)

/-- The word of the table that both functions look at. -/
theorem called_handler {c s : Cpu} {code : UInt32}
    (hinst : Installed K.link T.idtrBase T.handlers tab s.mem) (hc : Called s n code c)
    (hroom : Room T s) (hn : n < 48) :
    load32 c.mem (T.handlers + (UInt32.ofNat n).toNat * 4) = tab n := by
  rw [number_toNat hn]
  exact (called_installed hinst hc hroom).handler n (by omega)

theorem irq_number {n : Nat} (hirq : IsIrq n) :
    (UInt32.ofNat n - 0x20).toUInt8.toNat = n - 0x20 := by
  obtain ⟨h1, h2⟩ := hirq
  have hle : (0x20 : UInt32) ≤ UInt32.ofNat n := by
    rw [UInt32.le_iff_toNat_le, number_toNat (by omega)]
    exact h1
  rw [UInt32.toNat_toUInt8, UInt32.toNat_sub_of_le _ _ hle, number_toNat (by omega)]
  exact Nat.mod_eq_of_lt (by change n - 32 < 256; omega)

/-- `irq_handler` on the frame of an entry code: the end of interrupt comes first, and the handler
gets the interrupted state. -/
theorem irqHandler_called {c s : Cpu} {dev : Devices}
    (hinst : Installed K.link T.idtrBase T.handlers tab s.mem) (hc : Called s n 0 c)
    (hroom : Room T s) (hirq : IsIrq n) :
    irqHandler K T.handlers ⟨c, dev⟩ =
      if tab n ≠ 0 then
        (K.call (tab n) (saved s (UInt32.ofNat n) 0)
          ⟨c, dev.withPics (picSendEoi dev.io.pics (n - 0x20))⟩).map ret
      else some (ret ⟨c, dev.withPics (picSendEoi dev.io.pics (n - 0x20))⟩) := by
  simp only [irqHandler, hc.regs, saved_number, irq_number hirq,
    called_handler hinst hc hroom hirq.2]

/-- `int_handler` on the frame of an entry code. -/
theorem intHandler_called {c s : Cpu} {code : UInt32} {dev : Devices}
    (hinst : Installed K.link T.idtrBase T.handlers tab s.mem) (hc : Called s n code c)
    (hroom : Room T s) (hn : n < 48) :
    intHandler K T.handlers ⟨c, dev⟩ =
      if tab n ≠ 0 then (K.call (tab n) (saved s (UInt32.ofNat n) code) ⟨c, dev⟩).map ret
      else some (ret ⟨c, { dev with io := { dev.io with printed := dev.io.printed ++
        [printf "Unhandled interrupt 0x%x\n" [.word (UInt32.ofNat n)]] } }⟩) := by
  simp only [intHandler, hc.regs, saved_number, called_handler hinst hc hroom hn]

/-- A handler that keeps the frame: the function comes back as the entry code counts on. -/
theorem call_returned (htame : Tame K T) {h : Nat} {regs : Registers}
    (ht : K.call h regs m = some t) :
    Returned m.cpu (ret t).cpu ∧ Untouched m.cpu (ret t).cpu := by
  obtain ⟨u, hu, rfl⟩ := Option.map_eq_some_iff.mp ht
  obtain ⟨hesp, hframe, -⟩ := htame h regs _ u hu
  constructor
  · exact (set_reg _ _ _).trans (congrArg (· + 4) hesp)
  · exact fun y h1 h2 => hframe y (Nat.le_trans (Nat.le_add_right _ 4) h1) h2

theorem ret_returned (m : Machine Devices) :
    Returned m.cpu (ret m).cpu ∧ Untouched m.cpu (ret m).cpu :=
  ⟨set_reg _ _ _, fun _ _ _ => rfl⟩

/-- An interrupt from `s` to `t` that finds `h` in the table and has led to `io` when the handler
is called: the interrupted code goes on, and the handler, if there is one, was called once, on the
interrupted state. -/
structure Handled (K : Image) (h n : Nat) (code : UInt32) (io : Io) (s t : Machine Devices) :
    Prop where
  goesOn : GoesOn s.cpu t.cpu
  calls : t.dev.calls =
    s.dev.calls ++ if h = 0 then [] else [(h, saved s.cpu (UInt32.ofNat n) code)]
  called : ∃ c u, Called s.cpu n code c ∧ t.cpu.mem = u.mem ∧
    if h = 0 then u = c ∧ t.dev.io = io
    else K.function h (saved s.cpu (UInt32.ofNat n) code) ⟨c, io⟩ = some ⟨u, t.dev.io⟩

/-- What an entry code makes of a function that calls the handler `h` and returns. -/
theorem entry_handled (htame : Tame K T) (h : Nat) (io : Io) {is : Stubs.Code}
    (his : Stubs.entries[n]? = some is) (hlow : 64 ≤ m.cpu.esp) {code : Option UInt32}
    (hcode : code.isSome = true ↔ takesCode n) (cs : UInt16) (eip : UInt32)
    (hf : ∀ c, Called m.cpu n (code.getD 0) c → callee K T.handlers (calleeOf n) ⟨c, m.dev⟩ =
      if h ≠ 0 then
        (K.call h (saved m.cpu (UInt32.ofNat n) (code.getD 0)) ⟨c, ⟨io, m.dev.calls⟩⟩).map ret
      else some (ret ⟨c, ⟨io, m.dev.calls⟩⟩)) :
    (∀ t, run K.ret (callee K T.handlers) is ⟨deliver cs eip code m.cpu, m.dev⟩ = some t →
      Handled K h n (code.getD 0) io m t) ∧
    (run K.ret (callee K T.handlers) is ⟨deliver cs eip code m.cpu, m.dev⟩ = none →
      h ≠ 0 ∧ ∃ c, K.function h (saved m.cpu (UInt32.ofNat n) (code.getD 0)) ⟨c, io⟩ = none) := by
  have hcall := atCall_called hlow hcode K.ret cs eip
  have hrun := entry_run his K.ret (callee K T.handlers) cs eip code m.cpu m.dev
  rw [hf _ hcall] at hrun
  rw [hrun]
  by_cases hh : h = 0
  · rw [if_neg (not_not_intro hh)]
    constructor
    · intro t ht
      obtain rfl := Option.some.inj ht
      obtain ⟨hret, hkeep⟩ := ret_returned ⟨atCall K.ret n cs eip code m.cpu, ⟨io, m.dev.calls⟩⟩
      refine ⟨leave_goesOn hcall hret hkeep, ?_, _, _, hcall,
        (leave_mem _ _).trans (discard_mem _ _), ?_⟩
      · rw [if_pos hh, List.append_nil]
        rfl
      · rw [if_pos hh]
        exact ⟨rfl, rfl⟩
    · intro hnone
      exact absurd hnone (by simp)
  · rw [if_pos hh]
    constructor
    · intro t ht
      rw [Option.map_map, Option.map_eq_some_iff] at ht
      obtain ⟨v, hv, rfl⟩ := ht
      obtain ⟨hret, hkeep⟩ := call_returned htame hv
      obtain ⟨u, hu, rfl⟩ := Option.map_eq_some_iff.mp hv
      refine ⟨leave_goesOn hcall hret hkeep, ?_, _, u.cpu, hcall, leave_mem _ _, ?_⟩
      · rw [if_neg hh]
        rfl
      · rw [if_neg hh]
        exact hu
    · intro hnone
      rw [Option.map_eq_none_iff, Option.map_eq_none_iff] at hnone
      exact ⟨hh, _, Option.map_eq_none_iff.mp hnone⟩

/-- Where an interrupt of the controllers leads before its handler is called. -/
def atIrq (r : Nat × Pair) (io : Io) : Io := { io with pics := picSendEoi r.2 (r.1 - 0x20) }

/-- An exception without a handler is printed. -/
def atException (h n : Nat) (io : Io) : Io :=
  if h ≠ 0 then io
  else { io with printed := io.printed ++
    [printf "Unhandled interrupt 0x%x\n" [.word (UInt32.ofNat n)]] }

theorem irq_handled (htame : Tame K T) (hlimit : T.idtrLimit = 2047)
    (hinst : Installed K.link T.idtrBase T.handlers tab m.cpu.mem) (hroom : Room T m.cpu)
    {r : Nat × Pair} (hirq : IsIrq r.1) :
    (∀ t, irq K T r m = some t → Handled K (tab r.1) r.1 0 (atIrq r m.dev.io) m t) ∧
      (irq K T r m = none → tab r.1 ≠ 0 ∧ ∃ regs c,
        K.function (tab r.1) regs ⟨c, atIrq r m.dev.io⟩ = none) := by
  have hn : r.1 < 48 := hirq.2
  obtain ⟨is, his⟩ := entry_of hn
  have hcode : (none : Option UInt32).isSome = true ↔ takesCode r.1 := by
    have := hirq.1
    simp only [takesCode, Option.isSome_none, Bool.false_eq_true, false_iff]
    omega
  have hcallee : calleeOf r.1 = .irqHandler := if_pos hirq.1
  obtain ⟨hsome, hnone⟩ := entry_handled htame (tab r.1) (atIrq r m.dev.io) his
    (m := { m with dev := m.dev.withPics r.2 }) hroom.low hcode 8
    (UInt32.ofNat (K.link.stub r.1)) fun c hc => by
      rw [hcallee]
      exact irqHandler_called hinst hc hroom hirq
  rw [irq, interrupt_stub (m := { m with dev := m.dev.withPics r.2 }) hlimit hinst hn his]
  refine ⟨fun t ht => ?_, fun h => ?_⟩
  · obtain ⟨hgo, hcalls, hcalled⟩ := hsome t ht
    exact ⟨hgo, hcalls, hcalled⟩
  · obtain ⟨hh, c, hc⟩ := hnone h
    exact ⟨hh, _, c, hc⟩

theorem exception_handled (htame : Tame K T) (hlimit : T.idtrLimit = 2047)
    (hinst : Installed K.link T.idtrBase T.handlers tab m.cpu.mem) (hroom : Room T m.cpu)
    (hn : n < 32) {code : Option UInt32} (hcode : code.isSome = true ↔ takesCode n) :
    (∀ t, interrupt K T n code m = some t →
      Handled K (tab n) n (code.getD 0) (atException (tab n) n m.dev.io) m t) ∧
      (interrupt K T n code m = none → tab n ≠ 0 ∧ ∃ regs c,
        K.function (tab n) regs ⟨c, m.dev.io⟩ = none) := by
  obtain ⟨is, his⟩ := entry_of (n := n) (by omega)
  have hcallee : calleeOf n = .intHandler := if_neg (by omega)
  obtain ⟨hsome, hnone⟩ := entry_handled htame (tab n) (atException (tab n) n m.dev.io) his
    (m := m) hroom.low hcode 8 (UInt32.ofNat (K.link.stub n)) fun c hc => by
      rw [hcallee]
      refine (intHandler_called hinst hc hroom (by omega)).trans ?_
      by_cases hh : tab n ≠ 0
      · rw [if_pos hh, if_pos hh, atException, if_pos hh]
      · rw [if_neg hh, if_neg hh, atException, if_neg hh]
  rw [interrupt_stub hlimit hinst (by omega) his]
  refine ⟨hsome, fun h => ?_⟩
  obtain ⟨hh, c, hc⟩ := hnone h
  rw [atException, if_pos hh] at hc
  exact ⟨hh, _, c, hc⟩

/-- What the devices do to the controllers, and what the kernel does outside of `irq_handler`. -/
inductive Moves (p : Pair) : Pair → Prop
  | request {line : Nat} (on : Bool) (h2 : line ≠ 2) : Moves p (request p line on)
  | irqDisable (no : Nat) : Moves p (irqDisable p no)
  | irqEnable (no : Nat) : Moves p (irqEnable p no)

theorem Moves.keeps {p q : Pair} (h : Moves p q) (hw : Wired p) (hc : Clear p) :
    Wired q ∧ Clear q := by
  cases h with
  | request on h2 =>
    obtain ⟨hw', hm, hs⟩ := hw.request h2 on
    exact ⟨hw', hm.trans hc.1, hs.trans hc.2⟩
  | irqDisable no =>
    obtain ⟨m, s, heq⟩ := hw.irqDisable no
    rw [heq]
    exact ⟨hw.masks m s, hc⟩
  | irqEnable no =>
    obtain ⟨m, s, heq⟩ := hw.irqEnable no
    rw [heq]
    exact ⟨hw.masks m s, hc⟩

/-- Steps of the whole machine between interrupts, and the interrupts. -/
inductive Act where
  | kernel
  | hook (no : UInt8) (handler : UInt32)
  | pics
  | irq (r : Nat × Pair)
  | exception (n : Nat) (code : Option UInt32)

def Act.hooked : Act → (Nat → Nat) → Nat → Nat
  | .hook no handler, tab => Function.update tab no.toNat handler.toNat
  | _, tab => tab

/-- The handlers after some steps. -/
def hookedAfter (tab : Nat → Nat) (tr : List (Machine Devices × Act × Machine Devices)) :
    Nat → Nat := tr.foldl (fun tab e => e.2.1.hooked tab) tab

/-- Kernel code changes the processor and memory at will, except for the two tables. An interrupt
of the controllers needs the interrupt flag, an exception comes at any time. -/
inductive Step (K : Image) (T : Tables) (s : Machine Devices) : Act → Machine Devices → Prop
  | kernel {t : Machine Devices}
    (hmem : ∀ y, ¬ Outside (tables T.idtrBase T.handlers) y → t.cpu.mem y = s.cpu.mem y)
    (hpics : t.dev.io.pics = s.dev.io.pics) : Step K T s .kernel t
  | hook (no : UInt8) (handler : UInt32) : Step K T s (.hook no handler) (s.onCpu fun c =>
      { c with mem := intHookHandler T.handlers no.toNat handler.toNat c.mem })
  | pics {p : Pair} (h : Moves s.dev.io.pics p) :
    Step K T s .pics { s with dev := s.dev.withPics p }
  | irq {r : Nat × Pair} {t : Machine Devices} (hints : s.cpu.eflags &&& IF ≠ 0)
    (hstack : OnStack s.cpu) (hack : Acknowledged s.dev.io.pics r) (h : irq K T r s = some t) :
    Step K T s (.irq r) t
  | exception {n : Nat} {code : Option UInt32} {t : Machine Devices} (hn : n < 32)
    (hcode : code.isSome = true ↔ takesCode n) (hstack : OnStack s.cpu)
    (h : interrupt K T n code s = some t) : Step K T s (.exception n code) t

/-- Between interrupts: the tables are installed, and nothing is in service. -/
structure Ready (K : Image) (T : Tables) (tab : Nat → Nat) (s : Machine Devices) : Prop where
  limit : T.idtrLimit = 2047
  disjoint : Idt.Disjoint T.idtrBase T.handlers
  stack : Apart (tables T.idtrBase T.handlers) kernelStack.1 kernelStack.2
  installed : Installed K.link T.idtrBase T.handlers tab s.cpu.mem
  wired : Wired s.dev.io.pics
  clear : Clear s.dev.io.pics

theorem Ready.room (hr : Ready K T tab m) (h : OnStack m.cpu) : Room T m.cpu := by
  obtain ⟨h1, h2⟩ := h
  refine ⟨by omega, hr.stack.sub (Nat.le_sub_of_add_le h1) ?_⟩
  rw [Nat.sub_add_cancel (by omega)]
  exact h2

/-- The acknowledge cycle finds a gate, and the end of interrupt leaves nothing in service. -/
theorem Acknowledged.served {p : Pair} {r : Nat × Pair} (h : Acknowledged p r) (hw : Wired p)
    (hc : Clear p) : IsIrq r.1 ∧ Wired (picSendEoi r.2 (r.1 - 0x20)) ∧
      Clear (picSendEoi r.2 (r.1 - 0x20)) := by
  have hservice : IsIrq r.1 ∧ InService r.2 r.1 ∧ Wired r.2 := by
    cases h with
    | inl h =>
      rw [h]
      exact hw.inta_service hc
    | inr h =>
      obtain ⟨line, hready, hcas, rfl⟩ := h
      exact hw.late_service hc hready hcas
  obtain ⟨hirq, hin, hw'⟩ := hservice
  exact ⟨hirq, hw'.eoi _, hin.eoi hirq⟩

/-- A handler that is called leaves the tables as the entry code has found them. -/
theorem Handled.ready (htame : Tame K T) (hroom : Room T m.cpu) {h : Nat} {code : UInt32} {io : Io}
    (hr : Ready K T tab m) (hh : Handled K h n code io m t) (hw : Wired io.pics)
    (hc : Clear io.pics) : Ready K T tab t := by
  obtain ⟨-, -, c, u, hcalled, hmem, hu⟩ := hh
  have hinst := called_installed hr.installed hcalled hroom
  by_cases h0 : h = 0
  · rw [if_pos h0] at hu
    obtain ⟨rfl, hio⟩ := hu
    exact ⟨hr.limit, hr.disjoint, hr.stack, hmem ▸ hinst, hio ▸ hw, hio ▸ hc⟩
  · rw [if_neg h0] at hu
    obtain ⟨-, -, htables, hwired, hclear⟩ := htame h _ _ _ hu
    exact ⟨hr.limit, hr.disjoint, hr.stack, hmem ▸ hinst.congr htables, hwired hw, hclear hc⟩

theorem atException_pics (h n : Nat) (io : Io) : (atException h n io).pics = io.pics := by
  rw [atException]
  split <;> rfl

theorem Ready.step (htame : Tame K T) {a : Act} (hr : Ready K T tab m) (hst : Step K T m a t) :
    Ready K T (a.hooked tab) t := by
  cases hst with
  | kernel hmem hpics =>
    exact ⟨hr.limit, hr.disjoint, hr.stack, hr.installed.congr hmem, hpics ▸ hr.wired,
      hpics ▸ hr.clear⟩
  | hook no handler =>
    exact ⟨hr.limit, hr.disjoint, hr.stack,
      hr.installed.hook hr.disjoint no.toNat_lt handler.toNat_lt, hr.wired, hr.clear⟩
  | pics h =>
    obtain ⟨hw, hc⟩ := h.keeps hr.wired hr.clear
    exact ⟨hr.limit, hr.disjoint, hr.stack, hr.installed, hw, hc⟩
  | irq hints hstack hack h =>
    have hroom := hr.room hstack
    obtain ⟨hirq, hw, hc⟩ := hack.served hr.wired hr.clear
    exact ((irq_handled htame hr.limit hr.installed hroom hirq).1 t h).ready htame hroom hr hw hc
  | @exception n code t hn hcode hstack h =>
    have hroom := hr.room hstack
    have hh := (exception_handled htame hr.limit hr.installed hroom hn hcode).1 t h
    have hpics := atException_pics (tab n) n m.dev.io
    exact hh.ready htame hroom hr (hpics ▸ hr.wired) (hpics ▸ hr.clear)

theorem Ready.run (htame : Tame K T) {tr : List (Machine Devices × Act × Machine Devices)}
    (hr : Ready K T tab m) (hrun : Run (Step K T) m tr t) : Ready K T (hookedAfter tab tr) t := by
  induction hrun with
  | nil => exact hr
  | snoc _ hst ih =>
    rw [hookedAfter, List.foldl_append]
    exact ih.step htame hst

end

def tablesOf (b : Idt.State) : Tables := ⟨b.handlers, b.idtrLimit, b.idtrBase⟩

/-- Entry codes of 32 bytes each, and handlers that do nothing. -/
def someImage : Image where
  link := someLink
  codeAt a := if (a - 0x2000) % 32 = 0 then Stubs.entries[(a - 0x2000) / 32]? else none
  linked n hn := by
    have hstub : someLink.stub n - 0x2000 = n * 32 := by
      change 0x2000 + n % 48 * 32 - 0x2000 = n * 32
      omega
    rw [hstub, Nat.mul_mod_left, if_pos rfl, Nat.mul_div_cancel _ (by decide)]
  ret := 0x1800
  function _ _ m := some m

theorem someImage_tame (T : Tables) : Tame someImage T := by
  intro h regs m t ht
  obtain rfl := Option.some.inj ht
  exact ⟨rfl, fun _ _ _ => rfl, fun _ _ => rfl, id, id⟩

/-- The controllers with the keyboard enabled and a key pressed. -/
def keyPics : Pair := request (irqEnable (picRemap someChips 0x20 0x28) 1) 1 true

end Foos.IrqPath
