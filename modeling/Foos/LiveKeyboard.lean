import Foos.Interrupts
import Foos.LifeCycle

/-! Opening and closing the terminal, with the interrupt controllers, the table of handlers and the
static `current_tty`. -/
namespace Foos.LiveKeyboard
open Program Kmalloc Terminal Interrupts Transition Devices

inductive Handler where
  | null
  | kbdIrq
  | other (address : Nat)
  deriving DecidableEq

/-- What the terminal driver reaches outside memory. -/
structure Board where
  con : Console
  init : Bool
  keys : List UInt8
  ports : Ports
  handlers : Nat → Handler
  currentTty : Nat

def Board.onPorts (b : Board) (f : Ports → Ports) : Board := { b with ports := f b.ports }

def onBoard (no : Nat) (f : Board → Board) : Code Board Unit := modify fun w =>
  { w with driver := Function.update w.driver no (f (w.driver no)) }

def intHookHandler (no vec : Nat) (handler : Handler) : Code Board Unit :=
  onBoard no fun b => { b with handlers := Function.update b.handlers vec handler }

def ttyInit (no : Nat) : Code Board Int := do
  let init ← read fun w => (w.driver no).init
  if init then pure (-1)
  else do
    onBoard no fun b => { b with init := true }
    intHookHandler no 0x21 .kbdIrq
    onBoard no fun b => b.onPorts fun io => irqEnable io 1
    pure 0

def ttydevOpen (h : Heap) (no _flags : Nat) : Code Board Int := do
  let data ← read fun w => (w.devs no).data
  if data ≠ 0 then do
    setErrno EBUSY
    pure (-EBUSY)
  else do
    let _ ← ttyInit no
    let ptr ← kmalloc h ttySize
    onBoard no fun b =>
      { b with
        con := ttyCreate (ttyGetCursor (ttyEnableCursor b.con.vga 0xE 0xF)).2
        currentTty := ptr }
    modify fun w => w.setData no ptr
    pure 0

def ttydevClose (h : Heap) (no : Nat) : Code Board Int := do
  let data ← read fun w => (w.devs no).data
  kfree h data
  modify fun w => w.setData no 0
  onBoard no fun b => b.onPorts fun io => irqDisable io 1
  pure 0

/-- The entry of the terminal; its other hooks are not called here. -/
def tty (h : Heap) (d : Device Board) : Device Board :=
  { d with
    openHook := some (ttydevOpen h)
    close := some (ttydevClose h) }

def table (h : Heap) (d : Device Board) : List (Device Board) := devs h (tty h d)

/-- The driver with a flag in place of the controllers. -/
def Board.lower (b : Board) : Driver := ⟨b.con, b.init, !decide (Masked b.ports 1), b.keys⟩

def lower (w : World Board) : World Driver :=
  ⟨w.k, w.devs, fun no => (w.driver no).lower, w.rdFiles, w.fileBase, w.rdNfiles, w.rdRoot, w.trace⟩

/-- The world after a driver's statics were changed. -/
def onWorld {δ : Type} (no : Nat) (f : δ → δ) (w : World δ) : World δ :=
  { w with driver := Function.update w.driver no (f (w.driver no)) }

theorem onWorld_onWorld {δ : Type} (no : Nat) (f g : δ → δ) (w : World δ) :
    onWorld no g (onWorld no f w) = onWorld no (fun b => g (f b)) w := by
  simp only [onWorld, Function.update_self, Function.update_idem]

theorem lower_onWorld {f : Board → Board} {g : Driver → Driver}
    (h : ∀ b, (f b).lower = g b.lower) (no : Nat) (w : World Board) :
    lower (onWorld no f w) = onWorld no g (lower w) := by
  have hupd : (fun i => (Function.update w.driver no (f (w.driver no)) i).lower) =
      Function.update (fun i => (w.driver i).lower) no (g (w.driver no).lower) := by
    rw [← h]
    exact funext fun i => Function.apply_update (fun _ => Board.lower) w.driver no _ i
  simp only [lower, onWorld, hupd]

/-- What `tty_init` leaves of the board when it runs for the first time. -/
def Board.start (b : Board) : Board :=
  { b with
    init := true
    handlers := Function.update b.handlers 0x21 .kbdIrq
    ports := irqEnable b.ports 1 }

def Board.boot (b : Board) : Board := if b.init then b else b.start

theorem boot_again {b : Board} (h : b.init = true) : b.boot = b := if_pos h

theorem boot_first {b : Board} (h : b.init = false) : b.boot = b.start :=
  if_neg (Bool.eq_false_iff.mp h)

theorem ttyInit_run (no : Nat) (w : World Board) :
    ttyInit no w = .ret (if (w.driver no).init then -1 else 0) (onWorld no Board.boot w) := by
  rw [ttyInit, read_bind_run]
  cases h : (w.driver no).init with
  | true =>
    have hsame : onWorld no Board.boot w = w := by
      rw [onWorld, boot_again h, Function.update_eq_self]
    rw [hsame]
    rfl
  | false =>
    have hfirst : onWorld no Board.boot w = onWorld no Board.start w := by
      rw [onWorld, boot_first h, onWorld]
    have hsteps : onWorld no Board.start w =
        onWorld no (fun b => b.onPorts fun io => irqEnable io 1)
          (onWorld no (fun b => { b with handlers := Function.update b.handlers 0x21 .kbdIrq })
            (onWorld no (fun b => { b with init := true }) w)) := by
      rw [onWorld_onWorld, onWorld_onWorld]
      rfl
    rw [hfirst, hsteps]
    rfl

/-- The board when the structure at `p` was created. -/
def Board.create (p : Nat) (b : Board) : Board :=
  { b with
    con := ttyCreate (ttyGetCursor (ttyEnableCursor b.con.vga 0xE 0xF)).2
    currentTty := p }

/-- The world after the terminal was opened, with the machine that `kmalloc` left. -/
def opened (no p : Nat) (k : Machine) (w : World Board) : World Board :=
  (onWorld no (fun b => b.boot.create p) { w with k := k }).setData no p

theorem opened_board (no p : Nat) (k : Machine) (w : World Board) :
    (opened no p k w).driver no = (w.driver no).boot.create p := Function.update_self no _ w.driver

theorem ttydevOpen_new {h : Heap} {no p : Nat} {k : Machine} {w : World Board} (flags : Nat)
    (hdata : (w.devs no).data = 0) (halloc : h.kmalloca w.k ttySize 0 = some (p, k)) :
    ttydevOpen h no flags w = .ret 0 (opened no p k w) := by
  have hmalloc : kmalloc h ttySize (onWorld no Board.boot w) =
    .ret p { onWorld no Board.boot w with k := k } := kmalloc_run halloc
  rw [ttydevOpen, read_bind_run, if_neg (not_not.mpr hdata), bind_ret (ttyInit_run no w),
    bind_ret hmalloc, opened, ← onWorld_onWorld no Board.boot (Board.create p)]
  rfl

theorem ttydevOpen_busy {h : Heap} {no : Nat} {w : World Board} (flags : Nat)
    (hdata : (w.devs no).data ≠ 0) : ttydevOpen h no flags w =
      .ret (-EBUSY) { w with k := { w.k with errno := EBUSY } } := by
  rw [ttydevOpen, read_bind_run, if_pos hdata]
  rfl

theorem ttydevOpen_spin {h : Heap} {no : Nat} {w : World Board} (flags : Nat)
    (hdata : (w.devs no).data = 0) (halloc : h.kmalloca w.k ttySize 0 = none) :
    ttydevOpen h no flags w = .spin (onWorld no Board.boot w) := by
  have hmalloc : kmalloc h ttySize (onWorld no Board.boot w) = .spin (onWorld no Board.boot w) :=
    update_spin (by rw [show (onWorld no Board.boot w).k = w.k from rfl, halloc]; rfl)
  rw [ttydevOpen, read_bind_run, if_neg (not_not.mpr hdata), bind_ret (ttyInit_run no w),
    bind_spin hmalloc]

/-- The world after the structure was freed. -/
def closed (no : Nat) (k : Machine) (w : World Board) : World Board :=
  onWorld no (fun b => b.onPorts fun io => irqDisable io 1) ({ w with k := k }.setData no 0)

theorem closed_board (no : Nat) (k : Machine) (w : World Board) :
    (closed no k w).driver no = (w.driver no).onPorts fun io => irqDisable io 1 :=
  Function.update_self no _ w.driver

theorem ttydevClose_run {h : Heap} {no : Nat} {k : Machine} {w : World Board}
    (hfree : h.kfree w.k (w.devs no).data = some k) :
    ttydevClose h no w = .ret 0 (closed no k w) := by
  have hrun : kfree h (w.devs no).data w = .ret () { w with k := k } :=
    update_run (by rw [hfree]; rfl)
  rw [ttydevClose, read_bind_run, bind_ret hrun]
  rfl

theorem ttydevClose_spin {h : Heap} {no : Nat} {w : World Board}
    (hfree : h.kfree w.k (w.devs no).data = none) : ttydevClose h no w = .spin w := by
  have hrun : kfree h (w.devs no).data w = .spin w := update_spin (by rw [hfree]; rfl)
  rw [ttydevClose, read_bind_run, bind_spin hrun]

/-! The hooks with the flag do the same on what they see. -/

theorem follows_onBoard {f : Board → Board} {g : Driver → Driver}
    (h : ∀ b, (f b).lower = g b.lower) (no : Nat) :
    Follows lower (onBoard no f) (onDriver no g) :=
  follows_modify fun w => lower_onWorld h no w

theorem follows_kmalloc (h : Heap) (sz : Nat) :
    Follows lower (kmalloc h sz) (kmalloc h sz) := by
  refine follows_update fun w => ?_
  rw [Option.map_map]
  rfl

theorem follows_kfree (h : Heap) (ptr : Nat) : Follows lower (kfree h ptr) (kfree h ptr) := by
  refine follows_update fun w => ?_
  rw [Option.map_map]
  rfl

theorem follows_ttyInit (no : Nat) : Follows lower (ttyInit no) (Terminal.ttyInit no) := by
  have hstart : ∀ b : Board, b.start.lower = { b.lower with init := true, irq1 := true } := by
    intro b
    have hlive : decide (Masked b.start.ports 1) = false :=
      decide_eq_false (irqEnable_unmasked b.ports 1)
    simp only [Board.lower, hlive]
    rfl
  intro w
  have hinit : ((lower w).driver no).init = (w.driver no).init := rfl
  rw [ttyInit_run, Terminal.ttyInit, read_bind_run, hinit]
  cases h : (w.driver no).init with
  | true =>
    rw [onWorld, boot_again h, Function.update_eq_self]
    rfl
  | false =>
    rw [onWorld, boot_first h]
    exact (follows_bind (follows_onBoard (g := fun d => { d with init := true, irq1 := true })
      hstart no) fun _ => follows_pure (0 : Int)) w

theorem follows_ttydevOpen (h : Heap) (no flags : Nat) :
    Follows lower (ttydevOpen h no flags) (Terminal.ttydevOpen h no flags) := by
  refine follows_bind (follows_read fun _ => rfl) fun data => follows_ite ?_ ?_
  · exact follows_bind (follows_modify fun _ => rfl) fun _ => follows_pure _
  · refine follows_bind (follows_ttyInit no) fun _ => ?_
    refine follows_bind (follows_kmalloc h ttySize) fun p => ?_
    refine follows_bind (follows_onBoard (fun _ => rfl) no) fun _ => ?_
    exact follows_bind (follows_modify fun _ => rfl) fun _ => follows_pure _

theorem follows_ttydevClose (h : Heap) (no : Nat) :
    Follows lower (ttydevClose h no) (Terminal.ttydevClose h no) := by
  have hmask : ∀ b : Board, (b.onPorts fun io => irqDisable io 1).lower =
      { b.lower with irq1 := false } := by
    intro b
    have hdead : decide (Masked (b.onPorts fun io => irqDisable io 1).ports 1) = true :=
      decide_eq_true (irqDisable_masked b.ports 1)
    simp only [Board.lower, hdead]
    rfl
  refine follows_bind (follows_read fun _ => rfl) fun data => ?_
  refine follows_bind (follows_kfree h data) fun _ => ?_
  refine follows_bind (follows_modify fun _ => rfl) fun _ => ?_
  exact follows_bind (follows_onBoard (g := fun d => { d with irq1 := false }) hmask no)
    fun _ => follows_pure _

/-! Sequences of calls. -/

/-- The kernel, and the blocks that `kmalloc` returned and that were not freed since. -/
structure State where
  w : World Board
  live : List Nat

abbrev State.board (s : State) : Board := s.w.driver DEV_TTY

abbrev State.data (s : State) : Nat := (s.w.devs DEV_TTY).data

inductive Call where
  | openTty (flags : Nat)
  | closeTty
  | enable (no : UInt8)
  | disable (no : UInt8)

/-- The calls, with the table of the kernel and `kfree`. -/
def call (alloc : Allocator) (d : Device Board) : Call → Code Board Int
  | .openTty flags => devOpen (table (heap alloc) d) DEV_TTY flags
  | .closeTty => devClose (table (heap alloc) d) DEV_TTY
  | .enable no => do
    onBoard DEV_TTY fun b => b.onPorts fun io => irqEnable io no.toNat
    pure 0
  | .disable no => do
    onBoard DEV_TTY fun b => b.onPorts fun io => irqDisable io no.toNat
    pure 0

/-- The blocks in use after the call returned. -/
def liveAfter (s : State) : Call → Int → World Board → List Nat
  | .openTty _, r, w => if r = 0 then (w.devs DEV_TTY).data :: s.live else s.live
  | .closeTty, _, _ => s.live.filter (· ≠ s.data)
  | .enable _, _, _ | .disable _, _, _ => s.live

/-- `irq_enable` and `irq_disable` are called on other lines. -/
def OtherLine : Call → Prop
  | .enable no | .disable no => no.toNat ≠ 1
  | .openTty _ | .closeTty => True

/-- What `kmalloc` returns is a block of the heap that is not in use. -/
def Fresh (alloc : Allocator) (s : State) : Call → Prop
  | .openTty _ => ∀ p k, alloc s.w.k ttySize 0 = some (p, k) → p > heapBase ∧ p ∉ s.live
  | .closeTty | .enable _ | .disable _ => True

/-- A call is made and returns. -/
def Step (alloc : Allocator) (d : Device Board) (s : State) (c : Call) (t : State) : Prop :=
  OtherLine c ∧ Fresh alloc s c ∧
    ∃ r w, call alloc d c s.w = .ret r w ∧ t = ⟨w, liveAfter s c r w⟩

/-- `tty_init` has never run, and the terminal is not open. -/
structure Boot (s : State) : Prop where
  init : s.board.init = false
  data : s.data = 0

/-- While the terminal is open its keyboard is live. -/
def Live (s : State) : Prop :=
  s.data ≠ 0 → ¬ Masked s.board.ports 1 ∧ s.board.handlers 0x21 = .kbdIrq ∧
    s.board.currentTty = s.data ∧ s.data ∈ s.live

/-- The closed terminal is opened when `tty_init` has run. -/
def Reopens (s : State) : Call → Prop
  | .openTty _ => s.board.init = true ∧ s.data = 0
  | .closeTty | .enable _ | .disable _ => False

/-- Once `tty_init` has run the keyboard is hooked, and its line is masked while the terminal is
closed. -/
structure Inv (s : State) : Prop where
  hooked : s.board.init = true → s.board.handlers 0x21 = .kbdIrq
  closed : s.board.init = true → s.data = 0 → Masked s.board.ports 1
  opened : s.data ≠ 0 → s.board.init = true
  live : Live s

theorem Boot.inv {s : State} (h : Boot s) : Inv s := by
  have hinit : ¬ s.board.init = true := Bool.eq_false_iff.mp h.init
  exact ⟨fun hi => absurd hi hinit, fun hi => absurd hi hinit, fun hd => absurd h.data hd,
    fun hd => absurd h.data hd⟩

variable {alloc : Allocator} {d : Device Board} {s t : State}

theorem Step.openNew {flags : Nat} (h : Step alloc d s (.openTty flags) t) (hdata : s.data = 0) :
    ∃ p, p > heapBase ∧ t.data = p ∧ t.board = s.board.boot.create p ∧ t.live = p :: s.live := by
  obtain ⟨-, hfresh, r, w, hcall, rfl⟩ := h
  let w₀ := (s.w.log (.device DEV_TTY)).setOffset DEV_TTY 0
  have hrun : ttydevOpen (heap alloc) DEV_TTY flags w₀ = .ret r w := hcall
  have hdata₀ : (w₀.devs DEV_TTY).data = 0 := (World.setOffset_data ..).trans hdata
  cases halloc : alloc s.w.k ttySize 0 with
  | none =>
    rw [ttydevOpen_spin flags hdata₀ halloc] at hrun
    cases hrun
  | some e =>
    obtain ⟨p, k⟩ := e
    rw [ttydevOpen_new flags hdata₀ halloc] at hrun
    obtain ⟨rfl, rfl⟩ := Res.ret.inj hrun
    have hp : ((opened DEV_TTY p k w₀).devs DEV_TTY).data = p := World.setData_same _ _ p
    refine ⟨p, (hfresh p k halloc).1, hp, opened_board DEV_TTY p k w₀, ?_⟩
    rw [liveAfter, if_pos rfl, hp]

theorem Step.openBusy {flags : Nat} (h : Step alloc d s (.openTty flags) t) (hdata : s.data ≠ 0) :
    t.data = s.data ∧ t.board = s.board ∧ t.live = s.live := by
  obtain ⟨-, -, r, w, hcall, rfl⟩ := h
  let w₀ := (s.w.log (.device DEV_TTY)).setOffset DEV_TTY 0
  have hrun : ttydevOpen (heap alloc) DEV_TTY flags w₀ = .ret r w := hcall
  have hdata₀ : (w₀.devs DEV_TTY).data = s.data := World.setOffset_data ..
  rw [ttydevOpen_busy flags (hdata₀.symm ▸ hdata)] at hrun
  obtain ⟨rfl, rfl⟩ := Res.ret.inj hrun
  have hbusy : ¬ -(EBUSY : Int) = 0 := by decide
  exact ⟨hdata₀, rfl, by rw [liveAfter, if_neg hbusy]⟩

theorem Step.close (h : Step alloc d s .closeTty t) :
    t.data = 0 ∧ (t.board = s.board.onPorts fun io => irqDisable io 1) ∧
      t.live = s.live.filter (· ≠ s.data) := by
  obtain ⟨-, -, r, w, hcall, rfl⟩ := h
  let w₀ := (s.w.log (.device DEV_TTY)).setOffset DEV_TTY 0
  have hrun : ttydevClose (heap alloc) DEV_TTY w₀ = .ret r w := hcall
  cases hfree : (heap alloc).kfree w₀.k (w₀.devs DEV_TTY).data with
  | none =>
    rw [ttydevClose_spin hfree] at hrun
    cases hrun
  | some k =>
    rw [ttydevClose_run hfree] at hrun
    obtain ⟨rfl, rfl⟩ := Res.ret.inj hrun
    exact ⟨World.setData_same _ _ 0, closed_board DEV_TTY k w₀, rfl⟩

/-- What a call on another line leaves. -/
structure SameLine (s t : State) : Prop where
  init : t.board.init = s.board.init
  handlers : t.board.handlers = s.board.handlers
  currentTty : t.board.currentTty = s.board.currentTty
  masked : Masked t.board.ports 1 ↔ Masked s.board.ports 1
  data : t.data = s.data
  live : t.live = s.live

theorem SameLine.onPorts {f : Ports → Ports} (hf : ∀ io, Masked (f io) 1 ↔ Masked io 1)
    (hboard : t.board = s.board.onPorts f) (hdata : t.data = s.data) (hlive : t.live = s.live) :
    SameLine s t := by
  refine ⟨?_, ?_, ?_, ?_, hdata, hlive⟩
  · rw [hboard]
    rfl
  · rw [hboard]
    rfl
  · rw [hboard]
    rfl
  · rw [hboard]
    exact hf s.board.ports

theorem Step.enable {no : UInt8} (h : Step alloc d s (.enable no) t) : SameLine s t := by
  obtain ⟨hno, -, r, w, hcall, rfl⟩ := h
  obtain ⟨rfl, rfl⟩ := Res.ret.inj hcall
  exact .onPorts (irqEnable_other (apart_keyboard hno)) (Function.update_self DEV_TTY _ s.w.driver)
    rfl rfl

theorem Step.disable {no : UInt8} (h : Step alloc d s (.disable no) t) : SameLine s t := by
  obtain ⟨hno, -, r, w, hcall, rfl⟩ := h
  obtain ⟨rfl, rfl⟩ := Res.ret.inj hcall
  exact .onPorts (irqDisable_other (apart_keyboard hno)) (Function.update_self DEV_TTY _ s.w.driver)
    rfl rfl

theorem Inv.sameLine (h : Inv s) (hsame : SameLine s t) : Inv t := by
  have hinit : t.board.init = true → s.board.init = true := fun hi => hsame.init ▸ hi
  refine ⟨fun hi => ?_, fun hi hd => ?_, fun hd => ?_, fun hd => ?_⟩
  · rw [hsame.handlers]
    exact h.hooked (hinit hi)
  · exact hsame.masked.mpr (h.closed (hinit hi) (hsame.data ▸ hd))
  · rw [hsame.init]
    exact h.opened (hsame.data ▸ hd)
  · rw [hsame.masked, hsame.handlers, hsame.currentTty, hsame.data, hsame.live]
    exact h.live (hsame.data ▸ hd)

/-- The terminal is opened for the first time. -/
theorem Inv.openNew {flags : Nat} (hst : Step alloc d s (.openTty flags) t) (hdata : s.data = 0)
    (hinit : s.board.init = false) : Inv t := by
  obtain ⟨p, hp, htdata, hboard, hlive⟩ := hst.openNew hdata
  rw [boot_first hinit] at hboard
  have hhook : t.board.handlers 0x21 = .kbdIrq := by
    rw [hboard]
    exact Function.update_self 0x21 _ s.board.handlers
  refine ⟨fun _ => hhook, fun _ hd => absurd (htdata.symm.trans hd) (Nat.ne_zero_of_lt hp),
    fun _ => ?_, fun _ => ⟨?_, hhook, ?_, ?_⟩⟩
  · rw [hboard]
    rfl
  · rw [hboard]
    exact irqEnable_unmasked s.board.ports 1
  · rw [hboard, htdata]
    rfl
  · rw [hlive, htdata]
    exact List.mem_cons_self

theorem Inv.openBusy {flags : Nat} (h : Inv s) (hst : Step alloc d s (.openTty flags) t)
    (hdata : s.data ≠ 0) : Inv t := by
  obtain ⟨htdata, hboard, hlive⟩ := hst.openBusy hdata
  refine ⟨?_, ?_, ?_, ?_⟩
  · rw [hboard]
    exact h.hooked
  · rw [hboard, htdata]
    exact h.closed
  · rw [hboard, htdata]
    exact h.opened
  · rw [Live, hboard, htdata, hlive]
    exact h.live

theorem Inv.close (h : Inv s) (hst : Step alloc d s .closeTty t) : Inv t := by
  obtain ⟨htdata, hboard, -⟩ := hst.close
  refine ⟨fun hi => ?_, fun _ _ => ?_, fun hd => absurd htdata hd, fun hd => absurd htdata hd⟩
  · rw [hboard] at hi ⊢
    exact h.hooked hi
  · rw [hboard]
    exact irqDisable_masked s.board.ports 1

theorem Inv.step {c : Call} (h : Inv s) (hnew : ¬ Reopens s c) (hst : Step alloc d s c t) :
    Inv t := by
  cases c with
  | openTty flags =>
    by_cases hdata : s.data = 0
    · exact .openNew hst hdata (Bool.eq_false_iff.mpr fun hinit => hnew ⟨hinit, hdata⟩)
    · exact h.openBusy hst hdata
  | closeTty => exact h.close hst
  | enable no => exact h.sameLine hst.enable
  | disable no => exact h.sameLine hst.disable

/-- `tty_init` does not unmask the line again. -/
theorem Inv.reopen {c : Call} (h : Inv s) (hre : Reopens s c) (hst : Step alloc d s c t) :
    ¬ Live t := by
  cases c with
  | openTty flags =>
    obtain ⟨hinit, hdata⟩ := hre
    obtain ⟨p, hp, htdata, hboard, -⟩ := hst.openNew hdata
    intro hlive
    refine (hlive (htdata ▸ Nat.ne_zero_of_lt hp)).1 ?_
    rw [hboard, boot_again hinit]
    exact h.closed hinit hdata
  | closeTty => exact hre.elim
  | enable no => exact hre.elim
  | disable no => exact hre.elim

/-- In every sequence of calls the keyboard of the open terminal is live after each of them
exactly when the terminal is never opened again after it was closed. -/
theorem run_live_iff {tr : List (State × Call × State)} (hboot : Boot s)
    (hrun : Run (Step alloc d) s tr t) :
    (∀ e ∈ tr, Live e.2.2) ↔ ∀ e ∈ tr, ¬ Reopens e.1 e.2.1 := by
  have hstep : ∀ s c t, Inv s → ¬ Reopens s c → Step alloc d s c t → Inv t :=
    fun _ _ _ h hnew hst => h.step hnew hst
  constructor
  · intro hall
    by_contra hsome
    obtain ⟨pre, e, post, rfl, hpre, hst, hnew, hre⟩ :=
      hrun.first (Q := fun s c => ¬ Reopens s c) hsome
    have hinv := hpre.invariant hstep hboot.inv hnew
    exact hinv.reopen (not_not.mp hre) hst
      (hall e (List.mem_append_right pre List.mem_cons_self))
  · intro hall e he
    obtain ⟨hinv, hst⟩ := hrun.invariant_at hstep hboot.inv hall he
    exact (hinv.step (hall e he) hst).live

/-- The state after a call that returns. -/
def after (alloc : Allocator) (d : Device Board) (s : State) (c : Call) : State :=
  match call alloc d c s.w with
  | .ret r w => ⟨w, liveAfter s c r w⟩
  | .halt _ | .spin _ => s

theorem Step.after {c : Call} {r : Int} {w : World Board} (hother : OtherLine c)
    (hfresh : Fresh alloc s c) (hcall : call alloc d c s.w = .ret r w) :
    Step alloc d s c (after alloc d s c) :=
  ⟨hother, hfresh, r, w, hcall, by simp only [LiveKeyboard.after, hcall]⟩

theorem ttyName_short : ttyName.length < 16 := by decide

theorem ttyName_chars : ∀ c ∈ ttyName, c ≠ 0 := CString.chars_of_all (by decide)

/-- A terminal without the other hooks. -/
def bareTty : Device Board :=
  ⟨ttyName, ttyName_short, ttyName_chars, none, none, none, none, none⟩

/-- Every line is masked. -/
def bootBoard : Board :=
  ⟨(Devices.bootState.w.driver DEV_TTY).con, false, [], fun _ => 0xFF, fun _ => .null, 0⟩

def bootState : State :=
  ⟨⟨Devices.bootState.w.k, fun _ => ⟨0, 0⟩, fun _ => bootBoard, 0, 0, 0, 0, []⟩, []⟩

theorem bootState_boot : Boot bootState := ⟨rfl, rfl⟩

abbrev next : State → Call → State := after firstBlock bareTty

theorem firstBlock_open (hdata : s.data = 0) (hlive : s.live = []) :
    Step firstBlock bareTty s (.openTty 0) (next s (.openTty 0)) := by
  have hdata₀ : (((s.w.log (.device DEV_TTY)).setOffset DEV_TTY 0).devs DEV_TTY).data = 0 :=
    (World.setOffset_data ..).trans hdata
  refine .after trivial (fun p k h => ?_) (ttydevOpen_new 0 hdata₀ rfl)
  obtain ⟨rfl, -⟩ := Prod.mk.inj (Option.some.inj h)
  exact ⟨by decide, hlive ▸ List.not_mem_nil⟩

theorem firstBlock_close (hdata : s.data > heapBase) :
    Step firstBlock bareTty s .closeTty (next s .closeTty) := by
  let w₀ := (s.w.log (.device DEV_TTY)).setOffset DEV_TTY 0
  have hdata₀ : (w₀.devs DEV_TTY).data > heapBase := (World.setOffset_data ..).symm ▸ hdata
  have hfree : ∃ k, (heap firstBlock).kfree w₀.k (w₀.devs DEV_TTY).data = some k :=
    ⟨_, if_neg (not_not.mpr hdata₀)⟩
  obtain ⟨k, hfree⟩ := hfree
  exact .after trivial trivial (ttydevClose_run hfree)

/-- The terminal is opened, another line is enabled, the terminal is closed. -/
def once : List Call := [.openTty 0, .enable 3, .closeTty]

def twice : List Call := [.openTty 0, .closeTty, .openTty 0]

theorem once_run : Run (Step firstBlock bareTty) bootState (trace next bootState once)
    (once.foldl next bootState) := by
  have hopen := firstBlock_open bootState_boot.data rfl
  obtain ⟨p, hp, hdata, -, hlive⟩ := hopen.openNew bootState_boot.data
  have henable : Step firstBlock bareTty (next bootState (.openTty 0)) (.enable 3)
      (next (next bootState (.openTty 0)) (.enable 3)) :=
    .after (show (3 : UInt8).toNat ≠ 1 by decide) trivial rfl
  have hclose := firstBlock_close (s := next (next bootState (.openTty 0)) (.enable 3))
    (by rw [henable.enable.data, hdata]; exact hp)
  exact Run.cons hopen (Run.cons henable (Run.cons hclose .nil))

theorem run_live_iff_once :
    (∀ e ∈ trace next bootState once, Live e.2.2) ↔
      ∀ e ∈ trace next bootState once, ¬ Reopens e.1 e.2.1 :=
  run_live_iff bootState_boot once_run

theorem twice_run : Run (Step firstBlock bareTty) bootState (trace next bootState twice)
    (twice.foldl next bootState) := by
  have hopen := firstBlock_open bootState_boot.data rfl
  obtain ⟨p, hp, hdata, -, hlive⟩ := hopen.openNew bootState_boot.data
  have hclose := firstBlock_close (s := next bootState (.openTty 0)) (hdata ▸ hp)
  obtain ⟨hclosed, -, hnone⟩ := hclose.close
  rw [hlive, hdata] at hnone
  have hopen' := firstBlock_open hclosed (hnone.trans (by simp [bootState]))
  exact Run.cons hopen (Run.cons hclose (Run.cons hopen' .nil))

/-- The line is masked when the terminal is opened again. -/
theorem run_live_fails : Boot bootState ∧
    Run (Step firstBlock bareTty) bootState (trace next bootState twice)
      (twice.foldl next bootState) ∧
    (twice.foldl next bootState).data ≠ 0 ∧
    Masked (twice.foldl next bootState).board.ports 1 ∧
    ¬ ∀ e ∈ trace next bootState twice, Live e.2.2 := by
  have hopen : (twice.foldl next bootState).data ≠ 0 := by decide +kernel
  have hmasked : Masked (twice.foldl next bootState).board.ports 1 := by decide +kernel
  refine ⟨bootState_boot, twice_run, hopen, hmasked, fun hall => ?_⟩
  have hlast := hall _ (List.mem_cons_of_mem _ (List.mem_cons_of_mem _
    (List.mem_singleton_self _)))
  exact (hlast hopen).1 hmasked

end Foos.LiveKeyboard
