import Foos.Cpu

/-! The entry and exit code of the interrupts in `kernel/asm.S`: what the functions in C find in
`struct registers`, and how the interrupted code goes on. -/
namespace Foos.Stubs
open X86 ByteMemory

def DATASEG : UInt16 := 0x10

/-- The functions in C that the stubs call. -/
inductive Callee where
  | intHandler | irqHandler
  deriving DecidableEq

abbrev Code : Type := List (Instr Callee)

/-- A stub; `int_stub` uses EAX for the saved segment and `irq_stub` EBX. -/
def stub (callee : Callee) (saved : Reg) : Code :=
  [.pusha, .movFromSeg .ds, .push .eax, .movAxImm DATASEG, .movToSeg .ds .eax, .movToSeg .es .eax,
    .movToSeg .fs .eax, .movToSeg .gs .eax, .call callee, .pop saved, .movToSeg .ds saved,
    .movToSeg .es saved, .movToSeg .fs saved, .movToSeg .gs saved, .popa, .addEsp 8, .iret]

def intStub : Code := stub .intHandler .eax
def irqStub : Code := stub .irqHandler .ebx

/- The macros; the `jmp` at their end leads to the stub. -/
def intNoErrcode (no : UInt32) : Code := [.cli, .pushImm 0, .pushImm no] ++ intStub
def intErrcode (no : UInt32) : Code := [.cli, .pushImm no] ++ intStub
def irq (intNo : UInt32) : Code := [.pushImm 0, .pushImm intNo] ++ irqStub

/-- The code at `int0` to `int31` and at `irq0` to `irq15`. -/
def entries : List Code :=
  [intNoErrcode 0, intNoErrcode 1, intNoErrcode 2, intNoErrcode 3, intNoErrcode 4,
    intNoErrcode 5, intNoErrcode 6, intNoErrcode 7, intErrcode 8, intNoErrcode 9, intErrcode 10,
    intErrcode 11, intErrcode 12, intErrcode 13, intErrcode 14, intNoErrcode 15,
    intNoErrcode 16, intNoErrcode 17, intNoErrcode 18, intNoErrcode 19, intNoErrcode 20,
    intNoErrcode 21, intNoErrcode 22, intNoErrcode 23, intNoErrcode 24, intNoErrcode 25,
    intNoErrcode 26, intNoErrcode 27, intNoErrcode 28, intNoErrcode 29, intNoErrcode 30,
    intNoErrcode 31, irq 32, irq 33, irq 34, irq 35, irq 36, irq 37, irq 38, irq 39, irq 40, irq 41,
    irq 42, irq 43, irq 44, irq 45, irq 46, irq 47]

/-- The entry code counts on an error code from the processor. -/
def takesCode (no : Nat) : Prop := no = 8 ∨ 10 ≤ no ∧ no ≤ 14

instance (no : Nat) : Decidable (takesCode no) := inferInstanceAs (Decidable (_ ∨ _))

/-- `struct registers` -/
structure Registers where
  ds : UInt32
  edi : UInt32
  esi : UInt32
  ebp : UInt32
  junk : UInt32
  ebx : UInt32
  edx : UInt32
  ecx : UInt32
  eax : UInt32
  intNo : UInt32
  errCode : UInt32
  eip : UInt32
  cs : UInt32
  eflags : UInt32
  esp : UInt32
  ss : UInt32

def word (m : Mem) (a : Nat) : UInt32 := UInt32.ofNat (load32 m a)

/-- The structure at `a`. -/
def registers (m : Mem) (a : Nat) : Registers where
  ds := word m a
  edi := word m (a + 4)
  esi := word m (a + 8)
  ebp := word m (a + 12)
  junk := word m (a + 16)
  ebx := word m (a + 20)
  edx := word m (a + 24)
  ecx := word m (a + 28)
  eax := word m (a + 32)
  intNo := word m (a + 36)
  errCode := word m (a + 40)
  eip := word m (a + 44)
  cs := word m (a + 48)
  eflags := word m (a + 52)
  esp := word m (a + 56)
  ss := word m (a + 60)

/-- The words of the structure that the stub and the processor push. -/
def Registers.pushed (r : Registers) : List UInt32 :=
  [r.ds, r.edi, r.esi, r.ebp, r.junk, r.ebx, r.edx, r.ecx, r.eax, r.intNo, r.errCode, r.eip, r.cs,
    r.eflags]

/-- What the structure holds for code that is interrupted in the state `s`. Nothing pushes ESP and
SS: the last two fields are words of the interrupted stack. -/
def saved (s : Cpu) (no code : UInt32) : Registers where
  ds := withLow16 (s.reg .eax) (s.seg .ds)
  edi := s.reg .edi
  esi := s.reg .esi
  ebp := s.reg .ebp
  junk := s.reg .esp - 20
  ebx := s.reg .ebx
  edx := s.reg .edx
  ecx := s.reg .ecx
  eax := s.reg .eax
  intNo := no
  errCode := code
  eip := s.eip
  cs := s.cs.toUInt32
  eflags := s.eflags
  esp := word s.mem s.esp
  ss := word s.mem (s.esp + 4)

/-- `movw %ds,%ax` and `pushl %eax` -/
def pushDs (s : Cpu) : Cpu :=
  let s := s.set .eax (withLow16 (s.reg .eax) (s.seg .ds))
  s.push (s.reg .eax)

/-- The four segment registers get the low half of `r`. -/
def setSegs (r : Reg) (s : Cpu) : Cpu :=
  let v := low16 (s.reg r)
  (((s.setSeg .ds v).setSeg .es v).setSeg .fs v).setSeg .gs v

def kernelSegs (s : Cpu) : Cpu := setSegs .eax (s.set .eax (withLow16 (s.reg .eax) DATASEG))

/-- The stub up to the entry of the function that it calls. -/
def enter (ret : UInt32) (s : Cpu) : Cpu := (kernelSegs (pushDs (pusha s))).push ret

/-- What the stub does when the function has returned. -/
def leave (saved : Reg) (s : Cpu) : Cpu :=
  iret ((popa (setSegs saved (s.pop saved))).discard 8)

variable {ε : Type}

theorem stub_run (ret : UInt32) (f : Callee → Machine ε → Option (Machine ε)) (callee : Callee)
    (saved : Reg) (m : Machine ε) :
    run ret f (stub callee saved) m =
      (f callee (m.onCpu (enter ret))).map fun m' => m'.onCpu (leave saved) := by
  have hrun : run ret f (stub callee saved) m =
      (f callee (m.onCpu (enter ret))).bind fun m' => some (m'.onCpu (leave saved)) := rfl
  rw [hrun, Option.map_eq_bind]
  rfl

theorem low16_withLow16 (v : UInt32) (w : UInt16) : low16 (withLow16 v w) = w := by
  apply UInt16.toBitVec_inj.mp
  simp [low16, withLow16]

theorem setSegs_seg (r : Reg) (s : Cpu) (q : Seg) : (setSegs r s).seg q = low16 (s.reg r) := by
  cases q <;> rfl

theorem kernelSegs_seg (s : Cpu) (q : Seg) : (kernelSegs s).seg q = DATASEG := by
  rw [kernelSegs, setSegs_seg, set_reg, low16_withLow16]

theorem ofNat_toNat_word (m : Mem) (a : Nat) : (word m a).toNat = load32 m a := ofNat_load32 m a

/-- The words of the structure stand one behind the other. -/
theorem words_registers (m : Mem) (a : Nat) : Words m a (registers m a).pushed := by
  simp only [Registers.pushed, registers, Words, ofNat_toNat_word, Nat.add_assoc]
  trivial

section
variable {s : Cpu} {ws : List UInt32} {a b : Nat} {m : Mem}

theorem setSegs_stack (h : Stack s ws a b m) (r : Reg) : Stack (setSegs r s) ws a b m :=
  h.of_eq rfl rfl

theorem kernelSegs_stack (h : Stack s ws a b m) : Stack (kernelSegs s) ws a b m :=
  setSegs_stack (h.set (by decide) _) .eax

/-- DS is pushed with the high half of EAX. -/
theorem pushDs_stack (h : Stack s ws a b m) (hroom : a + 4 ≤ s.esp) :
    Stack (pushDs s) (withLow16 (s.reg .eax) (s.seg .ds) :: ws) a b m := by
  have hset := h.set (r := .eax) (by decide) (withLow16 (s.reg .eax) (s.seg .ds))
  have hesp := set_esp_ne s (r := .eax) (withLow16 (s.reg .eax) (s.seg .ds)) (by decide)
  have hpush := hset.push ((s.set .eax (withLow16 (s.reg .eax) (s.seg .ds))).reg .eax)
    (hesp.symm ▸ hroom)
  rwa [set_reg] at hpush

/-- At the call the registers of `s` stand above the return address. -/
theorem enter_stack (h : Stack s ws a b m) (hroom : a + 40 ≤ s.esp) (ret : UInt32) :
    Stack (enter ret s) ([ret, withLow16 (s.reg .eax) (s.seg .ds), s.reg .edi, s.reg .esi,
      s.reg .ebp, s.reg .esp, s.reg .ebx, s.reg .edx, s.reg .ecx, s.reg .eax] ++ ws) a b m := by
  have hregs : Stack (pusha s) ((allRegs.map s.reg).reverse ++ ws) a b m := h.pusha (by omega)
  have heax : (pusha s).reg .eax = s.reg .eax := pushAll_reg _ s (by decide)
  have hds := congrFun (pushAll_segs (allRegs.map s.reg) s).seg .ds
  have hbase := h.base
  have hpush := pushDs_stack hregs (hregs.room (by simp [allRegs]; omega))
  have hkernel := kernelSegs_stack hpush
  have hcall := hkernel.push ret (hkernel.room (by simp [allRegs]; omega))
  rw [heax] at hcall
  exact (congrArg (fun v => Stack (enter ret s) (ret :: withLow16 (s.reg .eax) v ::
    ((allRegs.map s.reg).reverse ++ ws)) a b m) hds).mp hcall

/-- The code goes on with what the structure holds; `junk`, the numbers and the fields behind
EFLAGS do not matter. -/
structure Resumed (r : Registers) (t : Cpu) : Prop where
  edi : t.reg .edi = r.edi
  esi : t.reg .esi = r.esi
  ebp : t.reg .ebp = r.ebp
  ebx : t.reg .ebx = r.ebx
  edx : t.reg .edx = r.edx
  ecx : t.reg .ecx = r.ecx
  eax : t.reg .eax = r.eax
  seg : ∀ q, t.seg q = low16 r.ds
  eip : t.eip = r.eip
  cs : t.cs = low16 r.cs
  eflags : t.eflags = r.eflags

theorem Resumed.congr {r r' : Registers} {t : Cpu} (h : Resumed r t) (hr : r'.pushed = r.pushed) :
    Resumed r' t := by
  simp only [Registers.pushed, List.cons.injEq] at hr
  obtain ⟨ds, edi, esi, ebp, -, ebx, edx, ecx, eax, -, -, eip, cs, eflags, -⟩ := hr
  exact ⟨edi ▸ h.edi, esi ▸ h.esi, ebp ▸ h.ebp, ebx ▸ h.ebx, edx ▸ h.edx, ecx ▸ h.ecx, eax ▸ h.eax,
    ds ▸ h.seg, eip ▸ h.eip, cs ▸ h.cs, eflags ▸ h.eflags⟩

/-- The rest of the stub takes the whole structure off the stack. -/
theorem leave_stack {r : Registers} {tmp : Reg} (h : Stack s (r.pushed ++ ws) a b m)
    (htmp : tmp ≠ .esp) (hb : b < 4294967296) :
    Stack (leave tmp s) ws a b m ∧ Resumed r (leave tmp s) := by
  have hpop : Stack (s.pop tmp) ([r.edi, r.esi, r.ebp, r.junk, r.ebx, r.edx, r.ecx, r.eax] ++
      ([r.intNo, r.errCode] ++ r.eip :: r.cs :: r.eflags :: ws)) a b m := h.pop htmp hb
  have hds : low16 ((s.pop tmp).reg tmp) = low16 r.ds := congrArg low16 (pop_reg h tmp)
  obtain ⟨hs, edi, esi, ebp, ebx, edx, ecx, eax⟩ := (setSegs_stack hpop tmp).popa hb
  have hnumbers : Stack ((popa (setSegs tmp (s.pop tmp))).discard 8)
      (r.eip :: r.cs :: r.eflags :: ws) a b m := hs.discard [r.intNo, r.errCode] rfl hb
  obtain ⟨hend, heip, hcs, hfl⟩ := hnumbers.iret hb
  have hseg := (popAll_segs allRegs.reverse (setSegs tmp (s.pop tmp))).seg
  have hreg : ∀ q, q ≠ Reg.esp → (leave tmp s).reg q = (popa (setSegs tmp (s.pop tmp))).reg q :=
    fun q hq => (iret_reg _ hq).trans (discard_reg _ 8 hq)
  refine ⟨hend, (hreg _ (by decide)).trans edi, (hreg _ (by decide)).trans esi,
    (hreg _ (by decide)).trans ebp, (hreg _ (by decide)).trans ebx,
    (hreg _ (by decide)).trans edx, (hreg _ (by decide)).trans ecx,
    (hreg _ (by decide)).trans eax, fun q => ?_, heip, hcs, hfl⟩
  exact (congrFun hseg q).trans ((setSegs_seg tmp _ q).trans hds)

end

/-- The instructions of the macros in front of the stub, and the register of the stub. -/
def numbers (no : Nat) : Code :=
  (if 32 ≤ no then [] else [.cli]) ++ (if takesCode no then [] else [.pushImm 0]) ++
    [.pushImm (UInt32.ofNat no)]

def savedIn (no : Nat) : Reg := if 32 ≤ no then .ebx else .eax

def calleeOf (no : Nat) : Callee := if 32 ≤ no then .irqHandler else .intHandler

theorem entries_get : ∀ no < 48,
    entries[no]? = some (numbers no ++ stub (calleeOf no) (savedIn no)) := by
  decide

theorem savedIn_ne (no : Nat) : savedIn no ≠ .esp := by
  rw [savedIn]
  split <;> decide

/-- What these instructions do. -/
def withNumbers (no : Nat) (s : Cpu) : Cpu :=
  let s := if 32 ≤ no then s else s.cli
  let s := if takesCode no then s else s.push 0
  s.push (UInt32.ofNat no)

theorem numbers_run (ret : UInt32) (f : Callee → Machine ε → Option (Machine ε)) (no : Nat)
    (m : Machine ε) : run ret f (numbers no) m = some (m.onCpu (withNumbers no)) := by
  have hrun : m.onCpu (withNumbers no) = ⟨withNumbers no m.cpu, m.dev⟩ := rfl
  rw [numbers, hrun, withNumbers]
  by_cases hirq : 32 ≤ no
  · by_cases hcode : takesCode no <;> simp only [hirq, hcode, if_true, if_false] <;> rfl
  · by_cases hcode : takesCode no <;> simp only [hirq, hcode, if_true, if_false] <;> rfl

section
variable {s : Cpu} {ws : List UInt32} {a b : Nat} {m : Mem} {no : Nat} {code : Option UInt32}

theorem cli_stack (h : Stack s ws a b m) : Stack s.cli ws a b m := h.of_eq rfl rfl

/-- The word that the macro pushes in place of an error code. -/
def padding (no : Nat) : List UInt32 := if takesCode no then [] else [0]

theorem withNumbers_stack (h : Stack s ws a b m) (hroom : a + 8 ≤ s.esp) (no : Nat) :
    Stack (withNumbers no s) (UInt32.ofNat no :: (padding no ++ ws)) a b m := by
  obtain ⟨t, ht⟩ : ∃ t, t = if 32 ≤ no then s else s.cli := ⟨_, rfl⟩
  have hstart : Stack t ws a b m ∧ t.esp = s.esp := by
    rw [ht]
    split
    · exact ⟨h, rfl⟩
    · exact ⟨cli_stack h, rfl⟩
  simp only [withNumbers, padding, ← ht]
  by_cases hcode : takesCode no
  · rw [if_pos hcode, if_pos hcode]
    exact hstart.1.push _ (by omega)
  · have hesp := push_esp 0 (s := t) (by omega)
    rw [if_neg hcode, if_neg hcode]
    exact (hstart.1.push 0 (by omega)).push _ (by omega)

/-- With the error code that the macro counts on there is one word in this place. -/
theorem padding_code (hcode : code.isSome = true ↔ takesCode no) :
    padding no ++ code.toList = [code.getD 0] := by
  cases code with
  | some v =>
    rw [padding, if_pos (hcode.mp rfl)]
    rfl
  | none =>
    rw [padding, if_neg fun htakes => absurd (hcode.mpr htakes) (by decide)]
    rfl

/-- The registers are still those of the interrupted code. -/
theorem withNumbers_reg (no : Nat) (s : Cpu) {r : Reg} (h : r ≠ .esp) :
    (withNumbers no s).reg r = s.reg r := by
  simp only [withNumbers]
  rw [push_reg _ h]
  split
  · split <;> rfl
  · rw [push_reg _ h]
    split <;> rfl

theorem withNumbers_seg (no : Nat) (s : Cpu) : (withNumbers no s).seg = s.seg := by
  simp only [withNumbers]
  split <;> split <;> rfl

/-- The words in memory are those of the structure. -/
theorem registers_eq {m : Mem} {a : Nat} {r : Registers} (h : Words m a r.pushed)
    (hesp : word m (a + 56) = r.esp) (hss : word m (a + 60) = r.ss) : registers m a = r := by
  have hword : ∀ {a : Nat} {w : UInt32}, load32 m a = w.toNat → word m a = w := by
    intro a w hw
    rw [word, hw]
    exact UInt32.ofNat_toNat
  obtain ⟨ds, edi, esi, ebp, junk, ebx, edx, ecx, eax, intNo, errCode, eip, cs, eflags, esp, ss⟩ := r
  simp only [Registers.pushed, Words, Nat.add_assoc] at h
  obtain ⟨h0, h1, h2, h3, h4, h5, h6, h7, h8, h9, h10, h11, h12, h13, -⟩ := h
  rw [registers, hword h0, hword h1, hword h2, hword h3, hword h4, hword h5, hword h6, hword h7,
    hword h8, hword h9, hword h10, hword h11, hword h12, hword h13, hesp, hss]

end

/-- A function in C at its entry: the structure is behind the return address, and memory is
elsewhere that of the interrupted code `s`. -/
structure Called (s : Cpu) (no : Nat) (code : UInt32) (c : Cpu) : Prop where
  esp : c.esp + 60 = s.esp
  regs : registers c.mem (c.esp + 4) = saved s (UInt32.ofNat no) code
  seg : ∀ q, c.seg q = DATASEG
  noInts : c.eflags &&& IF = 0
  mem : Frame [(s.esp - 64, 64)] s.mem c.mem

/-- The state of the processor at the entry of the function. -/
def atCall (ret : UInt32) (no : Nat) (cs : UInt16) (eip : UInt32) (code : Option UInt32)
    (s : Cpu) : Cpu := enter ret (withNumbers no (deliver cs eip code s))

theorem and_not_self (v : UInt32) : v &&& ~~~IF &&& IF = 0 := by
  rw [UInt32.and_assoc]
  have : ~~~IF &&& IF = 0 := by decide
  rw [this, UInt32.and_zero]

theorem enter_eflags (ret : UInt32) (s : Cpu) : (enter ret s).eflags = s.eflags := by
  have hkeep : ∀ t : Cpu, ((kernelSegs (pushDs t)).push ret).eflags = t.eflags := fun _ => rfl
  exact (hkeep (pusha s)).trans (pushAll_segs (allRegs.map s.reg) s).eflags

theorem withNumbers_noInts (no : Nat) {s : Cpu} (h : s.eflags &&& IF = 0) :
    (withNumbers no s).eflags &&& IF = 0 := by
  simp only [withNumbers]
  split <;> split <;> first | exact h | exact and_not_self _

theorem stack_self (s : Cpu) (n : Nat) : Stack s [] (s.esp - n) s.esp s.mem :=
  ⟨trivial, rfl, Nat.sub_le _ _, Frame.refl _ _⟩

theorem junk_eq {s : Cpu} {v : UInt32} (h : v.toNat + 20 = s.esp) : v = s.reg .esp - 20 := by
  have h20 : (20 : UInt32) ≤ s.reg .esp := by
    rw [UInt32.le_iff_toNat_le]
    change 20 ≤ s.esp
    omega
  apply UInt32.toNat_inj.mp
  rw [UInt32.toNat_sub_of_le _ _ h20]
  change v.toNat = s.esp - 20
  omega

theorem enter_seg (ret : UInt32) (s : Cpu) (q : Seg) : (enter ret s).seg q = DATASEG :=
  kernelSegs_seg (pushDs (pusha s)) q

/-- The words that the registers of `s` take on the stack, DS on top. -/
def regWords (s : Cpu) (junk : UInt32) : List UInt32 :=
  [withLow16 (s.reg .eax) (s.seg .ds), s.reg .edi, s.reg .esi, s.reg .ebp, junk, s.reg .ebx,
    s.reg .edx, s.reg .ecx, s.reg .eax]

/-- The stack at the call, whether the processor pushes an error code or not. -/
theorem atCall_words (no : Nat) {s : Cpu} {ws : List UInt32} {a b : Nat} {m : Mem}
    (h : Stack s ws a b m) (hroom : a + 64 ≤ s.esp) (code : Option UInt32) (ret : UInt32)
    (cs : UInt16)
    (eip : UInt32) :
    ∃ junk, junk.toNat + 4 * (code.toList.length + (padding no).length + 4) = s.esp ∧
      Stack (atCall ret no cs eip code s) (ret :: (regWords s junk ++ UInt32.ofNat no ::
        (padding no ++ (code.toList ++ s.eip :: s.cs.toUInt32 :: s.eflags :: ws)))) a b m := by
  have hd := h.deliver (by omega) cs eip code
  have hlen : code.toList.length ≤ 1 := by
    cases code <;> simp
  have hpad : (padding no).length ≤ 1 := by
    rw [padding]
    split <;> decide
  have hb := h.base
  have hn := withNumbers_stack hd (hd.room (by simp; omega)) no
  have hbase := hn.base
  simp only [List.length_cons, List.length_append] at hbase
  have he := enter_stack hn (by omega) ret
  have hreg : ∀ r, r ≠ Reg.esp →
      (withNumbers no (deliver cs eip code s)).reg r = s.reg r := fun r hr =>
    (withNumbers_reg no _ hr).trans (deliver_reg cs eip code s hr)
  have hseg : (withNumbers no (deliver cs eip code s)).seg = s.seg :=
    (withNumbers_seg no _).trans (deliver_seg cs eip code s)
  rw [hreg .eax (by decide), hreg .edi (by decide), hreg .esi (by decide),
    hreg .ebp (by decide), hreg .ebx (by decide), hreg .edx (by decide), hreg .ecx (by decide),
    hseg] at he
  refine ⟨(withNumbers no (deliver cs eip code s)).reg .esp, ?_, he⟩
  have hesp : ((withNumbers no (deliver cs eip code s)).reg .esp).toNat =
    (withNumbers no (deliver cs eip code s)).esp := rfl
  omega

/-- The frame at the call: the return address, the structure, the interrupted stack. -/
theorem atCall_stack {no : Nat} {s : Cpu} {code : Option UInt32} (hroom : 64 ≤ s.esp)
    (hcode : code.isSome = true ↔ takesCode no) (ret : UInt32) (cs : UInt16) (eip : UInt32) :
    Stack (atCall ret no cs eip code s)
      (ret :: (saved s (UInt32.ofNat no) (code.getD 0)).pushed) (s.esp - 64) s.esp s.mem := by
  obtain ⟨junk, hjunk, h⟩ := atCall_words no (stack_self s 64) (by omega) code ret cs eip
  have hpad := padding_code hcode
  have hlen := congrArg List.length hpad
  rw [List.length_append, List.length_singleton] at hlen
  rw [← List.append_assoc (padding no), hpad, junk_eq (s := s) (v := junk) (by omega)] at h
  exact h

theorem atCall_called {no : Nat} {s : Cpu} {code : Option UInt32} (hroom : 64 ≤ s.esp)
    (hcode : code.isSome = true ↔ takesCode no) (ret : UInt32) (cs : UInt16) (eip : UInt32) :
    Called s no (code.getD 0) (atCall ret no cs eip code s) := by
  have h := atCall_stack hroom hcode ret cs eip
  have hbase := h.base
  simp only [Registers.pushed, List.length_cons, List.length_nil] at hbase
  have hword : ∀ k, word (atCall ret no cs eip code s).mem (s.esp + k) = word s.mem (s.esp + k) :=
    fun k => congrArg UInt32.ofNat (h.frame.load32 (by simp))
  constructor
  · exact hbase
  · refine registers_eq h.words.2 ?_ ?_
    · have hat : (atCall ret no cs eip code s).esp + 4 + 56 = s.esp + 0 := by omega
      rw [hat]
      exact hword 0
    · have hat : (atCall ret no cs eip code s).esp + 4 + 60 = s.esp + 4 := by omega
      rw [hat]
      exact hword 4
  · exact enter_seg ret _
  · rw [atCall, enter_eflags]
    refine withNumbers_noInts no ?_
    cases code <;> exact and_not_self _
  · have hframe := h.frame
    rwa [show s.esp - (s.esp - 64) = 64 by omega] at hframe

/-- An interrupt runs the function on the frame, and then the rest of the stub. -/
theorem entry_run {no : Nat} {is : Code} (his : entries[no]? = some is) (ret : UInt32)
    (f : Callee → Machine ε → Option (Machine ε)) (cs : UInt16) (eip : UInt32)
    (code : Option UInt32)
    (s : Cpu) (dev : ε) :
    run ret f is ⟨deliver cs eip code s, dev⟩ =
      (f (calleeOf no) ⟨atCall ret no cs eip code s, dev⟩).map fun m =>
        m.onCpu (leave (savedIn no)) := by
  have hno : no < entries.length := (List.getElem?_eq_some_iff.mp his).1
  have hlen : entries.length = 48 := rfl
  have hget := entries_get no (hlen ▸ hno)
  obtain rfl := Option.some.inj (his.symm.trans hget)
  rw [run_append, numbers_run, Option.bind_some, stub_run]
  rfl

/-- The state that the function returns in: the return address is off the stack. -/
def Returned (c t : Cpu) : Prop := t.reg .esp = c.reg .esp + 4

/-- The function leaves the pushed words of its argument alone. -/
def Untouched (c t : Cpu) : Prop := ∀ y, c.esp + 4 ≤ y → y < c.esp + 60 → t.mem y = c.mem y

theorem returned_esp {c t : Cpu} (h : Returned c t) (hlt : c.esp + 4 < 4294967296) :
    t.esp = c.esp + 4 :=
  (congrArg UInt32.toNat h).trans (add_toNat hlt)

theorem leave_mem (saved : Reg) (s : Cpu) : (leave saved s).mem = s.mem := by
  rw [leave, iret_mem, discard_mem, popa, popAll_mem]
  rfl

/-- Whatever the function leaves in the structure is what the code goes on with, at the stack
pointer that it was interrupted with. -/
theorem leave_resumes {s c t : Cpu} {no : Nat} {code : UInt32} (hc : Called s no code c)
    (ht : Returned c t) :
    Resumed (registers t.mem (c.esp + 4)) (leave (savedIn no) t) ∧
      (leave (savedIn no) t).esp = s.esp := by
  have hesp := hc.esp
  have hlt := esp_lt s
  have ht : t.esp = c.esp + 4 := returned_esp ht (by omega)
  have hstack : Stack t ((registers t.mem (c.esp + 4)).pushed ++ []) t.esp s.esp t.mem := by
    constructor
    · rw [ht, List.append_nil]
      exact words_registers t.mem (c.esp + 4)
    · simp only [Registers.pushed, List.append_nil, List.length_cons, List.length_nil]
      rw [ht]
      omega
    · exact Nat.le_refl _
    · exact Frame.refl _ _
  obtain ⟨hend, hres⟩ := leave_stack hstack (savedIn_ne no) hlt
  have hbase := hend.base
  rw [List.length_nil, Nat.mul_zero, Nat.add_zero] at hbase
  exact ⟨hres, hbase⟩

/-- The interrupted code goes on as if nothing had happened, except that the other segment
registers are those of DS. -/
structure GoesOn (s u : Cpu) : Prop where
  reg : ∀ r, u.reg r = s.reg r
  seg : ∀ q, u.seg q = s.seg .ds
  eip : u.eip = s.eip
  cs : u.cs = s.cs
  eflags : u.eflags = s.eflags

/-- A structure with the values of `s` takes the code back to `s`. -/
theorem Resumed.goesOn {s u : Cpu} {no code : UInt32} (h : Resumed (saved s no code) u)
    (hesp : u.esp = s.esp) : GoesOn s u := by
  constructor
  · intro r
    cases r with
    | eax => exact h.eax
    | ecx => exact h.ecx
    | edx => exact h.edx
    | ebx => exact h.ebx
    | esp => exact UInt32.toNat_inj.mp hesp
    | ebp => exact h.ebp
    | esi => exact h.esi
    | edi => exact h.edi
  · exact fun q => (h.seg q).trans (low16_withLow16 _ _)
  · exact h.eip
  · exact h.cs.trans (UInt16.toUInt16_toUInt32 s.cs)
  · exact h.eflags

/-- A function that leaves its argument alone: the interrupt is not noticed. -/
theorem leave_goesOn {s c t : Cpu} {no : Nat} {code : UInt32} (hc : Called s no code c)
    (hret : Returned c t) (hkeep : Untouched c t) : GoesOn s (leave (savedIn no) t) := by
  have hesp := hc.esp
  obtain ⟨hres, hend⟩ := leave_resumes hc hret
  have hwords : (registers t.mem (c.esp + 4)).pushed = (registers c.mem (c.esp + 4)).pushed := by
    have hword : ∀ k, k ≤ 52 → word t.mem (c.esp + 4 + k) = word c.mem (c.esp + 4 + k) :=
      fun k hk => congrArg UInt32.ofNat (load32_congr fun y _ _ => hkeep y (by omega) (by omega))
    have h0 : word t.mem (c.esp + 4) = word c.mem (c.esp + 4) := hword 0 (by decide)
    simp (disch := decide) only [Registers.pushed, registers, h0, hword]
  exact ((hc.regs ▸ hres.congr hwords.symm : Resumed (saved s (UInt32.ofNat no) code) _)).goesOn hend

/-- A function that returns at once. -/
def justRet (_ : Callee) (m : Machine ε) : Option (Machine ε) := some (m.onCpu fun s => s.discard 4)

theorem justRet_returned (callee : Callee) (m : Machine ε) :
    ∃ t, justRet callee m = some t ∧ Returned m.cpu t.cpu ∧ Untouched m.cpu t.cpu :=
  ⟨_, rfl, set_reg _ _ _, fun _ _ _ => rfl⟩

/-- Some kernel code at `0x1234`. -/
def someCode : Cpu :=
  ⟨fun r => if r = .esp then 0x300000 else 7, fun _ => DATASEG, 8, 0x1234, 0x202, ⟨fun _ => 1⟩⟩

/-- The structure is not a copy: what the function leaves in it is what the interrupted code goes
on with, and the fields `esp` and `ss` are the top of the interrupted stack. -/
theorem interrupt_redirected {no : Nat} {is : Code} (his : entries[no]? = some is) {s : Cpu}
    (hroom : 64 ≤ s.esp) {code : Option UInt32} (hcode : code.isSome = true ↔ takesCode no)
    (cs : UInt16) (eip ret : UInt32) (f : Callee → Machine ε → Option (Machine ε)) (dev : ε) :
    ∃ c, Called s no (code.getD 0) c ∧ ∀ t, f (calleeOf no) ⟨c, dev⟩ = some t → Returned c t.cpu →
      ∃ u, run ret f is ⟨deliver cs eip code s, dev⟩ = some ⟨u, t.dev⟩ ∧
        Resumed (registers t.cpu.mem (c.esp + 4)) u ∧ u.esp = s.esp ∧
        word u.mem u.esp = (registers t.cpu.mem (c.esp + 4)).esp ∧
        word u.mem (u.esp + 4) = (registers t.cpu.mem (c.esp + 4)).ss := by
  have hcall := atCall_called hroom hcode ret cs eip
  have hrun := entry_run his ret f cs eip code s dev
  refine ⟨_, hcall, fun t ht hret => ?_⟩
  have hesp := hcall.esp
  obtain ⟨hres, hend⟩ := leave_resumes hcall hret
  refine ⟨leave (savedIn no) t.cpu, ?_, hres, hend, ?_, ?_⟩
  · rw [hrun, ht]
    rfl
  · rw [hend, leave_mem, ← hesp]
    rfl
  · rw [hend, leave_mem, ← hesp]
    rfl

/-- A function that moves the interrupted code to `0x777`. -/
def redirect (_ : Callee) (m : Machine ε) : Option (Machine ε) :=
  some (m.onCpu fun s =>
    let s := s.discard 4
    { s with mem := store32 s.mem (s.esp + 44) 0x777 })

theorem interrupt_redirected_timer : ∃ u, run 0 redirect (irq 32)
    ⟨deliver 8 0x500 none someCode, ()⟩ = some ⟨u, ()⟩ ∧ u.eip = 0x777 := by
  have hentry : entries[32]? = some (irq 32) := rfl
  have htakes : (none : Option UInt32).isSome = true ↔ takesCode 32 := by decide
  obtain ⟨c, hcall, h⟩ := interrupt_redirected hentry (s := someCode) (by decide) htakes 8 0x500 0
    redirect ()
  have hesp := hcall.esp
  have hlt := esp_lt someCode
  have hret : Returned c (c.discard 4) := set_reg _ _ _
  obtain ⟨u, hu, hres, -⟩ := h _ rfl hret
  refine ⟨u, hu, hres.eip.trans ?_⟩
  have hat : (c.discard 4).esp = c.esp + 4 := returned_esp hret (by omega)
  have hword : (registers (store32 c.mem ((c.discard 4).esp + 44) 0x777) (c.esp + 4)).eip =
      UInt32.ofNat (load32 (store32 c.mem (c.esp + 4 + 44) 0x777) (c.esp + 4 + 44)) := by
    rw [hat]
    rfl
  exact hword.trans (by rw [load32_store32]; rfl)

def WellBehaved (f : Callee → Machine ε → Option (Machine ε)) : Prop :=
  ∀ callee m, ∃ t, f callee m = some t ∧ Returned m.cpu t.cpu ∧ Untouched m.cpu t.cpu

/-- The entry code suits a processor that pushes an error code, or one that does not. -/
def Suits (is : Code) (pushes : Bool) : Prop :=
  ∀ (s : Cpu) (code : Option UInt32), 64 ≤ s.esp → code.isSome = pushes →
    ∀ (cs : UInt16) (eip ret : UInt32) (f : Callee → Machine Unit → Option (Machine Unit)),
      WellBehaved f → ∃ u, run ret f is ⟨deliver cs eip code s, ()⟩ = some u ∧ GoesOn s u.cpu

/-- The words behind the registers are taken for the numbers, EIP, CS and EFLAGS. -/
theorem justRet_resumed {no : Nat} {is : Code} (his : entries[no]? = some is) {s : Cpu}
    {ws : List UInt32} {a b : Nat} {m : Mem} (h : Stack s ws a b m) (hroom : a + 64 ≤ s.esp)
    (hb : b < 4294967296) (code : Option UInt32) {number code' eip' cs' eflags' : UInt32}
    {vs : List UInt32}
    (hwords : UInt32.ofNat no ::
      (padding no ++ (code.toList ++ s.eip :: s.cs.toUInt32 :: s.eflags :: ws)) =
        number :: code' :: eip' :: cs' :: eflags' :: vs) :
    ∃ u, run 0 justRet is ⟨deliver 0 0 code s, ()⟩ = some u ∧ u.cpu.eip = eip' := by
  obtain ⟨junk, -, hcall⟩ := atCall_words no h hroom code 0 0 0
  rw [hwords] at hcall
  let r : Registers := ⟨withLow16 (s.reg .eax) (s.seg .ds), s.reg .edi, s.reg .esi, s.reg .ebp,
    junk, s.reg .ebx, s.reg .edx, s.reg .ecx, s.reg .eax, number, code', eip', cs', eflags', 0, 0⟩
  have ht : Stack ((atCall 0 no 0 0 code s).discard 4) (r.pushed ++ vs) a b m :=
    hcall.discard [0] rfl hb
  have hrun := entry_run his 0 justRet 0 0 code s ()
  exact ⟨_, hrun, (leave_stack ht (savedIn_ne no) hb).2.eip⟩

/-- An entry code returns to the interrupted code on exactly those processors that push an error
code where its macro counts on one: otherwise EIP comes from another word. -/
theorem entry_suits_iff {no : Nat} {is : Code} (his : entries[no]? = some is) (pushes : Bool) :
    Suits is pushes ↔ (pushes = true ↔ takesCode no) := by
  constructor
  · intro h
    have hgoes : ∀ code : Option UInt32, code.isSome = pushes →
        ∃ u, run 0 justRet is ⟨deliver 0 0 code someCode, ()⟩ = some u ∧ u.cpu.eip = 0x1234 := by
      intro code hcode
      obtain ⟨u, hu, hgo⟩ := h someCode code (by decide) hcode 0 0 0 justRet justRet_returned
      exact ⟨u, hu, hgo.eip⟩
    have honce : ∀ {u v : Machine Unit} {code : Option UInt32},
        run 0 justRet is ⟨deliver 0 0 code someCode, ()⟩ = some u →
        run 0 justRet is ⟨deliver 0 0 code someCode, ()⟩ = some v → u.cpu.eip = v.cpu.eip := by
      intro u v code hu hv
      rw [Option.some.inj (hu.symm.trans hv)]
    by_cases htakes : takesCode no
    · -- without an error code of the processor EIP is taken from the word of CS
      refine iff_of_true ?_ htakes
      by_contra hpushes
      obtain ⟨u, hu, heip⟩ := hgoes none (by simpa using hpushes)
      have hstack : Stack someCode [word someCode.mem someCode.esp] 0 0x300004 someCode.mem :=
        ⟨⟨(ofNat_toNat_word _ _).symm, trivial⟩, rfl, Nat.zero_le _, Frame.refl _ _⟩
      obtain ⟨v, hv, hwrong⟩ := justRet_resumed his hstack (by decide) (by decide)
        none (by rw [padding, if_pos htakes]; rfl)
      have heq := (honce hu hv).symm.trans heip
      rw [hwrong] at heq
      exact absurd heq (by decide)
    · -- with one EIP is taken from the error code
      refine iff_of_false ?_ htakes
      intro hpushes
      obtain ⟨u, hu, heip⟩ := hgoes (some 9) hpushes.symm
      obtain ⟨v, hv, hwrong⟩ := justRet_resumed his (stack_self someCode 64) (by decide) (by decide)
        (some 9) (by rw [padding, if_neg htakes]; rfl)
      have heq := (honce hu hv).symm.trans heip
      rw [hwrong] at heq
      exact absurd heq (by decide)
  · intro hiff s code hroom hcode cs eip ret f hf
    have hcode' : code.isSome = true ↔ takesCode no := by rw [hcode, hiff]
    have hcall := atCall_called hroom hcode' ret cs eip
    obtain ⟨t, ht, hret, hkeep⟩ := hf (calleeOf no) ⟨_, ()⟩
    have hrun := entry_run his ret f cs eip code s ()
    rw [ht] at hrun
    exact ⟨_, hrun, leave_goesOn hcall hret hkeep⟩

/-- The alignment check comes with an error code, which its macro does not expect. -/
theorem entry_suits_iff_alignment : ¬ Suits (intNoErrcode 17) true := by
  have hentry : entries[17]? = some (intNoErrcode 17) := rfl
  exact fun h => absurd ((entry_suits_iff hentry true).mp h) (by decide)

end Foos.Stubs
