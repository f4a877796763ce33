import Mathlib.Logic.Function.Basic
import Foos.Frame

/-! A 32-bit x86 processor as far as the entry and the exit code of an interrupt uses it: its
registers, the stack, the instructions that move words between them, and the delivery of an
interrupt at the privilege level of the kernel. -/
namespace X86
open ByteMemory

inductive Reg where
  | eax | ecx | edx | ebx | esp | ebp | esi | edi
  deriving DecidableEq

/-- The data segment registers that a `mov` loads. -/
inductive Seg where
  | ds | es | fs | gs
  deriving DecidableEq

/-- Registers and memory; the devices beside it are of no concern here. -/
structure Cpu where
  reg : Reg → UInt32
  seg : Seg → UInt16
  cs : UInt16
  eip : UInt32
  eflags : UInt32
  mem : Mem

namespace Cpu

def esp (s : Cpu) : Nat := (s.reg .esp).toNat

def set (s : Cpu) (r : Reg) (v : UInt32) : Cpu := { s with reg := Function.update s.reg r v }

def setSeg (s : Cpu) (r : Seg) (v : UInt16) : Cpu :=
  { s with seg := Function.update s.seg r v }

def push (s : Cpu) (v : UInt32) : Cpu :=
  let t := s.set .esp (s.reg .esp - 4)
  { t with mem := store32 t.mem t.esp v.toNat }

/-- The word on top of the stack. -/
def top (s : Cpu) : UInt32 := UInt32.ofNat (load32 s.mem s.esp)

/-- `addl $n,%esp` -/
def discard (s : Cpu) (n : UInt32) : Cpu := s.set .esp (s.reg .esp + n)

def pop (s : Cpu) (r : Reg) : Cpu := (s.discard 4).set r s.top

end Cpu

/-- Instructions; `κ` are the functions that the code calls. -/
inductive Instr (κ : Type) where
  | cli
  | pushImm (v : UInt32)
  | push (r : Reg)
  | pop (r : Reg)
  | pusha
  | popa
  | movFromSeg (r : Seg)
  | movAxImm (v : UInt16)
  | movToSeg (r : Seg) (src : Reg)
  | call (callee : κ)
  | addEsp (n : UInt32)
  | iret
  deriving DecidableEq

/-- The low half of a word, and a word with another low half. -/
def low16 (v : UInt32) : UInt16 := v.toUInt16
def withLow16 (v : UInt32) (w : UInt16) : UInt32 := v &&& 0xFFFF0000 ||| w.toUInt32

/-- The interrupt flag of EFLAGS. -/
def IF : UInt32 := 0x200

def Cpu.cli (s : Cpu) : Cpu := { s with eflags := s.eflags &&& ~~~IF }

/-- The order in which `pusha` stores the registers; ESP as it was before. -/
def allRegs : List Reg := [.eax, .ecx, .edx, .ebx, .esp, .ebp, .esi, .edi]

def pusha (s : Cpu) : Cpu := (allRegs.map s.reg).foldl Cpu.push s

/-- `popa` drops the word for ESP. -/
def popWord (s : Cpu) (r : Reg) : Cpu := if r = .esp then s.discard 4 else s.pop r

/-- The registers in the list get the words, the first one the word on top. -/
def popAll (rs : List Reg) (s : Cpu) : Cpu := rs.foldl popWord s

/-- The registers come back in the opposite order. -/
def popa (s : Cpu) : Cpu := popAll allRegs.reverse s

/-- Return without a change of the privilege level: EIP, CS and EFLAGS are popped. -/
def iret (s : Cpu) : Cpu :=
  let eip := s.top
  let s := s.discard 4
  let cs := low16 s.top
  let s := s.discard 4
  let eflags := s.top
  let s := s.discard 4
  { s with eip := eip, cs := cs, eflags := eflags }

/-- The processor with some devices around it. -/
structure Machine (ε : Type) where
  cpu : Cpu
  dev : ε

variable {κ ε : Type}

def Machine.onCpu (m : Machine ε) (f : Cpu → Cpu) : Machine ε := { m with cpu := f m.cpu }

/-- One instruction. `call` pushes the address `ret` of the instruction behind it and hands over
to `f`, which takes the address off again; `none` stands for a function that does not return. -/
def exec (ret : UInt32) (f : κ → Machine ε → Option (Machine ε)) :
    Instr κ → Machine ε → Option (Machine ε)
  | .cli, m => some (m.onCpu Cpu.cli)
  | .pushImm v, m => some (m.onCpu fun s => s.push v)
  | .push r, m => some (m.onCpu fun s => s.push (s.reg r))
  | .pop r, m => some (m.onCpu fun s => s.pop r)
  | .pusha, m => some (m.onCpu pusha)
  | .popa, m => some (m.onCpu popa)
  | .movFromSeg r, m =>
    some (m.onCpu fun s => s.set .eax (withLow16 (s.reg .eax) (s.seg r)))
  | .movAxImm v, m => some (m.onCpu fun s => s.set .eax (withLow16 (s.reg .eax) v))
  | .movToSeg r src, m => some (m.onCpu fun s => s.setSeg r (low16 (s.reg src)))
  | .call callee, m => f callee (m.onCpu fun s => s.push ret)
  | .addEsp n, m => some (m.onCpu fun s => s.discard n)
  | .iret, m => some (m.onCpu iret)

def run (ret : UInt32) (f : κ → Machine ε → Option (Machine ε)) :
    List (Instr κ) → Machine ε → Option (Machine ε)
  | [], m => some m
  | i :: is, m => (exec ret f i m).bind (run ret f is)

/-- An interrupt gate takes the processor to `cs:eip` with interrupts off; some exceptions come
with an error code. -/
def deliver (cs : UInt16) (eip : UInt32) (code : Option UInt32) (s : Cpu) : Cpu :=
  let t := ((s.push s.eflags).push s.cs.toUInt32).push s.eip
  let t := match code with
    | some v => t.push v
    | none => t
  { t.cli with cs := cs, eip := eip }

theorem run_append (ret : UInt32) (f : κ → Machine ε → Option (Machine ε))
    (is js : List (Instr κ)) (m : Machine ε) :
    run ret f (is ++ js) m = (run ret f is m).bind (run ret f js) := by
  induction is generalizing m with
  | nil => rfl
  | cons i is ih =>
    rw [List.cons_append, run, run, Option.bind_assoc]
    exact congrArg _ (funext ih)

/- The stack as a list of words. -/

theorem esp_lt (s : Cpu) : s.esp < 4294967296 := UInt32.toNat_lt _

/-- The words stand one behind the other from `a` on. -/
def Words (m : Mem) : Nat → List UInt32 → Prop
  | _, [] => True
  | a, w :: ws => load32 m a = w.toNat ∧ Words m (a + 4) ws

/-- The stack of `s` begins with the words, which end at `b`; outside of `a` to `b` memory is that
of `m`. -/
structure Stack (s : Cpu) (ws : List UInt32) (a b : Nat) (m : Mem) : Prop where
  words : Words s.mem s.esp ws
  base : s.esp + 4 * ws.length = b
  low : a ≤ s.esp
  frame : Frame [(a, b - a)] m s.mem

theorem ofNat_load32 (m : Mem) (a : Nat) : (UInt32.ofNat (load32 m a)).toNat = load32 m a := by
  have h := load32_lt m a
  rw [UInt32.toNat_ofNat']
  exact Nat.mod_eq_of_lt h

theorem Words.congr {m m' : Mem} {a : Nat} {ws : List UInt32} (h : Words m a ws)
    (hm : ∀ y, a ≤ y → y < a + 4 * ws.length → m' y = m y) : Words m' a ws := by
  induction ws generalizing a with
  | nil => trivial
  | cons w ws ih =>
    rw [List.length_cons] at hm
    constructor
    · exact (load32_congr fun y h1 h2 => hm y h1 (by omega)).trans h.1
    · exact ih h.2 fun y h1 h2 => hm y (by omega) (by omega)

theorem Words.append {m : Mem} {a : Nat} {ws vs : List UInt32} (h : Words m a (ws ++ vs)) :
    Words m a ws ∧ Words m (a + 4 * ws.length) vs := by
  induction ws generalizing a with
  | nil => exact ⟨trivial, h⟩
  | cons w ws ih =>
    have hrest := ih h.2
    rw [Nat.add_assoc, Nat.add_comm 4, ← Nat.mul_succ] at hrest
    exact ⟨⟨h.1, hrest.1⟩, hrest.2⟩

/-- Word `i` of those that stand there. -/
theorem Words.get {m : Mem} {a i : Nat} {ws : List UInt32} {w : UInt32} (h : Words m a ws)
    (hw : ws[i]? = some w) : load32 m (a + 4 * i) = w.toNat := by
  induction ws generalizing a i with
  | nil => simp at hw
  | cons v ws ih =>
    cases i with
    | zero =>
      obtain rfl : v = w := by simpa using hw
      exact h.1
    | succ i =>
      have hi := ih h.2 (by simpa using hw)
      rwa [Nat.add_assoc, Nat.add_comm 4, ← Nat.mul_succ] at hi

theorem sub_four {v : UInt32} (h : 4 ≤ v.toNat) : (v - 4).toNat = v.toNat - 4 :=
  UInt32.toNat_sub_of_le v 4 (UInt32.le_iff_toNat_le.mpr h)

theorem add_toNat {v n : UInt32} (h : v.toNat + n.toNat < 4294967296) :
    (v + n).toNat = v.toNat + n.toNat := by
  rw [UInt32.toNat_add]
  exact Nat.mod_eq_of_lt h

section
variable {s : Cpu} {ws : List UInt32} {a b : Nat} {m : Mem}

@[simp] theorem set_esp_esp (s : Cpu) (v : UInt32) : (s.set .esp v).esp = v.toNat := by
  simp [Cpu.set, Cpu.esp]

@[simp] theorem set_reg (s : Cpu) (r : Reg) (v : UInt32) : (s.set r v).reg r = v := by
  simp [Cpu.set]

theorem set_reg_ne (s : Cpu) {r q : Reg} (v : UInt32) (h : q ≠ r) :
    (s.set r v).reg q = s.reg q := by
  simp [Cpu.set, Function.update_of_ne h]

theorem set_esp_ne (s : Cpu) {r : Reg} (v : UInt32) (h : r ≠ .esp) : (s.set r v).esp = s.esp :=
  congrArg UInt32.toNat (set_reg_ne s v h.symm)

theorem push_esp (v : UInt32) (h : 4 ≤ s.esp) : (s.push v).esp = s.esp - 4 := by
  have hset : (s.push v).esp = (s.set .esp (s.reg .esp - 4)).esp := rfl
  rw [hset, set_esp_esp, sub_four h]
  rfl

@[simp] theorem push_mem (s : Cpu) (v : UInt32) :
    (s.push v).mem = store32 s.mem (s.push v).esp v.toNat := rfl

/-- A push puts a word in front of those on the stack. -/
theorem Stack.push (h : Stack s ws a b m) (v : UInt32) (hroom : a + 4 ≤ s.esp) :
    Stack (s.push v) (v :: ws) a b m := by
  have hbase := h.base
  have hesp := push_esp v (s := s) (by omega)
  constructor
  · constructor
    · rw [push_mem, load32_store32]
      exact Nat.mod_eq_of_lt v.toNat_lt
    · rw [push_mem, hesp, Nat.sub_add_cancel (by omega)]
      exact h.words.congr fun y h1 _ => store32_outside _ _ _ _ (by omega)
  · rw [hesp, List.length_cons]
    omega
  · rw [hesp]
    omega
  · rw [push_mem, hesp]
    exact h.frame.store32 (by omega) (by omega)

/-- The other registers stay. -/
theorem push_reg {r : Reg} (v : UInt32) (h : r ≠ .esp) : (s.push v).reg r = s.reg r :=
  set_reg_ne s _ h

theorem Stack.top {w : UInt32} (h : Stack s (w :: ws) a b m) : s.top = w := by
  rw [Cpu.top, h.words.1]
  exact UInt32.ofNat_toNat

/-- Words are taken off the stack. -/
theorem Stack.discard (vs : List UInt32) (h : Stack s (vs ++ ws) a b m) {n : UInt32}
    (hn : n.toNat = 4 * vs.length) (hb : b < 4294967296) : Stack (s.discard n) ws a b m := by
  have hbase := h.base
  rw [List.length_append] at hbase
  have hesp : (s.discard n).esp = s.esp + 4 * vs.length := by
    rw [Cpu.discard, set_esp_esp, ← hn]
    exact add_toNat
      (lt_of_le_of_lt (by rw [hn, ← hbase]; exact Nat.add_le_add_left (by omega) _) hb)
  constructor
  · rw [hesp]
    exact h.words.append.2
  · rw [hesp]
    omega
  · rw [hesp]
    exact h.low.trans (Nat.le_add_right _ _)
  · exact h.frame

/-- Only the stack pointer and memory matter. -/
theorem Stack.of_eq {t : Cpu} (h : Stack s ws a b m) (hesp : t.esp = s.esp) (hmem : t.mem = s.mem) :
    Stack t ws a b m := by
  constructor
  · rw [hesp, hmem]
    exact h.words
  · rw [hesp]
    exact h.base
  · rw [hesp]
    exact h.low
  · rw [hmem]
    exact h.frame

/-- There is room for more words as far as the base lies above them. -/
theorem Stack.room (h : Stack s ws a b m) {n : Nat} (hn : n + 4 * ws.length ≤ b) : n ≤ s.esp := by
  have := h.base
  omega

theorem Stack.set (h : Stack s ws a b m) {r : Reg} (hr : r ≠ .esp) (v : UInt32) :
    Stack (s.set r v) ws a b m := h.of_eq (set_esp_ne s v hr) rfl

theorem Stack.pop {w : UInt32} (h : Stack s (w :: ws) a b m) {r : Reg} (hr : r ≠ .esp)
    (hb : b < 4294967296) : Stack (s.pop r) ws a b m :=
  (h.discard [w] rfl hb).set hr _

theorem pop_reg {w : UInt32} (h : Stack s (w :: ws) a b m) (r : Reg) : (s.pop r).reg r = w := by
  rw [Cpu.pop, set_reg, h.top]

@[simp] theorem discard_mem (s : Cpu) (n : UInt32) : (s.discard n).mem = s.mem := rfl

@[simp] theorem pop_mem (s : Cpu) (r : Reg) : (s.pop r).mem = s.mem := rfl

theorem pop_other {r q : Reg} (s : Cpu) (hq : q ≠ r) (hesp : q ≠ .esp) :
    (s.pop r).reg q = s.reg q := by
  rw [Cpu.pop, set_reg_ne _ _ hq, Cpu.discard, set_reg_ne _ _ hesp]

/-- Several words are pushed; the last one ends on top. -/
theorem Stack.pushAll (h : Stack s ws a b m) {vs : List UInt32}
    (hroom : a + 4 * vs.length ≤ s.esp) : Stack (vs.foldl Cpu.push s) (vs.reverse ++ ws) a b m := by
  induction vs generalizing s ws with
  | nil => exact h
  | cons v vs ih =>
    rw [List.length_cons] at hroom
    have hesp := push_esp v (s := s) (by omega)
    rw [List.reverse_cons, List.append_assoc]
    exact ih (h.push v (by omega)) (by omega)

/-- The fields that pushes and pops of registers leave alone. -/
structure SameSegs (s t : Cpu) : Prop where
  seg : t.seg = s.seg
  eflags : t.eflags = s.eflags

theorem pushAll_reg (vs : List UInt32) (s : Cpu) {r : Reg} (hr : r ≠ .esp) :
    (vs.foldl Cpu.push s).reg r = s.reg r := by
  induction vs generalizing s with
  | nil => rfl
  | cons v vs ih => exact (ih (s.push v)).trans (push_reg v hr)

theorem pushAll_segs (vs : List UInt32) (s : Cpu) : SameSegs s (vs.foldl Cpu.push s) := by
  induction vs generalizing s with
  | nil => exact ⟨rfl, rfl⟩
  | cons v vs ih =>
    obtain ⟨hseg, hfl⟩ := ih (s.push v)
    exact ⟨hseg, hfl⟩

end

/-- `pusha` puts the registers on the stack, EDI on top. -/
theorem Stack.pusha {s : Cpu} {ws : List UInt32} {a b : Nat} {m : Mem} (h : Stack s ws a b m)
    (hroom : a + 32 ≤ s.esp) :
    Stack (pusha s) ((allRegs.map s.reg).reverse ++ ws) a b m := h.pushAll hroom

theorem popAll_other {rs : List Reg} {s : Cpu} {q : Reg} (hq : q ∉ rs) (hesp : q ≠ .esp) :
    (popAll rs s).reg q = s.reg q := by
  induction rs generalizing s with
  | nil => rfl
  | cons r rs ih =>
    rw [List.mem_cons, not_or] at hq
    refine (ih hq.2).trans ?_
    rw [popWord]
    split
    · exact set_reg_ne s _ hesp
    · exact pop_other s hq.1 hesp

theorem popAll_segs (rs : List Reg) (s : Cpu) : SameSegs s (popAll rs s) := by
  induction rs generalizing s with
  | nil => exact ⟨rfl, rfl⟩
  | cons r rs ih =>
    obtain ⟨hseg, hfl⟩ := ih (popWord s r)
    have hword : SameSegs s (popWord s r) := by
      rw [popWord]
      split <;> exact ⟨rfl, rfl⟩
    exact ⟨hseg.trans hword.seg, hfl.trans hword.eflags⟩

theorem popAll_mem (rs : List Reg) (s : Cpu) : (popAll rs s).mem = s.mem := by
  induction rs generalizing s with
  | nil => rfl
  | cons r rs ih =>
    refine (ih (popWord s r)).trans ?_
    rw [popWord]
    split <;> rfl

theorem Stack.popAll {s : Cpu} {vs ws : List UInt32} {a b : Nat} {m : Mem} (rs : List Reg)
    (h : Stack s (vs ++ ws) a b m) (hlen : rs.length = vs.length) (hnd : rs.Nodup)
    (hb : b < 4294967296) :
    Stack (popAll rs s) ws a b m ∧ ∀ r v, (r, v) ∈ rs.zip vs → r ≠ .esp →
      (popAll rs s).reg r = v := by
  induction rs generalizing s vs with
  | nil =>
    obtain rfl : vs = [] := List.length_eq_zero_iff.mp hlen.symm
    exact ⟨h, nofun⟩
  | cons q rs ih =>
    cases vs with
    | nil => simp at hlen
    | cons w vs =>
      obtain ⟨hq, hnd⟩ := List.nodup_cons.mp hnd
      have hstack : Stack (popWord s q) (vs ++ ws) a b m := by
        rw [popWord]
        split
        · exact h.discard [w] rfl hb
        · next hesp => exact Stack.pop h hesp hb
      obtain ⟨hs, hregs⟩ := ih hstack (Nat.succ.inj hlen) hnd
      refine ⟨hs, fun r v hmem hr => ?_⟩
      rw [List.zip_cons_cons, List.mem_cons] at hmem
      cases hmem with
      | inl heq =>
        obtain ⟨rfl, rfl⟩ := Prod.mk.inj heq
        refine (popAll_other hq hr).trans ?_
        rw [popWord, if_neg hr]
        exact pop_reg h r
      | inr hmem => exact hregs r v hmem hr

/-- `popa` gives each register its word back; the stack pointer moves past all of them. -/
theorem Stack.popa {s : Cpu} {ws : List UInt32} {a b : Nat} {m : Mem}
    {edi esi ebp junk ebx edx ecx eax : UInt32}
    (h : Stack s ([edi, esi, ebp, junk, ebx, edx, ecx, eax] ++ ws) a b m) (hb : b < 4294967296) :
    Stack (popa s) ws a b m ∧ (X86.popa s).reg .edi = edi ∧ (X86.popa s).reg .esi = esi ∧
      (X86.popa s).reg .ebp = ebp ∧ (X86.popa s).reg .ebx = ebx ∧ (X86.popa s).reg .edx = edx ∧
      (X86.popa s).reg .ecx = ecx ∧ (X86.popa s).reg .eax = eax := by
  obtain ⟨hs, hregs⟩ := h.popAll allRegs.reverse rfl (by decide) hb
  refine ⟨hs, hregs .edi _ ?_ ?_, hregs .esi _ ?_ ?_, hregs .ebp _ ?_ ?_, hregs .ebx _ ?_ ?_,
    hregs .edx _ ?_ ?_, hregs .ecx _ ?_ ?_, hregs .eax _ ?_ ?_⟩ <;> simp [allRegs]

/-- `iret` takes EIP, CS and EFLAGS from the stack. -/
theorem Stack.iret {s : Cpu} {ws : List UInt32} {a b : Nat} {m : Mem} {eip cs eflags : UInt32}
    (h : Stack s (eip :: cs :: eflags :: ws) a b m) (hb : b < 4294967296) :
    Stack (iret s) ws a b m ∧ (X86.iret s).eip = eip ∧ (X86.iret s).cs = low16 cs ∧
      (X86.iret s).eflags = eflags := by
  have h1 : Stack (s.discard 4) (cs :: eflags :: ws) a b m := h.discard [eip] rfl hb
  have h2 : Stack ((s.discard 4).discard 4) (eflags :: ws) a b m :=
    h1.discard [cs] rfl hb
  have h3 : Stack (((s.discard 4).discard 4).discard 4) ws a b m :=
    h2.discard [eflags] rfl hb
  exact ⟨h3.of_eq rfl rfl, h.top, congrArg low16 h1.top, h2.top⟩

theorem discard_reg (s : Cpu) (n : UInt32) {r : Reg} (h : r ≠ .esp) :
    (s.discard n).reg r = s.reg r := set_reg_ne s _ h

theorem iret_mem (s : Cpu) : (iret s).mem = s.mem := rfl

theorem iret_reg (s : Cpu) {r : Reg} (h : r ≠ .esp) : (iret s).reg r = s.reg r := by
  have hiret : (iret s).reg r = (((s.discard 4).discard 4).discard 4).reg r := rfl
  rw [hiret, discard_reg _ _ h, discard_reg _ _ h, discard_reg _ _ h]

/-- A gate leaves what the interrupted code goes on with on the stack. -/
theorem Stack.deliver {s : Cpu} {ws : List UInt32} {a b : Nat} {m : Mem} (h : Stack s ws a b m)
    (hroom : a + 16 ≤ s.esp) (cs : UInt16) (eip : UInt32) (code : Option UInt32) :
    Stack (deliver cs eip code s)
      (code.toList ++ s.eip :: s.cs.toUInt32 :: s.eflags :: ws) a b m := by
  have e1 := push_esp s.eflags (s := s) (by omega)
  have e2 := push_esp s.cs.toUInt32 (s := s.push s.eflags) (by omega)
  have e3 := push_esp s.eip (s := (s.push s.eflags).push s.cs.toUInt32) (by omega)
  have h3 := ((h.push s.eflags (by omega)).push s.cs.toUInt32 (by omega)).push s.eip (by omega)
  cases code with
  | none => exact h3.of_eq rfl rfl
  | some v => exact (h3.push v (by omega)).of_eq rfl rfl

theorem deliver_reg (cs : UInt16) (eip : UInt32) (code : Option UInt32) (s : Cpu) {r : Reg}
    (h : r ≠ .esp) : (deliver cs eip code s).reg r = s.reg r := by
  have hpush : (((s.push s.eflags).push s.cs.toUInt32).push s.eip).reg r = s.reg r := by
    rw [push_reg _ h, push_reg _ h, push_reg _ h]
  cases code with
  | none => exact hpush
  | some v => exact (push_reg v h).trans hpush

theorem deliver_seg (cs : UInt16) (eip : UInt32) (code : Option UInt32) (s : Cpu) :
    (deliver cs eip code s).seg = s.seg := by
  cases code <;> rfl

end X86
