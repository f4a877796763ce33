import Foos.Rsdt

/-! `checksum_valid`, `acpi_enable` and `acpi_init` of `kernel/acpi.c`. The checksum begins with
what the stack held before: a local variable without a value. -/
namespace Foos.Acpi
open ByteMemory Word32 Libc Printf

/-- The loop of `checksum_valid`, with `k` rounds to go. An `int` index that wraps gives the same
address as one that does not. -/
def checksumFrom (m : Mem) (ptr : Nat) : Nat → Nat → UInt8 → UInt8
  | 0, _, sum => sum
  | k+1, i, sum => checksumFrom m ptr k (i + 1) (sum + bus m (ptr + i))

/-- `checksum_valid` where `sum` stands on the byte `stack`. -/
def checksumValid (m : Mem) (stack : UInt8) (ptr size : Nat) : Bool :=
  checksumFrom m ptr size 0 stack == 0

def fadtAt (m : Mem) (p : Nat) : Fadt where
  dsdt := load32 (bus m) (p + 40)
  smiCmdport := load32 (bus m) (p + 48)
  acpiEnable := (bus m (p + 52)).toNat
  pm1aCtrlblk := load32 (bus m) (p + 64)
  pm1bCtrlblk := load32 (bus m) (p + 68)

inductive Event where
  | serial (s : Serial)
  | puts (s : String)
  | printf (c : Call)
  | outb (port value : Nat)

/-- `inw(pm1a_ctrlblk)` is read until its lowest bit is set; `t` counts the readings. -/
def enabledWithin (inw : Nat → UInt16) : Nat → Nat → Bool
  | 0, _ => false
  | k+1, t => if inw t &&& 1 = 1 then true else enabledWithin inw k (t + 1)

def acpiEnable (inw : Nat → UInt16) (fadt : Fadt) : Nat × List Event :=
  if inw 0 &&& 1 = 1 then (0, [.printf (printf "[acpi] already enabled\n" [])])
  else if fadt.smiCmdport ≠ 0 ∧ fadt.acpiEnable ≠ 0 then
    let out := [.serial (serialPrint "[acpi] enabling\n"),
      .outb fadt.smiCmdport fadt.acpiEnable]
    if enabledWithin inw 300 1 then (0, out ++ [.puts "[acpi] enabled!"])
    else (1, out ++ [.puts "[acpi] not enabled!"])
  else (0, [])

/-- The globals of `kernel/acpi.c` that are set. -/
structure Globals where
  noShutdown : Bool
  slp : SleepTypes
  pm1aCnt : Nat
  pm1bCnt : Nat

/-- Where `acpi_init` returns. -/
inductive Exit where
  | invalidRsdp
  | invalidRsdt
  | noFadt
  | notEnabled
  | done
  deriving DecidableEq

structure InitRun where
  exit : Exit
  ret : Nat
  events : List Event
  globals : Globals

/-- `rsdp->rsdt` -/
def rsdtOf (m : Mem) (rsdp : Nat) : Nat := load32 (bus m) (rsdp + 16)

/-- `rsdt->header.len` -/
def lenOf (m : Mem) (rsdt : Nat) : Nat := load32 (bus m) (rsdt + 4)

def bytesAt (m : Mem) (a n : Nat) : List UInt8 := (List.range n).map fun i => bus m (a + i)

/-- What is printed of a valid RSDP. -/
def describe (m : Mem) (rsdp : Nat) : List Serial :=
  [.printf (serialPrintf "[acpi] RSDP at 0x%x is valid\n" [.word (UInt32.ofNat rsdp)]),
    serialPrint "[acpi] ******************************\n",
    serialPrint "[acpi] RSDP signature: `",
    .write (bytesAt m rsdp 8),
    serialPrint "'\n",
    .printf (serialPrintf "[acpi] ACPI vendor: `" []),
    .write (bytesAt m (rsdp + 9) 6),
    .printf (serialPrintf "'\n[acpi] ACPI version: %s\n"
      [.str (some (chars (if bus m (rsdp + 15) = 2 then "2.0" else "1.0")))]),
    serialPrint "[acpi] ******************************\n"]

/-- `acpi_init` from the point where both tables have been found valid. -/
def acpiFind (m : Mem) (inw : Nat → UInt16) (fuel rsdp : Nat) (out : List Event) (g : Globals) :
    Option InitRun := do
  let rsdt := rsdtOf m rsdp
  let out := out ++ [.serial
    (.printf (serialPrintf "[acpi] RSDT at 0x%x is valid\n" [.word (UInt32.ofNat rsdt)]))]
  let found ← findFadt (whole m rsdt) m (lenOf m rsdt)
  let out := out ++ found.2.map .serial
  if found.1 = 0 then
    some ⟨.noFadt, 1, out ++ [.puts "[acpi] cannot find FADT! no ACPI"], g⟩
  else do
    let fadt := fadtAt m found.1
    let g := { g with pm1aCnt := fadt.pm1aCtrlblk, pm1bCnt := fadt.pm1bCtrlblk }
    let enabled := acpiEnable inw fadt
    if enabled.1 ≠ 0 then some ⟨.notEnabled, 1, out ++ enabled.2, g⟩
    else do
      let s5 ← acpiShutdownInit (fun a => some (bus m a)) fuel fadt g.slp
      let out := out ++ enabled.2 ++ s5.2.1.map fun c => .serial (.printf c)
      let out := if s5.1 ≠ 0 then
          out ++ [.serial (.printf (serialPrintf "[acpi] shutdown feature unavailable\n" []))]
        else out
      some ⟨.done, 0, out, { g with noShutdown := s5.1 ≠ 0, slp := s5.2.2 }⟩

/-- `acpi_init` when the two calls of `checksum_valid` find `stack.1` and `stack.2` where they
keep `sum`. -/
def acpiInit (m : Mem) (stack : UInt8 × UInt8) (inw : Nat → UInt16) (fuel rsdp : Nat)
    (g : Globals) : Option InitRun :=
  if !checksumValid m stack.1 rsdp 20 then
    some ⟨.invalidRsdp, 1, [.puts "[acpi] invalid RSDP! no ACPI"], g⟩
  else
    let out := (describe m rsdp).map .serial
    if !checksumValid m stack.2 (rsdtOf m rsdp) (lenOf m (rsdtOf m rsdp)) then
      some ⟨.invalidRsdt, 1, out ++ [.puts "[acpi] invalid RSDT! no ACPI"], g⟩
    else acpiFind m inw fuel rsdp out g

/-- Neither check has ended the run. -/
def Passed (run : Option InitRun) : Prop :=
  run.map InitRun.exit ≠ some .invalidRsdp ∧ run.map InitRun.exit ≠ some .invalidRsdt

/-- The sum of `n` bytes as a number. -/
def byteSum (m : Mem) (a n : Nat) : Nat := ((bytesAt m a n).map UInt8.toNat).sum

/-- The bytes of the RSDP and those of the RSDT sum to zero modulo 256. -/
def Valid (m : Mem) (rsdp : Nat) : Prop :=
  byteSum m rsdp 20 % 256 = 0 ∧ byteSum m (rsdtOf m rsdp) (lenOf m (rsdtOf m rsdp)) % 256 = 0

/-- What the stack must hold: zero twice for valid tables, and otherwise not just what both sums
lack. -/
def StartsRight (m : Mem) (stack : UInt8 × UInt8) (rsdp : Nat) : Prop :=
  (Valid m rsdp → stack.1 = 0 ∧ stack.2 = 0) ∧
  (¬ Valid m rsdp → (stack.1.toNat + byteSum m rsdp 20) % 256 ≠ 0 ∨
    (stack.2.toNat + byteSum m (rsdtOf m rsdp) (lenOf m (rsdtOf m rsdp))) % 256 ≠ 0)

variable {m : Mem} {stack : UInt8 × UInt8} {inw : Nat → UInt16} {fuel rsdp ptr size : Nat}
  {g : Globals}

theorem byteSum_succ (m : Mem) (a n : Nat) :
    byteSum m a (n + 1) = (bus m a).toNat + byteSum m (a + 1) n := by
  simp only [byteSum, bytesAt, List.range_succ_eq_map, List.map_cons, List.map_map,
    List.sum_cons, Nat.add_zero]
  congr 2
  apply List.map_congr_left
  intro i _
  simp only [Function.comp_apply, Nat.succ_eq_add_one, Nat.add_assoc, Nat.add_comm 1]

/-- The loop adds the bytes to what it starts from. -/
theorem checksumFrom_toNat (m : Mem) (ptr k i : Nat) (sum : UInt8) :
    (checksumFrom m ptr k i sum).toNat = (sum.toNat + byteSum m (ptr + i) k) % 256 := by
  induction k generalizing i sum with
  | zero =>
    have hsum := sum.toNat_lt
    rw [checksumFrom, byteSum, bytesAt, List.range_zero, List.map_nil, List.map_nil, List.sum_nil]
    omega
  | succ k ih =>
    rw [checksumFrom, ih, byteSum_succ, UInt8.toNat_add, Nat.add_assoc ptr i 1]
    omega

theorem checksumValid_iff (m : Mem) (sum : UInt8) (ptr size : Nat) :
    checksumValid m sum ptr size = true ↔ (sum.toNat + byteSum m ptr size) % 256 = 0 := by
  rw [checksumValid, beq_iff_eq, ← UInt8.toNat_inj, checksumFrom_toNat, Nat.add_zero]
  rfl

theorem acpiFind_exit {out : List Event} {run : InitRun}
    (h : acpiFind m inw fuel rsdp out g = some run) :
    run.exit ≠ .invalidRsdp ∧ run.exit ≠ .invalidRsdt := by
  simp only [acpiFind, Option.bind_eq_bind, Option.bind_eq_some_iff] at h
  obtain ⟨found, -, h⟩ := h
  by_cases h0 : found.1 = 0
  · rw [if_pos h0, Option.some.injEq] at h
    simp [← h]
  · rw [if_neg h0] at h
    split_ifs at h
    · rw [Option.some.injEq] at h
      simp [← h]
    · obtain ⟨s5, -, h⟩ := Option.bind_eq_some_iff.mp h
      rw [Option.some.injEq] at h
      simp [← h]

theorem acpiFind_passed (m : Mem) (inw : Nat → UInt16) (fuel rsdp : Nat) (out : List Event)
    (g : Globals) : Passed (acpiFind m inw fuel rsdp out g) := by
  cases hrun : acpiFind m inw fuel rsdp out g with
  | none => simp [Passed]
  | some run => simpa [Passed] using acpiFind_exit hrun

/-- The run gets past both checks exactly when each start byte makes up for its sum. -/
theorem acpiInit_passed : Passed (acpiInit m stack inw fuel rsdp g) ↔
    (stack.1.toNat + byteSum m rsdp 20) % 256 = 0 ∧
    (stack.2.toNat + byteSum m (rsdtOf m rsdp) (lenOf m (rsdtOf m rsdp))) % 256 = 0 := by
  rw [← checksumValid_iff, ← checksumValid_iff, acpiInit]
  cases h1 : checksumValid m stack.1 rsdp 20 with
  | false => simp [Passed]
  | true =>
    cases h2 : checksumValid m stack.2 (rsdtOf m rsdp) (lenOf m (rsdtOf m rsdp)) with
    | false => simp [Passed]
    | true => simpa using acpiFind_passed m inw fuel rsdp _ g

theorem startsRight_iff : (Passed (acpiInit m stack inw fuel rsdp g) ↔ Valid m rsdp) ↔
    StartsRight m stack rsdp := by
  have h1 := stack.1.toNat_lt
  have h2 := stack.2.toNat_lt
  rw [acpiInit_passed, StartsRight, ← UInt8.toNat_inj, ← UInt8.toNat_inj, UInt8.toNat_zero]
  by_cases hv : Valid m rsdp
  · have hsums := hv
    unfold Valid at hsums
    simp only [hv, iff_true, true_implies, not_true, false_implies, and_true]
    omega
  · simp only [hv, iff_false, false_implies, not_false_eq_true, true_implies, true_and]
    omega

/-- Two runs on the same tables: each gets past the checks exactly for valid tables, and so both
do or none, exactly when the stack was right for both. -/
theorem acpiInit_iff (m : Mem) (stack stack' : UInt8 × UInt8) (inw : Nat → UInt16)
    (fuel rsdp : Nat) (g : Globals) :
    ((Passed (acpiInit m stack inw fuel rsdp g) ↔ Valid m rsdp) ∧
      (Passed (acpiInit m stack' inw fuel rsdp g) ↔ Valid m rsdp) ∧
      (Passed (acpiInit m stack inw fuel rsdp g) ↔ Passed (acpiInit m stack' inw fuel rsdp g))) ↔
    StartsRight m stack rsdp ∧ StartsRight m stack' rsdp := by
  constructor
  · intro hall
    exact ⟨startsRight_iff.mp hall.1, startsRight_iff.mp hall.2.1⟩
  · intro hright
    have h1 : Passed (acpiInit m stack inw fuel rsdp g) ↔ Valid m rsdp :=
      startsRight_iff.mpr hright.1
    have h2 : Passed (acpiInit m stack' inw fuel rsdp g) ↔ Valid m rsdp :=
      startsRight_iff.mpr hright.2
    exact ⟨h1, h2, h1.trans h2.symm⟩

/-- Zeroes everywhere are valid tables, but not behind a byte of another value. -/
theorem acpiInit_fails : ¬ ∀ (m : Mem) (stack stack' : UInt8 × UInt8) (inw : Nat → UInt16)
    (fuel rsdp : Nat) (g : Globals),
    (Passed (acpiInit m stack inw fuel rsdp g) ↔ Valid m rsdp) ∧
      (Passed (acpiInit m stack' inw fuel rsdp g) ↔ Valid m rsdp) ∧
      (Passed (acpiInit m stack inw fuel rsdp g) ↔
        Passed (acpiInit m stack' inw fuel rsdp g)) := by
  intro hall
  have hiff := (hall ⟨fun _ => 0⟩ (1, 0) (0, 0) (fun _ => 0) 0 4096
    ⟨true, ⟨0, 0⟩, 0, 0⟩).1
  have hright := startsRight_iff.mp hiff
  have hvalid : Valid ⟨fun _ => 0⟩ 4096 := ⟨by decide, by decide⟩
  exact absurd (hright.1 hvalid).1 (by decide)

end Foos.Acpi
