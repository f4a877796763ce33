import Foos.Shutdown
import Foos.Occurrence

/-! `find_fadt` of `kernel/acpi.c`. The table is read through a function of the offset in it, so
that it can be said which of its bytes are looked at. -/
namespace Foos.Acpi
open ByteMemory Word32 Libc Printf Occurrence

/-- An address is taken modulo `2^32`. -/
def bus (m : Mem) : Mem := ⟨fun a => m (a % 4294967296)⟩

/-- What is sent to the serial line. -/
inductive Serial where
  | printf (c : Call)
  | write (s : List UInt8)

def serialPrint (s : String) : Serial := .write (chars s)

/-- The table at `rsdt`. -/
def whole (m : Mem) (rsdt : Nat) : Nat → Option UInt8 := fun o => some (bus m (rsdt + o))

/-- The table for a reader who may look at its first `len` bytes only. -/
def within (m : Mem) (rsdt len : Nat) : Nat → Option UInt8 :=
  fun o => if o < len then whole m rsdt o else none

/-- `rsdt->sdt[i]` -/
def sdt (tbl : Nat → Option UInt8) (i : Nat) : Option Nat := read32 tbl (36 + 4 * i)

/-- The signature of the table at `p`. -/
def signature (m : Mem) (p : Nat) : List UInt8 :=
  [bus m p, bus m (p + 1), bus m (p + 2), bus m (p + 3)]

/-- `n_sdt`: an unsigned difference kept in an `int`, then divided as an unsigned number. -/
def nSdt (len : Nat) : Int := toInt (ofInt (toInt (sub32 len 36)) / 4)

/-- The loop that prints the signatures, with `k` rounds to go. -/
def available (tbl : Nat → Option UInt8) (m : Mem) : Nat → Nat → Option (List Serial)
  | 0, _ => some []
  | k+1, i => do
    let p ← sdt tbl i
    let rest ← available tbl m k (i + 1)
    some (serialPrint "[acpi]\t" :: .write (signature m p) :: .write [10] :: rest)

/-- The loop that compares them. -/
def searchFacp (tbl : Nat → Option UInt8) (m : Mem) : Nat → Nat → Option Nat
  | 0, _ => some 0
  | k+1, i => do
    let p ← sdt tbl i
    let d ← memcmp (fun a => some (bus m a)) p (chars "FACP")
    if d = 0 then some p else searchFacp tbl m k (i + 1)

/-- `find_fadt` with `len` for `rsdt->header.len`. -/
def findFadt (tbl : Nat → Option UInt8) (m : Mem) (len : Nat) : Option (Nat × List Serial) := do
  let n := nSdt len
  let out ← available tbl m n.toNat 0
  let fadt ← searchFacp tbl m n.toNat 0
  some (fadt,
    .printf (serialPrintf "[acpi] Available SDT:\n" [.word (UInt32.ofNat (ofInt n))]) :: out)

/-- The pointer number `i` behind the header. -/
def entry (m : Mem) (rsdt i : Nat) : Nat := load32 (bus m) (rsdt + (36 + 4 * i))

/-- The table that pointer `i` points to has the signature `FACP`. -/
def IsFacp (m : Mem) (rsdt i : Nat) : Prop := signature m (entry m rsdt i) = chars "FACP"

/-- The first of the pointers stored in `[36, len)` to a `FACP` table, or NULL. -/
def FirstFacp (m : Mem) (rsdt len r : Nat) : Prop :=
  (∃ i, 36 + 4 * i + 4 ≤ len ∧ r = entry m rsdt i ∧ IsFacp m rsdt i ∧
    ∀ j, j < i → ¬ IsFacp m rsdt j) ∨
  (r = 0 ∧ ∀ i, 36 + 4 * i + 4 ≤ len → ¬ IsFacp m rsdt i)

variable {m : Mem} {tbl : Nat → Option UInt8} {rsdt len k i : Nat}

theorem nSdt_eq (len : Nat) : nSdt len = (sub32 len 36 / 4 : Nat) := by
  have hlt : sub32 len 36 < 4294967296 := Nat.mod_lt _ (by decide)
  simp only [nSdt, toInt, ofInt]
  split_ifs <;> omega

theorem within_sdt (hin : 36 + 4 * i + 4 ≤ len) :
    sdt (within m rsdt len) i = some (entry m rsdt i) := by
  have hbyte : ∀ j, j < 4 → within m rsdt len (36 + 4 * i + j) =
      some (bus m (rsdt + (36 + 4 * i) + j)) := by
    intro j hj
    rw [within, if_pos (by omega), whole, Nat.add_assoc rsdt]
  have h0 := hbyte 0 (by decide)
  simp only [Nat.add_zero] at h0
  simp only [sdt, read32, h0, hbyte 1 (by decide), hbyte 2 (by decide), hbyte 3 (by decide),
    Option.bind_eq_bind, Option.bind_some, entry, load32]

theorem whole_sdt : sdt (whole m rsdt) i = some (entry m rsdt i) := by
  simp [sdt, read32, whole, entry, load32, Nat.add_assoc]

theorem memcmp_facp (m : Mem) (p : Nat) :
    ∃ d, memcmp (fun a => some (bus m a)) p (chars "FACP") = some d ∧
      (d = 0 ↔ signature m p = chars "FACP") := by
  obtain ⟨d, hd, hiff⟩ : ∃ d, memcmp (fun a => some (bus m a)) p (chars "FACP") = some d ∧
      (d = 0 ↔ Bytes (bus m) p (chars "FACP")) := memcmp_zero fun a _ _ => rfl
  refine ⟨d, hd, hiff.trans ?_⟩
  have hchars : chars "FACP" = [0x46, 0x41, 0x43, 0x50] := by decide
  simp [hchars, Bytes, signature, Nat.add_assoc]

/-- The pointers of the rounds to go can be read. -/
def Pointers (m : Mem) (tbl : Nat → Option UInt8) (rsdt i k : Nat) : Prop :=
  ∀ j, i ≤ j → j < i + k → sdt tbl j = some (entry m rsdt j)

theorem Pointers.tail (h : Pointers m tbl rsdt i (k + 1)) : Pointers m tbl rsdt (i + 1) k :=
  fun j h1 h2 => h j (by omega) (by omega)

theorem available_run (h : Pointers m tbl rsdt i k) : ∃ out, available tbl m k i = some out := by
  induction k generalizing i with
  | zero => exact ⟨[], rfl⟩
  | succ k ih =>
    obtain ⟨rest, hrest⟩ := ih h.tail
    simp only [available, h i (Nat.le_refl i) (by omega), hrest, Option.bind_eq_bind,
      Option.bind_some]
    exact ⟨_, rfl⟩

/-- The loop gives the first pointer to a `FACP` table among those to go. -/
theorem searchFacp_run (h : Pointers m tbl rsdt i k) :
    ∃ r, FirstBelow (fun j => IsFacp m rsdt (i + j)) k r ∧
      searchFacp tbl m k i = some (r.elim 0 fun j => entry m rsdt (i + j)) := by
  induction k generalizing i with
  | zero => exact ⟨none, firstBelow_zero _, rfl⟩
  | succ k ih =>
    obtain ⟨d, hd, hzero⟩ := memcmp_facp m (entry m rsdt i)
    simp only [searchFacp, h i (Nat.le_refl i) (by omega), hd, Option.bind_eq_bind,
      Option.bind_some]
    by_cases hat : IsFacp m rsdt i
    · exact ⟨some 0, firstBelow_here k hat, if_pos (hzero.mpr hat)⟩
    · obtain ⟨r, hr, hrun⟩ := ih h.tail
      simp only [Nat.add_assoc, Nat.add_comm 1] at hr hrun
      refine ⟨_, hr.next hat, ?_⟩
      rw [if_neg fun h0 => hat (hzero.mp h0), hrun]
      cases r <;> rfl

theorem findFadt_run (hlen : 36 ≤ len) (h32 : len < 4294967296)
    (h : ∀ i, 36 + 4 * i + 4 ≤ len → sdt tbl i = some (entry m rsdt i)) :
    ∃ r out, findFadt tbl m len = some (r, out) ∧ FirstFacp m rsdt len r := by
  have hn : (nSdt len).toNat = (len - 36) / 4 := by
    rw [nSdt_eq, sub32_of_le hlen h32, Int.toNat_natCast]
  have hpointers : Pointers m tbl rsdt 0 ((len - 36) / 4) := fun j _ hj => h j (by omega)
  obtain ⟨out, hout⟩ := available_run hpointers
  obtain ⟨r, hfirst, hr⟩ := searchFacp_run hpointers
  simp only [Nat.zero_add] at hfirst hr
  simp only [findFadt, hn, hout, hr, Option.bind_eq_bind, Option.bind_some]
  refine ⟨_, _, rfl, ?_⟩
  cases r with
  | none => exact .inr ⟨rfl, fun j hj => hfirst j (by omega)⟩
  | some j =>
    have hj := hfirst.1
    exact .inl ⟨j, by omega, rfl, hfirst.2⟩

/-- A length below the header's wraps, and the first pointer already stands outside. -/
theorem findFadt_short (hlen : len < 36) : findFadt (within m rsdt len) m len = none := by
  have hn : (nSdt len).toNat = (sub32 len 36 / 4 - 1) + 1 := by
    rw [nSdt_eq, Int.toNat_natCast]
    unfold sub32
    omega
  have hout : sdt (within m rsdt len) 0 = none := by
    rw [sdt, read32, within, if_neg (by omega)]
    rfl
  simp only [findFadt, hn, available, hout, Option.bind_eq_bind, Option.bind_none]

/-- Only pointers in the first `header.len` bytes are looked at, and the first to a `FACP` table is
returned, exactly when the length covers the header. -/
theorem findFadt_iff (m : Mem) (rsdt : Nat) :
    (∃ out, findFadt (within m rsdt (load32 (bus m) (rsdt + 4))) m
      (load32 (bus m) (rsdt + 4)) = some out) ∧
    (∃ r out, findFadt (whole m rsdt) m (load32 (bus m) (rsdt + 4)) = some (r, out) ∧
      FirstFacp m rsdt (load32 (bus m) (rsdt + 4)) r) ↔
    36 ≤ load32 (bus m) (rsdt + 4) := by
  have h32 := load32_lt (bus m) (rsdt + 4)
  constructor
  · intro hall
    by_contra hshort
    obtain ⟨out, hrun⟩ := hall.1
    rw [findFadt_short (Nat.lt_of_not_le hshort)] at hrun
    simp at hrun
  · intro hlen
    constructor
    · have hinside : ∀ i, 36 + 4 * i + 4 ≤ load32 (bus m) (rsdt + 4) →
          sdt (within m rsdt (load32 (bus m) (rsdt + 4))) i = some (entry m rsdt i) :=
        fun i hi => within_sdt hi
      obtain ⟨r, out, hrun, -⟩ := findFadt_run hlen h32 hinside
      exact ⟨_, hrun⟩
    · exact findFadt_run hlen h32 fun i _ => whole_sdt

/-- An RSDT whose length field is zero. -/
theorem findFadt_fails : ¬ ∀ (m : Mem) (rsdt : Nat),
    (∃ out, findFadt (within m rsdt (load32 (bus m) (rsdt + 4))) m
      (load32 (bus m) (rsdt + 4)) = some out) ∧
    ∃ r out, findFadt (whole m rsdt) m (load32 (bus m) (rsdt + 4)) = some (r, out) ∧
      FirstFacp m rsdt (load32 (bus m) (rsdt + 4)) r := by
  intro hall
  obtain ⟨⟨out, hrun⟩, -⟩ := hall ⟨fun _ => 0⟩ 4096
  have hlen : load32 (bus ⟨fun _ => 0⟩) (4096 + 4) = 0 := rfl
  rw [hlen, findFadt_short (by decide)] at hrun
  simp at hrun

end Foos.Acpi
