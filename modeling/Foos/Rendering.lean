import Foos.FormatScan

/-! Formats as sequences of pieces, and the text that `vsprintf` makes of them. -/
namespace Foos.Vsprintf
open ByteMemory CString Word32 Printf

/-- An ordinary character, or a directive with its argument. -/
inductive Piece where
  | plain (c : UInt8)
  | percent
  | char (n : UInt32)
  | str (s : Option (List UInt8))
  | int (n : UInt32)
  | uint (n : UInt32)
  | hex (n : UInt32)

namespace Piece

/-- How the piece stands in the format. -/
def format : Piece → List UInt8
  | plain c => [c]
  | percent => [37, 37]
  | char _ => [37, 99]
  | str _ => [37, 115]
  | int _ => [37, 100]
  | uint _ => [37, 117]
  | hex _ => [37, 120]

def args : Piece → List Arg
  | plain _ | percent => []
  | char n | int n | uint n | hex n => [.word n]
  | str s => [.str s]

/-- The rendering of the piece. -/
def text : Piece → List UInt8
  | plain c => [c]
  | percent => [37]
  | char n => [n.toUInt8]
  | str s => s.getD (chars "(null)")
  | int n => itoa (toInt n.toNat)
  | uint n => utoa n
  | hex n => itoh n

/-- Ordinary characters are no percent signs. -/
def Ordinary : Piece → Prop
  | plain c => c ≠ 37
  | _ => True

end Piece

def formatOf (ps : List Piece) : List UInt8 := ps.flatMap Piece.format
def argsOf (ps : List Piece) : List Arg := ps.flatMap Piece.args
def textOf (ps : List Piece) : List UInt8 := ps.flatMap Piece.text

/-- The stores leave the text in the buffer, and at most one more byte behind it changed. -/
def Leaves (offset : Nat) (text : List UInt8) (stores : Stores) : Prop :=
  ∀ buffer m, Frame [(buffer + offset + text.length, 1)] (putBytes m (buffer + offset) text)
    (perform buffer m stores)

theorem putBytes_congr {m m' : Mem} {p : Nat} (s : List UInt8) (h : Frame [(p, 1)] m m') :
    Frame [(p + s.length, 1)] (putBytes m p s) (putBytes m' p s) := by
  cases s with
  | nil => exact h
  | cons c s =>
    have hsame : store8 m' p c = store8 m p c := by
      refine Mem.ext (funext fun y => ?_)
      by_cases hy : y = p
      · rw [hy, store8_same, store8_same]
      · rw [store8_ne _ p y c hy, store8_ne _ p y c hy]
        refine h y ?_
        rw [outside_single]
        omega
    rw [putBytes, putBytes, hsame]
    exact Frame.refl _ _

theorem Leaves.append {offset : Nat} {s t : List UInt8} {stores stores' : Stores}
    (h : Leaves offset s stores) (h' : Leaves (offset + s.length) t stores') :
    Leaves offset (s ++ t) (stores ++ stores') := by
  intro buffer m
  have hrest := h' buffer (perform buffer m stores)
  rw [← Nat.add_assoc] at hrest
  rw [perform_append, putBytes_append, List.length_append, ← Nat.add_assoc]
  exact (putBytes_congr t (h buffer m)).trans hrest

theorem Leaves.bytes (offset : Nat) (s : List UInt8) :
    Leaves offset s (Printf.memcpy offset s) := by
  intro buffer m
  rw [perform_memcpy]
  exact Frame.refl _ _

/-- The NUL of the copy is the byte behind the text. -/
theorem Leaves.string (offset : Nat) (s : List UInt8) :
    Leaves offset s (Printf.strcpy offset s) := by
  intro buffer m
  rw [perform_strcpy, putString_eq]
  intro y hy
  rw [outside_single] at hy
  exact store8_ne _ _ y 0 (by omega)

/-- A piece in front of a format is rendered, and the rest follows. -/
theorem emit_piece (offset : Nat) {p : Piece} (hp : p.Ordinary) (format : List UInt8)
    (args : List Arg) : ∃ stores, Leaves offset p.text stores ∧
      emit offset (p.format ++ format) (p.args ++ args) =
        (emit (offset + p.text.length) format args).map fun t =>
          ((stores ++ t.1.1, t.1.2), t.2) := by
  cases p with
  | plain c => exact ⟨_, Leaves.bytes offset [c], emit_char hp offset format args⟩
  | percent => exact ⟨_, Leaves.bytes offset [37], rfl⟩
  | char n => exact ⟨_, Leaves.bytes offset [n.toUInt8], rfl⟩
  | str s => exact ⟨_, Leaves.string offset _, rfl⟩
  | int n => exact ⟨_, Leaves.bytes offset _, rfl⟩
  | uint n => exact ⟨_, Leaves.bytes offset _, rfl⟩
  | hex n => exact ⟨_, Leaves.bytes offset _, rfl⟩

/-- The pieces are rendered one after the other. -/
theorem emit_pieces (offset : Nat) {ps : List Piece} (hps : ∀ p ∈ ps, p.Ordinary) :
    ∃ stores, Leaves offset (textOf ps) stores ∧ emit offset (formatOf ps) (argsOf ps) =
      some ((stores, offset + (textOf ps).length), []) := by
  induction ps generalizing offset with
  | nil => exact ⟨[], Leaves.bytes offset [], rfl⟩
  | cons p ps ih =>
    obtain ⟨stores, hleaves, hpiece⟩ := emit_piece offset (hps p List.mem_cons_self) (formatOf ps)
      (argsOf ps)
    obtain ⟨stores', hleaves', hrest⟩ := ih (offset + p.text.length) fun q hq =>
      hps q (List.mem_cons_of_mem p hq)
    refine ⟨stores ++ stores', hleaves.append hleaves', ?_⟩
    have hlength : textOf (p :: ps) = p.text ++ textOf ps := rfl
    rw [hlength, List.length_append, ← Nat.add_assoc]
    exact hpiece.trans (by rw [hrest, Option.map_some])

/-- The list formatter stores the text and a NUL. -/
theorem vsprintf_pieces {ps : List Piece} (hps : ∀ p ∈ ps, p.Ordinary) :
    ∃ stores, Printf.vsprintf (formatOf ps) (argsOf ps) = some (stores, (textOf ps).length) ∧
      ∀ buffer m, perform buffer m stores = putString m buffer (textOf ps) := by
  obtain ⟨stores, hleaves, hemit⟩ := emit_pieces 0 hps
  rw [Nat.zero_add] at hemit
  refine ⟨stores ++ [((textOf ps).length, 0)], ?_, fun buffer m => ?_⟩
  · rw [Printf.vsprintf, formatFrom_emit, hemit, Option.map_some]
  · have hbytes := hleaves buffer m
    rw [Nat.add_zero] at hbytes
    rw [perform_append, putString_eq]
    refine Mem.ext (funext fun y => ?_)
    show store8 (perform buffer m stores) (buffer + (textOf ps).length) 0 y = _
    by_cases hy : y = buffer + (textOf ps).length
    · rw [hy, store8_same, store8_same]
    · rw [store8_ne _ _ y 0 hy, store8_ne _ _ y 0 hy]
      refine hbytes y ?_
      rw [outside_single]
      omega

variable {buffer bufTemp format fuel : Nat} {m : Mem} {ps : List Piece} {vlist : List UInt32}

theorem renders_run (hps : ∀ p ∈ ps, p.Ordinary)
    (h : Passed buffer bufTemp (textOf ps).length m format (formatOf ps) vlist (argsOf ps))
    (hfuel : enoughFuel (formatOf ps) (argsOf ps) ≤ fuel) :
    ∃ r, vsprintf fuel buffer bufTemp m format vlist = some r ∧
      Frame [(bufTemp, BUFSIZ)] (putString m buffer (textOf ps)) r.m ∧
      r.ret = toInt (textOf ps).length := by
  obtain ⟨stores, hprintf, hmem⟩ := vsprintf_pieces hps
  obtain ⟨m', hrun, hframe⟩ := vsprintf_run h hprintf hfuel
  exact ⟨_, hrun, hmem buffer m ▸ hframe, rfl⟩

/-- `vsprintf` writes the renderings of the pieces one after the other and a NUL, and changes
nothing else but its local `buf_temp`. It returns the length of the text as an `int`. -/
theorem vsprintf_renders (hps : ∀ p ∈ ps, p.Ordinary)
    (h : Passed buffer bufTemp (textOf ps).length m format (formatOf ps) vlist (argsOf ps))
    (hfuel : enoughFuel (formatOf ps) (argsOf ps) ≤ fuel) :
    ∃ r, vsprintf fuel buffer bufTemp m format vlist = some r ∧
      Frame [(bufTemp, BUFSIZ)] (putString m buffer (textOf ps)) r.m ∧
      r.ret = toInt (textOf ps).length ∧
      ((textOf ps).length < 2147483648 → r.ret = (textOf ps).length) := by
  obtain ⟨r, hrun, hmem, hret⟩ := renders_run hps h hfuel
  exact ⟨r, hrun, hmem, hret, fun hlt => hret.trans (if_pos hlt)⟩

/-- `a%s%%` with the string `b`. -/
def short : List Piece := [.plain 97, .str (some [98]), .percent]

theorem short_ordinary : ∀ p ∈ short, p.Ordinary := by
  intro p hp
  simp only [short, List.mem_cons, List.not_mem_nil, or_false] at hp
  rcases hp with rfl | rfl | rfl
  · exact show (97 : UInt8) ≠ 37 by decide
  · trivial
  · trivial

theorem short_passed : Passed 0x2000 0x3000 (textOf short).length
    (formatMem (formatOf short)) 0x1000 (formatOf short) [0x1010] (argsOf short) := by
  refine ⟨⟨by decide, Or.inl (by decide)⟩, by decide +kernel, by decide, ?_⟩
  exact .cons ⟨by decide, by decide +kernel, by decide, by decide⟩ .nil

theorem vsprintf_renders_short :
    ∃ r, vsprintf 20 0x2000 0x3000 (formatMem (formatOf short)) 0x1000 [0x1010] = some r ∧
      Frame [(0x3000, BUFSIZ)] (putString (formatMem (formatOf short)) 0x2000 (textOf short)) r.m ∧
      r.ret = toInt (textOf short).length ∧
      ((textOf short).length < 2147483648 → r.ret = (textOf short).length) :=
  vsprintf_renders short_ordinary short_passed (by decide)

/-- The same string of `n` letters twice. -/
def long (n : Nat) : List Piece :=
  [.str (some (List.replicate n 97)), .str (some (List.replicate n 97))]

/-- The format `%s%s` at `0x1000`, and a string of `n` letters at `0x2000`. -/
def longMem (n : Nat) : Mem := ⟨fun y =>
  if 0x2000 ≤ y ∧ y < 0x2000 + n then 97
  else if y < 0x1004 then [37, 115, 37, 115].getD (y - 0x1000) 0 else 0⟩

theorem long_length (n : Nat) : (textOf (long n)).length = n + n := by
  simp [textOf, long, Piece.text]

theorem long_string (n : Nat) : Str (longMem n) 0x2000 (List.replicate n 97) := by
  refine .of_getD (fun c hc => (List.eq_of_mem_replicate hc) ▸ by decide) fun t ht => ?_
  rw [List.length_replicate] at ht
  rw [List.getD_eq_getElem?_getD, List.getElem?_replicate]
  simp only [longMem]
  by_cases hlt : t < n
  · rw [if_pos (by omega), if_pos hlt]
    rfl
  · rw [if_neg (by omega), if_neg (by omega), if_neg hlt]
    rfl

theorem long_ordinary (n : Nat) : ∀ p ∈ long n, p.Ordinary := by
  intro p hp
  simp only [long, List.mem_cons, List.not_mem_nil, or_false] at hp
  cases hp with
  | inl heq =>
    obtain rfl := heq
    trivial
  | inr heq =>
    obtain rfl := heq
    trivial

theorem long_passed {n : Nat} (hn : n ≤ 0x40000000) :
    Passed 0x50000000 0xE0000000 (textOf (long n)).length (longMem n) 0x1000 (formatOf (long n))
      [0x2000, 0x2000] (argsOf (long n)) := by
  have hbufsiz : BUFSIZ = 512 := rfl
  have hfour : (formatOf (long n)).length = 4 := rfl
  have haddr : (0x2000 : UInt32).toNat = 0x2000 := rfl
  rw [long_length]
  have hholds : Holds (areas 0x50000000 0xE0000000 (n + n)) (longMem n) 0x2000
      (.str (some (List.replicate n 97))) := by
    refine ⟨by decide, long_string n, ?_, ?_⟩
    · rw [haddr, List.length_replicate]
      omega
    · simp only [areas, apart_cons, apart_nil, and_true, haddr, List.length_replicate]
      omega
  refine ⟨⟨by omega, by omega⟩, ?_, ?_, .cons hholds (.cons hholds .nil)⟩
  · simp [formatOf, long, Piece.format, Str, longMem]
  · simp only [areas, apart_cons, apart_nil, and_true, hfour]
    omega

/-- The length of a text of `2^31` characters is no `int`. -/
theorem vsprintf_returns_fails :
    Passed 0x50000000 0xE0000000 (textOf (long 0x40000000)).length (longMem 0x40000000) 0x1000
      (formatOf (long 0x40000000)) [0x2000, 0x2000] (argsOf (long 0x40000000)) ∧
    ∀ fuel ≥ enoughFuel (formatOf (long 0x40000000)) (argsOf (long 0x40000000)),
      ∃ r, vsprintf fuel 0x50000000 0xE0000000 (longMem 0x40000000) 0x1000 [0x2000, 0x2000] =
          some r ∧ r.ret = -2147483648 ∧ r.ret ≠ (textOf (long 0x40000000)).length := by
  have hpassed := long_passed (Nat.le_refl 0x40000000)
  refine ⟨hpassed, fun fuel hfuel => ?_⟩
  obtain ⟨r, hrun, -, hret⟩ := renders_run (long_ordinary 0x40000000) hpassed hfuel
  have hneg : r.ret = -2147483648 := by
    rw [hret, long_length]
    decide
  refine ⟨r, hrun, hneg, ?_⟩
  rw [hneg]
  omega

end Foos.Vsprintf
