import Mathlib.Data.List.Infix
import Foos.DeviceReads
import Foos.Echo
import Foos.Modifiers

/-! What `tty_read` returns is what a line editor makes of the keys: characters are appended, the
last one is taken back, and modifiers only choose between characters. -/
namespace Foos.Terminal
open Program ByteMemory Devices

/-- The other case of a letter. -/
def swapCase (c : UInt8) : UInt8 :=
  if 97 ≤ c ∧ c ≤ 122 then c - 32 else if 65 ≤ c ∧ c ≤ 90 then c + 32 else c

/-- Shift takes the upper character of a key, and Caps Lock swaps the case of letters. -/
def keyChar (shift caps : Bool) (key : UInt8) : UInt8 :=
  let c := if shift then shiftSet.getD key.toNat 0 else scancodeSet.getD key.toNat 0
  if caps then swapCase c else c

structure Editor where
  shift : Bool
  caps : Bool
  line : List UInt8

def Editor.key (e : Editor) (scancode : UInt8) : Editor :=
  if isRelease scancode then
    if keyCode scancode ∈ [LSHIFT, RSHIFT] then { e with shift := false } else e
  else if scancode ∈ [LSHIFT, RSHIFT] then { e with shift := true }
  else if scancode = CAPS then { e with caps := !e.caps }
  else if scancode ∈ [TAB, CTRL, ALT] then e
  else if scancode = BACKSPACE then { e with line := e.line.dropLast }
  else { e with line := e.line ++ [keyChar e.shift e.caps scancode] }

/-- The editor at the call of `tty_read`. -/
def Editor.start (s : Console) : Editor := ⟨s.tty.kbd.shift, s.tty.kbd.caps, []⟩

theorem tables_keyChar : ∀ code < 60, ∀ shift caps : Bool,
    decode ⟨false, shift, false, caps, false, false, false⟩ code =
      keyChar shift caps (UInt8.ofNat code) := by
  decide +kernel

theorem decode_keyChar (kbd : Kbd) {key : UInt8} (h : key < 60) :
    decode kbd key.toNat = keyChar kbd.shift kbd.caps key := by
  have hcode : UInt8.ofNat key.toNat = key := UInt8.ofNat_toNat
  rw [decode_shift_caps, tables_keyChar _ (UInt8.lt_iff_toNat_lt.mp h), hcode]

theorem Editor.key_shift (e : Editor) (k : UInt8) :
    (e.key k).shift = bitAfter [LSHIFT, RSHIFT] e.shift k := by
  cases hrel : isRelease k with
  | true =>
    simp only [Editor.key, bitAfter, hrel, if_true, Bool.not_true]
    split <;> rfl
  | false =>
    simp only [Editor.key, bitAfter, hrel, isRelease_false hrel, Bool.false_eq_true, if_false,
      Bool.not_false]
    split_ifs <;> rfl

theorem Editor.key_caps (e : Editor) (k : UInt8) :
    (e.key k).caps = if k = CAPS then !e.caps else e.caps := by
  unfold Editor.key
  by_cases hc : k = CAPS
  · subst hc
    rfl
  · simp only [hc, if_false]
    split_ifs <;> rfl

theorem keyOf_release {k : UInt8} (h : isRelease k = true) : keyOf k = .quiet := by
  have hbit : k &&& 0x80 ≠ 0 := by simpa [isRelease] using h
  exact if_pos hbit

theorem keyOf_make {k : UInt8} (h : isRelease k = false) : keyOf k =
    if k ∈ [TAB, CTRL, LSHIFT, RSHIFT, CAPS, ALT] then .quiet
    else if k = ENTER then .enter else if k = BACKSPACE then .backspace else .char := by
  have hbit : ¬ k &&& 0x80 ≠ 0 := by simpa [isRelease] using h
  exact if_neg hbit

theorem keyOf_enter {k : UInt8} (h : keyOf k = .enter) : k = ENTER := by
  cases hrel : isRelease k with
  | true =>
    rw [keyOf_release hrel] at h
    cases h
  | false =>
    rw [keyOf_make hrel] at h
    by_contra hk
    rw [if_neg hk] at h
    split_ifs at h

/-- The line changes by what kind of key it is. -/
theorem Editor.key_line (e : Editor) (k : UInt8) :
    (keyOf k = .quiet → (e.key k).line = e.line) ∧
    (keyOf k = .backspace → (e.key k).line = e.line.dropLast) ∧
    (keyOf k = .char → (e.key k).line = e.line ++ [keyChar e.shift e.caps k]) := by
  cases hrel : isRelease k with
  | true =>
    have hsame : (e.key k).line = e.line := by
      simp only [Editor.key, hrel, if_true]
      split <;> rfl
    rw [keyOf_release hrel]
    exact ⟨fun _ => hsame, nofun, nofun⟩
  | false =>
    simp only [keyOf_make hrel, Editor.key, hrel, Bool.false_eq_true, if_false, List.mem_cons,
      List.not_mem_nil, or_false]
    by_cases hshift : k = LSHIFT ∨ k = RSHIFT
    · rcases hshift with rfl | rfl <;> exact ⟨fun _ => rfl, nofun, nofun⟩
    by_cases hcaps : k = CAPS
    · subst hcaps
      exact ⟨fun _ => rfl, nofun, nofun⟩
    by_cases hquiet : k = TAB ∨ k = CTRL ∨ k = ALT
    · rcases hquiet with rfl | rfl | rfl <;> exact ⟨fun _ => rfl, nofun, nofun⟩
    obtain ⟨hl, hr⟩ := not_or.mp hshift
    obtain ⟨ht, hc, ha⟩ := by simpa only [not_or] using hquiet
    by_cases hback : k = BACKSPACE
    · subst hback
      exact ⟨nofun, fun _ => rfl, nofun⟩
    by_cases henter : k = ENTER
    · subst henter
      exact ⟨nofun, nofun, nofun⟩
    simp only [hl, hr, hcaps, ht, hc, ha, hback, henter, or_self, if_false]
    exact ⟨nofun, nofun, fun _ => trivial⟩

/-- A session that waits for a line is where the editor is. -/
structure Follows (s : Session) (e : Editor) : Prop where
  buffered : Buffered s
  waiting : Waiting s
  line : s.pending = e.line
  shift : s.con.tty.kbd.shift = e.shift
  caps : s.con.tty.kbd.caps = e.caps

theorem interrupt_waiting {s : Session} (h : Waiting s) {k : UInt8} (hk : keyOf k ≠ .enter) :
    Waiting (interrupt s k) :=
  ⟨(typing_reader s k).trans h.reader, (kbdIrq_line s.con hk).1.trans h.flush⟩

theorem Follows.bufptr {s : Session} {e : Editor} (h : Follows s e) :
    s.con.tty.bufptr = e.line.length := by
  rw [h.buffered.bufptr, h.line]

theorem isRelease_of_char {k : UInt8} (hk : keyOf k = .char) : isRelease k = false := by
  by_contra hrel
  rw [keyOf_release (by simpa using hrel)] at hk
  cases hk

theorem lt_of_make {k : UInt8} (h : k ≤ 0x3A) : k < 60 := UInt8.lt_of_le_of_lt h (by decide)

theorem Follows.key {s : Session} {e : Editor} (h : Follows s e) {k : UInt8}
    (hk : keyOf k ≠ .enter) (hmake : isRelease k = false → k ≤ 0x3A) :
    Follows (interrupt s k) (e.key k) := by
  have hcopy : s.reader.isCopy = false := by
    rw [h.waiting.reader]
    rfl
  have hflush := h.waiting.flush
  have hmod := kbdIrq_modifiers s.con k
  simp only [modifiers, Prod.mk.injEq] at hmod
  obtain ⟨-, hshift, -, hcaps⟩ := hmod
  obtain ⟨hquiet, hback, hchar⟩ := e.key_line k
  refine ⟨?_, interrupt_waiting h.waiting hk, ?_, ?_, ?_⟩
  · exact h.buffered.move (a := .irq k) ⟨fun _ => ⟨hflush, hcopy⟩, fun _ => hflush⟩ rfl
  · cases hkey : keyOf k with
    | quiet => rw [interrupt_quiet hkey, hquiet hkey, ← h.line]
    | enter => exact absurd hkey hk
    | backspace => rw [interrupt_backspace hkey, hback hkey, ← h.line]
    | char =>
      have hlt := lt_of_make (hmake (isRelease_of_char hkey))
      rw [interrupt_char hkey, hchar hkey, decode_keyChar _ hlt]
      simp only [pressed, h.line, h.shift, h.caps]
  · rw [e.key_shift, ← h.shift]
    exact hshift
  · rw [e.key_caps, ← h.caps]
    exact hcaps

theorem Follows.room {s : Session} {e : Editor} (h : Follows s e) {k : UInt8}
    (hmake : isRelease k = false → k ≤ 0x3A) (hlen : (e.key k).line.length ≤ 511) :
    HasRoom s.con k := by
  intro hkey
  rw [(e.key_line k).2.2 hkey, List.length_append, List.length_singleton] at hlen
  refine ⟨lt_of_make (hmake (isRelease_of_char hkey)), ?_⟩
  rw [h.bufptr]
  omega

/-- ENTER saves the pointer behind the line of the editor. -/
theorem Follows.enter {s : Session} {e : Editor} (h : Follows s e) :
    (kbdIrq s.con ENTER).tty.tmp = e.line.length ∧
      bytes (kbdIrq s.con ENTER).tty.buf e.line.length = e.line := by
  have hk : keyOf ENTER = .enter := by decide
  have hnone : lineWrites s.con ENTER = [] := rfl
  have hbuf : (kbdIrq s.con ENTER).tty.buf = s.con.tty.buf := by
    funext i
    exact kbdIrq_buf s.con ENTER (hnone ▸ List.not_mem_nil)
  refine ⟨(kbdIrq_enter s.con hk).2.trans h.bufptr, ?_⟩
  rw [hbuf, ← h.bufptr, h.buffered.pending, h.line]

/-- The wait ends at the first ENTER with the line of the editor in the buffer. -/
theorem Follows.waits {typed : List UInt8} {s : Session} {e : Editor} (h : Follows s e)
    (hfirst : ENTER ∉ typed) (hmake : ∀ k ∈ typed, isRelease k = false → k ≤ 0x3A)
    (hroom : ∀ pre, pre <+: typed → (pre.foldl Editor.key e).line.length ≤ 511)
    (rest : List UInt8) :
    ∃ t, whileNotFlush s.con (typed ++ ENTER :: rest) = .line t rest ∧
      t.tty.tmp = (typed.foldl Editor.key e).line.length ∧
      bytes t.tty.buf (typed.foldl Editor.key e).line.length = (typed.foldl Editor.key e).line := by
  induction typed generalizing s e with
  | nil => exact ⟨_, whileNotFlush_enter h.waiting.flush (by decide) rest, h.enter⟩
  | cons k typed ih =>
    obtain ⟨hk, hfirst⟩ := List.ne_and_not_mem_of_not_mem_cons hfirst
    obtain ⟨hkmake, hmake⟩ := List.forall_mem_cons.mp hmake
    have hkey : keyOf k ≠ .enter := fun hk' => hk (keyOf_enter hk').symm
    have hlen : (e.key k).line.length ≤ 511 := hroom [k] (List.prefix_append [k] typed)
    rw [List.cons_append, whileNotFlush_key h.waiting.flush, if_pos (h.room hkmake hlen)]
    refine ih (h.key hkey hkmake) hfirst hmake fun pre hpre => ?_
    exact hroom (k :: pre) (List.cons_prefix_cons.mpr ⟨rfl, hpre⟩)

/-- At the call of `tty_read` nothing is pending. -/
theorem follows_start {s : Console} (h : s.tty.kbd.flush = false) :
    Follows ⟨resetPtr s, .whileFlush, [], [], []⟩ (Editor.start s) := by
  refine ⟨⟨rfl, nofun, ?_, nofun, nofun⟩, ⟨rfl, h⟩, rfl, rfl, rfl⟩
  rw [unread_free (s := ⟨resetPtr s, .whileFlush, [], [], []⟩) h rfl]
  rfl

/-- `tty_read` copies the line of the editor into the buffer of its caller and returns the length
of that line. -/
theorem ttydevRead_edits {w : World Driver} {typed rest : List UInt8}
    (hopen : (w.devs DEV_TTY).data ≠ 0) (hirq : (w.driver DEV_TTY).irq1 = true)
    (hflush : (w.driver DEV_TTY).con.tty.kbd.flush = false)
    (hkeys : (w.driver DEV_TTY).keys = typed ++ ENTER :: rest) (hfirst : ENTER ∉ typed)
    (hmake : ∀ k ∈ typed, isRelease k = false → k ≤ 0x3A)
    (hroom : ∀ pre, pre <+: typed →
      (pre.foldl Editor.key (Editor.start (w.driver DEV_TTY).con)).line.length ≤ 511)
    (buf off len : Nat) :
    ∃ t, ttydevRead DEV_TTY buf off len w =
        .ret (typed.foldl Editor.key (Editor.start (w.driver DEV_TTY).con)).line.length t ∧
      t.mem = putBytes w.mem buf
        (typed.foldl Editor.key (Editor.start (w.driver DEV_TTY).con)).line := by
  obtain ⟨s, hwait, htmp, hbytes⟩ :=
    (follows_start hflush).waits hfirst hmake hroom rest
  have hline : (w.driver DEV_TTY).wait = .line s rest := by
    rw [Driver.wait, hirq, if_pos rfl, hkeys]
    exact hwait
  have hm := hroom typed (List.prefix_refl typed)
  obtain ⟨t, hret, hmem, -⟩ := ttydevRead_line w buf off len hopen hline htmp hm
  exact ⟨t, hret, by rw [hmem, hbytes]⟩

/-- The open terminal of a new kernel, and keys to come. -/
def openTerminal (keys : List UInt8) : World Driver :=
  { bootState.w with
    devs := fun _ => ⟨0, 0x400010⟩
    driver := fun _ => ⟨(bootState.w.driver DEV_TTY).con, true, true, keys⟩ }

/-- `A`, `a`, a backspace and `b`. -/
theorem ttydevRead_edits_shift :
    ∃ t, ttydevRead DEV_TTY 0x600000 0 64
        (openTerminal ([LSHIFT, 0x1E, 0xAA, 0x1E, BACKSPACE, 0x30] ++ [ENTER])) = .ret 2 t ∧
      t.mem = putBytes (openTerminal []).mem 0x600000 [65, 98] := by
  have hline : ([LSHIFT, 0x1E, 0xAA, 0x1E, BACKSPACE, 0x30].foldl Editor.key
      (Editor.start (bootState.w.driver DEV_TTY).con)).line = [65, 98] := by decide +kernel
  have hroom : ∀ pre ∈ List.inits [LSHIFT, 0x1E, 0xAA, 0x1E, BACKSPACE, 0x30],
      (pre.foldl Editor.key (Editor.start (bootState.w.driver DEV_TTY).con)).line.length ≤ 511 := by
    decide +kernel
  have hmake : ∀ k ∈ [LSHIFT, 0x1E, 0xAA, 0x1E, BACKSPACE, 0x30],
      isRelease k = false → k ≤ 0x3A := by
    decide +kernel
  have hread := ttydevRead_edits (w := openTerminal ([LSHIFT, 0x1E, 0xAA, 0x1E, BACKSPACE, 0x30] ++
    [ENTER])) (by decide) rfl rfl rfl (by decide) hmake
    (fun pre hpre => hroom pre ((List.mem_inits pre _).mpr hpre)) 0x600000 0 64
  exact hline ▸ hread

end Foos.Terminal
