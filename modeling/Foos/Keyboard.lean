import Foos.Tty

/-! The keyboard side of `kernel/dev/tty.c`: the interrupt handler that edits the line buffer
and echoes, and the parts of `tty_read`. -/
namespace Foos.Terminal

/-- `"??1234567890-=\b\tqwertyuiop[]\n?asdfghjkl;'`?\\zxcvbnm,./??? ?"` and its NUL -/
def scancodeSet : List UInt8 :=
  [63, 63, 49, 50, 51, 52, 53, 54, 55, 56, 57, 48, 45, 61, 8, 9, 113, 119, 101, 114, 116, 121, 117,
    105, 111, 112, 91, 93, 10, 63, 97, 115, 100, 102, 103, 104, 106, 107, 108, 59, 39, 96, 63, 92,
    122, 120, 99, 118, 98, 110, 109, 44, 46, 47, 63, 63, 63, 32, 63, 0]

/-- `"..!@#$%^&*()_+\b\tQWERTYUIOP{}\n.ASDFGHJKL:\"~.|ZXCVBNM<>?.*. ?"` and its NUL -/
def shiftSet : List UInt8 :=
  [46, 46, 33, 64, 35, 36, 37, 94, 38, 42, 40, 41, 95, 43, 8, 9, 81, 87, 69, 82, 84, 89, 85, 73, 79,
    80, 123, 125, 10, 46, 65, 83, 68, 70, 71, 72, 74, 75, 76, 58, 34, 126, 46, 124, 90, 88, 67, 86,
    66, 78, 77, 60, 62, 63, 46, 42, 46, 32, 63, 0]

def TAB : UInt8 := 0x0F
def CTRL : UInt8 := 0x1D
def LSHIFT : UInt8 := 0x2A
def RSHIFT : UInt8 := 0x36
def ENTER : UInt8 := 0x1C
def ALT : UInt8 := 0x38
def CAPS : UInt8 := 0x3A
def BACKSPACE : UInt8 := 0x0E

def toupper (c : UInt8) : UInt8 := if 97 ≤ c ∧ c ≤ 122 then c - 32 else c
def tolower (c : UInt8) : UInt8 := if 65 ≤ c ∧ c ≤ 90 then c + 32 else c

/-- What stands behind a table is not known; it is read as NUL here. -/
def decode (kbd : Kbd) (code : Nat) : UInt8 :=
  if ¬ kbd.shift ∧ kbd.caps then toupper (scancodeSet.getD code 0)
  else if kbd.shift ∧ ¬ kbd.caps then shiftSet.getD code 0
  else if ¬ kbd.shift then scancodeSet.getD code 0
  else tolower (shiftSet.getD code 0)

def setKbd (s : Console) (kbd : Kbd) : Console := { s with tty := { s.tty with kbd := kbd } }

def released (kbd : Kbd) (code : UInt8) : Kbd :=
  if code = CTRL then { kbd with ctrl := false }
  else if code = LSHIFT ∨ code = RSHIFT then { kbd with shift := false }
  else if code = ALT then { kbd with alt := false }
  else kbd

def finishLine (t : Tty) : Tty :=
  { t with kbd := { t.kbd with flush := true }, tmp := t.bufptr, bufptr := 0 }

/-- `*--(ptr->bufptr)='\0'` -/
def eraseLast (t : Tty) : Tty :=
  let p := t.bufptr - 1
  { t with bufptr := p, buf := Function.update t.buf p 0 }

/-- `*(ptr->bufptr)=ch; ptr->bufptr++; *(ptr->bufptr)='\0'` -/
def appendChar (t : Tty) (ch : UInt8) : Tty :=
  let p := t.bufptr
  { t with bufptr := p + 1, buf := Function.update (Function.update t.buf p ch) (p + 1) 0 }

/-- ENTER -/
def enterLine (s : Console) : Console :=
  let s := ttyWritechar s 10
  { s with tty := finishLine s.tty }

/-- BACKSPACE -/
def eraseChar (s : Console) : Console :=
  if s.tty.bufptr ≤ 0 then { s with tty := { s.tty with bufptr := 0 } }
  else
    let s := ttyWritechar s 8
    { s with tty := eraseLast s.tty }

/-- Any other key. -/
def typeChar (s : Console) (ch : UInt8) : Console :=
  let s := ttyWritechar s ch
  { s with tty := appendChar s.tty ch }

def kbdIrq (s : Console) (scancode : UInt8) : Console :=
  let kbd := { s.tty.kbd with irq := true, special := true }
  if scancode &&& 0x80 ≠ 0 then setKbd s (released kbd (scancode &&& 0x7F))
  else if scancode = TAB then setKbd s kbd
  else if scancode = CTRL then setKbd s { kbd with ctrl := true }
  else if scancode = LSHIFT ∨ scancode = RSHIFT then setKbd s { kbd with shift := true }
  else if scancode = CAPS then setKbd s { kbd with caps := !kbd.caps }
  else if scancode = ALT then setKbd s { kbd with alt := true }
  else
    let s := setKbd s { kbd with special := false }
    if scancode = ENTER then enterLine s
    else if scancode = BACKSPACE then eraseChar s
    else typeChar s (decode s.tty.kbd scancode.toNat)

/-- What a scancode does to the line. -/
inductive Key where
  | quiet
  | enter
  | backspace
  | char
  deriving DecidableEq

def keyOf (scancode : UInt8) : Key :=
  if scancode &&& 0x80 ≠ 0 then .quiet
  else if scancode ∈ [TAB, CTRL, LSHIFT, RSHIFT, CAPS, ALT] then .quiet
  else if scancode = ENTER then .enter
  else if scancode = BACKSPACE then .backspace
  else .char

/-- The keyboard state in which a key takes effect on the line. -/
def pressed (kbd : Kbd) : Kbd := { kbd with irq := true, special := false }

theorem released_flush (kbd : Kbd) (code : UInt8) : (released kbd code).flush = kbd.flush := by
  unfold released
  split_ifs <;> rfl

/-- What an interrupt does, by the kind of its key. -/
theorem kbdIrq_cases (s : Console) (scancode : UInt8) :
    (keyOf scancode = .quiet ∧ ∃ kbd, kbdIrq s scancode = setKbd s kbd ∧
      kbd.flush = s.tty.kbd.flush) ∨
    (keyOf scancode = .enter ∧
      kbdIrq s scancode = enterLine (setKbd s (pressed s.tty.kbd))) ∨
    (keyOf scancode = .backspace ∧
      kbdIrq s scancode = eraseChar (setKbd s (pressed s.tty.kbd))) ∨
    (keyOf scancode = .char ∧ kbdIrq s scancode =
      typeChar (setKbd s (pressed s.tty.kbd)) (decode (pressed s.tty.kbd) scancode.toNat)) := by
  by_cases hrel : scancode &&& 0x80 ≠ 0
  · refine Or.inl ⟨if_pos hrel, _, if_pos hrel, released_flush _ _⟩
  by_cases hquiet : scancode ∈ [TAB, CTRL, LSHIFT, RSHIFT, CAPS, ALT]
  · refine Or.inl ⟨by rw [keyOf, if_neg hrel, if_pos hquiet], ?_⟩
    simp only [List.mem_cons, List.not_mem_nil, or_false] at hquiet
    rcases hquiet with rfl | rfl | rfl | rfl | rfl | rfl <;> exact ⟨_, rfl, rfl⟩
  have hkey : keyOf scancode = if scancode = ENTER then .enter
      else if scancode = BACKSPACE then .backspace else .char := by
    rw [keyOf, if_neg hrel, if_neg hquiet]
  have hrun : kbdIrq s scancode = if scancode = ENTER then enterLine (setKbd s (pressed s.tty.kbd))
      else if scancode = BACKSPACE then eraseChar (setKbd s (pressed s.tty.kbd))
      else typeChar (setKbd s (pressed s.tty.kbd)) (decode (pressed s.tty.kbd) scancode.toNat) := by
    simp only [List.mem_cons, List.not_mem_nil, or_false, not_or] at hquiet
    simp only [kbdIrq, if_neg hrel, hquiet, false_or, if_false]
    rfl
  rw [hkey, hrun]
  by_cases henter : scancode = ENTER
  · exact Or.inr (Or.inl ⟨if_pos henter, if_pos henter⟩)
  by_cases hback : scancode = BACKSPACE
  · refine Or.inr (Or.inr (Or.inl ⟨?_, ?_⟩))
    · rw [if_neg henter, if_pos hback]
    · rw [if_neg henter, if_pos hback]
  · refine Or.inr (Or.inr (Or.inr ⟨?_, ?_⟩))
    · rw [if_neg henter, if_neg hback]
    · rw [if_neg henter, if_neg hback]

theorem enterLine_line (s : Console) : SameLine (finishLine s.tty) (enterLine s).tty := by
  have h := ttyWritechar_line s 10
  exact ⟨h.color, h.buf, rfl, h.bufptr, by simp only [enterLine, finishLine, h.kbd]⟩

theorem eraseChar_start {s : Console} (h : s.tty.bufptr ≤ 0) :
    eraseChar s = { s with tty := { s.tty with bufptr := 0 } } := if_pos h

theorem eraseChar_line {s : Console} (h : ¬ s.tty.bufptr ≤ 0) :
    SameLine (eraseLast s.tty) (eraseChar s).tty := by
  have hw := ttyWritechar_line s 8
  rw [eraseChar, if_neg h]
  exact ⟨hw.color, by simp only [eraseLast, hw.bufptr, hw.buf],
    by simp only [eraseLast, hw.bufptr], hw.tmp, hw.kbd⟩

theorem typeChar_line (s : Console) (ch : UInt8) :
    SameLine (appendChar s.tty ch) (typeChar s ch).tty := by
  have hw := ttyWritechar_line s ch
  exact ⟨hw.color, by simp only [typeChar, appendChar, hw.bufptr, hw.buf],
    by simp only [typeChar, appendChar, hw.bufptr], hw.tmp, hw.kbd⟩

theorem kbdIrq_bufptr (s : Console) (scancode : UInt8) : (kbdIrq s scancode).tty.bufptr =
    match keyOf scancode with
    | .quiet => s.tty.bufptr
    | .enter => 0
    | .backspace => if s.tty.bufptr ≤ 0 then 0 else s.tty.bufptr - 1
    | .char => s.tty.bufptr + 1 := by
  rcases kbdIrq_cases s scancode with ⟨hk, kbd, hrun, -⟩ | ⟨hk, hrun⟩ | ⟨hk, hrun⟩ | ⟨hk, hrun⟩
  · rw [hrun, hk]
    rfl
  · rw [hrun, hk, (enterLine_line _).bufptr]
    rfl
  · rw [hrun, hk]
    by_cases h0 : s.tty.bufptr ≤ 0
    · rw [eraseChar_start (s := setKbd s (pressed s.tty.kbd)) h0]
      exact (if_pos h0).symm
    · rw [(eraseChar_line (s := setKbd s (pressed s.tty.kbd)) h0).bufptr]
      exact (if_neg h0).symm
  · rw [hrun, hk, (typeChar_line _ _).bufptr]
    rfl

/-- The bytes of the line buffer that an interrupt writes. -/
def lineWrites (s : Console) (scancode : UInt8) : List Int :=
  match keyOf scancode with
  | .quiet | .enter => []
  | .backspace => if s.tty.bufptr ≤ 0 then [] else [s.tty.bufptr - 1]
  | .char => [s.tty.bufptr, s.tty.bufptr + 1]

/-- The character that an interrupt writes to the screen. -/
def echoed (s : Console) (scancode : UInt8) : Option UInt8 :=
  match keyOf scancode with
  | .quiet => none
  | .enter => some 10
  | .backspace => if s.tty.bufptr ≤ 0 then none else some 8
  | .char => some (decode (pressed s.tty.kbd) scancode.toNat)

theorem ttyWritechar_setKbd (s : Console) (kbd : Kbd) (c : UInt8) :
    (ttyWritechar (setKbd s kbd) c).vga = (ttyWritechar s c).vga := by
  rw [ttyWritechar_vga, ttyWritechar_vga]
  rfl

theorem kbdIrq_vga (s : Console) (scancode : UInt8) : (kbdIrq s scancode).vga =
    match echoed s scancode with
    | none => s.vga
    | some c => (ttyWritechar s c).vga := by
  unfold echoed
  rcases kbdIrq_cases s scancode with ⟨hk, kbd, hrun, -⟩ | ⟨hk, hrun⟩ | ⟨hk, hrun⟩ | ⟨hk, hrun⟩
  · rw [hrun, hk]
    rfl
  · rw [hrun, hk]
    exact ttyWritechar_setKbd s _ 10
  · rw [hrun, hk]
    by_cases h0 : s.tty.bufptr ≤ 0
    · rw [eraseChar_start (s := setKbd s (pressed s.tty.kbd)) h0]
      simp only [if_pos h0]
      rfl
    · have herase : eraseChar (setKbd s (pressed s.tty.kbd)) = _ := if_neg h0
      rw [herase]
      simp only [if_neg h0]
      exact ttyWritechar_setKbd s _ 8
  · rw [hrun, hk]
    exact ttyWritechar_setKbd s _ _

/-- The index that an interrupt uses on one of the tables. -/
def tableIndex (scancode : UInt8) : Option Nat :=
  if keyOf scancode = .char then some scancode.toNat else none

theorem kbdIrq_buf (s : Console) (scancode : UInt8) {i : Int} (h : i ∉ lineWrites s scancode) :
    (kbdIrq s scancode).tty.buf i = s.tty.buf i := by
  unfold lineWrites at h
  rcases kbdIrq_cases s scancode with ⟨hk, kbd, hrun, -⟩ | ⟨hk, hrun⟩ | ⟨hk, hrun⟩ | ⟨hk, hrun⟩
  · rw [hrun]
    rfl
  · rw [hrun, (enterLine_line _).buf]
    rfl
  · simp only [hk] at h
    have hptr : (setKbd s (pressed s.tty.kbd)).tty.bufptr = s.tty.bufptr := rfl
    by_cases h0 : s.tty.bufptr ≤ 0
    · rw [hrun, eraseChar_start (hptr ▸ h0)]
      rfl
    · rw [if_neg h0, List.mem_singleton] at h
      rw [hrun, (eraseChar_line (hptr ▸ h0)).buf]
      exact Function.update_of_ne h _ _
  · simp only [hk, List.mem_cons, List.not_mem_nil, or_false, not_or] at h
    rw [hrun, (typeChar_line _ _).buf]
    exact (Function.update_of_ne h.2 _ _).trans (Function.update_of_ne h.1 _ _)

/-- `tty_create`, but for the shape of the cursor. -/
def ttyCreate (v : Vga) : Console :=
  ⟨v, ⟨7, UInt8.ofNat v.cursor, 0, fun _ => 0, 0, 0, ⟨false, false, false, false, false, false,
    false⟩⟩⟩

end Foos.Terminal
