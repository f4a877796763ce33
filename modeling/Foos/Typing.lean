import Foos.Transition
import Foos.Keyboard

/-! A shell that calls `tty_read` again and again, with the keyboard interrupt between any two of
its statements. -/
namespace Foos.Terminal
open Transition

/-- The statement of `tty_read` that comes next; `away` while the shell does other work. -/
inductive Reader where
  | away
  | resetPtr
  | whileFlush
  | takeSize
  | copy (size : Int)
  deriving DecidableEq

/-- Beside the terminal and the reader: the lines that `tty_read` has returned, the lines typed
so far, and the characters typed since the last ENTER, backspaces applied. -/
structure Session where
  con : Console
  reader : Reader
  returned : List (List UInt8)
  typed : List (List UInt8)
  pending : List UInt8

inductive Move where
  | irq (scancode : UInt8)
  | read

/-- The first bytes of the line buffer. -/
def bytes (buf : Int → UInt8) (size : Int) : List UInt8 :=
  (List.range size.toNat).map fun i : Nat => buf i

def setTty (s : Session) (t : Tty) : Session := { s with con := { s.con with tty := t } }

/-- What the user types, apart from what the buffer makes of it. -/
def typing (s : Session) (scancode : UInt8) : Session :=
  match keyOf scancode with
  | .quiet => s
  | .enter => { s with typed := s.typed ++ [s.pending], pending := [] }
  | .backspace => { s with pending := s.pending.dropLast }
  | .char => { s with
      pending := s.pending ++ [decode (pressed s.con.tty.kbd) scancode.toNat] }

def interrupt (s : Session) (scancode : UInt8) : Session :=
  { typing s scancode with con := kbdIrq s.con scancode }

/-- A statement of `tty_read`. -/
def ttyRead (s : Session) : Session :=
  let t := s.con.tty
  match s.reader with
  | .away => { s with reader := .resetPtr }
  | .resetPtr => { setTty s { t with bufptr := 0 } with reader := .whileFlush }
  | .whileFlush => if t.kbd.flush then { s with reader := .takeSize } else s
  | .takeSize => { setTty s { t with kbd := { t.kbd with flush := false }, tmp := 0 } with
      reader := .copy t.tmp }
  | .copy size => { s with reader := .away, returned := s.returned ++ [bytes t.buf size] }

def move (s : Session) : Move → Session
  | .irq scancode => interrupt s scancode
  | .read => ttyRead s

def Moves (s : Session) (a : Move) (t : Session) : Prop := t = move s a

/-- The shell after `tty_create`. -/
def session (v : Vga) : Session := ⟨ttyCreate v, .away, [], [], []⟩

/-- Key presses up to CAPS, and room for the character and its NUL. -/
def Legal (s : Session) : Move → Prop
  | .irq scancode => (scancode &&& 0x80 = 0 → scancode ≤ 0x3A) ∧
      (keyOf scancode = .char → s.pending.length < 511)
  | .read => True

def Reader.isCopy : Reader → Bool
  | .copy _ => true
  | _ => false

/-- No character comes while a line waits in the buffer, no ENTER while a line waits to be
taken, and the reader does not reset the pointer of a line that is being typed. -/
def Orderly (s : Session) : Move → Prop
  | .irq scancode =>
    (keyOf scancode = .char → s.con.tty.kbd.flush = false ∧ s.reader.isCopy = false) ∧
      (keyOf scancode = .enter → s.con.tty.kbd.flush = false)
  | .read => s.reader = .resetPtr → s.con.tty.bufptr = 0

/-- The lines in the buffer that `tty_read` has not returned. -/
def unread (s : Session) : List (List UInt8) :=
  (match s.reader with
    | .copy size => [bytes s.con.tty.buf size]
    | _ => []) ++ if s.con.tty.kbd.flush then [bytes s.con.tty.buf s.con.tty.tmp] else []

/-- The buffer holds the unread lines or the pending characters. -/
structure Buffered (s : Session) : Prop where
  bufptr : s.con.tty.bufptr = s.pending.length
  chars : ∀ (i : Nat) c, s.pending[i]? = some c → s.con.tty.buf i = c
  typed : s.typed = s.returned ++ unread s
  free : s.pending ≠ [] → s.con.tty.kbd.flush = false ∧ s.reader.isCopy = false
  taken : s.reader = .takeSize → s.con.tty.kbd.flush = true

theorem session_buffered (v : Vga) : Buffered (session v) :=
  ⟨rfl, nofun, rfl, nofun, nofun⟩

theorem Buffered.pending {s : Session} (h : Buffered s) :
    bytes s.con.tty.buf s.con.tty.bufptr = s.pending := by
  rw [h.bufptr]
  refine List.ext_getElem? fun i => ?_
  rw [bytes, List.getElem?_map]
  cases Nat.lt_or_ge i s.pending.length with
  | inl hi =>
    have hc : s.pending[i]? = some s.pending[i] := List.getElem?_eq_getElem hi
    rw [hc, List.getElem?_range (by simpa using hi)]
    exact congrArg some (h.chars i _ hc)
  | inr hi =>
    rw [List.getElem?_eq_none (by simpa using hi), List.getElem?_eq_none hi]
    rfl

theorem unread_free {s : Session} (hflush : s.con.tty.kbd.flush = false)
    (hcopy : s.reader.isCopy = false) : unread s = [] := by
  rw [unread, hflush]
  cases hr : s.reader with
  | copy size =>
    rw [hr] at hcopy
    cases hcopy
  | _ => rfl

theorem Buffered.read {s : Session} (h : Buffered s) (ho : Orderly s .read) :
    Buffered (ttyRead s) := by
  obtain ⟨con, reader, returned, typed, pending⟩ := s
  cases reader with
  | away => exact ⟨h.bufptr, h.chars, h.typed, h.free, nofun⟩
  | resetPtr =>
    have h0 : con.tty.bufptr = 0 := ho rfl
    exact ⟨h0.symm.trans h.bufptr, h.chars, h.typed, h.free, nofun⟩
  | whileFlush =>
    by_cases hflush : con.tty.kbd.flush = true
    · rw [ttyRead, if_pos hflush]
      exact ⟨h.bufptr, h.chars, h.typed, h.free, fun _ => hflush⟩
    · rw [ttyRead, if_neg hflush]
      exact h
  | takeSize =>
    have hflush : con.tty.kbd.flush = true := h.taken rfl
    have hempty : pending = [] := by
      by_contra hne
      exact Bool.false_ne_true ((h.free hne).1.symm.trans hflush)
    refine ⟨h.bufptr, h.chars, ?_, fun hne => absurd hempty hne, nofun⟩
    have htyped := h.typed
    simp only [unread, hflush, if_true, List.nil_append] at htyped
    simpa [ttyRead, setTty, unread] using htyped
  | copy size =>
    refine ⟨h.bufptr, h.chars, ?_, fun hne => (nomatch (h.free hne).2), nofun⟩
    rw [ttyRead, unread, List.nil_append, List.append_assoc]
    exact h.typed

section
variable {s : Session} {scancode : UInt8}

theorem interrupt_quiet (hk : keyOf scancode = .quiet) :
    interrupt s scancode = { s with con := kbdIrq s.con scancode } := by
  rw [interrupt, typing, hk]

theorem interrupt_enter (hk : keyOf scancode = .enter) : interrupt s scancode =
    { s with con := kbdIrq s.con scancode, typed := s.typed ++ [s.pending], pending := [] } := by
  rw [interrupt, typing, hk]

theorem interrupt_backspace (hk : keyOf scancode = .backspace) : interrupt s scancode =
    { s with con := kbdIrq s.con scancode, pending := s.pending.dropLast } := by
  rw [interrupt, typing, hk]

theorem interrupt_char (hk : keyOf scancode = .char) : interrupt s scancode =
    { s with con := kbdIrq s.con scancode, pending := s.pending ++
      [decode (pressed s.con.tty.kbd) scancode.toNat] } := by
  rw [interrupt, typing, hk]

end

/-- The unread lines are read off the buffer, the flag and `tmp`. -/
theorem unread_congr {s t : Session} (hreader : t.reader = s.reader)
    (hbuf : t.con.tty.buf = s.con.tty.buf) (htmp : t.con.tty.tmp = s.con.tty.tmp)
    (hflush : t.con.tty.kbd.flush = s.con.tty.kbd.flush) : unread t = unread s := by
  rw [unread, unread, hreader, hbuf, htmp, hflush]

theorem Buffered.quiet {s : Session} (h : Buffered s) {scancode : UInt8}
    (hk : keyOf scancode = .quiet) : Buffered (interrupt s scancode) := by
  obtain ⟨-, kbd, hrun, hflush⟩ | ⟨hk', -⟩ | ⟨hk', -⟩ | ⟨hk', -⟩ := kbdIrq_cases s.con scancode
  all_goals try rw [hk] at hk'; cases hk'
  have hunread := unread_congr (s := s) (t := { s with con := setKbd s.con kbd }) rfl rfl rfl hflush
  rw [interrupt_quiet hk, hrun]
  refine ⟨h.bufptr, h.chars, h.typed.trans ?_, fun hne => ?_, fun ht => hflush.trans (h.taken ht)⟩
  · rw [hunread]
  · exact ⟨hflush.trans (h.free hne).1, (h.free hne).2⟩

theorem Buffered.enter {s : Session} (h : Buffered s) {scancode : UInt8}
    (hk : keyOf scancode = .enter) (hflush : s.con.tty.kbd.flush = false) :
    Buffered (interrupt s scancode) := by
  obtain ⟨hk', -⟩ | ⟨-, hrun⟩ | ⟨hk', -⟩ | ⟨hk', -⟩ := kbdIrq_cases s.con scancode
  all_goals try rw [hk] at hk'; cases hk'
  have hline := enterLine_line (setKbd s.con (pressed s.con.tty.kbd))
  have hbuf : (kbdIrq s.con scancode).tty.buf = s.con.tty.buf := hrun ▸ hline.buf
  have hptr : (kbdIrq s.con scancode).tty.bufptr = 0 := hrun ▸ hline.bufptr
  have htmp : (kbdIrq s.con scancode).tty.tmp = s.con.tty.bufptr := hrun ▸ hline.tmp
  have hset : (kbdIrq s.con scancode).tty.kbd.flush = true := by
    rw [hrun, hline.kbd]
    rfl
  rw [interrupt_enter hk]
  refine ⟨hptr, nofun, ?_, fun hne => absurd rfl hne, fun _ => hset⟩
  have htyped := h.typed
  simp only [unread, hflush, Bool.false_eq_true, if_false, List.append_nil] at htyped
  simp only [unread, hset, if_true, hbuf, htmp, h.pending]
  rw [htyped, List.append_assoc]

theorem Buffered.backspace {s : Session} (h : Buffered s) {scancode : UInt8}
    (hk : keyOf scancode = .backspace) : Buffered (interrupt s scancode) := by
  obtain ⟨hk', -⟩ | ⟨hk', -⟩ | ⟨-, hrun⟩ | ⟨hk', -⟩ := kbdIrq_cases s.con scancode
  all_goals try rw [hk] at hk'; cases hk'
  have hsame : (setKbd s.con (pressed s.con.tty.kbd)).tty.bufptr = s.con.tty.bufptr := rfl
  rw [interrupt_backspace hk]
  cases Nat.eq_zero_or_pos s.pending.length with
  | inl h0 =>
    -- nothing is pending
    have hempty := List.length_eq_zero_iff.mp h0
    have hle : s.con.tty.bufptr ≤ 0 := by rw [h.bufptr, h0]; decide
    rw [hrun, eraseChar_start (hsame ▸ hle)]
    simp only [hempty, List.dropLast_nil]
    exact ⟨rfl, nofun, h.typed, fun hne => absurd rfl hne, h.taken⟩
  | inr hpos =>
    have hlt : ¬ s.con.tty.bufptr ≤ 0 := by rw [h.bufptr]; omega
    have hline := eraseChar_line (s := setKbd s.con (pressed s.con.tty.kbd)) hlt
    rw [← hrun] at hline
    obtain ⟨hflush, hcopy⟩ := h.free (List.length_pos_iff.mp hpos)
    have hflush' : (kbdIrq s.con scancode).tty.kbd.flush = false := by
      rw [hline.kbd]
      exact hflush
    refine ⟨?_, fun i c hc => ?_, ?_, fun _ => ⟨hflush', hcopy⟩, fun ht => ?_⟩
    · rw [hline.bufptr, List.length_dropLast]
      simp only [eraseLast, hsame, h.bufptr]
      omega
    · have hi : i < s.pending.length - 1 := by
        simpa using (List.getElem?_eq_some_iff.mp hc).1
      rw [List.getElem?_dropLast, if_pos hi] at hc
      rw [hline.buf]
      simp only [eraseLast, hsame, h.bufptr]
      rw [Function.update_of_ne (by omega)]
      exact h.chars i c hc
    · rw [unread_free (s := { s with con := kbdIrq s.con scancode, pending := _ }) hflush' hcopy]
      exact h.typed.trans (congrArg _ (unread_free hflush hcopy))
    · exact absurd (h.taken ht) (by simp [hflush])

theorem Buffered.char {s : Session} (h : Buffered s) {scancode : UInt8}
    (hk : keyOf scancode = .char) (hflush : s.con.tty.kbd.flush = false)
    (hcopy : s.reader.isCopy = false) : Buffered (interrupt s scancode) := by
  obtain ⟨hk', -⟩ | ⟨hk', -⟩ | ⟨hk', -⟩ | ⟨-, hrun⟩ := kbdIrq_cases s.con scancode
  all_goals try rw [hk] at hk'; cases hk'
  have hsame : (setKbd s.con (pressed s.con.tty.kbd)).tty.bufptr = s.con.tty.bufptr := rfl
  have hline := typeChar_line (setKbd s.con (pressed s.con.tty.kbd))
    (decode (pressed s.con.tty.kbd) scancode.toNat)
  rw [← hrun] at hline
  have hflush' : (kbdIrq s.con scancode).tty.kbd.flush = false := by
    rw [hline.kbd]
    exact hflush
  rw [interrupt_char hk]
  refine ⟨?_, fun i c hc => ?_, ?_, fun _ => ⟨hflush', hcopy⟩, fun ht => ?_⟩
  · rw [hline.bufptr]
    simp only [appendChar, hsame, h.bufptr, List.length_append, List.length_singleton]
    omega
  · rw [hline.buf]
    simp only [appendChar, hsame, h.bufptr]
    have hi : i < s.pending.length + 1 := by
      simpa using (List.getElem?_eq_some_iff.mp hc).1
    rw [Function.update_of_ne (by omega)]
    cases Nat.eq_or_lt_of_le (Nat.le_of_lt_succ hi) with
    | inl heq =>
      obtain rfl := heq
      rw [Function.update_self]
      simpa using hc
    | inr hlt =>
      rw [Function.update_of_ne (by omega)]
      exact h.chars i c (by rwa [List.getElem?_append_left hlt] at hc)
  · rw [unread_free (s := { s with con := kbdIrq s.con scancode, pending := _ }) hflush' hcopy]
    exact h.typed.trans (congrArg _ (unread_free hflush hcopy))
  · exact absurd (h.taken ht) (by simp [hflush])

theorem Buffered.move {s t : Session} {a : Move} (h : Buffered s) (ho : Orderly s a)
    (hst : Moves s a t) : Buffered t := by
  obtain rfl : t = Terminal.move s a := hst
  cases a with
  | read => exact h.read ho
  | irq scancode =>
    obtain ⟨hchar, henter⟩ := ho
    cases hk : keyOf scancode with
    | quiet => exact h.quiet hk
    | enter => exact h.enter hk (henter hk)
    | backspace => exact h.backspace hk
    | char => exact h.char hk (hchar hk).1 (hchar hk).2

/-- In every orderly run the lines returned are the first of the lines typed. -/
theorem returned_prefix {v : Vga} {t : Session} {tr : List (Session × Move × Session)}
    (hrun : Run Moves (session v) tr t) (hq : ∀ e ∈ tr, Legal e.1 e.2.1 ∧ Orderly e.1 e.2.1) :
    t.returned <+: t.typed := by
  have hbuf : Buffered t := hrun.invariant (Q := fun s a => Legal s a ∧ Orderly s a)
    (fun _ _ _ hs ho hst => hs.move ho.2 hst) (session_buffered v) hq
  exact ⟨unread t, hbuf.typed.symm⟩

/-- The run of a list of moves. -/
def playMoves (s : Session) : List Move → List (Session × Move × Session) × Session
  | [] => ([], s)
  | a :: as => ((s, a, move s a) :: (playMoves (move s a) as).1, (playMoves (move s a) as).2)

theorem playMoves_run (s : Session) (as : List Move) :
    Run Moves s (playMoves s as).1 (playMoves s as).2 := by
  induction as generalizing s with
  | nil => exact .nil
  | cons a as ih => exact Run.cons rfl (ih (move s a))

instance (s : Session) : (a : Move) → Decidable (Legal s a)
  | .irq _ => inferInstanceAs (Decidable (_ ∧ _))
  | .read => inferInstanceAs (Decidable True)

instance (s : Session) : (a : Move) → Decidable (Orderly s a)
  | .irq _ => inferInstanceAs (Decidable (_ ∧ _))
  | .read => inferInstanceAs (Decidable (_ → _))

def darkScreen : Vga := ⟨0, fun _ => 0, fun _ => 0⟩

/-- `a` and ENTER while `tty_read` waits. -/
def promptMoves : List Move := [.read, .read, .irq 0x1E, .irq ENTER, .read, .read, .read]

theorem returned_prefix_prompt :
    (playMoves (session darkScreen) promptMoves).2.returned <+:
      (playMoves (session darkScreen) promptMoves).2.typed :=
  returned_prefix (playMoves_run _ _) (by decide +kernel)

/-- `a`, ENTER, `b`, ENTER, and only then `tty_read`. -/
def lateMoves : List Move :=
  [.irq 0x1E, .irq ENTER, .irq 0x30, .irq ENTER, .read, .read, .read, .read, .read]

/-- The first of the two lines is lost. -/
theorem returned_prefix_fails : Run Moves (session darkScreen)
      (playMoves (session darkScreen) lateMoves).1 (playMoves (session darkScreen) lateMoves).2 ∧
    (∀ e ∈ (playMoves (session darkScreen) lateMoves).1, Legal e.1 e.2.1) ∧
    (playMoves (session darkScreen) lateMoves).2.typed = [[97], [98]] ∧
    (playMoves (session darkScreen) lateMoves).2.returned = [[98]] ∧
    ¬ (playMoves (session darkScreen) lateMoves).2.returned <+:
      (playMoves (session darkScreen) lateMoves).2.typed :=
  ⟨playMoves_run _ _, by decide +kernel, by decide +kernel, by decide +kernel, by decide +kernel⟩

/-- Indices on the tables, writes through `bufptr` and `bufptr` itself are in range. -/
def InBounds (s : Session) (a : Move) : Prop :=
  (0 ≤ (move s a).con.tty.bufptr ∧ (move s a).con.tty.bufptr ≤ 511) ∧
    match a with
    | .irq scancode =>
      (∀ i, tableIndex scancode = some i → i < scancodeSet.length ∧ i < shiftSet.length) ∧
        ∀ i ∈ lineWrites s.con scancode, 0 ≤ i ∧ i < 512
    | .read => True

/-- The key has an entry in the tables, and there is room for its character and a NUL. -/
def Fits (s : Session) : Move → Prop
  | .irq scancode => keyOf scancode = .char → scancode < 60 ∧ s.con.tty.bufptr < 511
  | .read => True

def PtrInBuf (s : Session) : Prop := 0 ≤ s.con.tty.bufptr ∧ s.con.tty.bufptr ≤ 511

theorem ttyRead_bufptr (s : Session) :
    (ttyRead s).con.tty.bufptr = s.con.tty.bufptr ∨ (ttyRead s).con.tty.bufptr = 0 := by
  obtain ⟨con, reader, returned, typed, pending⟩ := s
  cases reader with
  | resetPtr => exact Or.inr rfl
  | whileFlush =>
    refine Or.inl ?_
    simp only [ttyRead]
    split <;> rfl
  | away => exact Or.inl rfl
  | takeSize => exact Or.inl rfl
  | copy size => exact Or.inl rfl

theorem move_irq_bufptr (s : Session) (scancode : UInt8) :
    (move s (.irq scancode)).con.tty.bufptr = (kbdIrq s.con scancode).tty.bufptr := rfl

theorem inBounds_iff {s : Session} (h : PtrInBuf s) (a : Move) : InBounds s a ↔ Fits s a := by
  obtain ⟨h0, h511⟩ := h
  cases a with
  | read =>
    refine iff_of_true ⟨?_, trivial⟩ trivial
    cases ttyRead_bufptr s with
    | inl heq =>
      rw [move, heq]
      exact ⟨h0, h511⟩
    | inr heq =>
      rw [move, heq]
      decide
  | irq scancode =>
    have hptr := kbdIrq_bufptr s.con scancode
    simp only [InBounds, Fits, move_irq_bufptr, tableIndex, lineWrites, hptr]
    cases hk : keyOf scancode with
    | quiet => simp [h0, h511]
    | enter => simp
    | backspace =>
      by_cases hle : s.con.tty.bufptr ≤ 0
      · simp [hle]
      · simp [hle]
        omega
    | char =>
      have hlt : scancode < 60 ↔ scancode.toNat < 60 := UInt8.lt_iff_toNat_lt
      have hlen : scancodeSet.length = 60 ∧ shiftSet.length = 60 := by decide
      simp only [if_true, Option.some.injEq, hlen, hlt, List.mem_cons, List.not_mem_nil, or_false,
        forall_eq', forall_eq_or_imp, forall_eq, forall_const]
      omega

/-- In every run of interrupts and reads after `tty_create`, all indices, writes and pointers are
in range exactly when every key that types a character fits. -/
theorem run_inBounds_iff {v : Vga} {t : Session} {tr : List (Session × Move × Session)}
    (hrun : Run Moves (session v) tr t) :
    (∀ e ∈ tr, InBounds e.1 e.2.1) ↔ ∀ e ∈ tr, Fits e.1 e.2.1 := by
  have hstart : PtrInBuf (session v) := by
    show (0 : Int) ≤ 0 ∧ (0 : Int) ≤ 511
    decide
  have hstep : ∀ s a t, PtrInBuf s → InBounds s a → Moves s a t → PtrInBuf t := by
    rintro s a t - hs rfl
    exact hs.1
  have hstep' : ∀ s a t, PtrInBuf s → Fits s a → Moves s a t → PtrInBuf t := fun s a t hs hq =>
    hstep s a t hs ((inBounds_iff hs a).mpr hq)
  constructor
  · exact fun hall e he =>
      (inBounds_iff (hrun.invariant_at hstep hstart hall he).1 _).mp (hall e he)
  · exact fun hall e he =>
      (inBounds_iff (hrun.invariant_at hstep' hstart hall he).1 _).mpr (hall e he)

theorem run_inBounds_iff_prompt :
    (∀ e ∈ (playMoves (session darkScreen) promptMoves).1, InBounds e.1 e.2.1) ↔
      ∀ e ∈ (playMoves (session darkScreen) promptMoves).1, Fits e.1 e.2.1 :=
  run_inBounds_iff (playMoves_run _ _)

/-- The key F2, with the scancode 0x3C, is looked up behind the end of the tables. -/
theorem run_inBounds_fails : ∃ tr t, Run Moves (session darkScreen) tr t ∧
    ¬ ∀ e ∈ tr, InBounds e.1 e.2.1 := by
  refine ⟨_, _, playMoves_run (session darkScreen) [.irq 0x3C], fun h => ?_⟩
  obtain ⟨-, hindex, -⟩ := h _ (List.mem_singleton_self _)
  exact absurd (hindex 0x3C (by decide)).1 (by decide)

end Foos.Terminal
