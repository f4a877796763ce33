import Foos.Keyboard
import Foos.Transition

/-! The modifier bits of the keyboard state after every scancode, beside the keys that are down at
that moment. -/
namespace Foos.Terminal
open Transition

/-- The key of a scancode, pressed or released. -/
def keyCode (scancode : UInt8) : UInt8 := scancode &&& 0x7F

def isRelease (scancode : UInt8) : Bool := scancode &&& 0x80 ≠ 0

/-- What a scancode makes of the bit that some keys share. -/
def bitAfter (keys : List UInt8) (bit : Bool) (scancode : UInt8) : Bool :=
  if keyCode scancode ∈ keys then !isRelease scancode else bit

/-- The bits that stay until a modifier key is struck. -/
def modifiers (kbd : Kbd) : Bool × Bool × Bool × Bool := (kbd.ctrl, kbd.shift, kbd.alt, kbd.caps)

theorem keyCode_make : ∀ n < 256, UInt8.ofNat n &&& 0x80 = 0 →
    keyCode (UInt8.ofNat n) = UInt8.ofNat n := by
  decide +kernel

theorem isRelease_false {scancode : UInt8} (h : isRelease scancode = false) :
    keyCode scancode = scancode := by
  have hbit : scancode &&& 0x80 = 0 := by simpa [isRelease] using h
  have hcode : UInt8.ofNat scancode.toNat = scancode := UInt8.ofNat_toNat
  have hmake := keyCode_make scancode.toNat scancode.toNat_lt
  rw [hcode] at hmake
  exact hmake hbit

/-- No key of the line is a modifier. -/
theorem line_modifiers (s : Console) (scancode : UInt8) :
    modifiers (enterLine s).tty.kbd = modifiers s.tty.kbd ∧
    modifiers (eraseChar s).tty.kbd = modifiers s.tty.kbd ∧
    modifiers (typeChar s scancode).tty.kbd = modifiers s.tty.kbd := by
  refine ⟨?_, ?_, ?_⟩
  · rw [(enterLine_line s).kbd]
    rfl
  · by_cases h0 : s.tty.bufptr ≤ 0
    · rw [eraseChar_start h0]
    · rw [(eraseChar_line h0).kbd]
      rfl
  · rw [(typeChar_line s scancode).kbd]
    rfl

theorem released_modifiers (kbd : Kbd) (code : UInt8) : modifiers (released kbd code) =
    (if code ∈ [CTRL] then false else kbd.ctrl,
      if code ∈ [LSHIFT, RSHIFT] then false else kbd.shift,
      if code ∈ [ALT] then false else kbd.alt, kbd.caps) := by
  simp only [released, modifiers, List.mem_cons, List.not_mem_nil, or_false]
  by_cases hc : code = CTRL
  · subst hc
    rfl
  by_cases hs : code = LSHIFT ∨ code = RSHIFT
  · rcases hs with rfl | rfl <;> rfl
  by_cases ha : code = ALT
  · subst ha
    rfl
  simp only [hc, hs, ha, if_false]

/-- The four bits after an interrupt. -/
theorem kbdIrq_modifiers (s : Console) (scancode : UInt8) :
    modifiers (kbdIrq s scancode).tty.kbd =
      (bitAfter [CTRL] s.tty.kbd.ctrl scancode, bitAfter [LSHIFT, RSHIFT] s.tty.kbd.shift scancode,
        bitAfter [ALT] s.tty.kbd.alt scancode,
        if scancode = CAPS then !s.tty.kbd.caps else s.tty.kbd.caps) := by
  cases hrel : isRelease scancode with
  | true =>
    have hbit : scancode &&& 0x80 ≠ 0 := by simpa [isRelease] using hrel
    have hcaps : scancode ≠ CAPS := fun h => by
      subst h
      exact absurd hrel (by decide)
    have hrun : kbdIrq s scancode = _ := if_pos hbit
    rw [hrun, if_neg hcaps]
    simp only [setKbd, released_modifiers, bitAfter, hrel, Bool.not_true]
    rfl
  | false =>
    have hbit : ¬ scancode &&& 0x80 ≠ 0 := by simpa [isRelease] using hrel
    simp only [bitAfter, isRelease_false hrel, hrel, Bool.not_false, List.mem_cons,
      List.not_mem_nil, or_false, kbdIrq, if_neg hbit]
    by_cases htab : scancode = TAB
    · subst htab
      rfl
    by_cases hctrl : scancode = CTRL
    · subst hctrl
      rfl
    by_cases hshift : scancode = LSHIFT ∨ scancode = RSHIFT
    · rcases hshift with rfl | rfl <;> rfl
    by_cases hcaps : scancode = CAPS
    · subst hcaps
      rfl
    by_cases halt : scancode = ALT
    · subst halt
      rfl
    simp only [htab, hctrl, hshift, hcaps, halt, if_false]
    split_ifs
    · exact (line_modifiers _ 0).1
    · exact (line_modifiers _ 0).2.1
    · exact (line_modifiers _ _).2.2

/-- The terminal and the keys that are down. -/
structure Desk where
  con : Console
  down : UInt8 → Bool

/-- A key is struck, and its interrupt handled. -/
def strike (s : Desk) (scancode : UInt8) : Desk :=
  ⟨kbdIrq s.con scancode, Function.update s.down (keyCode scancode) (!isRelease scancode)⟩

def Strikes (s : Desk) (scancode : UInt8) (t : Desk) : Prop := t = strike s scancode

/-- Only a key that is down is released. -/
def Consistent (s : Desk) (scancode : UInt8) : Prop :=
  isRelease scancode = true → s.down (keyCode scancode) = true

instance (s : Desk) (scancode : UInt8) : Decidable (Consistent s scancode) :=
  inferInstanceAs (Decidable (_ → _))

/-- A modifier bit is set exactly when one of its keys is down. -/
structure Tracks (s : Desk) : Prop where
  shift : s.con.tty.kbd.shift = (s.down LSHIFT || s.down RSHIFT)
  ctrl : s.con.tty.kbd.ctrl = s.down CTRL
  alt : s.con.tty.kbd.alt = s.down ALT

/-- One Shift key is released while the other is down. -/
def LiftsOneShift (s : Desk) (scancode : UInt8) : Prop :=
  isRelease scancode = true ∧ (keyCode scancode = LSHIFT ∧ s.down RSHIFT = true ∨
    keyCode scancode = RSHIFT ∧ s.down LSHIFT = true)

instance (s : Desk) (scancode : UInt8) : Decidable (LiftsOneShift s scancode) :=
  inferInstanceAs (Decidable (_ ∧ _))

theorem tracks_bits {s : Desk} {scancode : UInt8} : Tracks (strike s scancode) ↔
    bitAfter [LSHIFT, RSHIFT] s.con.tty.kbd.shift scancode =
      ((strike s scancode).down LSHIFT || (strike s scancode).down RSHIFT) ∧
    bitAfter [CTRL] s.con.tty.kbd.ctrl scancode = (strike s scancode).down CTRL ∧
    bitAfter [ALT] s.con.tty.kbd.alt scancode = (strike s scancode).down ALT := by
  have hmod := kbdIrq_modifiers s.con scancode
  simp only [modifiers, Prod.mk.injEq] at hmod
  obtain ⟨hctrl, hshift, halt, -⟩ := hmod
  constructor
  · intro h
    exact ⟨hshift.symm.trans h.shift, hctrl.symm.trans h.ctrl, halt.symm.trans h.alt⟩
  · rintro ⟨h1, h2, h3⟩
    exact ⟨hshift.trans h1, hctrl.trans h2, halt.trans h3⟩

/-- A key of its own has a bit that tracks it. -/
theorem bitAfter_single {s : Desk} {key : UInt8} {bit : Bool} (h : bit = s.down key)
    (scancode : UInt8) : bitAfter [key] bit scancode = (strike s scancode).down key := by
  simp only [bitAfter, strike, List.mem_singleton, Function.update_apply]
  by_cases hk : keyCode scancode = key
  · rw [if_pos hk, if_pos hk.symm]
  · rw [if_neg hk, if_neg (Ne.symm hk), h]

theorem strike_tracks_iff {s : Desk} (h : Tracks s) (scancode : UInt8) :
    Tracks (strike s scancode) ↔ ¬ LiftsOneShift s scancode := by
  have hne : LSHIFT ≠ RSHIFT := by decide
  have hone : Tracks (strike s scancode) ↔
      bitAfter [LSHIFT, RSHIFT] s.con.tty.kbd.shift scancode =
        ((strike s scancode).down LSHIFT || (strike s scancode).down RSHIFT) := by
    rw [tracks_bits]
    exact and_iff_left ⟨bitAfter_single h.ctrl scancode, bitAfter_single h.alt scancode⟩
  rw [hone]
  simp only [bitAfter, strike, Function.update_apply, LiftsOneShift, h.shift, List.mem_cons,
    List.not_mem_nil, or_false]
  by_cases hl : keyCode scancode = LSHIFT
  · cases isRelease scancode <;> cases s.down RSHIFT <;> simp [hl, hne, hne.symm]
  by_cases hr : keyCode scancode = RSHIFT
  · cases isRelease scancode <;> cases s.down LSHIFT <;> simp [hr, hne, hne.symm]
  simp [hl, hr, Ne.symm hl, Ne.symm hr]

/-- After every scancode of a sequence the bits track the keys exactly when no Shift key is ever
released while the other is down. -/
theorem run_tracks_iff {s t : Desk} {tr : List (Desk × UInt8 × Desk)} (hstart : Tracks s)
    (hrun : Run Strikes s tr t) :
    (∀ e ∈ tr, Tracks e.2.2) ↔ ∀ e ∈ tr, ¬ LiftsOneShift e.1 e.2.1 := by
  have hstep : ∀ s a t, Tracks s → Tracks (strike s a) → Strikes s a t → Tracks t := by
    rintro s a t - hs rfl
    exact hs
  have hstep' : ∀ s a t, Tracks s → ¬ LiftsOneShift s a → Strikes s a t → Tracks t :=
    fun s a t hs hq => hstep s a t hs ((strike_tracks_iff hs a).mpr hq)
  have hnext : ∀ e ∈ tr, e.2.2 = strike e.1 e.2.1 := by
    intro e he
    obtain ⟨-, -, -, -, hst⟩ := hrun.at_step he
    exact hst
  constructor
  · intro hall e he
    have hall' : ∀ e ∈ tr, Tracks (strike e.1 e.2.1) := fun e he => hnext e he ▸ hall e he
    exact (strike_tracks_iff (hrun.invariant_at hstep hstart hall' he).1 _).mp (hall' e he)
  · intro hall e he
    rw [hnext e he]
    exact (strike_tracks_iff (hrun.invariant_at hstep' hstart hall he).1 _).mpr (hall e he)

/-- A new terminal, all keys up. -/
def idleDesk : Desk := ⟨ttyCreate ⟨0, fun _ => 0, fun _ => 0⟩, fun _ => false⟩

theorem idleDesk_tracks : Tracks idleDesk := ⟨rfl, rfl, rfl⟩

/-- The sequence of scancodes on that terminal. -/
def strikeAll (scancodes : List UInt8) : List (Desk × UInt8 × Desk) :=
  trace strike idleDesk scancodes

theorem strikeAll_run (scancodes : List UInt8) :
    Run Strikes idleDesk (strikeAll scancodes) (scancodes.foldl strike idleDesk) :=
  Run.of_trace scancodes fun _ _ => rfl

theorem run_tracks_iff_shift :
    (∀ e ∈ strikeAll [LSHIFT, 0x1E, 0x9E, 0xAA], Tracks e.2.2) ↔
      ∀ e ∈ strikeAll [LSHIFT, 0x1E, 0x9E, 0xAA], ¬ LiftsOneShift e.1 e.2.1 :=
  run_tracks_iff idleDesk_tracks (strikeAll_run _)

/-- Both Shift keys are pressed and the left one is released. -/
theorem run_tracks_fails : ¬ ∀ (tr : List (Desk × UInt8 × Desk)) (t : Desk),
    Run Strikes idleDesk tr t → (∀ e ∈ tr, Consistent e.1 e.2.1) → ∀ e ∈ tr, Tracks e.2.2 := by
  intro hclaim
  have htracks := hclaim _ _ (strikeAll_run [LSHIFT, RSHIFT, 0xAA]) (by decide +kernel)
  have hlast := (htracks _ (List.mem_cons_of_mem _ (List.mem_cons_of_mem _
    (List.mem_singleton_self _)))).shift
  exact absurd hlast (by decide +kernel)

end Foos.Terminal
