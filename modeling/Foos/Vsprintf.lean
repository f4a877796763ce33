import Foos.Digits

/-! `vsprintf` of `libc/printf.c` on memory, and the stores of the list formatter. A call that
outlasts `fuel`, and a directive without an argument, are `none`. -/
namespace Foos.Vsprintf
open ByteMemory CString Word32 Printf

/-- The loop: memory, the format pointer, the argument list and the offset, with the addresses
that `*format++` has read. -/
structure State where
  m : Mem
  format : Nat
  vlist : List UInt32
  offset : Nat
  reads : List Nat

/-- What the call leaves. -/
structure Result where
  m : Mem
  reads : List Nat
  ret : Int

def vaArg : List UInt32 → Option (UInt32 × List UInt32)
  | [] => none
  | w :: vlist => some (w, vlist)

section
variable (fuel buffer bufTemp : Nat)

/-- The number goes through `buf_temp`. -/
def copyNumber (m : Mem) (offset : Nat) : Option (Mem × Nat) :=
  (Libc.strlen fuel m bufTemp).map fun len =>
    (ByteMemory.memcpy m (buffer + offset) bufTemp len, add32 offset len)

/-- The directive `ch` behind a `%`: memory and the offset, and the arguments that are left. -/
def directive (m : Mem) (offset : Nat) (ch : UInt8) (vlist : List UInt32) :
    Option ((Mem × Nat) × List UInt32) :=
  if ch = 37 then some ((store8 m (buffer + offset) 37, add32 offset 1), vlist)
  else if ch = 99 then (vaArg vlist).map fun r =>
    ((store8 m (buffer + offset) r.1.toUInt8, add32 offset 1), r.2)
  else if ch = 115 then (vaArg vlist).bind fun r =>
    if r.1 ≠ 0 then
      (Libc.strcpy fuel m (buffer + offset) r.1.toNat).bind fun t =>
        (Libc.strlen fuel t.2 r.1.toNat).map fun len => ((t.2, add32 offset len), r.2)
    else some ((putString m (buffer + offset) (chars "(null)"), add32 offset 6), r.2)
  else if ch = 100 then (vaArg vlist).bind fun r =>
    (Conv.itoa fuel m (toInt r.1.toNat) bufTemp).bind fun m =>
      (copyNumber fuel buffer bufTemp m offset).map fun t => (t, r.2)
  else if ch = 117 then (vaArg vlist).bind fun r =>
    (Conv.utoa fuel m r.1 bufTemp).bind fun m =>
      (copyNumber fuel buffer bufTemp m offset).map fun t => (t, r.2)
  else if ch = 120 then (vaArg vlist).bind fun r =>
    (copyNumber fuel buffer bufTemp (Conv.itoh m r.1 bufTemp) offset).map fun t => (t, r.2)
  else some ((m, offset), vlist)

/-- `while(ch=*(format++))`, with at most as many rounds. -/
def loop : Nat → State → Option Result
  | 0, _ => none
  | rounds+1, s =>
    let ch := s.m s.format
    let reads := s.reads ++ [s.format]
    if ch = 0 then some ⟨store8 s.m (buffer + s.offset) 0, reads, toInt s.offset⟩
    else if ch = 37 then
      (directive fuel buffer bufTemp s.m s.offset (s.m (s.format + 1)) s.vlist).bind fun r =>
        loop rounds ⟨r.1.1, s.format + 2, r.2, r.1.2, reads ++ [s.format + 1]⟩
    else loop rounds ⟨store8 s.m (buffer + s.offset) ch, s.format + 1, s.vlist,
      add32 s.offset 1, reads⟩

def vsprintf (m : Mem) (format : Nat) (vlist : List UInt32) : Option Result :=
  loop fuel buffer bufTemp fuel ⟨m, format, vlist, 0, []⟩

end

/-- Stores into the buffer, one after the other. -/
def perform (buffer : Nat) (m : Mem) (stores : Stores) : Mem :=
  stores.foldl (fun m e => store8 m (buffer + e.1) e.2) m

theorem perform_append (buffer : Nat) (m : Mem) (s t : Stores) :
    perform buffer m (s ++ t) = perform buffer (perform buffer m s) t := List.foldl_append

theorem perform_memcpy (buffer : Nat) (m : Mem) (offset : Nat) (s : List UInt8) :
    perform buffer m (Printf.memcpy offset s) = putBytes m (buffer + offset) s := by
  induction s generalizing m offset with
  | nil => rfl
  | cons c s ih => exact ih (store8 m (buffer + offset) c) (offset + 1)

theorem perform_strcpy (buffer : Nat) (m : Mem) (offset : Nat) (s : List UInt8) :
    perform buffer m (Printf.strcpy offset s) = putString m (buffer + offset) s := by
  rw [Printf.strcpy, perform_memcpy, putBytes_append, putString_eq]
  rfl

theorem perform_outside {buffer : Nat} {stores : Stores} {y : Nat} (m : Mem)
    (h : ∀ e ∈ stores, y ≠ buffer + e.1) : perform buffer m stores y = m y := by
  induction stores generalizing m with
  | nil => rfl
  | cons e s ih =>
    refine (ih _ fun e' he => h e' (List.mem_cons_of_mem _ he)).trans ?_
    exact store8_ne m _ y e.2 (h e List.mem_cons_self)

/-- The stores are the same where two memories agree. -/
theorem perform_congr {areas : List (Nat × Nat)} {m m' : Mem} (buffer : Nat) (stores : Stores)
    (h : Frame areas m m') : Frame areas (perform buffer m stores) (perform buffer m' stores) := by
  induction stores generalizing m m' with
  | nil => exact h
  | cons e s ih =>
    refine ih fun y hy => ?_
    by_cases hye : y = buffer + e.1
    · rw [hye, store8_same, store8_same]
    · rw [store8_ne _ _ y _ hye, store8_ne _ _ y _ hye, h y hy]

/-- The buffer with room for `n` characters and a NUL, and the local `buf_temp`. -/
def areas (buffer bufTemp n : Nat) : List (Nat × Nat) := [(buffer, n + 1), (bufTemp, BUFSIZ)]

/-- The buffer is in the address space, and `buf_temp` is no part of it. -/
structure Room (buffer bufTemp n : Nat) : Prop where
  bound : buffer + n < 4294967296
  apart : buffer + n < bufTemp ∨ bufTemp + BUFSIZ ≤ buffer

/-- The word that is passed for an argument: a number, NULL, or the address of a string outside
the areas. -/
def Holds (areas : List (Nat × Nat)) (m : Mem) (w : UInt32) : Arg → Prop
  | .word n => w = n
  | .str none => w = 0
  | .str (some s) => w ≠ 0 ∧ Str m w.toNat s ∧ w.toNat + s.length < 4294967296 ∧
      ByteMemory.Apart areas w.toNat (s.length + 1)

theorem Holds.frame {areas : List (Nat × Nat)} {m m' : Mem} {w : UInt32} {a : Arg}
    (h : Holds areas m w a) (hm : Frame areas m m') : Holds areas m' w a := by
  match a, h with
  | .word n, h => exact h
  | .str none, h => exact h
  | .str (some s), ⟨hw, hs, hlen, happ⟩ => exact ⟨hw, hm.str hs happ, hlen, happ⟩

variable {fuel buffer bufTemp n offset : Nat} {m : Mem}

theorem Room.offset_add (h : Room buffer bufTemp n) {k : Nat} (hk : offset + k ≤ n) :
    add32 offset k = offset + k := by
  have := h.bound
  exact add32_of_lt (by omega)

/-- A text in `buf_temp` is copied to the buffer. -/
theorem copyNumber_run (hroom : Room buffer bufTemp n) {text : List UInt8}
    (hchars : ∀ c ∈ text, c ≠ 0) (hlen : text.length ≤ 11) (hfuel : 11 < fuel)
    (hn : offset + text.length ≤ n) :
    ∃ m', copyNumber fuel buffer bufTemp (putString m bufTemp text) offset =
        some (m', offset + text.length) ∧
      Frame [(bufTemp, BUFSIZ)] (putBytes m (buffer + offset) text) m' := by
  have hsize : BUFSIZ = 512 := rfl
  have happ := hroom.apart
  have hput : Str (putString m bufTemp text) bufTemp text := putString_str hchars
  refine ⟨ByteMemory.memcpy (putString m bufTemp text) (buffer + offset) bufTemp text.length, ?_,
    fun y hy => ?_⟩
  · rw [copyNumber, Libc.strlen_str hput (by omega) (by omega), Option.map_some,
      hroom.offset_add hn]
  · rw [outside_single] at hy
    by_cases hin : buffer + offset ≤ y ∧ y < buffer + offset + text.length
    · obtain ⟨i, rfl⟩ : ∃ i, y = buffer + offset + i := ⟨y - (buffer + offset), by omega⟩
      obtain ⟨c, hc⟩ : ∃ c, text[i]? = some c := ⟨_, List.getElem?_eq_getElem (by omega)⟩
      rw [memcpy_copied (by omega) (by omega), hput.char hc, putBytes_at hc]
    · have hout : Outside [(buffer + offset, text.length)] y := by
        rw [outside_single]
        omega
      rw [memcpy_frame _ _ _ _ y hout, putBytes_frame m _ text y hout,
        putString_outside (by omega)]

/-- A number directive behind its conversion. -/
theorem number_run (hroom : Room buffer bufTemp n) {text : List UInt8}
    (hchars : ∀ c ∈ text, c ≠ 0) (hlen : text.length ≤ 11) (hfuel : 11 < fuel)
    (hn : offset + text.length ≤ n) (vlist : List UInt32) :
    ∃ m', (copyNumber fuel buffer bufTemp (putString m bufTemp text) offset).map
        (fun t => (t, vlist)) = some ((m', offset + text.length), vlist) ∧
      Frame [(bufTemp, BUFSIZ)] (perform buffer m (Printf.number offset text).1) m' := by
  obtain ⟨m', hrun, hframe⟩ := copyNumber_run hroom hchars hlen hfuel hn (m := m)
  refine ⟨m', by rw [hrun, Option.map_some], ?_⟩
  rw [Printf.number, perform_memcpy]
  exact hframe

theorem vaArg_word {as : List (Nat × Nat)} {vlist : List UInt32} {args rest : List Arg} {v : UInt32}
    (hargs : List.Forall₂ (Holds as m) vlist args) (h : argWord args = some (v, rest)) :
    ∃ ws, vaArg vlist = some (v, ws) ∧ args = .word v :: rest ∧
      List.Forall₂ (Holds as m) ws rest := by
  cases hargs with
  | nil => cases h
  | @cons w a ws as' hw hws =>
    cases a with
    | str s => cases h
    | word n =>
      obtain ⟨rfl, rfl⟩ := Prod.mk.inj (Option.some.inj h)
      obtain rfl : w = n := hw
      exact ⟨ws, rfl, rfl, hws⟩

theorem vaArg_str {as : List (Nat × Nat)} {vlist : List UInt32} {args rest : List Arg}
    {s : Option (List UInt8)} (hargs : List.Forall₂ (Holds as m) vlist args)
    (h : argStr args = some (s, rest)) :
    ∃ w ws, vaArg vlist = some (w, ws) ∧ args = .str s :: rest ∧ Holds as m w (.str s) ∧
      List.Forall₂ (Holds as m) ws rest := by
  cases hargs with
  | nil => cases h
  | @cons w a ws as' hw hws =>
    cases a with
    | word n => cases h
    | str s' =>
      obtain ⟨rfl, rfl⟩ := Prod.mk.inj (Option.some.inj h)
      exact ⟨w, ws, rfl, rfl, hw, hws⟩

/-- A string that is not NULL is copied, and measured behind that. -/
theorem copyString_run (hroom : Room buffer bufTemp n) {w : UInt32} {s : List UInt8}
    (hw : Holds (areas buffer bufTemp n) m w (.str (some s))) (hfuel : s.length < fuel)
    (hn : offset + s.length ≤ n) (vlist : List UInt32) :
    ((Libc.strcpy fuel m (buffer + offset) w.toNat).bind fun t =>
      (Libc.strlen fuel t.2 w.toNat).map fun len => ((t.2, add32 offset len), vlist)) =
      some ((perform buffer m (Printf.strcpy offset s), offset + s.length), vlist) := by
  obtain ⟨hnull, hs, hlen, happ⟩ := hw
  have hpos : w.toNat ≠ 0 := fun h => hnull (UInt32.toNat_inj.mp h)
  simp only [areas, apart_cons, apart_nil, and_true] at happ
  have hcopy : Libc.strcpy fuel m (buffer + offset) w.toNat =
      some (buffer + offset, putString m (buffer + offset) s) :=
    Libc.strcpy_run hs hfuel (by omega)
  have hstill : Str (putString m (buffer + offset) s) w.toNat s :=
    hs.congr fun y h1 h2 => putString_outside (by omega)
  rw [hcopy, Option.bind_some, Libc.strlen_str hstill (by omega) hfuel, Option.map_some,
    hroom.offset_add hn, perform_strcpy]

/-- A directive does to memory what the list formatter stores, `buf_temp` apart. -/
theorem directive_run (hroom : Room buffer bufTemp n) {vlist : List UInt32} {args : List Arg}
    {ch : UInt8} {r : (Stores × Nat) × List Arg}
    (hargs : List.Forall₂ (Holds (areas buffer bufTemp n) m) vlist args)
    (hwide : ∀ a ∈ args, a.width < fuel) (h : Printf.directive offset ch args = some r)
    (hn : offset + r.1.2 ≤ n) :
    ∃ m' ws, directive fuel buffer bufTemp m offset ch vlist = some ((m', offset + r.1.2), ws) ∧
      Frame [(bufTemp, BUFSIZ)] (perform buffer m r.1.1) m' ∧
      List.Forall₂ (Holds (areas buffer bufTemp n) m) ws r.2 := by
  have hadd := hroom.offset_add hn
  unfold Printf.directive at h
  unfold directive
  split_ifs at h ⊢
  · obtain rfl := Option.some.inj h
    exact ⟨_, vlist, by rw [hadd]; rfl, Frame.refl _ _, hargs⟩
  · obtain ⟨⟨v, rest⟩, hv, rfl⟩ := Option.map_eq_some_iff.mp h
    obtain ⟨ws, hva, -, hws⟩ := vaArg_word hargs hv
    exact ⟨_, ws, by rw [hva, Option.map_some, hadd]; rfl, Frame.refl _ _, hws⟩
  · obtain ⟨⟨s, rest⟩, hs, rfl⟩ := Option.map_eq_some_iff.mp h
    obtain ⟨w, ws, hva, rfl, hw, hws⟩ := vaArg_str hargs hs
    have hfuel := hwide _ List.mem_cons_self
    rw [hva, Option.bind_some]
    cases s with
    | none =>
      obtain rfl : w = 0 := hw
      have hsix : (chars "(null)").length = 6 := by simp [chars]
      have hnull : (none.getD (chars "(null)")).length = 6 := hsix
      rw [if_neg (not_not.mpr rfl)]
      refine ⟨_, ws, ?_, Frame.refl _ _, hws⟩
      simp only [hnull] at hadd ⊢
      rw [hadd, perform_strcpy]
      rfl
    | some s =>
      rw [if_pos hw.1]
      exact ⟨_, ws, copyString_run hroom hw hfuel hn ws, Frame.refl _ _, hws⟩
  · obtain ⟨⟨v, rest⟩, hv, rfl⟩ := Option.map_eq_some_iff.mp h
    obtain ⟨ws, hva, rfl, hws⟩ := vaArg_word hargs hv
    have hfuel := hwide _ List.mem_cons_self
    have hlen := itoa_length (toInt_natAbs v.toNat_lt)
    obtain ⟨m', hrun, hframe⟩ := number_run (m := m) hroom (Conv.itoa_chars _) hlen hfuel hn ws
    refine ⟨m', ws, ?_, hframe, hws⟩
    rw [hva, Option.bind_some, Conv.itoa_run m (Nat.lt_of_le_of_lt hlen hfuel)]
    exact hrun
  · obtain ⟨⟨v, rest⟩, hv, rfl⟩ := Option.map_eq_some_iff.mp h
    obtain ⟨ws, hva, rfl, hws⟩ := vaArg_word hargs hv
    have hfuel := hwide _ List.mem_cons_self
    have hlen := utoa_length v
    obtain ⟨m', hrun, hframe⟩ := number_run (m := m) hroom (Conv.utoa_chars _) hlen hfuel hn ws
    refine ⟨m', ws, ?_, hframe, hws⟩
    rw [hva, Option.bind_some, Conv.utoa_run m (Nat.lt_of_le_of_lt hlen hfuel)]
    exact hrun
  · obtain ⟨⟨v, rest⟩, hv, rfl⟩ := Option.map_eq_some_iff.mp h
    obtain ⟨ws, hva, rfl, hws⟩ := vaArg_word hargs hv
    have hfuel := hwide _ List.mem_cons_self
    obtain ⟨m', hrun, hframe⟩ :=
      number_run (m := m) hroom (Conv.itoh_chars v) (itoh_length v) hfuel hn ws
    refine ⟨m', ws, ?_, hframe, hws⟩
    rw [hva, Option.bind_some, Conv.itoh_run]
    exact hrun
  · obtain rfl := Option.some.inj h
    exact ⟨m, vlist, rfl, Frame.refl _ _, hargs⟩

end Foos.Vsprintf
