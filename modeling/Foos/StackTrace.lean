import Foos.Rendering
import Foos.Serial

/-! `serial_print` and `serial_printf` on memory, and `do_stack_trace` of `kernel/debug.c`: the text
that it sends for a chain of frames, and the chains that it comes to an end on. -/
namespace Foos.StackTrace
open ByteMemory CString Printf Vsprintf Serial

section
variable (fuel : Nat) (enabled : Bool)

/-- `do serial_send(*s); while(*(++s));` -/
def printFrom : Nat → Mem → Nat → Option (List Op × Nat)
  | 0, _, _ => none
  | rounds+1, m, s =>
    let ops := serialSend enabled (m s)
    if m (s + 1) = 0 then some (ops, s + 1)
    else (printFrom rounds m (s + 1)).map fun r => (ops ++ r.1, r.2)

def serialPrint (m : Mem) (s : Nat) : Option (List Op × Nat) :=
  if m s = 0 ∨ s = 0 then some ([], 0)
  else (printFrom enabled fuel m s).map fun r => (r.1, r.2 - s)

/-- `buf` is a local of the function, `bufTemp` one of `vsprintf`. -/
def serialPrintf (buf bufTemp : Nat) (m : Mem) (fmt : Nat) (vlist : List UInt32) :
    Option (Mem × List Op × Nat) := do
  let r ← Vsprintf.vsprintf fuel buf bufTemp m fmt vlist
  let t ← serialPrint fuel enabled r.m buf
  some (r.m, t)

/-- The two literals of `do_stack_trace`, and the buffers of its calls of `serial_printf`. -/
structure TraceLink where
  trace : Nat
  format : Nat
  buf : Nat
  bufTemp : Nat

variable (L : TraceLink)

/-- The loop from the frame `frm` on, the `i`th one. -/
def stackTrace : Nat → Mem → Nat → Nat → Option (Mem × List Op)
  | 0, _, _, _ => none
  | rounds+1, m, frm, i =>
    if load32 m frm = 0 then some (m, [])
    else do
      let head ← serialPrint fuel enabled m L.trace
      let tabs := serialWrite enabled (List.replicate i 9)
      let eip := UInt32.ofNat (load32 m (frm + 4))
      let line ← serialPrintf fuel enabled L.buf L.bufTemp m L.format [eip]
      let rest ← stackTrace rounds line.1 (load32 line.1 frm) (i + 1)
      some (rest.1, head.1 ++ tabs ++ line.2.1 ++ rest.2)

end

def traceFormat : List UInt8 := chars "\\-- frame 0x%x\n"

/-- The line for the `i`th frame. -/
def traceLine (i : Nat) (eip : UInt32) : List UInt8 :=
  chars "[trace] " ++ List.replicate i 9 ++ (chars "\\-- frame 0x" ++ itoh eip ++ [10])

def traceText : Nat → List UInt32 → List UInt8
  | _, [] => []
  | i, eip :: eips => traceLine i eip ++ traceText (i + 1) eips

/-- The frames from `a` on return to these addresses; behind the last of them is a frame whose
EBP is 0. -/
def Frames (m : Mem) : Nat → List UInt32 → Prop
  | a, [] => load32 m a = 0
  | a, eip :: eips =>
    load32 m a ≠ 0 ∧ UInt32.ofNat (load32 m (a + 4)) = eip ∧ Frames m (load32 m a) eips

/-- What the calls write to. -/
def scratch (L : TraceLink) : List (Nat × Nat) := [(L.buf, BUFSIZ), (L.bufTemp, BUFSIZ)]

/-- The first `n` frames from `a` on, as far as they go, are none of the buffers. -/
def Clean (L : TraceLink) (m : Mem) : Nat → Nat → Prop
  | 0, _ => True
  | n+1, a => Apart (scratch L) a 8 ∧ (load32 m a ≠ 0 → Clean L m n (load32 m a))

/-- The literals and the buffers are where the code expects them. -/
structure Linked (L : TraceLink) (m : Mem) : Prop where
  bound : L.buf + BUFSIZ ≤ 4294967296
  apart : L.buf + BUFSIZ ≤ L.bufTemp ∨ L.bufTemp + BUFSIZ ≤ L.buf
  nonzero : L.trace ≠ 0 ∧ L.buf ≠ 0
  trace : Str m L.trace (chars "[trace] ")
  traceApart : Apart (scratch L) L.trace 9
  format : Str m L.format traceFormat
  formatApart : Apart (scratch L) L.format 16

theorem serialWrite_append (enabled : Bool) (s t : List UInt8) :
    serialWrite enabled (s ++ t) = serialWrite enabled s ++ serialWrite enabled t :=
  List.flatMap_append

section
variable {fuel : Nat} {enabled : Bool} {m m' : Mem} {a : Nat}

theorem printFrom_str {s : List UInt8} {c : UInt8} (h : Str m a (c :: s))
    (hfuel : s.length < fuel) :
    printFrom enabled fuel m a = some (serialWrite enabled (c :: s), a + (s.length + 1)) := by
  induction s generalizing a c fuel with
  | nil =>
    obtain ⟨fuel, rfl⟩ := Nat.exists_eq_add_one_of_ne_zero (Nat.ne_zero_of_lt hfuel)
    obtain ⟨hc, -, hend⟩ := h
    have hend : m (a + 1) = 0 := hend
    rw [printFrom, if_pos hend, hc]
    exact congrArg some (Prod.ext (List.flatMap_singleton ..).symm rfl)
  | cons d s ih =>
    obtain ⟨fuel, rfl⟩ := Nat.exists_eq_add_one_of_ne_zero (Nat.ne_zero_of_lt hfuel)
    obtain ⟨hc, -, hrest⟩ := h
    have hd : m (a + 1) ≠ 0 := hrest.1 ▸ hrest.2.1
    rw [printFrom, if_neg hd, ih hrest (Nat.lt_of_succ_lt_succ hfuel), hc, Option.map_some]
    refine congrArg some (Prod.ext rfl ?_)
    simp only [List.length_cons]
    omega

/-- A string is sent whole; its length is returned. -/
theorem serialPrint_str {s : List UInt8} (h : Str m a s) (ha : a ≠ 0) (hfuel : s.length < fuel) :
    serialPrint fuel enabled m a = some (serialWrite enabled s, s.length) := by
  cases s with
  | nil =>
    have h0 : m a = 0 := h
    rw [serialPrint, if_pos (Or.inl h0)]
    rfl
  | cons c s =>
    have hc : ¬ (m a = 0 ∨ a = 0) := not_or.mpr ⟨h.1 ▸ h.2.1, ha⟩
    rw [serialPrint, if_neg hc, printFrom_str h (Nat.lt_of_succ_lt hfuel), Option.map_some,
      Nat.add_sub_cancel_left]
    rfl

/-- A format is sent as the text of its pieces. -/
theorem serialPrintf_text (enabled : Bool) {buf bufTemp fmt : Nat} {ps : List Piece}
    {vlist : List UInt32}
    (hps : ∀ p ∈ ps, p.Ordinary)
    (h : Passed buf bufTemp (textOf ps).length m fmt (formatOf ps) vlist (argsOf ps))
    (hfuel : enoughFuel (formatOf ps) (argsOf ps) ≤ fuel) (htext : ∀ c ∈ textOf ps, c ≠ 0)
    (hbuf : buf ≠ 0) (hlen : (textOf ps).length < fuel) :
    ∃ m', serialPrintf fuel enabled buf bufTemp m fmt vlist =
        some (m', serialWrite enabled (textOf ps), (textOf ps).length) ∧
      Frame (areas buf bufTemp (textOf ps).length) m m' := by
  obtain ⟨r, hrun, hframe, -⟩ := renders_run hps h hfuel
  have happ := h.room.apart
  have hstr : Str r.m buf (textOf ps) := by
    refine hframe.str (putString_str htext) ?_
    rw [apart_cons]
    exact ⟨by omega, apart_nil⟩
  refine ⟨r.m, ?_, fun y hy => ?_⟩
  · rw [serialPrintf, hrun]
    simp only [Option.bind_eq_bind, Option.bind_some, serialPrint_str hstr hbuf hlen]
  · simp only [areas, outside_cons, outside_nil, and_true] at hy
    exact (hframe y (outside_single.mpr hy.2)).trans (putString_outside (by omega))

/- The trace. -/

/-- The format of a line in pieces. -/
def linePieces (eip : UInt32) : List Piece :=
  (chars "\\-- frame 0x").map .plain ++ [.hex eip, .plain 10]

theorem linePieces_text (eip : UInt32) :
    textOf (linePieces eip) = chars "\\-- frame 0x" ++ itoh eip ++ [10] := by
  have hplain : ∀ s : List UInt8, textOf (s.map .plain) = s := by
    intro s
    rw [textOf, List.flatMap_map]
    exact List.flatMap_singleton' s
  rw [linePieces, textOf, List.flatMap_append, List.append_assoc]
  exact congrArg₂ _ (hplain _) rfl

theorem linePieces_ordinary (eip : UInt32) : ∀ p ∈ linePieces eip, p.Ordinary := by
  have hplain : (chars "\\-- frame 0x").all (fun c => c != 37) = true := by decide
  intro p hp
  rw [linePieces, List.mem_append] at hp
  cases hp with
  | inl hp =>
    obtain ⟨c, hc, rfl⟩ := List.mem_map.mp hp
    exact bne_iff_ne.mp (List.all_eq_true.mp hplain c hc)
  | inr hp =>
    simp only [List.mem_cons, List.not_mem_nil, or_false] at hp
    cases hp with
    | inl heq => exact heq ▸ trivial
    | inr heq => exact heq ▸ (by decide : (10 : UInt8) ≠ 37)

theorem linePieces_chars (eip : UInt32) : ∀ c ∈ textOf (linePieces eip), c ≠ 0 := by
  have hplain : ∀ c ∈ chars "\\-- frame 0x", c ≠ 0 := chars_of_all (by decide)
  intro c hc
  rw [linePieces_text, List.mem_append, List.mem_append] at hc
  obtain (hc | hc) | hc := hc
  · exact hplain c hc
  · exact Conv.itoh_chars eip c hc
  · exact List.mem_singleton.mp hc ▸ (by decide : (10 : UInt8) ≠ 0)

theorem linePieces_length (eip : UInt32) : (textOf (linePieces eip)).length ≤ 24 := by
  have hlen := itoh_length eip
  have hplain : (chars "\\-- frame 0x").length = 12 := by decide
  rw [linePieces_text, List.length_append, List.length_append, hplain, List.length_singleton]
  omega

variable {L : TraceLink}

/-- The buffers hold a line of the trace. -/
theorem Linked.passed (h : Linked L m) (eip : UInt32) :
    Passed L.buf L.bufTemp (textOf (linePieces eip)).length m L.format
      (formatOf (linePieces eip)) [eip] (argsOf (linePieces eip)) := by
  have hlen := linePieces_length eip
  have hbound := h.bound
  have happ := h.apart
  have hsub : ∀ {p n : Nat}, Apart (scratch L) p n →
      Apart (areas L.buf L.bufTemp (textOf (linePieces eip)).length) p n := by
    intro p n hp
    simp only [scratch, areas, apart_cons, BUFSIZ] at hp ⊢
    exact ⟨by omega, hp.2⟩
  simp only [BUFSIZ] at hbound happ
  refine ⟨⟨by omega, by simp only [BUFSIZ]; omega⟩, h.format, hsub h.formatApart, ?_⟩
  exact .cons rfl .nil

theorem Linked.frame (h : Linked L m) (hm : Frame (scratch L) m m') : Linked L m' :=
  ⟨h.bound, h.apart, h.nonzero, hm.str h.trace h.traceApart, h.traceApart,
    hm.str h.format h.formatApart, h.formatApart⟩

theorem Clean.frame {n : Nat} (h : Clean L m n a) (hm : Frame (scratch L) m m') :
    Clean L m' n a := by
  induction n generalizing a with
  | zero => trivial
  | succ n ih =>
    have hword : load32 m' a = load32 m a := hm.load32 (h.1.sub (Nat.le_refl a) (by omega))
    refine ⟨h.1, fun h0 => ?_⟩
    rw [hword] at h0 ⊢
    exact ih (h.2 h0)

theorem Clean.le {n k : Nat} (h : Clean L m n a) (hk : k ≤ n) : Clean L m k a := by
  induction k generalizing n a with
  | zero => trivial
  | succ k ih =>
    obtain ⟨n, rfl⟩ := Nat.exists_eq_add_one_of_ne_zero (Nat.ne_zero_of_lt hk)
    exact ⟨h.1, fun h0 => ih (h.2 h0) (Nat.le_of_succ_le_succ hk)⟩

/-- The buffers are no frames, so that the frames stay. -/
theorem Frames.frame {eips : List UInt32} (h : Frames m a eips) (hc : Clean L m (eips.length + 1) a)
    (hm : Frame (scratch L) m m') : Frames m' a eips := by
  induction eips generalizing a with
  | nil => exact (hm.load32 (hc.1.sub (Nat.le_refl a) (by omega))).trans h
  | cons eip eips ih =>
    obtain ⟨h0, heip, hrest⟩ := h
    have hword : load32 m' a = load32 m a := hm.load32 (hc.1.sub (Nat.le_refl a) (by omega))
    have hret : load32 m' (a + 4) = load32 m (a + 4) := hm.load32 (hc.1.sub (by omega) (by omega))
    refine ⟨hword ▸ h0, hret ▸ heip, ?_⟩
    rw [hword]
    exact ih hrest (hc.2 h0)

/-- A frame that is not the last one is shown. -/
theorem stackTrace_step (enabled : Bool) (hL : Linked L m) (ha : Apart (scratch L) a 8)
    (h0 : load32 m a ≠ 0)
    (hfuel : 64 ≤ fuel) (rounds i : Nat) :
    ∃ m', Frame (scratch L) m m' ∧ stackTrace fuel enabled L (rounds + 1) m a i =
      (stackTrace fuel enabled L rounds m' (load32 m a) (i + 1)).map fun r =>
        (r.1, serialWrite enabled (traceLine i (UInt32.ofNat (load32 m (a + 4)))) ++ r.2) := by
  have hlen := linePieces_length (UInt32.ofNat (load32 m (a + 4)))
  have htrace : serialPrint fuel enabled m L.trace =
      some (serialWrite enabled (chars "[trace] "), 8) :=
    serialPrint_str hL.trace hL.nonzero.1 (Nat.lt_of_lt_of_le (by decide) hfuel)
  obtain ⟨m', hprint, hframe⟩ := serialPrintf_text enabled
    (linePieces_ordinary (UInt32.ofNat (load32 m (a + 4)))) (hL.passed _)
    (Nat.le_trans (by decide : 15 + 11 + 2 ≤ 64) hfuel) (linePieces_chars _) hL.nonzero.2
    (Nat.lt_of_le_of_lt hlen (Nat.lt_of_lt_of_le (by decide) hfuel))
  have hframe : Frame (scratch L) m m' := hframe.mono fun y hy => by
    simp only [scratch, areas, outside_cons, outside_nil, and_true, BUFSIZ] at hy ⊢
    omega
  have hword : load32 m' a = load32 m a := hframe.load32 (ha.sub (Nat.le_refl a) (by omega))
  refine ⟨m', hframe, ?_⟩
  rw [stackTrace, if_neg h0, htrace]
  simp only [Option.bind_eq_bind, Option.bind_some, hprint, hword, Option.map_eq_bind]
  simp only [traceLine, linePieces_text, serialWrite_append, List.append_assoc, Function.comp_def]

/-- A chain that ends is shown whole. -/
theorem stackTrace_run {eips : List UInt32} (hL : Linked L m) (h : Frames m a eips)
    (hc : Clean L m (eips.length + 1) a) (hfuel : 64 ≤ fuel) {rounds : Nat}
    (hrounds : eips.length < rounds) (i : Nat) :
    ∃ m', stackTrace fuel enabled L rounds m a i =
        some (m', serialWrite enabled (traceText i eips)) ∧ Frame (scratch L) m m' := by
  induction eips generalizing m a rounds i with
  | nil =>
    obtain ⟨rounds, rfl⟩ := Nat.exists_eq_add_one_of_ne_zero (Nat.ne_zero_of_lt hrounds)
    have h0 : load32 m a = 0 := h
    exact ⟨m, by rw [stackTrace, if_pos h0]; rfl, Frame.refl _ m⟩
  | cons eip eips ih =>
    obtain ⟨rounds, rfl⟩ := Nat.exists_eq_add_one_of_ne_zero (Nat.ne_zero_of_lt hrounds)
    obtain ⟨h0, heip, hrest⟩ := h
    obtain ⟨m₁, hframe, hstep⟩ := stackTrace_step enabled hL hc.1 h0 hfuel rounds i
    have hclean := hc.2 h0
    obtain ⟨m₂, hrun, hframe'⟩ := ih (hL.frame hframe) (hrest.frame hclean hframe)
      (hclean.frame hframe) (Nat.lt_of_succ_lt_succ hrounds) (i + 1)
    refine ⟨m₂, ?_, hframe.trans hframe'⟩
    rw [hstep, hrun, Option.map_some, heip, traceText, serialWrite_append]

/-- A trace that comes to an end has seen the end of the chain. -/
theorem stackTrace_ends {rounds i : Nat} {r : Mem × List Op} (hL : Linked L m)
    (hc : Clean L m rounds a) (hfuel : 64 ≤ fuel)
    (h : stackTrace fuel enabled L rounds m a i = some r) :
    ∃ eips, Frames m a eips ∧ eips.length < rounds := by
  induction rounds generalizing m a i r with
  | zero => simp [stackTrace] at h
  | succ rounds ih =>
    by_cases h0 : load32 m a = 0
    · exact ⟨[], h0, Nat.succ_pos rounds⟩
    · obtain ⟨m₁, hframe, hstep⟩ := stackTrace_step enabled hL hc.1 h0 hfuel rounds i
      rw [hstep] at h
      obtain ⟨r', hr', -⟩ := Option.map_eq_some_iff.mp h
      have hclean := hc.2 h0
      obtain ⟨eips, hframes, hlt⟩ := ih (hL.frame hframe) (hclean.frame hframe) hr'
      have hback : Frame (scratch L) m₁ m := fun y hy => (hframe y hy).symm
      have hshort : Clean L m₁ (eips.length + 1) (load32 m a) :=
        (hclean.le hlt).frame hframe
      exact ⟨UInt32.ofNat (load32 m (a + 4)) :: eips, ⟨h0, rfl, hframes.frame hshort hback⟩,
        Nat.succ_lt_succ hlt⟩

end

/-- On frames that none of its buffers covers `do_stack_trace` comes to an end exactly when their
chain does. Then it has sent a line for every frame but the outermost, with its return address
behind as many tabs as frames come before, and has written to its buffers only. -/
theorem trace_shows {fuel : Nat} (enabled : Bool) {L : TraceLink} {m : Mem} {frm : Nat}
    (hL : Linked L m) (hclean : ∀ n, Clean L m n frm) (hfuel : 64 ≤ fuel) :
    ((∃ rounds r, stackTrace fuel enabled L rounds m frm 0 = some r) ↔ ∃ eips, Frames m frm eips) ∧
    ∀ eips, Frames m frm eips → ∀ rounds, eips.length < rounds →
      ∃ m', stackTrace fuel enabled L rounds m frm 0 =
          some (m', serialWrite enabled (traceText 0 eips)) ∧ Frame (scratch L) m m' := by
  have hruns : ∀ eips, Frames m frm eips → ∀ rounds, eips.length < rounds →
      ∃ m', stackTrace fuel enabled L rounds m frm 0 =
        some (m', serialWrite enabled (traceText 0 eips)) ∧ Frame (scratch L) m m' :=
    fun eips h rounds hrounds => stackTrace_run hL h (hclean _) hfuel hrounds 0
  refine ⟨⟨?_, ?_⟩, hruns⟩
  · intro ⟨rounds, r, hr⟩
    obtain ⟨eips, hframes, -⟩ := stackTrace_ends hL (hclean rounds) hfuel hr
    exact ⟨eips, hframes⟩
  · intro ⟨eips, hframes⟩
    obtain ⟨m', hr, -⟩ := hruns eips hframes _ (Nat.lt_succ_self _)
    exact ⟨_, _, hr⟩

/-- One frame that returns to `0x1234`, and the frame of `kernel_main`. -/
def someLink : TraceLink := ⟨0x1000, 0x1100, 0x8000, 0x8400⟩

def someMem : Mem :=
  putString (putString (store32 (store32 ⟨fun _ => 0⟩ 0x9000 0x9100) 0x9004 0x1234) 0x1000
    (chars "[trace] ")) 0x1100 traceFormat

theorem someMem_linked : Linked someLink someMem :=
  ⟨by decide, by decide, by decide, by decide +kernel, by decide, by decide +kernel, by decide⟩

theorem someMem_clean (n : Nat) : Clean someLink someMem n 0x9000 := by
  have hnext : load32 someMem 0x9000 = 0x9100 := by decide +kernel
  have hlast : load32 someMem 0x9100 = 0 := by decide +kernel
  cases n with
  | zero => trivial
  | succ n =>
    refine ⟨(by decide : Apart (scratch someLink) 0x9000 8), fun _ => ?_⟩
    rw [hnext]
    cases n with
    | zero => trivial
    | succ n =>
      exact ⟨(by decide : Apart (scratch someLink) 0x9100 8), fun h0 => absurd hlast h0⟩

theorem trace_shows_frame : ∃ m', stackTrace 64 true someLink 2 someMem 0x9000 0 =
    some (m', serialWrite true (chars "[trace] \\-- frame 0x1234\n")) := by
  have hframes : Frames someMem 0x9000 [0x1234] :=
    ⟨by decide +kernel, by decide +kernel, (by decide +kernel : load32 someMem _ = 0)⟩
  obtain ⟨m', hrun, -⟩ :=
    (trace_shows true someMem_linked someMem_clean (Nat.le_refl 64)).2 _ hframes 2 (by decide)
  have htext : traceText 0 [0x1234] = chars "[trace] \\-- frame 0x1234\n" := by
    decide +kernel
  exact ⟨m', htext ▸ hrun⟩

end Foos.StackTrace
