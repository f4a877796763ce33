import Mathlib.Data.List.DropRight
import Mathlib.Data.List.Forall2
import Foos.Vsprintf

/-! How far `vsprintf` reads its format. -/
namespace Foos.Vsprintf
open ByteMemory CString Word32 Printf

/-- What the loop stores for a part of a format that ends behind a directive, with the offset there
and the arguments that are left. -/
def emit : Nat → List UInt8 → List Arg → Option ((Stores × Nat) × List Arg)
  | offset, [], args => some (([], offset), args)
  | offset, ch :: format, args =>
    if ch = 37 then
      match format with
      | [] => none
      | ch :: format =>
        (Printf.directive offset ch args).bind fun r =>
          (emit (offset + r.1.2) format r.2).map fun t => ((r.1.1 ++ t.1.1, t.1.2), t.2)
    else (emit (offset + 1) format args).map fun t => (((offset, ch) :: t.1.1, t.1.2), t.2)

theorem emit_directive (offset : Nat) (ch : UInt8) (format : List UInt8) (args : List Arg) :
    emit offset (37 :: ch :: format) args = (Printf.directive offset ch args).bind fun r =>
      (emit (offset + r.1.2) format r.2).map fun t => ((r.1.1 ++ t.1.1, t.1.2), t.2) := rfl

theorem emit_char {ch : UInt8} (h : ch ≠ 37) (offset : Nat) (format : List UInt8)
    (args : List Arg) : emit offset (ch :: format) args =
      (emit (offset + 1) format args).map fun t => (((offset, ch) :: t.1.1, t.1.2), t.2) := by
  rw [emit.eq_def]
  exact if_neg h

/-- At the end of the format the loop stores a NUL. -/
theorem formatFrom_emit (offset : Nat) (format : List UInt8) (args : List Arg) :
    formatFrom offset format args =
      (emit offset format args).map fun t => (t.1.1 ++ [(t.1.2, 0)], t.1.2) := by
  induction offset, format, args using formatFrom.induct with
  | case1 offset args => rfl
  | case2 offset args => rfl
  | case3 offset args ch format ih =>
    rw [emit_directive, formatFrom, if_pos rfl, Option.map_bind]
    refine Option.bind_congr fun r _ => ?_
    rw [ih r, Option.map_map, Function.comp_apply, Option.map_map]
    congr 1
    funext t
    exact congrArg (·, t.1.2) (List.append_assoc ..).symm
  | case4 offset ch format args hch ih =>
    rw [emit_char hch, Option.map_map]
    unfold formatFrom
    rw [if_neg hch, ih, Option.map_map]
    rfl

theorem argWord_rest {args : List Arg} {v : UInt32 × List Arg} (h : argWord args = some v) :
    v.2 <:+ args := by
  match args, h with
  | .word n :: rest, h =>
    obtain rfl := Option.some.inj h
    exact List.suffix_cons ..

theorem argStr_rest {args : List Arg} {v : Option (List UInt8) × List Arg}
    (h : argStr args = some v) : v.2 <:+ args := by
  match args, h with
  | .str s :: rest, h =>
    obtain rfl := Option.some.inj h
    exact List.suffix_cons ..

/-- What a directive can be: one character, a string with its NUL, the text of a number, or
nothing. Some of the arguments are left. -/
inductive Directed (offset : Nat) (args : List Arg) : (Stores × Nat) × List Arg → Prop
  | char (c : UInt8) {rest : List Arg} (h : rest <:+ args) :
      Directed offset args (([(offset, c)], 1), rest)
  | string (s : List UInt8) {rest : List Arg} (h : rest <:+ args) :
      Directed offset args ((Printf.strcpy offset s, s.length), rest)
  | number (s : List UInt8) {rest : List Arg} (h : rest <:+ args) :
      Directed offset args (Printf.number offset s, rest)
  | unknown : Directed offset args (([], 0), args)

theorem directive_cases {offset : Nat} {ch : UInt8} {args : List Arg}
    {r : (Stores × Nat) × List Arg} (h : Printf.directive offset ch args = some r) :
    Directed offset args r := by
  unfold Printf.directive at h
  split_ifs at h
  · obtain rfl := Option.some.inj h
    exact .char 37 (List.suffix_refl args)
  · obtain ⟨v, hv, rfl⟩ := Option.map_eq_some_iff.mp h
    exact .char _ (argWord_rest hv)
  · obtain ⟨v, hv, rfl⟩ := Option.map_eq_some_iff.mp h
    exact .string _ (argStr_rest hv)
  · obtain ⟨v, hv, rfl⟩ := Option.map_eq_some_iff.mp h
    exact .number _ (argWord_rest hv)
  · obtain ⟨v, hv, rfl⟩ := Option.map_eq_some_iff.mp h
    exact .number _ (argWord_rest hv)
  · obtain ⟨v, hv, rfl⟩ := Option.map_eq_some_iff.mp h
    exact .number _ (argWord_rest hv)
  · obtain rfl := Option.some.inj h
    exact .unknown

theorem Directed.within {offset : Nat} {args : List Arg} {r : (Stores × Nat) × List Arg}
    (h : Directed offset args r) : ∀ e ∈ r.1.1, e.1 ≤ offset + r.1.2 := by
  intro e he
  cases h with
  | char c _ =>
    rw [List.mem_singleton.mp he]
    exact Nat.le_succ offset
  | string s _ =>
    have := mem_memcpy he
    rw [List.length_append, List.length_singleton] at this
    exact Nat.le_of_lt_succ this
  | number s _ => exact Nat.le_of_lt (mem_memcpy he)
  | unknown => exact absurd he List.not_mem_nil

theorem Directed.rest {offset : Nat} {args : List Arg} {r : (Stores × Nat) × List Arg}
    (h : Directed offset args r) : r.2 <:+ args := by
  cases h with
  | char c h => exact h
  | string s h => exact h
  | number s h => exact h
  | unknown => exact List.suffix_refl args

theorem emit_within {offset : Nat} {format : List UInt8} {args : List Arg}
    {r : (Stores × Nat) × List Arg} (h : emit offset format args = some r) :
    offset ≤ r.1.2 ∧ ∀ e ∈ r.1.1, e.1 ≤ r.1.2 := by
  induction offset, format, args using emit.induct generalizing r with
  | case1 offset args =>
    obtain rfl := Option.some.inj h
    exact ⟨Nat.le_refl offset, nofun⟩
  | case2 offset args => cases h
  | case3 offset args ch format ih =>
    rw [emit_directive] at h
    obtain ⟨t, ht, h⟩ := Option.bind_eq_some_iff.mp h
    obtain ⟨u, hu, rfl⟩ := Option.map_eq_some_iff.mp h
    obtain ⟨hle, hin⟩ := ih t hu
    refine ⟨(Nat.le_add_right _ _).trans hle, fun e he => ?_⟩
    cases List.mem_append.mp he with
    | inl he => exact ((directive_cases ht).within e he).trans hle
    | inr he => exact hin e he
  | case4 offset ch format args hch ih =>
    rw [emit_char hch] at h
    obtain ⟨u, hu, rfl⟩ := Option.map_eq_some_iff.mp h
    obtain ⟨hle, hin⟩ := ih hu
    refine ⟨(Nat.le_succ offset).trans hle, fun e he => ?_⟩
    cases List.mem_cons.mp he with
    | inl heq =>
      obtain rfl := heq
      exact (Nat.le_succ offset).trans hle
    | inr he => exact hin e he

variable {fuel buffer bufTemp n : Nat} {s : State}

theorem loop_char (rounds : Nat) (hnul : s.m s.format ≠ 0) (hpercent : s.m s.format ≠ 37) :
    loop fuel buffer bufTemp (rounds + 1) s = loop fuel buffer bufTemp rounds
      ⟨store8 s.m (buffer + s.offset) (s.m s.format), s.format + 1, s.vlist, add32 s.offset 1,
        s.reads ++ [s.format]⟩ := by
  rw [loop]
  simp only [if_neg hnul, if_neg hpercent]

theorem loop_directive (rounds : Nat) (h : s.m s.format = 37) :
    loop fuel buffer bufTemp (rounds + 1) s =
      (directive fuel buffer bufTemp s.m s.offset (s.m (s.format + 1)) s.vlist).bind fun r =>
        loop fuel buffer bufTemp rounds
          ⟨r.1.1, s.format + 2, r.2, r.1.2, s.reads ++ [s.format, s.format + 1]⟩ := by
  have hnul : ¬ (37 : UInt8) = 0 := by decide
  rw [loop]
  simp only [h, if_neg hnul, if_true, List.append_assoc]
  rfl

theorem loop_end (rounds : Nat) (h : s.m s.format = 0) :
    loop fuel buffer bufTemp (rounds + 1) s =
      some ⟨store8 s.m (buffer + s.offset) 0, s.reads ++ [s.format], toInt s.offset⟩ := by
  rw [loop]
  simp only [h, if_true]

/-- Stores into the buffer, and `buf_temp`. -/
theorem frame_areas {m m' : Mem} {stores : Stores} (hwithin : ∀ e ∈ stores, e.1 ≤ n)
    (h : Frame [(bufTemp, BUFSIZ)] (perform buffer m stores) m') :
    Frame (areas buffer bufTemp n) m m' := by
  intro y hy
  simp only [areas, outside_cons, outside_nil, and_true] at hy
  refine (h y ?_).trans (perform_outside m fun e he => ?_)
  · rw [outside_single]
    exact hy.2
  · have := hwithin e he
    omega

theorem holds_frame {as : List (Nat × Nat)} {m m' : Mem} {vlist : List UInt32} {args : List Arg}
    (h : List.Forall₂ (Holds as m) vlist args) (hm : Frame as m m') :
    List.Forall₂ (Holds as m') vlist args := h.imp fun _ _ hw => hw.frame hm

/-- What the loop has done when it has read `len` bytes of the format: at most as many rounds, the
stores, and the arguments and the part of the format that are left. -/
structure Scanned (fuel buffer bufTemp n : Nat) (s : State) (r : (Stores × Nat) × List Arg)
    (len : Nat) (tail : List UInt8) (k : Nat) (m : Mem) (vlist : List UInt32) : Prop where
  rounds : k ≤ len
  run : ∀ rounds, loop fuel buffer bufTemp (rounds + k) s = loop fuel buffer bufTemp rounds
    ⟨m, s.format + len, vlist, r.1.2, s.reads ++ List.range' s.format len⟩
  mem : Frame [(bufTemp, BUFSIZ)] (perform buffer s.m r.1.1) m
  args : List.Forall₂ (Holds (areas buffer bufTemp n) m) vlist r.2
  rest : Str m (s.format + len) tail

/-- One round that reads `j` bytes, in front of others. -/
theorem Scanned.cons {s₁ : State} {stores : Stores} {r : (Stores × Nat) × List Arg}
    {len j k : Nat} {tail : List UInt8} {m : Mem} {vlist : List UInt32}
    (h : Scanned fuel buffer bufTemp n s₁ r len tail k m vlist) (hj : 0 < j)
    (hround : ∀ rounds,
      loop fuel buffer bufTemp (rounds + 1) s = loop fuel buffer bufTemp rounds s₁)
    (hformat : s₁.format = s.format + j) (hreads : s₁.reads = s.reads ++ List.range' s.format j)
    (hmem : Frame [(bufTemp, BUFSIZ)] (perform buffer s.m stores) s₁.m) :
    Scanned fuel buffer bufTemp n s ((stores ++ r.1.1, r.1.2), r.2) (j + len) tail (k + 1) m
      vlist := by
  have hend : s₁.format + len = s.format + (j + len) := by rw [hformat, Nat.add_assoc]
  refine ⟨?_, fun rounds => ?_, ?_, h.args, hend ▸ h.rest⟩
  · have := h.rounds
    omega
  · refine (hround (rounds + k)).trans ((h.run rounds).trans ?_)
    have hall : s₁.reads ++ List.range' s₁.format len =
        s.reads ++ List.range' s.format (j + len) := by
      rw [hreads, hformat, List.append_assoc, List.range'_append_1]
    rw [hend, hall]
  · rw [perform_append]
    exact (perform_congr buffer r.1.1 hmem).trans h.mem

theorem loop_emit (fuel : Nat) (hroom : Room buffer bufTemp n) {offset : Nat}
    {format : List UInt8} (tail : List UInt8) {args : List Arg} {s : State}
    {r : (Stores × Nat) × List Arg}
    (h : emit offset format args = some r) (hn : r.1.2 ≤ n) (hoffset : s.offset = offset)
    (hstr : Str s.m s.format (format ++ tail))
    (happ : ByteMemory.Apart (areas buffer bufTemp n) s.format ((format ++ tail).length + 1))
    (hargs : List.Forall₂ (Holds (areas buffer bufTemp n) s.m) s.vlist args)
    (hwide : ∀ a ∈ args, a.width < fuel) :
    ∃ k m vlist, Scanned fuel buffer bufTemp n s r format.length tail k m vlist := by
  induction offset, format, args using emit.induct generalizing s r with
  | case1 offset args =>
    obtain rfl := Option.some.inj h
    refine ⟨0, s.m, s.vlist, Nat.le_refl 0, fun rounds => ?_, Frame.refl _ _, hargs, hstr⟩
    rw [List.length_nil, List.range'_zero, List.append_nil, ← hoffset]
    rfl
  | case2 offset args => cases h
  | case3 offset args ch format ih =>
    rw [emit_directive] at h
    obtain ⟨t, ht, h⟩ := Option.bind_eq_some_iff.mp h
    obtain ⟨u, hu, rfl⟩ := Option.map_eq_some_iff.mp h
    obtain ⟨hpercent, -, hch, hnul, hstr⟩ := hstr
    have hle := (emit_within hu).1
    have hdirected := directive_cases ht
    obtain ⟨m₁, ws, hdir, hmem, hws⟩ := directive_run hroom hargs hwide ht (hle.trans hn)
    have hframe := frame_areas (fun e he => (hdirected.within e he).trans (hle.trans hn)) hmem
    let s₁ : State :=
      ⟨m₁, s.format + 2, ws, offset + t.1.2, s.reads ++ [s.format, s.format + 1]⟩
    have hround : ∀ rounds,
        loop fuel buffer bufTemp (rounds + 1) s = loop fuel buffer bufTemp rounds s₁ := by
      intro rounds
      rw [loop_directive rounds hpercent, hch, hoffset, hdir]
      rfl
    have hlen : (format ++ tail).length + 1 + 2 = (37 :: ch :: format ++ tail).length + 1 := rfl
    have happ₁ := happ.sub (Nat.le_add_right s.format 2) (k := (format ++ tail).length + 1)
      (by omega)
    obtain ⟨k, m, vlist, hscan⟩ := ih t (s := s₁) hu hn rfl (hframe.str hstr happ₁) happ₁
      (holds_frame hws hframe) fun a ha => hwide a (hdirected.rest.subset ha)
    refine ⟨k + 1, m, vlist, ?_⟩
    have hscan' := hscan.cons (j := 2) (by decide) hround rfl rfl hmem
    rwa [Nat.add_comm 2] at hscan'
  | case4 offset ch format args hch ih =>
    rw [emit_char hch] at h
    obtain ⟨u, hu, rfl⟩ := Option.map_eq_some_iff.mp h
    obtain ⟨hc, hnul, hstr⟩ := hstr
    obtain rfl := hc
    have hle : s.offset + 1 ≤ n := hoffset ▸ (emit_within hu).1.trans hn
    have hmem : Frame [(bufTemp, BUFSIZ)] (perform buffer s.m [(offset, s.m s.format)])
        (store8 s.m (buffer + s.offset) (s.m s.format)) := hoffset ▸ Frame.refl _ _
    have hone : ∀ e ∈ [(offset, s.m s.format)], e.1 ≤ n := by
      intro e he
      rw [List.mem_singleton.mp he, ← hoffset]
      exact Nat.le_of_succ_le hle
    have hframe := frame_areas hone hmem
    let s₁ : State := ⟨store8 s.m (buffer + s.offset) (s.m s.format), s.format + 1, s.vlist,
      add32 s.offset 1, s.reads ++ [s.format]⟩
    have hlen : (format ++ tail).length + 1 + 1 = (s.m s.format :: format ++ tail).length + 1 := rfl
    have happ₁ := happ.sub (Nat.le_add_right s.format 1) (k := (format ++ tail).length + 1)
      (by omega)
    have hoffset₁ : s₁.offset = offset + 1 := (hroom.offset_add hle).trans (by rw [hoffset])
    obtain ⟨k, m, vlist, hscan⟩ := ih (s := s₁) hu hn hoffset₁ (hframe.str hstr happ₁) happ₁
      (holds_frame hargs hframe) hwide
    refine ⟨k + 1, m, vlist, ?_⟩
    have hscan' := hscan.cons (j := 1) (by decide) (fun rounds => loop_char rounds hnul hch) rfl rfl
      hmem
    rwa [Nat.add_comm 1] at hscan'

/-- A format and its arguments are passed, and a buffer for `n` characters and a NUL. The buffer
and `buf_temp` are apart from each other, from the format and from the strings. -/
structure Passed (buffer bufTemp n : Nat) (m : Mem) (format : Nat) (str : List UInt8)
    (vlist : List UInt32) (args : List Arg) : Prop where
  room : Room buffer bufTemp n
  string : Str m format str
  apart : ByteMemory.Apart (areas buffer bufTemp n) format (str.length + 1)
  args : List.Forall₂ (Holds (areas buffer bufTemp n) m) vlist args

theorem width_le {a : Arg} {args : List Arg} (h : a ∈ args) : a.width ≤ widths args := by
  induction args with
  | nil => exact absurd h List.not_mem_nil
  | cons b args ih =>
    rw [widths_cons]
    cases List.mem_cons.mp h with
    | inl heq =>
      obtain rfl := heq
      exact Nat.le_add_right ..
    | inr h => exact (ih h).trans (Nat.le_add_left ..)

/-- Fuel for every copy and for every round. -/
def enoughFuel (str : List UInt8) (args : List Arg) : Nat := str.length + widths args + 2

theorem width_lt {str : List UInt8} {args : List Arg} (h : enoughFuel str args ≤ fuel) :
    ∀ a ∈ args, a.width < fuel := by
  intro a ha
  have := width_le ha
  unfold enoughFuel at h
  omega

section
variable {m : Mem} {format : Nat} {str : List UInt8} {args : List Arg} {vlist : List UInt32}

/-- The call on memory leaves what the list formatter stores, beside `buf_temp`, and has read the
format once from its first byte to its NUL. -/
theorem vsprintf_run (h : Passed buffer bufTemp n m format str vlist args) {stores : Stores}
    (hprintf : Printf.vsprintf str args = some (stores, n)) (hfuel : enoughFuel str args ≤ fuel) :
    ∃ m', vsprintf fuel buffer bufTemp m format vlist =
        some ⟨m', List.range' format (str.length + 1), toInt n⟩ ∧
      Frame [(bufTemp, BUFSIZ)] (perform buffer m stores) m' := by
  rw [Printf.vsprintf, formatFrom_emit] at hprintf
  obtain ⟨r, hr, heq⟩ := Option.map_eq_some_iff.mp hprintf
  obtain ⟨rfl, rfl⟩ := Prod.mk.inj heq
  have hnil : str = str ++ [] := (List.append_nil str).symm
  obtain ⟨k, m₁, ws, hscan⟩ := loop_emit fuel h.room (s := ⟨m, format, vlist, 0, []⟩) [] hr
    (Nat.le_refl _) rfl (hnil ▸ h.string) (hnil ▸ h.apart) h.args (width_lt hfuel)
  have hk := hscan.rounds
  have hrounds : fuel = fuel - 1 - k + 1 + k := by
    unfold enoughFuel at hfuel
    omega
  have hend : m₁ (format + str.length) = 0 := hscan.rest
  refine ⟨store8 m₁ (buffer + r.1.2) 0, ?_, ?_⟩
  · have hrun : vsprintf fuel buffer bufTemp m format vlist =
        loop fuel buffer bufTemp (fuel - 1 - k + 1 + k) ⟨m, format, vlist, 0, []⟩ := by
      rw [← hrounds]
      rfl
    rw [hrun, hscan.run, loop_end _ hend, List.nil_append, ← List.range'_1_concat]
  · rw [perform_append]
    exact perform_congr buffer [(r.1.2, 0)] hscan.mem

end

/-- How many percent signs the format ends in. -/
def percents (format : List UInt8) : Nat := (format.rtakeWhile (· == 37)).length

/-- The format without a percent sign that begins a directive at its end. -/
def complete (format : List UInt8) : List UInt8 :=
  if (kinds format).isSome then format else format.dropLast

/-- The arguments begin with one of the right kind for each complete directive. -/
def Enough (format : List UInt8) (args : List Arg) : Prop :=
  ∃ ks, kinds (complete format) = some ks ∧ ks <+: args.map Arg.kind

/-- How many characters the directives write. -/
def outputLength (format : List UInt8) (args : List Arg) : Nat :=
  ((emit 0 (complete format) args).map fun r => r.1.2).getD 0

theorem percents_cons (c : UInt8) (format : List UInt8) : percents (c :: format) =
    if percents format = format.length then format.length + (if c = 37 then 1 else 0)
    else percents format := by
  simp only [percents, List.rtakeWhile, List.reverse_cons, List.length_reverse,
    List.takeWhile_append]
  split
  · rename_i hall
    by_cases hc : c = 37
    · simp [hc]
    · simp [hc]
  · rfl

theorem percents_le (format : List UInt8) : percents format ≤ format.length := by
  simp only [percents, List.rtakeWhile, List.length_reverse]
  exact (List.takeWhile_prefix _).length_le.trans_eq format.length_reverse

theorem percents_cons_ne {c : UInt8} (h : c ≠ 37) (format : List UInt8) :
    percents (c :: format) = percents format := by
  rw [percents_cons, if_neg h, Nat.add_zero]
  split
  · exact Eq.symm ‹_›
  · rfl

/-- A directive in front does not change the parity. -/
theorem percents_directive (ch : UInt8) (format : List UInt8) :
    percents (37 :: ch :: format) % 2 = percents format % 2 := by
  have hle := percents_le format
  by_cases hch : ch = 37
  · rw [hch, percents_cons, percents_cons, if_pos rfl, List.length_cons]
    split_ifs <;> omega
  · rw [percents_cons, percents_cons_ne hch, List.length_cons, if_neg (by omega)]

theorem kinds_directive (ch : UInt8) (format : List UInt8) :
    kinds (37 :: ch :: format) = (kinds format).map fun ks => directiveKinds ch ++ ks := rfl

theorem kinds_char {ch : UInt8} (h : ch ≠ 37) (format : List UInt8) :
    kinds (ch :: format) = kinds format := by
  rw [kinds.eq_def]
  exact if_neg h

/-- Only an odd number of percent signs at its end cuts a directive of the format off. -/
theorem kinds_isSome_iff (format : List UInt8) :
    (kinds format).isSome ↔ percents format % 2 = 0 := by
  induction format using kinds.induct with
  | case1 => simp [percents]
  | case2 => exact iff_of_false Bool.false_ne_true (by decide)
  | case3 ch format ih =>
    rw [kinds_directive, Option.isSome_map, percents_directive]
    exact ih
  | case4 ch format hch ih =>
    rw [kinds_char hch, percents_cons_ne hch]
    exact ih

/-- What is cut off is a lone percent sign. -/
theorem kinds_none {format : List UInt8} (h : kinds format = none) :
    ∃ front ks, format = front ++ [37] ∧ kinds front = some ks := by
  induction format using kinds.induct with
  | case1 => cases h
  | case2 => exact ⟨[], [], rfl, rfl⟩
  | case3 ch format ih =>
    rw [kinds_directive] at h
    obtain ⟨front, ks, rfl, hks⟩ := ih (Option.map_eq_none_iff.mp h)
    exact ⟨37 :: ch :: front, _, rfl, by rw [kinds_directive, hks, Option.map_some]⟩
  | case4 ch format hch ih =>
    rw [kinds_char hch] at h
    obtain ⟨front, ks, rfl, hks⟩ := ih h
    exact ⟨ch :: front, ks, rfl, by rw [kinds_char hch, hks]⟩

theorem complete_some {format : List UInt8} (h : (kinds format).isSome) :
    complete format = format := if_pos h

/-- The format is complete, or a lone percent sign stands behind its complete part. -/
theorem complete_none {format : List UInt8} (h : kinds format = none) :
    format = complete format ++ [37] := by
  obtain ⟨front, ks, rfl, -⟩ := kinds_none h
  rw [complete, if_neg (by rw [h]; exact Bool.false_ne_true), List.dropLast_concat]

/-- With enough arguments the directives find theirs. -/
theorem emit_total (offset : Nat) {format : List UInt8} {args : List Arg} {ks : List Kind}
    (h : kinds format = some ks) (henough : ks <+: args.map Arg.kind) :
    ∃ r, emit offset format args = some r := by
  induction offset, format, args using emit.induct generalizing ks with
  | case1 offset args => exact ⟨_, rfl⟩
  | case2 offset args => cases h
  | case3 offset args ch format ih =>
    rw [kinds_directive] at h
    obtain ⟨ks', hks, rfl⟩ := Option.map_eq_some_iff.mp h
    obtain ⟨extra, hextra⟩ := henough
    rw [List.append_assoc] at hextra
    obtain ⟨r, hr, hrest, -⟩ := directive_step offset hextra.symm
    obtain ⟨t, ht⟩ := ih r hks (hrest ▸ List.prefix_append ks' extra)
    exact ⟨_, by rw [emit_directive, hr, Option.bind_some, ht, Option.map_some]⟩
  | case4 offset ch format args hch ih =>
    rw [kinds_char hch] at h
    obtain ⟨t, ht⟩ := ih h henough
    exact ⟨_, by rw [emit_char hch, ht, Option.map_some]⟩

theorem Enough.emit {format : List UInt8} {args : List Arg} (h : Enough format args) :
    ∃ stores rest, emit 0 (complete format) args =
      some ((stores, outputLength format args), rest) := by
  obtain ⟨ks, hks, hprefix⟩ := h
  obtain ⟨r, hr⟩ := emit_total 0 hks hprefix
  refine ⟨r.1.1, r.2, ?_⟩
  rw [outputLength, hr]
  rfl

/-- What the loop has read it reports, the next byte of the format among it. -/
theorem loop_reads {rounds : Nat} {s : State} {r : Result}
    (h : loop fuel buffer bufTemp rounds s = some r) : s.reads ++ [s.format] ⊆ r.reads := by
  induction rounds generalizing s with
  | zero => cases h
  | succ rounds ih =>
    by_cases hnul : s.m s.format = 0
    · rw [loop_end rounds hnul] at h
      obtain rfl := Option.some.inj h
      exact List.Subset.refl _
    by_cases hpercent : s.m s.format = 37
    · rw [loop_directive rounds hpercent] at h
      obtain ⟨t, -, ht⟩ := Option.bind_eq_some_iff.mp h
      refine List.Subset.trans (fun a ha => ?_) (ih ht)
      simp only [List.mem_append, List.mem_cons, List.not_mem_nil, or_false] at ha ⊢
      tauto
    · rw [loop_char rounds hnul hpercent] at h
      exact List.Subset.trans (List.subset_append_left ..) (ih h)

/-- With enough fuel the call returns, and it has read no byte of the format behind its NUL. -/
def StopsAtNul (buffer bufTemp : Nat) (m : Mem) (format : Nat) (str : List UInt8)
    (vlist : List UInt32) : Prop :=
  ∃ least, ∀ fuel ≥ least, ∃ r, vsprintf fuel buffer bufTemp m format vlist = some r ∧
    ∀ a ∈ r.reads, a ≤ format + str.length

theorem directive_nul (fuel buffer bufTemp : Nat) (m : Mem) (offset : Nat) (vlist : List UInt32) :
    directive fuel buffer bufTemp m offset 0 vlist = some ((m, offset), vlist) := rfl

section
variable {m : Mem} {format : Nat} {str : List UInt8} {args : List Arg} {vlist : List UInt32}

theorem stops_of_even (heven : percents str % 2 = 0) (henough : Enough str args)
    (h : Passed buffer bufTemp (outputLength str args) m format str vlist args) :
    StopsAtNul buffer bufTemp m format str vlist := by
  obtain ⟨stores, rest, hemit⟩ := henough.emit
  rw [complete_some ((kinds_isSome_iff str).mpr heven)] at hemit
  have hprintf : Printf.vsprintf str args =
      some (stores ++ [(outputLength str args, 0)], outputLength str args) := by
    rw [Printf.vsprintf, formatFrom_emit, hemit, Option.map_some]
  refine ⟨enoughFuel str args, fun fuel hfuel => ?_⟩
  obtain ⟨m', hrun, -⟩ := vsprintf_run h hprintf hfuel
  refine ⟨_, hrun, fun a ha => ?_⟩
  have := (List.mem_range'_1.mp ha).2
  omega

/-- The NUL is taken for a directive, and the loop goes on behind it. -/
theorem not_stops_of_odd (hodd : percents str % 2 ≠ 0) (henough : Enough str args)
    (h : Passed buffer bufTemp (outputLength str args) m format str vlist args) :
    ¬ StopsAtNul buffer bufTemp m format str vlist := by
  rintro ⟨least, hstops⟩
  have hnone : kinds str = none := by
    rw [← Option.not_isSome_iff_eq_none, kinds_isSome_iff]
    exact hodd
  obtain ⟨stores, rest, hemit⟩ := henough.emit
  have hlone := complete_none hnone
  have hlen : str.length = (complete str).length + 1 := by
    conv_lhs => rw [hlone]
    rw [List.length_append, List.length_singleton]
  let fuel := least + enoughFuel str args
  obtain ⟨k, m₁, ws, hscan⟩ := loop_emit fuel h.room (s := ⟨m, format, vlist, 0, []⟩) [37] hemit
    (Nat.le_refl _) rfl (hlone ▸ h.string) (hlone ▸ h.apart) h.args
    (width_lt (Nat.le_add_left (enoughFuel str args) least))
  have hk := hscan.rounds
  obtain ⟨hpercent, -, hnul⟩ := hscan.rest
  obtain ⟨r, hr, hreads⟩ := hstops fuel (Nat.le_add_right ..)
  have hrounds : fuel = fuel - 1 - k + 1 + k := by
    simp only [fuel, enoughFuel]
    omega
  have hrun : loop fuel buffer bufTemp (fuel - 1 - k + 1 + k) ⟨m, format, vlist, 0, []⟩ =
      some r := by
    rw [← hrounds]
    exact hr
  rw [hscan.run, loop_directive _ hpercent, hnul, directive_nul, Option.bind_some] at hrun
  have hnext := hreads _ (loop_reads hrun (List.mem_append_right _ (List.mem_singleton_self _)))
  simp only at hnext
  omega

/-- The call returns without reading its format beyond the NUL exactly when the format ends in an
even number of percent signs. -/
theorem stopsAtNul_iff (henough : Enough str args)
    (h : Passed buffer bufTemp (outputLength str args) m format str vlist args) :
    StopsAtNul buffer bufTemp m format str vlist ↔ percents str % 2 = 0 := by
  constructor
  · intro hstops
    by_contra hodd
    exact not_stops_of_odd hodd henough h hstops
  · exact fun heven => stops_of_even heven henough h

end

/-- A format at `0x1000`, and the string `b` at `0x1010`. -/
def formatMem (str : List UInt8) : Mem :=
  putString (putString ⟨fun _ => 0⟩ 0x1000 str) 0x1010 [98]

theorem percentString_passed : Passed 0x2000 0x3000
    (outputLength [37, 115, 37, 37] [.str (some [98])]) (formatMem [37, 115, 37, 37]) 0x1000
    [37, 115, 37, 37] [0x1010] [.str (some [98])] := by
  have hlength : outputLength [37, 115, 37, 37] [.str (some [98])] = 2 := rfl
  rw [hlength]
  refine ⟨⟨by decide, Or.inl (by decide)⟩, by decide +kernel, by decide, ?_⟩
  exact .cons ⟨by decide, by decide +kernel, by decide, by decide⟩ .nil

theorem stopsAtNul_iff_string :
    StopsAtNul 0x2000 0x3000 (formatMem [37, 115, 37, 37]) 0x1000 [37, 115, 37, 37] [0x1010] ↔
      percents [37, 115, 37, 37] % 2 = 0 :=
  stopsAtNul_iff ⟨[.str], rfl, [], rfl⟩ percentString_passed

/-- A lone percent sign. -/
theorem stopsAtNul_fails : Enough [37] [] ∧
    Passed 0x2000 0x3000 (outputLength [37] []) (formatMem [37]) 0x1000 [37] [] [] ∧
    ¬ StopsAtNul 0x2000 0x3000 (formatMem [37]) 0x1000 [37] [] := by
  have hlength : outputLength [37] [] = 0 := rfl
  have henough : Enough [37] [] := ⟨[], rfl, [], rfl⟩
  have hpassed :
      Passed 0x2000 0x3000 (outputLength [37] []) (formatMem [37]) 0x1000 [37] [] [] := by
    rw [hlength]
    exact ⟨⟨by decide, Or.inl (by decide)⟩, by decide +kernel, by decide, .nil⟩
  exact ⟨henough, hpassed, not_stops_of_odd (by decide) henough hpassed⟩

end Foos.Vsprintf
