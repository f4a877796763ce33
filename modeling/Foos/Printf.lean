import Foos.Word

/-! `vsprintf` of `libc/printf.c` and the number conversions of `libc/conv.c`: what is stored in
the buffer, and how far from its beginning. -/
namespace Foos.Printf
open Word32

def BUFSIZ : Nat := 512

/-- The bytes of a string literal, without its NUL. -/
def chars (s : String) : List UInt8 := s.toList.map fun c => UInt8.ofNat c.toNat

/- Conversions of numbers to text. -/

/-- `do { *x=n%10+'0'; x++; } while(n/=10);` -/
def decimals (n : Int) : List UInt8 :=
  UInt8.ofNat (ofInt (n.tmod 10 + 48)) ::
    if n.tdiv 10 = 0 then [] else decimals (n.tdiv 10)
termination_by n.natAbs
decreasing_by
  rw [Int.natAbs_tdiv]
  rename_i h
  have hne : n.natAbs ≠ 0 := fun h0 => h (by rw [Int.natAbs_eq_zero.mp h0]; rfl)
  exact Nat.div_lt_self (Nat.pos_of_ne_zero hne) (by decide)

/-- `n=-n` wraps for the least `int`. -/
def itoa (n : Int) : List UInt8 :=
  let m := if n < 0 then toInt (ofInt (-n)) else n
  (decimals m ++ if n < 0 then chars "-" else []).reverse

def utoa (n : UInt32) : List UInt8 := (decimals n.toNat).reverse

/-- `while(n!=0){ n >>= 4; ret++; }` -/
def hexCount (n : Nat) : Nat := if n = 0 then 0 else hexCount (n >>> 4) + 1
termination_by n
decreasing_by
  rw [Nat.shiftRight_eq_div_pow]
  exact Nat.div_lt_self (Nat.pos_of_ne_zero ‹_›) (by decide)

def numHexDigits (n : Nat) : Nat := if n = 0 then 1 else hexCount n

/-- `for(--len; len>=0; n>>= 4, --len)`, in front of the digits that are there. -/
def hexFill : Nat → Nat → List UInt8 → List UInt8
  | 0, _, s => s
  | len+1, n, s => hexFill len (n >>> 4) ((chars "0123456789ABCDEF").getD (n &&& 0xF) 0 :: s)

/-- An odd number of digits gets a `0` in front. -/
def itoh (n : UInt32) : List UInt8 :=
  let len := numHexDigits n.toNat
  (if len &&& 1 = 1 then chars "0" else []) ++ hexFill len n.toNat []

theorem decimals_length {k : Nat} {n : Int} (h : n.natAbs < 10 ^ k) (hk : 0 < k) :
    (decimals n).length ≤ k := by
  induction k generalizing n with
  | zero => omega
  | succ k ih =>
    rw [decimals, List.length_cons]
    split
    · simp
    · rename_i hne
      have hdiv : (n.tdiv 10).natAbs < 10 ^ k := by
        rw [Int.natAbs_tdiv]
        exact Nat.div_lt_of_lt_mul (by rw [Nat.mul_comm]; exact h)
      have hpos : 0 < k := by
        cases Nat.eq_zero_or_pos k with
        | inl heq =>
          obtain rfl := heq
          exact absurd (Int.natAbs_eq_zero.mp (Nat.lt_one_iff.mp hdiv)) hne
        | inr hpos => exact hpos
      exact Nat.succ_le_succ (ih hdiv hpos)

theorem toInt_natAbs {a : Nat} (h : a < 4294967296) : (toInt a).natAbs ≤ 2147483648 := by
  unfold toInt
  split <;> omega

theorem ofInt_lt (z : Int) : ofInt z < 4294967296 := by
  unfold ofInt
  omega

theorem itoa_length {n : Int} (h : n.natAbs ≤ 2147483648) : (itoa n).length ≤ 11 := by
  have hm : (if n < 0 then toInt (ofInt (-n)) else n).natAbs < 10 ^ 10 := by
    split
    · exact Nat.lt_of_le_of_lt (toInt_natAbs (ofInt_lt _)) (by decide)
    · exact Nat.lt_of_le_of_lt h (by decide)
  have hdec := decimals_length hm (by decide)
  have hsign : (if n < 0 then chars "-" else []).length ≤ 1 := by
    split
    · exact Nat.le_refl 1
    · exact Nat.zero_le 1
  simp only [itoa, List.length_reverse, List.length_append]
  omega

theorem utoa_length (n : UInt32) : (utoa n).length ≤ 11 := by
  have h : (n.toNat : Int).natAbs < 10 ^ 11 := by
    have := n.toNat_lt
    simp only [Int.natAbs_natCast]
    omega
  rw [utoa, List.length_reverse]
  exact decimals_length h (by decide)

theorem hexCount_le {k n : Nat} (h : n < 16 ^ k) : hexCount n ≤ k := by
  induction k generalizing n with
  | zero =>
    rw [Nat.lt_one_iff.mp h, hexCount]
    exact Nat.le_refl 0
  | succ k ih =>
    rw [hexCount]
    split
    · exact Nat.zero_le _
    · refine Nat.succ_le_succ (ih ?_)
      rw [Nat.shiftRight_eq_div_pow]
      exact Nat.div_lt_of_lt_mul (by rw [Nat.mul_comm]; exact h)

theorem hexFill_length (len n : Nat) (s : List UInt8) :
    (hexFill len n s).length = len + s.length := by
  induction len generalizing n s with
  | zero => exact (Nat.zero_add _).symm
  | succ len ih =>
    rw [hexFill, ih, List.length_cons]
    omega

theorem itoh_length (n : UInt32) : (itoh n).length ≤ 11 := by
  have hcount := hexCount_le (k := 8) (n := n.toNat) n.toNat_lt
  have hlen : numHexDigits n.toNat ≤ 8 := by
    unfold numHexDigits
    split
    · decide
    · exact hcount
  have hpad : (if numHexDigits n.toNat &&& 1 = 1 then chars "0" else []).length ≤ 1 := by
    split
    · exact Nat.le_refl 1
    · exact Nat.zero_le 1
  simp only [itoh, List.length_append, hexFill_length, List.length_nil]
  omega

/- The formatter. -/

/-- What `va_arg` finds: a pointer, NULL or to a string, or a word. -/
inductive Arg where
  | str (s : Option (List UInt8))
  | word (n : UInt32)

/-- The bytes stored in the buffer, each with its offset. -/
abbrev Stores := List (Nat × UInt8)

def memcpy (offset : Nat) : List UInt8 → Stores
  | [] => []
  | c :: s => (offset, c) :: memcpy (offset + 1) s

def strcpy (offset : Nat) (s : List UInt8) : Stores := memcpy offset (s ++ [0])

/-- `va_arg(vlist,char*)` -/
def argStr : List Arg → Option (Option (List UInt8) × List Arg)
  | .str s :: args => some (s, args)
  | _ => none

/-- `va_arg(vlist,int)` -/
def argWord : List Arg → Option (UInt32 × List Arg)
  | .word n :: args => some (n, args)
  | _ => none

/-- A number goes through `buf_temp`. -/
def number (offset : Nat) (bufTemp : List UInt8) : Stores × Nat :=
  (memcpy offset bufTemp, bufTemp.length)

/-- The directive `ch` behind a `%`: its stores, the growth of `offset` and the arguments that are
left. -/
def directive (offset : Nat) (ch : UInt8) (args : List Arg) :
    Option ((Stores × Nat) × List Arg) :=
  if ch = 37 then some (([(offset, 37)], 1), args)
  else if ch = 99 then (argWord args).map fun r => (([(offset, r.1.toUInt8)], 1), r.2)
  else if ch = 115 then (argStr args).map fun r =>
    let s := r.1.getD (chars "(null)")
    ((strcpy offset s, s.length), r.2)
  else if ch = 100 then (argWord args).map fun r => (number offset (itoa (toInt r.1.toNat)), r.2)
  else if ch = 117 then (argWord args).map fun r => (number offset (utoa r.1), r.2)
  else if ch = 120 then (argWord args).map fun r => (number offset (itoh r.1), r.2)
  else some (([], 0), args)

/-- The loop of `vsprintf` from `offset` on: the stores and the offset in the end. A `%` at the
end of the format and an argument of the wrong type are undefined. -/
def formatFrom : Nat → List UInt8 → List Arg → Option (Stores × Nat)
  | offset, [], _ => some ([(offset, 0)], offset)
  | offset, ch :: format, args =>
    if ch = 37 then
      match format with
      | [] => none
      | ch :: format =>
        (directive offset ch args).bind fun r =>
          (formatFrom (offset + r.1.2) format r.2).map fun t => (r.1.1 ++ t.1, t.2)
    else (formatFrom (offset + 1) format args).map fun t => ((offset, ch) :: t.1, t.2)

def vsprintf (format : List UInt8) (args : List Arg) : Option (Stores × Nat) :=
  formatFrom 0 format args

/-- A call with a local buffer of `BUFSIZ` bytes. -/
structure Call where
  format : List UInt8
  args : List Arg

def printf (format : String) (args : List Arg) : Call := ⟨chars format, args⟩
def serialPrintf (format : String) (args : List Arg) : Call := ⟨chars format, args⟩

/-- Every byte is stored in the buffer. -/
def Call.Fits (c : Call) : Prop :=
  ∃ r, vsprintf c.format c.args = some r ∧ ∀ e ∈ r.1, e.1 < BUFSIZ

/- What a format asks of its arguments. -/

inductive Kind where
  | str
  | word
  deriving DecidableEq

@[simp] def Arg.kind : Arg → Kind
  | .str _ => .str
  | .word _ => .word

/-- What the directive `ch` takes from the argument list. -/
@[simp] def directiveKinds (ch : UInt8) : List Kind :=
  if ch = 37 then [] else if ch = 99 then [.word] else if ch = 115 then [.str]
  else if ch = 100 then [.word] else if ch = 117 then [.word] else if ch = 120 then [.word] else []

@[simp] def kinds : List UInt8 → Option (List Kind)
  | [] => some []
  | ch :: format =>
    if ch = 37 then
      match format with
      | [] => none
      | ch :: format => (kinds format).map fun ks => directiveKinds ch ++ ks
    else kinds format

/-- How many characters an argument may become. -/
@[simp] def Arg.width : Arg → Nat
  | .str s => (s.getD (chars "(null)")).length
  | .word _ => 11

def widths (args : List Arg) : Nat := (args.map Arg.width).sum

@[simp] theorem widths_nil : widths [] = 0 := rfl

@[simp] theorem widths_cons (a : Arg) (args : List Arg) :
    widths (a :: args) = a.width + widths args := by
  simp [widths]

theorem mem_memcpy {offset : Nat} {s : List UInt8} {e : Nat × UInt8} (h : e ∈ memcpy offset s) :
    e.1 < offset + s.length := by
  induction s generalizing offset with
  | nil => exact absurd h List.not_mem_nil
  | cons c s ih =>
    rw [List.length_cons]
    cases List.mem_cons.mp h with
    | inl heq =>
      obtain rfl := heq
      simp
    | inr h =>
      have := ih h
      omega

theorem argStr_run {args : List Arg} {ks : List Kind} (h : args.map Arg.kind = .str :: ks) :
    ∃ s rest, args = .str s :: rest ∧ rest.map Arg.kind = ks := by
  match args, h with
  | .str s :: rest, h => exact ⟨s, rest, rfl, (List.cons.inj h).2⟩

theorem argWord_run {args : List Arg} {ks : List Kind} (h : args.map Arg.kind = .word :: ks) :
    ∃ n rest, args = .word n :: rest ∧ rest.map Arg.kind = ks := by
  match args, h with
  | .word n :: rest, h => exact ⟨n, rest, rfl, (List.cons.inj h).2⟩

/-- The stores of a directive end at the new offset, which is not far when its argument is not
wide. -/
structure Step (offset : Nat) (args : List Arg) (r : (Stores × Nat) × List Arg) : Prop where
  within : ∀ e ∈ r.1.1, e.1 ≤ offset + r.1.2
  growth : r.1.2 + widths r.2 ≤ widths args + 1

theorem Step.number {offset : Nat} {s : List UInt8} {n : UInt32} {rest : List Arg}
    (h : s.length ≤ 11) : Step offset (.word n :: rest) (number offset s, rest) := by
  refine ⟨fun e he => Nat.le_of_lt (mem_memcpy he), ?_⟩
  simp only [Printf.number, widths_cons, Arg.width]
  omega

theorem directive_step (offset : Nat) {ch : UInt8} {args : List Arg} {ks : List Kind}
    (h : args.map Arg.kind = directiveKinds ch ++ ks) :
    ∃ r, directive offset ch args = some r ∧ r.2.map Arg.kind = ks ∧ Step offset args r := by
  unfold directiveKinds at h
  unfold directive
  split_ifs at h ⊢
  · refine ⟨_, rfl, h, fun e he => ?_, Nat.le_of_eq (Nat.add_comm ..)⟩
    rw [List.mem_singleton.mp he]
    exact Nat.le_succ offset
  · obtain ⟨n, rest, rfl, hks⟩ := argWord_run h
    refine ⟨_, rfl, hks, fun e he => ?_, ?_⟩
    · rw [List.mem_singleton.mp he]
      exact Nat.le_succ offset
    · simp only [widths_cons, Arg.width]
      omega
  · obtain ⟨s, rest, rfl, hks⟩ := argStr_run h
    refine ⟨_, rfl, hks, fun e he => ?_, ?_⟩
    · have := mem_memcpy he
      rw [List.length_append, List.length_singleton] at this
      simp only at this ⊢
      omega
    · simp only [widths_cons, Arg.width]
      omega
  · obtain ⟨n, rest, rfl, hks⟩ := argWord_run h
    exact ⟨_, rfl, hks, .number (itoa_length (toInt_natAbs n.toNat_lt))⟩
  · obtain ⟨n, rest, rfl, hks⟩ := argWord_run h
    exact ⟨_, rfl, hks, .number (utoa_length n)⟩
  · obtain ⟨n, rest, rfl, hks⟩ := argWord_run h
    exact ⟨_, rfl, hks, .number (itoh_length n)⟩
  · exact ⟨_, rfl, h, nofun, by simp⟩

/-- The last store is the NUL at the final offset. -/
structure Ends (r : Stores × Nat) : Prop where
  within : ∀ e ∈ r.1, e.1 ≤ r.2
  nul : (r.2, 0) ∈ r.1

theorem Ends.append {s : Stores} {r : Stores × Nat} (h : Ends r) (hs : ∀ e ∈ s, e.1 ≤ r.2) :
    Ends (s ++ r.1, r.2) :=
  ⟨fun e he => (List.mem_append.mp he).elim (hs e) (h.within e), List.mem_append_right s h.nul⟩

/-- The loop reaches the end of the format, at most as far as the widths of the arguments allow. -/
theorem formatFrom_total (offset : Nat) {format : List UInt8} {args : List Arg}
    (h : kinds format = some (args.map Arg.kind)) :
    ∃ r, formatFrom offset format args = some r ∧ Ends r ∧ offset ≤ r.2 ∧
      r.2 ≤ offset + format.length + widths args := by
  induction offset, format, args using formatFrom.induct with
  | case1 offset args =>
    refine ⟨_, rfl, ⟨fun e he => ?_, List.mem_singleton_self _⟩, Nat.le_refl _, by simp⟩
    rw [List.mem_singleton.mp he]
  | case2 offset args => exact absurd h nofun
  | case3 offset args ch format ih =>
    obtain ⟨ks, hks, heq⟩ := Option.map_eq_some_iff.mp h
    obtain ⟨r, hr, hrest, hstep⟩ := directive_step offset heq.symm
    obtain ⟨t, ht, hends, hle, hge⟩ := ih r (hrest ▸ hks)
    have hgrowth := hstep.growth
    refine ⟨(r.1.1 ++ t.1, t.2), ?_, hends.append fun e he => ?_, ?_, ?_⟩
    · simp [formatFrom, hr, ht]
    · exact (hstep.within e he).trans hle
    · simp only
      omega
    · simp only [List.length_cons]
      omega
  | case4 offset ch format args hch ih =>
    unfold kinds at h
    rw [if_neg hch] at h
    obtain ⟨t, ht, hends, hle, hge⟩ := ih h
    refine ⟨((offset, ch) :: t.1, t.2), ?_,
      hends.append (s := [(offset, ch)]) fun e he => ?_, ?_, ?_⟩
    · unfold formatFrom
      rw [if_neg hch, ht]
      rfl
    · rw [List.mem_singleton.mp he]
      exact (Nat.le_succ offset).trans hle
    · exact (Nat.le_succ offset).trans hle
    · simp only [List.length_cons]
      omega

theorem Call.fits_iff {c : Call} {r : Stores × Nat} (h : vsprintf c.format c.args = some r)
    (hends : Ends r) : c.Fits ↔ r.2 < BUFSIZ := by
  constructor
  · rintro ⟨r', hr', hfit⟩
    obtain rfl := Option.some.inj (h.symm.trans hr')
    exact hfit _ hends.nul
  · exact fun hlt => ⟨r, h, fun e he => Nat.lt_of_le_of_lt (hends.within e he) hlt⟩

/-- A call with arguments of the right kinds that are not wide together. -/
theorem Call.fits_of_widths {c : Call} (hk : kinds c.format = some (c.args.map Arg.kind))
    (hw : c.format.length + widths c.args < BUFSIZ) : c.Fits := by
  obtain ⟨r, hr, hends, -, hle⟩ := formatFrom_total 0 hk
  exact (c.fits_iff hr hends).mpr (by omega)

/-- A format of the usual length that takes arguments of the kinds `ks`. -/
@[simp] def Takes (format : String) (ks : List Kind) : Prop :=
  kinds (chars format) = some ks ∧ (chars format).length < 64

theorem printf_fits {format : String} {args : List Arg} (h : Takes format (args.map Arg.kind))
    (hw : widths args ≤ 400) : (printf format args).Fits := by
  refine Call.fits_of_widths h.1 ?_
  have hlen : (printf format args).format.length < 64 := h.2
  have hargs : widths (printf format args).args ≤ 400 := hw
  simp only [BUFSIZ]
  omega

theorem word_fits {format : String} (n : UInt32) (h : Takes format [.word]) :
    (printf format [.word n]).Fits :=
  printf_fits h (by simp)

theorem str_fits {format : String} {s : List UInt8} (h : Takes format [.str])
    (hs : s.length ≤ 400) : (printf format [.str (some s)]).Fits :=
  printf_fits h (by simpa using hs)

theorem formatFrom_literal (offset : Nat) {s : List UInt8} (h : 37 ∉ s) (args : List Arg) :
    ∃ t, formatFrom offset s args = some (t, offset + s.length) := by
  induction s generalizing offset with
  | nil => exact ⟨_, rfl⟩
  | cons c s ih =>
    have hc : ¬ c = 37 := fun heq => h (List.mem_cons.mpr (Or.inl heq.symm))
    obtain ⟨t, ht⟩ := ih (offset + 1) (List.not_mem_of_not_mem_cons h)
    refine ⟨(offset, c) :: t, ?_⟩
    unfold formatFrom
    rw [if_neg hc, ht, List.length_cons, Option.map_some]
    congr 2
    omega

theorem kinds_literal {s : List UInt8} (h : 37 ∉ s) : kinds s = some [] := by
  induction s with
  | nil => rfl
  | cons c s ih =>
    have hc : ¬ c = 37 := fun heq => h (List.mem_cons.mpr (Or.inl heq.symm))
    unfold kinds
    rw [if_neg hc, ih (List.not_mem_of_not_mem_cons h)]

/-- A string with a literal text behind it fits exactly when their lengths and the NUL do. -/
theorem fits_echo (lit : List UInt8) (hlit : 37 ∉ lit) (s : List UInt8) :
    (Call.mk (37 :: 115 :: lit) [.str (some s)]).Fits ↔ s.length + lit.length < BUFSIZ := by
  have hk : kinds (37 :: 115 :: lit) = some ([Arg.str (some s)].map Arg.kind) := by
    simp [kinds_literal hlit]
  obtain ⟨r, hr, hends, -⟩ := formatFrom_total 0 hk
  obtain ⟨t, ht⟩ := formatFrom_literal s.length hlit []
  have hrun : formatFrom 0 (37 :: 115 :: lit) [.str (some s)] =
      some (strcpy 0 s ++ t, s.length + lit.length) := by
    simp [formatFrom, directive, argStr, ht]
  have hend : r.2 = s.length + lit.length := by
    rw [← Option.some.inj (hrun.symm.trans hr)]
  rw [Call.fits_iff (c := ⟨_, _⟩) hr hends, hend]

end Foos.Printf
