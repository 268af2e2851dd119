import HieUnix.NumberText

/-!
# `printf`

`puts` and `printf` of `lib.c`. The format is a string by offset, the arguments are the words of
the stack above it, and what is printed is the list of bytes given to `putc`. A format pointer
that is followed is written down, so that a run says which bytes of the format it read.

`printf_iff` is the behaviour over all formats: `printf` does what it should for exactly the
formats that do not end inside a specifier.
-/

namespace HieUnix

open Function Numerals

/-! ## `puts` -/

/-- The loop of `puts`, over at most `fuel` more bytes: what is printed in the end. -/
def putsLoop (s : ℕ → Byte) : ℕ → ℕ → List Byte → Option (List Byte)
  | 0, _, _ => none
  | fuel + 1, index, out =>
    if s index ≠ 0 then putsLoop s fuel (index + 1) (out ++ [s index]) else some out

/-- `puts` after `out` was printed. `none` when no byte of the address space ends the string. -/
def puts (s : ℕ → Byte) (out : List Byte) : Option (List Byte) := putsLoop s (2 ^ 32) 0 out

/-- `puts` prints the string. -/
theorem IsString.puts_eq {s : ℕ → Byte} {t : List Byte} (hs : IsString s t)
    (ht : t.length < 2 ^ 32) (out : List Byte) : puts s out = some (out ++ t) := by
  have hloop : ∀ (rest : List Byte) (fuel n : ℕ) (out : List Byte), t.drop n = rest →
      n ≤ t.length → rest.length < fuel → putsLoop s fuel n out = some (out ++ rest) := by
    intro rest
    induction rest with
    | nil =>
      intro fuel n out hdrop hn hfuel
      obtain ⟨fuel, rfl⟩ := Nat.exists_eq_add_one.mpr hfuel
      rw [putsLoop, if_neg (not_not_intro (hs.eq_zero_of_drop hn hdrop)), List.append_nil]
    | cons x rest ih =>
      intro fuel n out hdrop hn hfuel
      obtain ⟨hx, hne, hlt, hrest⟩ := hs.of_drop hdrop
      rw [List.length_cons] at hfuel
      obtain ⟨fuel, rfl⟩ := Nat.exists_eq_add_one.mpr (Nat.zero_lt_of_lt hfuel)
      rw [putsLoop, hx, if_pos hne, ih fuel (n + 1) _ hrest hlt (by omega), List.append_assoc]
      rfl
  exact hloop t _ 0 out rfl (Nat.zero_le _) ht

/-! ## The conversions -/

/-- `while(i < 8) conv_buf[i] = '0'`. -/
def padLoop (convBuf : ℕ → Byte) (i : ℕ) : ℕ → Byte :=
  if i < 8 then padLoop (update convBuf i (chr '0')) (i + 1) else convBuf
termination_by 8 - i

/-- `%x`; `junk` is what the buffer held before. -/
def putHex (alternate : Bool) (value : Word) (junk : ℕ → Byte) (out : List Byte) :
    Option (List Byte) :=
  if alternate then
    let convBuf := itoa value junk 8 hexadecimal
    let startingIndex := strlen (fun i => convBuf (8 + i)) (2 ^ 32)
    let convBuf := padLoop convBuf startingIndex
    puts (fun i => convBuf (startingIndex + i)) out
  else
    let convBuf := itoa value junk 0 hexadecimal
    puts (fun i => convBuf (0 + i)) out

/-- `%u`. -/
def putUnsigned (value : Word) (junk : ℕ → Byte) (out : List Byte) : Option (List Byte) :=
  let convBuf := itoa value junk 0 decimal
  puts (fun i => convBuf (0 + i)) out

/-- `%d`. -/
def putSigned (value : Word) (junk : ℕ → Byte) (out : List Byte) : Option (List Byte) :=
  let convBuf :=
    if value.toInt < 0 then itoa (-value) (update junk 0 (chr '-')) 1 decimal
    else itoa value junk 0 decimal
  puts (fun i => convBuf (0 + i)) out

/-! ## What the conversions print -/

/-- Eight hexadecimal digits, zeros first. -/
def hexEight (v : Word) : List Byte :=
  let t := numeral digit 16 v.toNat
  List.replicate (8 - t.length) (chr '0') ++ t

/-- A sign for a negative value, and the decimal digits. -/
def signedText (v : Word) : List Byte :=
  if v.toInt < 0 then chr '-' :: numeral digit 10 v.toInt.natAbs
  else numeral digit 10 v.toInt.natAbs

theorem length_numeral_hex (v : Word) : (numeral digit 16 v.toNat).length ≤ 8 :=
  length_numeral_le (by omega) (by omega) v.isLt

theorem length_hexEight (v : Word) : (hexEight v).length = 8 := by
  rw [hexEight, List.length_append, List.length_replicate]
  exact Nat.sub_add_cancel (length_numeral_hex v)

theorem denotes_hexEight (v : Word) : Denotes 16 (hexEight v) v.toNat :=
  (denotes_numeral hexadecimal v.toNat).pad (by decide) _

/-- The padding loop writes zeros up to the digits. -/
theorem padLoop_eq (convBuf : ℕ → Byte) {i : ℕ} (hi : i ≤ 8) :
    padLoop convBuf i = writeBytes convBuf i (List.replicate (8 - i) (chr '0')) := by
  induction convBuf, i using padLoop.induct with
  | case1 convBuf i hlt ih =>
    rw [padLoop, if_pos hlt, ih (by omega), show 8 - i = 8 - (i + 1) + 1 by omega,
      List.replicate_succ, writeBytes]
  | case2 convBuf i hge =>
    rw [padLoop, if_neg hge, show 8 - i = 0 by omega]
    rfl

theorem zero_notMem_hexEight (v : Word) : (0 : Byte) ∉ hexEight v := by
  intro hmem
  have h := ((denotes_hexEight v).digits 0 hmem).1
  revert h
  decide

theorem cstr_append_add (a b : List Byte) (k : ℕ) : cstr (a ++ b) (a.length + k) = cstr b k := by
  rw [cstr, cstr, List.getD_eq_getElem?_getD, List.getD_eq_getElem?_getD,
    List.getElem?_append_right (Nat.le_add_right _ _), Nat.add_sub_cancel_left]

/-- The digits at the eighth place and the zeros before them are one string. -/
theorem isString_padLoop (v : Word) (junk : ℕ → Byte) :
    let t := numeral digit 16 v.toNat
    IsString (fun i => padLoop (writeString junk 8 t) t.length (t.length + i)) (hexEight v) := by
  intro t
  have ht : t.length ≤ 8 := length_numeral_hex v
  refine ⟨zero_notMem_hexEight v, fun i hi => ?_⟩
  rw [length_hexEight] at hi
  show padLoop (writeString junk 8 t) t.length (t.length + i) = cstr (hexEight v) i
  rw [padLoop_eq _ ht]
  by_cases hzero : i < 8 - t.length
  · have hlen : i < (List.replicate (8 - t.length) (chr '0')).length := by simpa using hzero
    rw [writeBytes_add _ hlen, cstr_eq_getElem (by rw [length_hexEight]; omega)]
    exact (List.getElem_append_left hlen).symm
  · obtain ⟨k, hk⟩ := Nat.exists_eq_add_of_le (Nat.le_of_not_lt hzero)
    have hplace : t.length + i = 8 + k := by omega
    have hzeros : i = (List.replicate (8 - t.length) (chr '0')).length + k := by
      rw [List.length_replicate]
      exact hk
    rw [writeBytes_of_ge _ (by rw [List.length_replicate]; omega), hplace,
      writeString_add junk 8 (by omega), hzeros]
    exact (cstr_append_add _ t k).symm

/-- What is printed of a number that `itoa` wrote at the start of its buffer. -/
theorem puts_itoa (v : Word) (junk : ℕ → Byte) (radix : Radix) (out : List Byte) :
    puts (fun i => itoa v junk 0 radix (0 + i)) out
      = some (out ++ numeral digit radix.word.toNat v.toNat) := by
  rw [itoa_eq]
  have hlen := length_numeral_word radix v
  exact (isString_writeString junk 0 (zero_notMem_numeral radix _)).puts_eq (by omega) out

theorem putHex_eq (alternate : Bool) (v : Word) (junk : ℕ → Byte) (out : List Byte) :
    putHex alternate v junk out
      = some (out ++ if alternate then hexEight v else numeral digit 16 v.toNat) := by
  cases alternate with
  | false => exact puts_itoa v junk hexadecimal out
  | true =>
    have hlen := length_numeral_hex v
    have hbuf : itoa v junk 8 hexadecimal = writeString junk 8 (numeral digit 16 v.toNat) :=
      itoa_eq v junk 8 hexadecimal
    have hstart : strlen (fun i => writeString junk 8 (numeral digit 16 v.toNat) (8 + i)) (2 ^ 32)
        = (numeral digit 16 v.toNat).length := by
      refine (isString_writeString junk 8 (zero_notMem_numeral hexadecimal _)).strlen_eq ?_
      exact lt_of_le_of_lt hlen (by decide)
    simp only [putHex, if_true, hbuf, hstart]
    exact (isString_padLoop v junk).puts_eq (by rw [length_hexEight]; decide) out

theorem putUnsigned_eq (v : Word) (junk : ℕ → Byte) (out : List Byte) :
    putUnsigned v junk out = some (out ++ numeral digit 10 v.toNat) :=
  puts_itoa v junk decimal out

/-- The sign in front of the digits. -/
theorem isString_sign (t : List Byte) (h0 : (0 : Byte) ∉ t) (junk : ℕ → Byte) :
    IsString (fun i => writeString (update junk 0 (chr '-')) 1 t (0 + i)) (chr '-' :: t) := by
  refine ⟨fun hmem => ?_, fun i hi => ?_⟩
  · rcases List.mem_cons.mp hmem with hzero | ht
    · exact absurd hzero (by decide)
    · exact h0 ht
  · show writeString (update junk 0 (chr '-')) 1 t (0 + i) = _
    rw [Nat.zero_add]
    cases i with
    | zero =>
      rw [writeString_of_lt _ t Nat.zero_lt_one, update_self]
      rfl
    | succ i =>
      rw [Nat.add_comm i 1, writeString_add _ 1 (Nat.le_of_succ_le_succ hi), Nat.add_comm 1 i]
      rfl

/-- The magnitude that `-value` is converted to, for the least integer as well. -/
theorem toNat_neg_of_neg {v : Word} (hv : v.toInt < 0) : (-v).toNat = v.toInt.natAbs := by
  have hlt := v.isLt
  rw [BitVec.toInt_eq_toNat_cond] at hv ⊢
  rw [BitVec.toNat_neg]
  split at hv <;> omega

theorem toNat_of_nonneg {v : Word} (hv : ¬ v.toInt < 0) : v.toNat = v.toInt.natAbs := by
  have hlt := v.isLt
  rw [BitVec.toInt_eq_toNat_cond] at hv ⊢
  split at hv <;> omega

theorem putSigned_eq (v : Word) (junk : ℕ → Byte) (out : List Byte) :
    putSigned v junk out = some (out ++ signedText v) := by
  rw [putSigned, signedText]
  by_cases hv : v.toInt < 0
  · have hlen := length_numeral_word decimal (-v)
    rw [if_pos hv, if_pos hv, itoa_eq, ← toNat_neg_of_neg hv]
    refine (isString_sign _ (zero_notMem_numeral decimal _) junk).puts_eq ?_ out
    rw [List.length_cons]
    omega
  · rw [if_neg hv, if_neg hv, ← toNat_of_nonneg hv]
    exact puts_itoa v junk decimal out

/-! ## `printf` -/

/-- `printf` at work: the format pointer and the argument pointer as offsets, the bytes given to
`putc`, and the offsets at which the format was read. -/
structure Printf where
  buf : ℕ
  esp : ℕ
  out : List Byte
  reads : List ℕ

/-- What `printf` finds: the memory that `%s` arguments point to, the arguments, and what its
buffers hold before they are written. -/
structure PrintfFrame where
  mem : Memory
  args : ℕ → Word
  junk : ℕ → Byte

namespace Printf

/-- The format read at `buf`. -/
def read (p : Printf) : Printf := { p with reads := p.reads ++ [p.buf] }

/-- `buf++`. -/
def advance (p : Printf) : Printf := { p with buf := p.buf + 1 }

def putc (p : Printf) (c : Byte) : Printf := { p with out := p.out ++ [c] }

/-- An argument printed and passed over. -/
def consume (p : Printf) (out : List Byte) : Printf := { p with out := out, esp := p.esp + 1 }

end Printf

/-- The cases of the inner switch other than `#`. -/
def convert (f : PrintfFrame) (alternate : Bool) (c : Byte) (p : Printf) : Option Printf :=
  let arg := f.args p.esp
  if c = chr '%' then some (p.putc (chr '%'))
  else if c = chr 'x' then (putHex alternate arg f.junk p.out).map p.consume
  else if c = chr 'u' then (putUnsigned arg f.junk p.out).map p.consume
  else if c = chr 'd' then (putSigned arg f.junk p.out).map p.consume
  else if c = chr 'c' then some (p.consume (p.out ++ [arg.setWidth 8]))
  else if c = chr 's' then (puts (f.mem.view arg) p.out).map p.consume
  else some p

/-- `format_char_switch`, which a `#` comes back to. -/
def formatCharSwitch (format : ℕ → Byte) (f : PrintfFrame) : ℕ → Bool → Printf → Option Printf
  | 0, _, _ => none
  | fuel + 1, alternate, p =>
    let c := format p.buf
    let p := p.read
    if c = chr '#' then formatCharSwitch format f fuel true p.advance
    else convert f alternate c p

/-- The loop of `printf`, for at most `fuel` turns. -/
def printfLoop (format : ℕ → Byte) (f : PrintfFrame) : ℕ → Printf → Option Printf
  | 0, _ => none
  | fuel + 1, p =>
    let c := format p.buf
    let p := p.read
    if c = 0 then some p
    else if c = chr '%' then
      (formatCharSwitch format f fuel false p.advance).bind fun p =>
        printfLoop format f fuel p.advance
    else printfLoop format f fuel (p.putc c).advance

/-- `printf`: the state at its end, where it returns `buf`. -/
def printf (format : ℕ → Byte) (f : PrintfFrame) (fuel : ℕ) : Option Printf :=
  printfLoop format f fuel { buf := 0, esp := 0, out := [], reads := [] }

/-! ## What a format asks for -/

/-- A part of a format: a byte to print as it is, or a specifier. -/
inductive Directive where
  | ordinary (b : Byte)
  | hex (alternate : Bool)
  | unsigned
  | signed
  | character
  | string
  | unknown
  deriving DecidableEq

/-- The specifier that ends with `c`. -/
def specifier (alternate : Bool) (c : Byte) : Directive :=
  if c = chr '%' then .ordinary (chr '%')
  else if c = chr 'x' then .hex alternate
  else if c = chr 'u' then .unsigned
  else if c = chr 'd' then .signed
  else if c = chr 'c' then .character
  else if c = chr 's' then .string
  else .unknown

/-- The parts of a format: from outside the specifiers for `none`, from inside one for
`some alternate`. -/
def directives : Option Bool → List Byte → List Directive
  | _, [] => []
  | none, b :: rest =>
    if b = chr '%' then directives (some false) rest else .ordinary b :: directives none rest
  | some alternate, b :: rest =>
    if b = chr '#' then directives (some true) rest
    else specifier alternate b :: directives none rest

/-- The format ends inside a specifier: a `%`, and any number of `#` after it, is its end. -/
def endsInside : Bool → List Byte → Bool
  | inside, [] => inside
  | false, b :: rest => endsInside (b = chr '%') rest
  | true, b :: rest => endsInside (b = chr '#') rest

namespace Directive

/-- The number of arguments it takes. -/
def takes : Directive → ℕ
  | ordinary _ | unknown => 0
  | hex _ | unsigned | signed | character | string => 1

/-- What it prints. -/
def text (mem : Memory) (arg : Word) : Directive → List Byte
  | ordinary b => [b]
  | hex true => hexEight arg
  | hex false => numeral digit 16 arg.toNat
  | unsigned => numeral digit 10 arg.toNat
  | signed => signedText arg
  | character => [arg.setWidth 8]
  | string => mem.bytes arg (strlen (mem.view arg) (2 ^ 32))
  | unknown => []

/-- A `%s` has a string for its argument. -/
def HasArg (mem : Memory) (arg : Word) (d : Directive) : Prop :=
  d = string → ∃ t : List Byte, IsString (mem.view arg) t ∧ t.length < 2 ^ 32

end Directive

/-- What a list of directives prints, with the arguments from `esp` on. -/
def texts (f : PrintfFrame) : ℕ → List Directive → List Byte
  | _, [] => []
  | esp, d :: ds => d.text f.mem (f.args esp) ++ texts f (esp + d.takes) ds

/-- The number of arguments a list of directives takes. -/
def taken : List Directive → ℕ
  | [] => 0
  | d :: ds => d.takes + taken ds

/-- The arguments from `esp` on are sufficient. -/
def Sufficient (f : PrintfFrame) : ℕ → List Directive → Prop
  | _, [] => True
  | esp, d :: ds => d.HasArg f.mem (f.args esp) ∧ Sufficient f (esp + d.takes) ds

/-! ## Runs to the end of the format -/

variable {format : ℕ → Byte} {f : PrintfFrame} {s : List Byte} {p p' p₁ : Printf} {n : ℕ}

/-- `p` with a directive printed. -/
def Printf.emit (p : Printf) (f : PrintfFrame) (d : Directive) : Printf :=
  { p with out := p.out ++ d.text f.mem (f.args p.esp), esp := p.esp + d.takes }

/-- The bytes of memory from a string on are the string. -/
theorem bytes_of_isString {mem : Memory} {a : Word} {t : List Byte}
    (ht : IsString (mem.view a) t) (hlen : t.length < 2 ^ 32) :
    mem.bytes a (strlen (mem.view a) (2 ^ 32)) = t := by
  rw [ht.strlen_eq hlen]
  refine List.ext_getElem (Memory.length_bytes mem a _) fun i _ hi => ?_
  rw [Memory.getElem_bytes, ht.2 i (Nat.le_of_lt hi), cstr_eq_getElem hi]

/-- The inner switch prints its directive. -/
theorem convert_eq (alternate : Bool) (c : Byte) (p : Printf)
    (harg : (specifier alternate c).HasArg f.mem (f.args p.esp)) :
    convert f alternate c p = some (p.emit f (specifier alternate c)) := by
  simp only [convert, specifier] at harg ⊢
  split_ifs at harg ⊢ with hpercent hx hu hd hc hs
  · rfl
  · rw [putHex_eq]
    cases alternate <;> rfl
  · rw [putUnsigned_eq]
    rfl
  · rw [putSigned_eq]
    rfl
  · rfl
  · obtain ⟨t, ht, hlen⟩ := harg rfl
    rw [ht.puts_eq hlen, Printf.emit, Directive.text, bytes_of_isString ht hlen]
    rfl
  · rw [Printf.emit, Directive.text, List.append_nil]
    rfl

/-- From `p` to `p'` the directives were printed, and the format was read up to its end. -/
structure Prints (f : PrintfFrame) (n : ℕ) (p p' : Printf) (ds : List Directive) : Prop where
  out : p'.out = p.out ++ texts f p.esp ds
  esp : p'.esp = p.esp + taken ds
  buf : p'.buf = n
  reads : ∀ i ∈ p'.reads, i ∈ p.reads ∨ i ≤ n

theorem mem_read {i : ℕ} : i ∈ p.read.reads ↔ i ∈ p.reads ∨ i = p.buf := by
  rw [Printf.read, List.mem_append, List.mem_singleton]

/-- What has been read is still within the format after one more byte. -/
theorem reads_of_read (h : ∀ i ∈ p'.reads, i ∈ p.read.reads ∨ i ≤ n) (hbuf : p.buf ≤ n) :
    ∀ i ∈ p'.reads, i ∈ p.reads ∨ i ≤ n := by
  intro i hi
  rcases h i hi with hp | hn
  · exact (mem_read.mp hp).imp_right fun h => le_of_eq_of_le h hbuf
  · exact Or.inr hn

theorem Prints.nil (hbuf : p.buf = n) : Prints f n p p.read [] where
  out := (List.append_nil _).symm
  esp := rfl
  buf := hbuf
  reads _ hi := (mem_read.mp hi).imp_right fun h => le_of_eq (h.trans hbuf)

/-- A byte that was read and prints nothing by itself. -/
theorem Prints.of_read {ds : List Directive} (h : Prints f n p.read.advance p' ds)
    (hbuf : p.buf ≤ n) : Prints f n p p' ds where
  out := h.out
  esp := h.esp
  buf := h.buf
  reads := reads_of_read h.reads hbuf

/-- A directive printed, and the others after it. -/
theorem Prints.cons {d : Directive} {ds : List Directive}
    (h : Prints f n (p.read.emit f d).advance p' ds) (hbuf : p.buf ≤ n) :
    Prints f n p p' (d :: ds) where
  out := by
    rw [h.out, texts]
    exact List.append_assoc _ _ _
  esp := by
    rw [h.esp, taken]
    exact Nat.add_assoc _ _ _
  buf := h.buf
  reads := reads_of_read h.reads hbuf

/-- A run from outside the specifiers prints what is left of the format. -/
def RunsOutside (format : ℕ → Byte) (f : PrintfFrame) (s rest : List Byte) : Prop :=
  ∀ p : Printf, s.drop p.buf = rest → p.buf ≤ s.length → endsInside false rest = false →
    Sufficient f p.esp (directives none rest) →
      ∃ p', (∀ fuel, rest.length < fuel → printfLoop format f fuel p = some p')
        ∧ Prints f s.length p p' (directives none rest)

/-- And so does one from inside a specifier. -/
def RunsInside (format : ℕ → Byte) (f : PrintfFrame) (s rest : List Byte) : Prop :=
  ∀ (alternate : Bool) (p : Printf), s.drop p.buf = rest → p.buf ≤ s.length →
    endsInside true rest = false → Sufficient f p.esp (directives (some alternate) rest) →
      ∃ p', (∀ fuel fuel', rest.length < fuel → rest.length ≤ fuel' →
          (formatCharSwitch format f fuel alternate p).bind
            (fun p => printfLoop format f fuel' p.advance) = some p')
        ∧ Prints f s.length p p' (directives (some alternate) rest)

theorem runsOutside_nil (hf : IsString format s) : RunsOutside format f s [] := by
  intro p hdrop hle _ _
  have hbuf : p.buf = s.length := Nat.le_antisymm hle (List.drop_eq_nil_iff.mp hdrop)
  refine ⟨p.read, fun fuel hfuel => ?_, .nil hbuf⟩
  obtain ⟨fuel, rfl⟩ := Nat.exists_eq_add_one.mpr hfuel
  rw [printfLoop, hf.eq_zero_of_drop hle hdrop]
  rfl

theorem runsOutside_cons (hf : IsString format s) {b : Byte} {rest : List Byte}
    (hout : RunsOutside format f s rest) (hin : RunsInside format f s rest) :
    RunsOutside format f s (b :: rest) := by
  intro p hdrop hle hends hargs
  obtain ⟨hb, hne, hlt, hrest⟩ := hf.of_drop hdrop
  rw [endsInside] at hends
  rw [directives] at hargs ⊢
  by_cases hpercent : b = chr '%'
  · rw [decide_eq_true hpercent] at hends
    rw [if_pos hpercent] at hargs ⊢
    obtain ⟨p', hrun, hprints⟩ := hin false p.read.advance hrest hlt hends hargs
    refine ⟨p', fun fuel hfuel => ?_, hprints.of_read hle⟩
    rw [List.length_cons] at hfuel
    obtain ⟨fuel, rfl⟩ := Nat.exists_eq_add_one.mpr (Nat.zero_lt_of_lt hfuel)
    rw [printfLoop, hb, if_neg hne, if_pos hpercent]
    exact hrun fuel fuel (by omega) (by omega)
  · rw [decide_eq_false hpercent] at hends
    rw [if_neg hpercent] at hargs ⊢
    obtain ⟨p', hrun, hprints⟩ := hout (p.read.putc b).advance hrest hlt hends hargs.2
    refine ⟨p', fun fuel hfuel => ?_, Prints.cons (d := .ordinary b) hprints hle⟩
    rw [List.length_cons] at hfuel
    obtain ⟨fuel, rfl⟩ := Nat.exists_eq_add_one.mpr (Nat.zero_lt_of_lt hfuel)
    rw [printfLoop, hb, if_neg hne, if_neg hpercent]
    exact hrun fuel (by omega)

theorem runsInside_cons (hf : IsString format s) {b : Byte} {rest : List Byte}
    (hout : RunsOutside format f s rest) (hin : RunsInside format f s rest) :
    RunsInside format f s (b :: rest) := by
  intro alternate p hdrop hle hends hargs
  obtain ⟨hb, hne, hlt, hrest⟩ := hf.of_drop hdrop
  rw [endsInside] at hends
  rw [directives] at hargs ⊢
  by_cases hhash : b = chr '#'
  · rw [decide_eq_true hhash] at hends
    rw [if_pos hhash] at hargs ⊢
    obtain ⟨p', hrun, hprints⟩ := hin true p.read.advance hrest hlt hends hargs
    refine ⟨p', fun fuel fuel' hfuel hfuel' => ?_, hprints.of_read hle⟩
    rw [List.length_cons] at hfuel hfuel'
    obtain ⟨fuel, rfl⟩ := Nat.exists_eq_add_one.mpr (Nat.zero_lt_of_lt hfuel)
    -- the `goto` takes the fuel of the switch, and leaves that of the loop
    rw [formatCharSwitch, hb, if_pos hhash]
    exact hrun fuel fuel' (by omega) (by omega)
  · rw [decide_eq_false hhash] at hends
    rw [if_neg hhash] at hargs ⊢
    obtain ⟨p', hrun, hprints⟩ := hout (p.read.emit f (specifier alternate b)).advance hrest hlt
      hends hargs.2
    refine ⟨p', fun fuel fuel' hfuel hfuel' => ?_, hprints.cons hle⟩
    rw [List.length_cons] at hfuel hfuel'
    obtain ⟨fuel, rfl⟩ := Nat.exists_eq_add_one.mpr (Nat.zero_lt_of_lt hfuel)
    rw [formatCharSwitch, hb, if_neg hhash, convert_eq alternate b p.read hargs.1]
    exact hrun fuel' (by omega)

/-- `printf` of a format that does not end inside a specifier. -/
theorem printf_runs (hf : IsString format s) (hends : endsInside false s = false)
    (hargs : Sufficient f 0 (directives none s)) :
    ∃ p', (∀ fuel, s.length < fuel → printf format f fuel = some p')
      ∧ Prints f s.length { buf := 0, esp := 0, out := [], reads := [] } p'
        (directives none s) := by
  have hboth : ∀ rest, RunsOutside format f s rest ∧ RunsInside format f s rest := by
    intro rest
    induction rest with
    | nil =>
      refine ⟨runsOutside_nil hf, ?_⟩
      intro alternate p _ _ hends
      cases hends
    | cons b rest ih => exact ⟨runsOutside_cons hf ih.1 ih.2, runsInside_cons hf ih.1 ih.2⟩
  exact (hboth s).1 { buf := 0, esp := 0, out := [], reads := [] } rfl (Nat.zero_le _) hends hargs

/-! ## Runs past the end of the format -/

/-- The inner switch does not move the format pointer. -/
theorem convert_frame {alternate : Bool} {c : Byte} (h : convert f alternate c p = some p') :
    p'.buf = p.buf ∧ p'.reads = p.reads := by
  have hconsume : ∀ o : Option (List Byte), o.map p.consume = some p' →
      p'.buf = p.buf ∧ p'.reads = p.reads := by
    intro o ho
    obtain ⟨out, -, rfl⟩ := Option.map_eq_some_iff.mp ho
    exact ⟨rfl, rfl⟩
  simp only [convert] at h
  split_ifs at h
  · exact Option.some.inj h ▸ ⟨rfl, rfl⟩
  · exact hconsume _ h
  · exact hconsume _ h
  · exact hconsume _ h
  · exact Option.some.inj h ▸ ⟨rfl, rfl⟩
  · exact hconsume _ h
  · exact Option.some.inj h ▸ ⟨rfl, rfl⟩

theorem formatCharSwitch_reads {fuel : ℕ} {alternate : Bool} {i : ℕ}
    (h : formatCharSwitch format f fuel alternate p = some p') (hi : i ∈ p.reads) :
    i ∈ p'.reads := by
  induction fuel generalizing alternate p with
  | zero => cases h
  | succ fuel ih =>
    rw [formatCharSwitch] at h
    split at h
    · exact ih h (mem_read.mpr (Or.inl hi))
    · rw [(convert_frame h).2]
      exact mem_read.mpr (Or.inl hi)

/-- What the loop has read, and what it reads next, it has read in the end. -/
theorem printfLoop_reads {fuel i : ℕ} (h : printfLoop format f fuel p = some p')
    (hi : i ∈ p.reads ∨ i = p.buf) : i ∈ p'.reads := by
  induction fuel generalizing p with
  | zero => cases h
  | succ fuel ih =>
    have hread : i ∈ p.read.reads := mem_read.mpr hi
    rw [printfLoop] at h
    split_ifs at h
    · exact Option.some.inj h ▸ hread
    · obtain ⟨p₁, hswitch, hrest⟩ := Option.bind_eq_some_iff.mp h
      have hp₁ : i ∈ p₁.reads := formatCharSwitch_reads hswitch hread
      exact ih hrest (Or.inl hp₁)
    · exact ih h (Or.inl hread)

/-- A run that ends reads past the terminator, from outside the specifiers. -/
def OverrunsOutside (format : ℕ → Byte) (f : PrintfFrame) (s rest : List Byte) : Prop :=
  ∀ (p p' : Printf) (fuel : ℕ), s.drop p.buf = rest → p.buf ≤ s.length →
    endsInside false rest = true → printfLoop format f fuel p = some p' →
      s.length + 1 ∈ p'.reads

/-- And so does one from inside a specifier. -/
def OverrunsInside (format : ℕ → Byte) (f : PrintfFrame) (s rest : List Byte) : Prop :=
  ∀ (alternate : Bool) (p p₁ p' : Printf) (fuel fuel' : ℕ), s.drop p.buf = rest →
    p.buf ≤ s.length → endsInside true rest = true →
      formatCharSwitch format f fuel alternate p = some p₁ →
        printfLoop format f fuel' p₁.advance = some p' → s.length + 1 ∈ p'.reads

theorem overrunsInside_nil (hf : IsString format s) : OverrunsInside format f s [] := by
  intro alternate p p₁ p' fuel fuel' hdrop hle _ hswitch hloop
  have hbuf : p.buf = s.length := Nat.le_antisymm hle (List.drop_eq_nil_iff.mp hdrop)
  cases fuel with
  | zero => cases hswitch
  | succ fuel =>
    -- the terminator is no specifier, and the loop steps over it
    rw [formatCharSwitch, hf.eq_zero_of_drop hle hdrop, if_neg (by decide)] at hswitch
    have hp₁ : p₁.buf = s.length := (convert_frame hswitch).1.trans hbuf
    have hread := printfLoop_reads hloop (Or.inr rfl)
    rwa [Printf.advance, hp₁] at hread

theorem overrunsInside_cons (hf : IsString format s) {b : Byte} {rest : List Byte}
    (hout : OverrunsOutside format f s rest) (hin : OverrunsInside format f s rest) :
    OverrunsInside format f s (b :: rest) := by
  intro alternate p p₁ p' fuel fuel' hdrop hle hends hswitch hloop
  obtain ⟨hb, hne, hlt, hrest⟩ := hf.of_drop hdrop
  rw [endsInside] at hends
  cases fuel with
  | zero => cases hswitch
  | succ fuel =>
    rw [formatCharSwitch, hb] at hswitch
    by_cases hhash : b = chr '#'
    · rw [decide_eq_true hhash] at hends
      rw [if_pos hhash] at hswitch
      exact hin true p.read.advance p₁ p' fuel fuel' hrest hlt hends hswitch hloop
    · rw [decide_eq_false hhash] at hends
      rw [if_neg hhash] at hswitch
      have hp₁ : p₁.advance.buf = p.buf + 1 := congrArg (· + 1) (convert_frame hswitch).1
      exact hout p₁.advance p' fuel' (by rw [hp₁, hrest]) (by rw [hp₁]; exact hlt) hends hloop

theorem overrunsOutside_cons (hf : IsString format s) {b : Byte} {rest : List Byte}
    (hout : OverrunsOutside format f s rest) (hin : OverrunsInside format f s rest) :
    OverrunsOutside format f s (b :: rest) := by
  intro p p' fuel hdrop hle hends hloop
  obtain ⟨hb, hne, hlt, hrest⟩ := hf.of_drop hdrop
  rw [endsInside] at hends
  cases fuel with
  | zero => cases hloop
  | succ fuel =>
    rw [printfLoop, hb, if_neg hne] at hloop
    by_cases hpercent : b = chr '%'
    · rw [decide_eq_true hpercent] at hends
      rw [if_pos hpercent] at hloop
      obtain ⟨p₁, hswitch, hafter⟩ := Option.bind_eq_some_iff.mp hloop
      exact hin false p.read.advance p₁ p' fuel fuel hrest hlt hends hswitch hafter
    · rw [decide_eq_false hpercent] at hends
      rw [if_neg hpercent] at hloop
      exact hout (p.read.putc b).advance p' fuel hrest hlt hends hloop

/-- `printf` of a format that ends inside a specifier does not end without a read past the
terminator. -/
theorem printf_overruns (hf : IsString format s) (hends : endsInside false s = true) {fuel : ℕ}
    (h : printf format f fuel = some p') : s.length + 1 ∈ p'.reads := by
  have hboth : ∀ rest, OverrunsOutside format f s rest ∧ OverrunsInside format f s rest := by
    intro rest
    induction rest with
    | nil =>
      refine ⟨?_, overrunsInside_nil hf⟩
      intro p p' fuel _ _ hends
      cases hends
    | cons b rest ih => exact ⟨overrunsOutside_cons hf ih.1 ih.2, overrunsInside_cons hf ih.1 ih.2⟩
  exact (hboth s).1 _ p' fuel rfl (Nat.zero_le _) hends h

/-! ## All formats -/

/-- `printf` of the format `s` ends, reads nothing past the terminator, prints the parts of the
format in order, takes one argument for each conversion and returns the length. -/
def PrintsFormat (format : ℕ → Byte) (f : PrintfFrame) (s : List Byte) : Prop :=
  ∃ p, (∀ fuel, s.length < fuel → printf format f fuel = some p)
    ∧ (∀ i ∈ p.reads, i ≤ s.length) ∧ p.out = texts f 0 (directives none s)
    ∧ p.esp = taken (directives none s) ∧ p.buf = s.length

/-- Directives that take no string need no condition on their arguments. -/
theorem sufficient_of_no_string (f : PrintfFrame) (esp : ℕ) {ds : List Directive}
    (h : ∀ d ∈ ds, d ≠ .string) : Sufficient f esp ds := by
  induction ds generalizing esp with
  | nil => trivial
  | cons d ds ih =>
    refine ⟨fun hd => absurd hd (h d List.mem_cons_self), ?_⟩
    exact ih _ fun d' hd' => h d' (List.mem_cons_of_mem d hd')

/-- `printf` does what it should for the formats that do not end inside a specifier, and for no
others. -/
theorem printf_iff (hf : IsString format s) (hargs : Sufficient f 0 (directives none s)) :
    PrintsFormat format f s ↔ endsInside false s = false := by
  constructor
  · rintro ⟨p, hrun, hreads, -⟩
    by_contra hends
    have hover := printf_overruns hf (Bool.eq_true_of_not_eq_false hends)
      (hrun (s.length + 1) (Nat.lt_succ_self _))
    exact absurd (hreads _ hover) (Nat.not_succ_le_self _)
  · intro hends
    obtain ⟨p, hrun, hprints⟩ := printf_runs hf hends hargs
    refine ⟨p, hrun, fun i hi => ?_, hprints.out, ?_, hprints.buf⟩
    · exact (hprints.reads i hi).resolve_left (List.not_mem_nil)
    · rw [hprints.esp, Nat.zero_add]

/-- Every argument is 42, and the memory holds zeros. -/
def sampleFrame : PrintfFrame where
  mem _ := 0
  args _ := 42
  junk _ := 0

/-- The format `n=%#x%%`. -/
theorem printf_iff_number :
    PrintsFormat (cstr (str ['n', '=', '%', '#', 'x', '%', '%'])) sampleFrame
        (str ['n', '=', '%', '#', 'x', '%', '%'])
      ↔ endsInside false (str ['n', '=', '%', '#', 'x', '%', '%']) = false :=
  printf_iff (isString_cstr (by decide)) (sufficient_of_no_string _ _ (by decide))

/-- The format `%`: what follows its terminator is read. -/
theorem printf_reads_past :
    ¬ ∀ (format : ℕ → Byte) (f : PrintfFrame) (s : List Byte), IsString format s →
      Sufficient f 0 (directives none s) → PrintsFormat format f s := by
  intro h
  have hf : IsString (cstr [chr '%']) [chr '%'] := isString_cstr (by decide)
  obtain ⟨p, hrun, hreads, -⟩ := h _ sampleFrame _ hf trivial
  have hover := printf_overruns hf (by decide) (hrun 2 (by decide))
  exact absurd (hreads _ hover) (by decide)

/-- `itoa` writes the numeral of every value in every radix, `%#x` prints eight hexadecimal
digits of it, and `%d` prints a sign and its decimal digits. -/
theorem number_formatting (value : Word) (mem : ℕ → Byte) (buf : ℕ) (radix : Radix)
    (f : PrintfFrame) :
    (∃ t : List Byte, IsString (fun i => itoa value mem buf radix (buf + i)) t
        ∧ t.length ≤ 32 ∧ IsNumeral radix.word.toNat t value.toNat)
      ∧ (∃ p, (∀ fuel, 3 < fuel → printf (cstr (str ['%', '#', 'x'])) f fuel = some p)
        ∧ p.out.length = 8 ∧ Denotes 16 p.out (f.args 0).toNat)
      ∧ ∃ p t, (∀ fuel, 2 < fuel → printf (cstr (str ['%', 'd'])) f fuel = some p)
        ∧ p.out = (if (f.args 0).toInt < 0 then chr '-' :: t else t)
        ∧ IsNumeral 10 t (f.args 0).toInt.natAbs := by
  refine ⟨itoa_isNumeral value mem buf radix, ?_, ?_⟩
  · obtain ⟨p, hrun, hprints⟩ := printf_runs (f := f) (s := str ['%', '#', 'x'])
      (isString_cstr (by decide)) (by decide) (sufficient_of_no_string _ _ (by decide))
    have hout : p.out = hexEight (f.args 0) := hprints.out.trans (List.append_nil _)
    refine ⟨p, hrun, ?_⟩
    rw [hout]
    exact ⟨length_hexEight _, denotes_hexEight _⟩
  · obtain ⟨p, hrun, hprints⟩ := printf_runs (f := f) (s := str ['%', 'd'])
      (isString_cstr (by decide)) (by decide) (sufficient_of_no_string _ _ (by decide))
    have hout : p.out = signedText (f.args 0) := hprints.out.trans (List.append_nil _)
    exact ⟨p, numeral digit 10 (f.args 0).toInt.natAbs, hrun, hout, isNumeral_numeral decimal _⟩

end HieUnix
