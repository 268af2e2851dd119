import HieUnix.LibC
import HieUnix.Lib.Cursor
import Mathlib.Data.List.TakeWhile

/-!
# `grep`

`ece391grep.c`: `main` calls `do_one_file` for the names in the directory. There the file is read in
pieces into a buffer of 1024 bytes, the lines in the buffer are searched, and what is left of a line
is moved to its beginning. The program prints the lines that contain the pattern
(`grepMain_prints`).
-/

namespace HieUnix

open Function

/-- The end of a line. -/
abbrev nl : Byte := chr '\n'

/-! ## `ece391support.c` -/

/-- The loop of `ece391_strncmp` from `i` on, with `n` bytes left. -/
def ece391StrncmpLoop (s1 s2 : ℕ → Byte) : ℕ → ℕ → ℤ
  | 0, _ => 0
  | n + 1, i =>
    if s1 i = s2 i then
      if s1 i = 0 ∨ n = 0 then 0 else ece391StrncmpLoop s1 s2 n (i + 1)
    else (s1 i).toNat - (s2 i).toNat

/-- `ece391_strncmp`. -/
def ece391Strncmp (s1 s2 : ℕ → Byte) (n : ℕ) : ℤ := ece391StrncmpLoop s1 s2 n 0

/-- The loop of `ece391_strcpy` within a buffer, over at most `fuel` bytes. -/
def ece391StrcpyLoop : ℕ → ℕ → ℕ → (ℕ → Byte) → Option (ℕ → Byte)
  | 0, _, _, _ => none
  | fuel + 1, dst, src, data =>
    let c := data src
    let data := update data dst c
    if c ≠ 0 then ece391StrcpyLoop fuel (dst + 1) (src + 1) data else some data

/-- What `ece391_fdputs` writes of a string in a buffer of `size` bytes. -/
def fdputs (s : ℕ → Byte) (size : ℕ) : List Byte := (List.range (strlen s size)).map s

/-- The string in a buffer: its bytes up to the first zero byte. -/
def cString (buf : List Byte) : List Byte := buf.takeWhile (· ≠ 0)

/-! ## `ece391grep.c` -/

/-- `BUFSIZE`. -/
abbrev bufsize : ℕ := 1024

/-- A file as the calls give it: whether `open` finds it, its bytes, which of the reads fail, and
whether `close` does. -/
structure FileCalls where
  opens : Bool
  content : List Byte
  fails : ℕ → Bool
  closes : Bool

/-- The loop that looks for the end of the line. -/
def lineEndLoop (data : ℕ → Byte) (last : ℕ) : ℕ → ℕ → ℕ
  | 0, lineEnd => lineEnd
  | fuel + 1, lineEnd =>
    if lineEnd < last ∧ data lineEnd ≠ nl then lineEndLoop data last fuel (lineEnd + 1)
    else lineEnd

/-- Whether the loop that searches the line finds `s`. -/
def foundIn (s : List Byte) (data : ℕ → Byte) (lineStart lineEnd : ℕ) : Bool :=
  (List.range' lineStart (lineEnd - lineStart)).any fun check =>
    cstr s 0 = data check ∧ ece391Strncmp (fun i => data (check + i)) (cstr s) s.length = 0

/-- What is printed of a line. -/
def putLine (s fname : List Byte) (data : ℕ → Byte) (lineStart lineEnd : ℕ) : List Byte :=
  if foundIn s data lineStart lineEnd then
    fdputs (cstr fname) (fname.length + 1) ++ chr ':' ::
      fdputs (fun i => data (lineStart + i)) (bufsize + 1 - lineStart) ++ [nl]
  else []

/-- The inner loop of `do_one_file`, after a read of `cnt` bytes. The output is in `out`. -/
def grepLines (s fname : List Byte) (cnt : ℕ) :
    ℕ → (ℕ → Byte) → ℕ → ℕ → List Byte → Option ((ℕ → Byte) × ℕ × List Byte)
  | 0, _, _, _, _ => none
  | fuel + 1, data, last, lineStart, out =>
    let lineEnd := lineEndLoop data last last lineStart
    if nl ≠ data lineEnd ∧ 0 ≠ cnt ∧ lineStart ≠ 0 then
      (ece391StrcpyLoop (bufsize + 1) 0 lineStart (update data lineEnd 0)).map fun data =>
        (data, last - lineStart, out)
    else
      let data := update data lineEnd 0
      let out := out ++ putLine s fname data lineStart lineEnd
      if last ≤ lineEnd + 1 then some (data, 0, out)
      else grepLines s fname cnt fuel data last (lineEnd + 1) out

/-- `ece391_read` of `data`, from `last` on. -/
def readInto (data : ℕ → Byte) (last : ℕ) (chunk : List Byte) : ℕ → Byte :=
  fun i => if last ≤ i then (chunk[i - last]?).getD (data i) else data i

/-- The outer loop of `do_one_file`, from the `n`-th read on, at position `pos` of the file. -/
def grepReads (io : FileCalls) (s fname : List Byte) :
    ℕ → ℕ → ℕ → (ℕ → Byte) → ℕ → List Byte → Option (Word × List Byte)
  | 0, _, _, _, _, _ => none
  | fuel + 1, n, pos, data, last, out =>
    if io.fails n then some (-1, out ++ str "file read failed\n".toList)
    else
      let chunk := Cursor.read io.content pos (bufsize - last)
      let cnt := chunk.length
      match grepLines s fname cnt (bufsize + 2) (readInto data last chunk) (last + cnt) 0 out with
      | none => none
      | some (data, last, out) =>
        if 0 = cnt then
          if io.closes then some (0, out) else some (-1, out ++ str "file close failed\n".toList)
        else grepReads io s fname fuel (n + 1) (pos + cnt) data last out

/-- `do_one_file`: what it returns and what it prints. `data` is the buffer, which is not
initialised. -/
def doOneFile (io : FileCalls) (s fname : List Byte) (data : ℕ → Byte) :
    Option (Word × List Byte) :=
  if io.opens then grepReads io s fname (io.content.length + 2) 0 0 data 0 []
  else some (-1, str "file open failed\n".toList)

/-! ## The lines of a file -/

/-- What should be printed of a line. -/
def matchLine (s fname line : List Byte) : List Byte :=
  if s ≠ [] ∧ s <:+: line then fname ++ chr ':' :: line ++ [nl] else []

/-- What should be printed of a text. -/
def report (s fname text : List Byte) : List Byte :=
  (text.splitOn nl).flatMap (matchLine s fname)

variable {s fname t u rest : List Byte} {data : ℕ → Byte} {a b c last lineStart : ℕ}

theorem matchLine_nil (s fname : List Byte) : matchLine s fname [] = [] := by
  refine if_neg fun h => h.1 ?_
  exact List.infix_nil.mp h.2

theorem report_of_notMem (h : nl ∉ t) : report s fname t = matchLine s fname t := by
  rw [report, List.splitOn_eq_singleton h, List.flatMap_cons, List.flatMap_nil, List.append_nil]

theorem report_append (h : nl ∉ t) (u : List Byte) :
    report s fname (t ++ nl :: u) = matchLine s fname t ++ report s fname u := by
  rw [report, List.splitOn_append_cons_self_of_not_mem h, List.flatMap_cons]
  rfl

/-- The beginning of a line is no longer than the line. -/
theorem exists_line_of_notMem (h : nl ∉ t) (u : List Byte) :
    ∃ l ∈ (t ++ u).splitOn nl, t.length ≤ l.length := by
  by_cases hu : nl ∈ u
  · obtain ⟨v, w, rfl, hv⟩ := List.eq_append_cons_of_mem hu
    have hsplit : (t ++ (v ++ nl :: w)).splitOn nl = (t ++ v) :: w.splitOn nl := by
      rw [← List.append_assoc]
      exact List.splitOn_append_cons_self_of_not_mem (by simp [h, hv]) w
    refine ⟨t ++ v, ?_, by simp⟩
    rw [hsplit]
    exact List.mem_cons_self
  · refine ⟨t ++ u, ?_, by simp⟩
    rw [List.splitOn_eq_singleton (by simp [h, hu])]
    exact List.mem_singleton_self _

/-! ## Pieces of the buffer -/

/-- The bytes from `a` on, up to `b`. -/
def slice (data : ℕ → Byte) (a b : ℕ) : List Byte := (List.range' a (b - a)).map data

@[simp] theorem length_slice (data : ℕ → Byte) (a b : ℕ) : (slice data a b).length = b - a := by
  simp [slice]

theorem slice_of_le (h : b ≤ a) : slice data a b = [] := by
  simp [slice, Nat.sub_eq_zero_of_le h]

theorem slice_append (data : ℕ → Byte) (h1 : a ≤ b) (h2 : b ≤ c) :
    slice data a b ++ slice data b c = slice data a c := by
  have hlen : c - a = (b - a) + (c - b) := by omega
  have hb : a + 1 * (b - a) = b := by omega
  rw [slice, slice, slice, hlen, ← List.map_append, ← List.range'_append, hb]

theorem slice_cons (h : a < b) : slice data a b = data a :: slice data (a + 1) b := by
  have hlen : b - a = (b - (a + 1)) + 1 := by omega
  rw [slice, hlen, List.range'_succ, List.map_cons]
  rfl

theorem mem_slice {x : Byte} : x ∈ slice data a b ↔ ∃ i, a ≤ i ∧ i < b ∧ data i = x := by
  simp only [slice, List.mem_map, List.mem_range'_1]
  constructor
  · rintro ⟨i, ⟨h1, h2⟩, rfl⟩
    exact ⟨i, h1, by omega, rfl⟩
  · rintro ⟨i, h1, h2, rfl⟩
    exact ⟨i, ⟨h1, by omega⟩, rfl⟩

theorem slice_congr {data' : ℕ → Byte} (h : ∀ i, a ≤ i → i < b → data' i = data i) :
    slice data' a b = slice data a b := by
  refine List.map_congr_left fun i hi => ?_
  rw [List.mem_range'_1] at hi
  exact h i hi.1 (by omega)

theorem getElem?_slice (data : ℕ → Byte) (a b i : ℕ) :
    (slice data a b)[i]? = if a + i < b then some (data (a + i)) else none := by
  rw [slice, List.getElem?_map]
  by_cases h : a + i < b
  · rw [if_pos h, List.getElem?_range' (by omega), Nat.one_mul]
    rfl
  · rw [if_neg h, List.getElem?_eq_none (by simp; omega)]
    rfl

/-! ## The functions on strings -/

theorem ece391StrncmpLoop_eq_zero_iff {s1 s2 : ℕ → Byte} {n i : ℕ} (h0 : ∀ j < n, s2 (i + j) ≠ 0) :
    ece391StrncmpLoop s1 s2 n i = 0 ↔ ∀ j < n, s1 (i + j) = s2 (i + j) := by
  induction n generalizing i with
  | zero => exact ⟨fun _ j hj => absurd hj (Nat.not_lt_zero j), fun _ => rfl⟩
  | succ n ih =>
    have hadd : ∀ j, i + 1 + j = i + (j + 1) := fun j => by omega
    have h0' : ∀ j < n, s2 (i + 1 + j) ≠ 0 := fun j hj => by
      rw [hadd]
      exact h0 (j + 1) (by omega)
    rw [ece391StrncmpLoop]
    by_cases heq : s1 i = s2 i
    · have hne : s1 i ≠ 0 := heq ▸ h0 0 (Nat.succ_pos n)
      rw [if_pos heq]
      have hcases : (∀ j < n + 1, s1 (i + j) = s2 (i + j)) ↔
          ∀ j < n, s1 (i + 1 + j) = s2 (i + 1 + j) := by
        refine ⟨fun h j hj => ?_, fun h j hj => ?_⟩
        · rw [hadd]
          exact h (j + 1) (by omega)
        · cases j with
          | zero => exact heq
          | succ j =>
            rw [← hadd]
            exact h j (by omega)
      rw [hcases]
      by_cases hn : n = 0
      · subst hn
        rw [if_pos (.inr rfl)]
        exact ⟨fun _ j hj => absurd hj (Nat.not_lt_zero j), fun _ => rfl⟩
      · rw [if_neg fun h => h.elim hne hn]
        exact ih h0'
    · rw [if_neg heq]
      refine ⟨fun h => absurd (BitVec.eq_of_toNat_eq ?_) heq, fun h => absurd (h 0 (by omega)) heq⟩
      omega

/-- A copy to a lower place in the buffer moves the string and changes nothing else. -/
theorem ece391StrcpyLoop_spec (data : ℕ → Byte) {fuel dst src z : ℕ} (hlt : dst < src)
    (hz : z < fuel) (hend : data (src + z) = 0) (h0 : ∀ j < z, data (src + j) ≠ 0) :
    ∃ d, ece391StrcpyLoop fuel dst src data = some d ∧
      (∀ j ≤ z, d (dst + j) = data (src + j)) ∧ ∀ i, i < dst ∨ dst + z < i → d i = data i := by
  induction fuel generalizing dst src z data with
  | zero => exact absurd hz (Nat.not_lt_zero z)
  | succ fuel ih =>
    rw [ece391StrcpyLoop]
    cases z with
    | zero =>
      refine ⟨_, if_neg (not_not_intro hend), fun j hj => ?_, fun i hi => update_of_ne ?_ _ _⟩
      · obtain rfl := Nat.le_zero.mp hj
        exact update_self _ _ _
      · omega
    | succ z =>
      -- the byte that is written lies below those that are still to be read
      have hread : ∀ j, update data dst (data src) (src + 1 + j) = data (src + (j + 1)) :=
        fun j => by
          rw [update_of_ne (by omega)]
          congr 1
          omega
      obtain ⟨d, hd, hcopy, hkept⟩ := ih (update data dst (data src)) (Nat.succ_lt_succ hlt)
        (Nat.lt_of_succ_lt_succ hz) ((hread z).trans hend) fun j hj => by
          rw [hread]
          exact h0 (j + 1) (by omega)
      refine ⟨d, (if_pos (h0 0 (Nat.succ_pos z))).trans hd, fun j hj => ?_, fun i hi => ?_⟩
      · cases j with
        | zero => rw [Nat.add_zero, hkept dst (by omega), update_self, Nat.add_zero]
        | succ j =>
          have hj' := hcopy j (by omega)
          rw [hread] at hj'
          rw [← hj']
          congr 1
          omega
      · rw [hkept i (by omega), update_of_ne (by omega)]

theorem fdputs_eq_slice (hab : a ≤ b) (hb : b ≤ bufsize) (hend : data b = 0)
    (h0 : (0 : Byte) ∉ slice data a b) :
    fdputs (fun i => data (a + i)) (bufsize + 1 - a) = slice data a b := by
  have hlen : strlen (fun i => data (a + i)) (bufsize + 1 - a) = b - a := by
    refine strlenLoop_eq (Nat.zero_le _) (by omega) (fun j _ hj h => h0 ?_) fun _ => ?_
    · exact mem_slice.mpr ⟨a + j, by omega, by omega, h⟩
    · rw [Nat.add_sub_of_le hab]
      exact hend
  rw [fdputs, hlen, slice, List.range'_eq_map_range, List.map_map]
  rfl

theorem cString_begins (buf : List Byte) : cString buf <+: buf := List.takeWhile_prefix _

/-- The string has no zero byte, and one follows it. -/
theorem strlen_cstr_eq (buf : List Byte) :
    strlen (cstr buf) (buf.length + 1) = (cString buf).length := by
  have hle := (cString_begins buf).length_le
  refine strlenLoop_eq (Nat.zero_le _) (by omega) (fun j _ hj => ?_) fun _ => ?_
  · rw [cstr_eq_getElem (by omega), ← (cString_begins buf).getElem hj]
    have hnz := List.mem_takeWhile_imp (List.getElem_mem hj : (cString buf)[j] ∈ cString buf)
    exact of_decide_eq_true hnz
  · have hsplit : cString buf ++ buf.dropWhile (· ≠ 0) = buf := List.takeWhile_append_dropWhile
    rcases hrest : buf.dropWhile (· ≠ 0) with _ | ⟨c, rest⟩
    · rw [hrest, List.append_nil] at hsplit
      exact cstr_of_length_le (by rw [hsplit])
    · have hhead := List.head?_dropWhile_not (· ≠ (0 : Byte)) buf
      rw [hrest] at hhead
      have hzero : c = 0 := not_not.mp (of_decide_eq_false hhead)
      rw [hrest, hzero] at hsplit
      have hcstr : cstr (cString buf ++ 0 :: rest) (cString buf).length = 0 := by simp [cstr]
      rwa [hsplit] at hcstr

/-- What is printed of a name is the string in its buffer. -/
theorem fdputs_cstr (buf : List Byte) : fdputs (cstr buf) (buf.length + 1) = cString buf := by
  rw [fdputs, strlen_cstr_eq]
  refine List.ext_getElem (by simp) fun j _ hj => ?_
  have hlt := Nat.lt_of_lt_of_le hj (cString_begins buf).length_le
  rw [List.getElem_map, List.getElem_range, cstr_eq_getElem hlt, (cString_begins buf).getElem hj]

/-! ## A line -/

theorem lineEndLoop_spec (data : ℕ → Byte) {fuel : ℕ} (h : lineStart ≤ last)
    (hfuel : last ≤ lineStart + fuel) :
    lineStart ≤ lineEndLoop data last fuel lineStart ∧
    lineEndLoop data last fuel lineStart ≤ last ∧
    nl ∉ slice data lineStart (lineEndLoop data last fuel lineStart) ∧
    (lineEndLoop data last fuel lineStart < last →
      data (lineEndLoop data last fuel lineStart) = nl) := by
  induction fuel generalizing lineStart with
  | zero =>
    rw [lineEndLoop, slice_of_le le_rfl]
    exact ⟨le_rfl, h, List.not_mem_nil, fun hlt => by omega⟩
  | succ fuel ih =>
    rw [lineEndLoop]
    split_ifs with hc
    · have hnext : lineStart + 1 ≤ last := hc.1
      obtain ⟨h1, h2, h3, h4⟩ := ih hnext (by omega)
      refine ⟨by omega, h2, ?_, h4⟩
      rw [slice_cons (by omega), List.mem_cons, not_or]
      exact ⟨hc.2.symm, h3⟩
    · rw [slice_of_le le_rfl]
      refine ⟨le_rfl, h, List.not_mem_nil, fun hlt => ?_⟩
      by_contra hne
      exact hc ⟨hlt, hne⟩

/-- The search finds the pattern where it is a part of the line. -/
theorem foundIn_iff (hs : (0 : Byte) ∉ s) (hab : a ≤ b) (hend : data b = 0)
    (h0 : (0 : Byte) ∉ slice data a b) :
    foundIn s data a b = true ↔ s ≠ [] ∧ s <:+: slice data a b := by
  have hcmp : ∀ k, ece391Strncmp (fun i => data (a + k + i)) (cstr s) s.length = 0 ↔
      ∀ j < s.length, data (a + k + j) = cstr s j := fun k => by
    rw [ece391Strncmp, ece391StrncmpLoop_eq_zero_iff fun j hj => ?_]
    · simp only [Nat.zero_add]
    · rw [Nat.zero_add]
      exact cstr_ne_zero hs hj
  rw [List.infix_iff_getElem?]
  constructor
  · intro h
    obtain ⟨check, hmem, hfound⟩ := List.any_eq_true.mp h
    obtain ⟨h1, h2⟩ := List.mem_range'_1.mp hmem
    obtain ⟨k, rfl⟩ := Nat.exists_eq_add_of_le h1
    obtain ⟨hfirst, hsame⟩ := of_decide_eq_true hfound
    rw [hcmp] at hsame
    have hne : s ≠ [] := by
      rintro rfl
      exact h0 (mem_slice.mpr ⟨a + k, h1, by omega, hfirst.symm⟩)
    -- the pattern has no zero byte, so that it ends where the line does, at the latest
    have hfits : a + k + s.length ≤ b := by
      by_contra hlong
      have hat := hsame (b - (a + k)) (by omega)
      rw [Nat.add_sub_of_le (by omega), hend] at hat
      exact cstr_ne_zero hs (by omega) hat.symm
    refine ⟨hne, k, ?_, fun i hi => ?_⟩
    · rw [length_slice]
      omega
    · have hplace : a + (i + k) = a + k + i := by omega
      rw [getElem?_slice, hplace, if_pos (by omega), hsame i hi, cstr_eq_getElem hi]
  · rintro ⟨hne, k, hlen, hsame⟩
    have hpos := List.length_pos_iff.mpr hne
    rw [length_slice] at hlen
    have hdata : ∀ j < s.length, data (a + k + j) = cstr s j := fun j hj => by
      have hj' := hsame j hj
      have hplace : a + (j + k) = a + k + j := by omega
      rw [getElem?_slice, hplace, if_pos (by omega)] at hj'
      rw [Option.some.inj hj', cstr_eq_getElem hj]
    refine List.any_eq_true.mpr ⟨a + k, List.mem_range'_1.mpr ⟨by omega, by omega⟩, ?_⟩
    exact decide_eq_true ⟨(hdata 0 hpos).symm, (hcmp k).mpr hdata⟩

theorem putLine_eq (fname : List Byte) (hs : (0 : Byte) ∉ s) (hab : a ≤ b) (hb : b ≤ bufsize)
    (hend : data b = 0) (h0 : (0 : Byte) ∉ slice data a b) :
    putLine s fname data a b = matchLine s (cString fname) (slice data a b) := by
  have hfound := foundIn_iff hs hab hend h0
  rw [putLine, matchLine, fdputs_eq_slice hab hb hend h0, fdputs_cstr]
  by_cases h : s ≠ [] ∧ s <:+: slice data a b
  · rw [if_pos h, if_pos (hfound.mpr h)]
  · rw [if_neg h, if_neg fun h' => h (hfound.mp h')]

/-! ## The loops -/

/-- Every line fits in the buffer, with its end. -/
def LinesFit (text : List Byte) : Prop := ∀ l ∈ text.splitOn nl, l.length < bufsize

theorem LinesFit.tail (h : LinesFit (t ++ nl :: u)) (ht : nl ∉ t) : LinesFit u := by
  intro l hl
  refine h l ?_
  rw [List.splitOn_append_cons_self_of_not_mem ht]
  exact List.mem_cons_of_mem _ hl

theorem LinesFit.length_lt (h : LinesFit (t ++ u)) (ht : nl ∉ t) : t.length < bufsize := by
  obtain ⟨l, hl, hle⟩ := exists_line_of_notMem ht u
  exact Nat.lt_of_le_of_lt hle (h l hl)

/-- The buffer between the reads: it holds the beginning of a line, the output says what is to be
said of the lines before, and the byte after the buffer is no end of a line. -/
structure Carried (s fname text rest : List Byte) (data : ℕ → Byte) (last : ℕ) (out : List Byte) :
    Prop where
  short : last < bufsize
  nonzero : (0 : Byte) ∉ slice data 0 last
  noEnd : nl ∉ slice data 0 last
  after : data bufsize ≠ nl
  fit : LinesFit (slice data 0 last ++ rest)
  said : out ++ report s fname (slice data 0 last ++ rest) = text

theorem linesFit_nil : LinesFit [] := by
  intro l hl
  rw [List.splitOn_eq_singleton List.not_mem_nil, List.mem_singleton] at hl
  rw [hl]
  decide

theorem Carried.empty {text out : List Byte} (hafter : data bufsize ≠ nl) (hfit : LinesFit rest)
    (hsaid : out ++ report s fname rest = text) : Carried s fname text rest data 0 out := by
  have hempty : slice data 0 0 = [] := slice_of_le le_rfl
  refine ⟨by decide, ?_, ?_, hafter, ?_, ?_⟩ <;> rw [hempty]
  · exact List.not_mem_nil
  · exact List.not_mem_nil
  · exact hfit
  · exact hsaid

theorem Carried.out_eq {text out : List Byte} (h : Carried s fname text [] data 0 out) :
    out = text := by
  have hsaid := h.said
  rw [slice_of_le le_rfl, List.nil_append, report_of_notMem List.not_mem_nil, matchLine_nil,
    List.append_nil] at hsaid
  exact hsaid

/-- The beginning of a line is moved to the beginning of the buffer. -/
theorem exists_moved (hpos : 0 < lineStart) (hle : lineStart ≤ last) (hlast : last ≤ bufsize)
    (h0 : (0 : Byte) ∉ slice data lineStart last) :
    ∃ d, ece391StrcpyLoop (bufsize + 1) 0 lineStart (update data last 0) = some d ∧
      slice d 0 (last - lineStart) = slice data lineStart last ∧
      d bufsize = update data last 0 bufsize := by
  have hend : update data last 0 (lineStart + (last - lineStart)) = 0 := by
    rw [Nat.add_sub_of_le hle, update_self]
  have hfuel : last - lineStart < bufsize + 1 := by omega
  obtain ⟨d, hd, hcopy, hkept⟩ := ece391StrcpyLoop_spec (update data last 0) hpos hfuel hend
    fun j hj h => by
      rw [update_of_ne (by omega)] at h
      exact h0 (mem_slice.mpr ⟨_, by omega, by omega, h⟩)
  refine ⟨d, hd, List.ext_getElem? fun i => ?_, hkept _ (by omega)⟩
  rw [getElem?_slice, getElem?_slice]
  by_cases hi : lineStart + i < last
  · rw [if_pos (by omega), if_pos hi, hcopy i (by omega), update_of_ne (by omega)]
  · rw [if_neg (by omega), if_neg hi]

/-- After the last line in the buffer comes the rest of the file. When the line has no end, the file
ends with it. -/
theorem report_lastLine (s fname : List Byte) {e : ℕ} (hge : lineStart ≤ e) (hend : e ≤ last)
    (hdone : last ≤ e + 1) (hline : nl ∉ slice data lineStart e) (hnl : e < last → data e = nl)
    (hfit : LinesFit (slice data lineStart last ++ rest)) (hnil : e = last → rest = []) :
    LinesFit rest ∧ report s fname (slice data lineStart last ++ rest)
      = matchLine s fname (slice data lineStart e) ++ report s fname rest := by
  rcases Nat.lt_or_eq_of_le hend with hlt | rfl
  · have hlast : slice data e last = [nl] := by
      rw [slice_cons hlt, hnl hlt, slice_of_le hdone]
    rw [← slice_append data hge hend, hlast, List.append_assoc] at hfit ⊢
    exact ⟨hfit.tail hline, report_append hline rest⟩
  · obtain rfl := hnil rfl
    rw [List.append_nil, report_of_notMem hline, report_of_notMem List.not_mem_nil, matchLine_nil,
      List.append_nil]
    exact ⟨linesFit_nil, rfl⟩

/-- **The lines in the buffer**, when the read has filled it or reached the end of the file, and
every line is shorter than it. -/
theorem grepLines_spec {fuel cnt : ℕ} {text out : List Byte} (hs : (0 : Byte) ∉ s)
    (hstart : lineStart < last ∨ lineStart = 0) (hlast : last ≤ bufsize)
    (hfuel : last < lineStart + fuel) (h0 : (0 : Byte) ∉ slice data lineStart last)
    (hafter : data bufsize ≠ nl) (hfit : LinesFit (slice data lineStart last ++ rest))
    (hfull : rest ≠ [] → cnt ≠ 0 ∧ last = bufsize)
    (hsaid : out ++ report s (cString fname) (slice data lineStart last ++ rest) = text) :
    ∃ data' last' out', grepLines s fname cnt fuel data last lineStart out
        = some (data', last', out') ∧
      Carried s (cString fname) text rest data' last' out' ∧ (cnt = 0 → last' = 0) := by
  induction fuel generalizing data lineStart out with
  | zero => exact absurd hfuel (by omega)
  | succ fuel ih =>
    have hle : lineStart ≤ last := by omega
    obtain ⟨hge, hend, hline, hnl⟩ := lineEndLoop_spec data hle (Nat.le_add_left last lineStart)
    rw [grepLines]
    generalize lineEndLoop data last last lineStart = e at hge hend hline hnl
    dsimp only
    have hsplit := slice_append data hge hend
    have hkeep : slice (update data e 0) lineStart e = slice data lineStart e :=
      slice_congr fun i _ hi => update_of_ne (by omega) _ _
    have hafter' : update data e 0 bufsize ≠ nl := by
      by_cases he : bufsize = e
      · rw [← he, update_self]
        decide
      · rwa [update_of_ne he]
    have h0line : (0 : Byte) ∉ slice data lineStart e := fun h =>
      h0 (hsplit ▸ List.mem_append_left _ h)
    have hput : putLine s fname (update data e 0) lineStart e
        = matchLine s (cString fname) (slice data lineStart e) := by
      rw [putLine_eq fname hs hge (hend.trans hlast) (update_self e 0 data)
        (hkeep.symm ▸ h0line), hkeep]
    split_ifs with hcarry hdone
    · -- the beginning of a line
      obtain ⟨hne, hcnt, hpos⟩ := hcarry
      obtain rfl : e = last := by
        by_contra hlt
        exact hne (hnl (by omega)).symm
      obtain ⟨d, hd, hmoved, hbyte⟩ := exists_moved (Nat.pos_of_ne_zero hpos) hge hlast h0
      refine ⟨d, e - lineStart, out, by rw [hd]; rfl, ?_, fun h => absurd h.symm hcnt⟩
      refine ⟨by omega, ?_, ?_, ?_, ?_, ?_⟩
      · rwa [hmoved]
      · rwa [hmoved]
      · rwa [hbyte]
      · rwa [hmoved]
      · rwa [hmoved]
    · -- the last line in the buffer
      -- a line without an end would be too long, or have been moved, if the file went on
      have hnil : e = last → rest = [] := by
        rintro rfl
        by_contra hne
        obtain ⟨hcnt, rfl⟩ := hfull hne
        have hshort := hfit.length_lt hline
        rw [length_slice] at hshort
        exact hcarry ⟨hafter.symm, hcnt.symm, by omega⟩
      obtain ⟨hfit', hreport⟩ :=
        report_lastLine s (cString fname) hge hend hdone hline hnl hfit hnil
      rw [hput]
      refine ⟨_, 0, _, rfl, .empty hafter' hfit' ?_, fun _ => rfl⟩
      rw [List.append_assoc, ← hreport]
      exact hsaid
    · -- a line, with another after it
      have hlt : e < last := by omega
      rw [hput]
      have hnext : slice (update data e 0) (e + 1) last = slice data (e + 1) last :=
        slice_congr fun i hi _ => update_of_ne (by omega) _ _
      have htext : slice data lineStart last ++ rest
          = slice data lineStart e ++ nl :: (slice data (e + 1) last ++ rest) := by
        rw [← hsplit, slice_cons hlt, hnl hlt, List.append_assoc, List.cons_append]
      rw [htext] at hfit hsaid
      refine ih (.inl (by omega)) (by omega) ?_ hafter' ?_ ?_
      · rw [hnext]
        intro h
        refine h0 (hsplit ▸ List.mem_append_right _ ?_)
        rw [slice_cons hlt]
        exact List.mem_cons_of_mem _ h
      · rw [hnext]
        exact hfit.tail hline
      · rw [hnext, List.append_assoc, ← report_append hline]
        exact hsaid

section Reads

variable {chunk : List Byte}

theorem slice_readInto (data : ℕ → Byte) (last : ℕ) (chunk : List Byte) :
    slice (readInto data last chunk) 0 (last + chunk.length) = slice data 0 last ++ chunk := by
  have hbefore : slice (readInto data last chunk) 0 last = slice data 0 last :=
    slice_congr fun i _ hi => if_neg (by omega)
  have hread : slice (readInto data last chunk) last (last + chunk.length) = chunk := by
    refine List.ext_getElem? fun i => ?_
    rw [getElem?_slice]
    by_cases hi : i < chunk.length
    · rw [if_pos (by omega), readInto, if_pos (by omega), Nat.add_sub_cancel_left,
        List.getElem?_eq_getElem hi]
      rfl
    · rw [if_neg (by omega), List.getElem?_eq_none (by omega)]
  rw [← slice_append _ (Nat.zero_le last) (Nat.le_add_right last _), hbefore, hread]

theorem readInto_of_le {i : ℕ} (h : last + chunk.length ≤ i) :
    readInto data last chunk i = data i := by
  rw [readInto, if_pos (by omega), List.getElem?_eq_none (by omega)]
  rfl

/-- **The reads**, from a position on, print what is left to be said and find the end of the
file. -/
theorem grepReads_spec {io : FileCalls} {fuel n pos : ℕ} {text out : List Byte}
    (hfails : ∀ n, io.fails n = false) (hcloses : io.closes = true) (hs : (0 : Byte) ∉ s)
    (hcontent : (0 : Byte) ∉ io.content) (hpos : pos ≤ io.content.length)
    (hfuel : io.content.length < pos + fuel)
    (h : Carried s (cString fname) text (io.content.drop pos) data last out) :
    grepReads io s fname fuel n pos data last out = some (0, text) := by
  induction fuel generalizing n pos data last out with
  | zero => exact absurd hfuel (by omega)
  | succ fuel ih =>
    have hshort := h.short
    have hlen := Cursor.length_read io.content pos (bufsize - last)
    -- what the read gives and what is left make up the rest of the file
    have hdrop : Cursor.read io.content pos (bufsize - last)
        ++ io.content.drop (pos + (Cursor.read io.content pos (bufsize - last)).length)
        = io.content.drop pos := by
      rw [← List.drop_drop]
      exact List.prefix_iff_eq_append.mp (List.take_prefix _ _)
    rw [grepReads, if_neg (by rw [hfails]; decide)]
    dsimp only
    have hmem : (0 : Byte) ∉ Cursor.read io.content pos (bufsize - last) := fun hz =>
      hcontent (List.mem_of_mem_drop (List.mem_of_mem_take hz))
    generalize Cursor.read io.content pos (bufsize - last) = chunk at hlen hdrop hmem ⊢
    have hslice := slice_readInto data last chunk
    have hlines : ∃ data' last' out', grepLines s fname chunk.length (bufsize + 2)
        (readInto data last chunk) (last + chunk.length) 0 out = some (data', last', out') ∧
        Carried s (cString fname) text (io.content.drop (pos + chunk.length)) data' last' out' ∧
        (chunk.length = 0 → last' = 0) := by
      refine grepLines_spec hs (.inr rfl) (by omega) (by omega) ?_ ?_ ?_ (fun hne => ?_) ?_
      · rw [hslice, List.mem_append, not_or]
        exact ⟨h.nonzero, hmem⟩
      · rw [readInto_of_le (by omega)]
        exact h.after
      · rw [hslice, List.append_assoc, hdrop]
        exact h.fit
      · -- there is more in the file, so that the read has filled the buffer
        have hmore := List.length_pos_iff.mpr hne
        rw [List.length_drop] at hmore
        omega
      · rw [hslice, List.append_assoc, hdrop]
        exact h.said
    obtain ⟨data', last', out', hrun, hnext, hzero⟩ := hlines
    rw [hrun]
    dsimp only
    -- a read of 0 bytes is the end of the file, and nothing is carried over then
    by_cases hcnt : 0 = chunk.length
    · rw [if_pos hcnt, if_pos hcloses]
      obtain rfl := hzero hcnt.symm
      rw [List.drop_eq_nil_of_le (by omega)] at hnext
      rw [hnext.out_eq]
    · rw [if_neg hcnt]
      exact ih (by omega) (by omega) hnext

end Reads

/-- **`grep` prints the lines that contain the pattern**, in their order, each after the name of the
file, when the calls succeed, the file and the pattern have no zero byte, every line is shorter than
the buffer, and the byte after the buffer is not by chance the end of a line. -/
theorem doOneFile_prints {io : FileCalls} (hopens : io.opens = true)
    (hfails : ∀ n, io.fails n = false) (hcloses : io.closes = true) (hs : (0 : Byte) ∉ s)
    (hcontent : (0 : Byte) ∉ io.content) (hfit : LinesFit io.content)
    (hafter : data bufsize ≠ nl) :
    doOneFile io s fname data = some (0, report s (cString fname) io.content) := by
  rw [doOneFile, if_pos hopens]
  exact grepReads_spec hfails hcloses hs hcontent (Nat.zero_le _) (by omega)
    (.empty hafter hfit rfl)

/-! ## `main` -/

/-- The size of the buffer for the names. -/
abbrev sbufsize : ℕ := 33

/-- The directory as the calls give it: whether `open` finds it, the names in it, and which of the
reads fail. -/
structure DirCalls where
  opens : Bool
  names : List (List Byte)
  fails : ℕ → Bool

/-- The loop of `main` from the `n`-th read on. `stack n` is what the buffer of `do_one_file` holds
when it is called. -/
def grepNames (file : List Byte → FileCalls) (s : List Byte) (stack : ℕ → ℕ → Byte)
    (fails : ℕ → Bool) : List (List Byte) → ℕ → Option (Word × List Byte)
  | [], n => some (if fails n then (3, str "directory entry read failed\n".toList) else (0, []))
  | name :: names, n =>
    if fails n then some (3, str "directory entry read failed\n".toList)
    else
      let buf := name.take (sbufsize - 1)
      if 0 = buf.length then some (0, [])
      else if chr '.' = cstr buf 0 then grepNames file s stack fails names (n + 1)
      else
        match doOneFile (file (cString buf)) s buf (stack n) with
        | none => none
        | some (r, out) =>
          if 0 ≠ r then some (3, out)
          else (grepNames file s stack fails names (n + 1)).map fun p => (p.1, out ++ p.2)

/-- `main` of `ece391grep.c`: what it returns and what it prints. `search` is what `getargs`
gives. -/
def grepMain (search : Option (List Byte)) (dir : DirCalls) (file : List Byte → FileCalls)
    (stack : ℕ → ℕ → Byte) : Option (Word × List Byte) :=
  match search with
  | none => some (3, str "could not read argument\n".toList)
  | some s =>
    if dir.opens then grepNames file s stack dir.fails dir.names 0
    else some (2, str "directory open failed\n".toList)

/-- A file that `do_one_file` searches as it should. -/
structure FileCalls.Searchable (io : FileCalls) : Prop where
  opens : io.opens = true
  fails (n : ℕ) : io.fails n = false
  closes : io.closes = true
  nonzero : (0 : Byte) ∉ io.content
  fit : LinesFit io.content

/-- The files that are searched: the names that do not begin with a dot. -/
def searched (names : List (List Byte)) : List (List Byte) :=
  names.filter fun name => name.head? ≠ some (chr '.')

theorem grepNames_spec {file : List Byte → FileCalls} {stack : ℕ → ℕ → Byte} {fails : ℕ → Bool}
    {names : List (List Byte)} (hs : (0 : Byte) ∉ s) (hfails : ∀ n, fails n = false)
    (hnames : ∀ name ∈ names, name ≠ [] ∧ name.length < sbufsize)
    (hfiles : ∀ name ∈ searched names, (file (cString name)).Searchable)
    (hstack : ∀ n, stack n bufsize ≠ nl) (n : ℕ) :
    grepNames file s stack fails names n
      = some (0, (searched names).flatMap fun name =>
          report s (cString name) (file (cString name)).content) := by
  induction names generalizing n with
  | nil =>
    rw [grepNames, hfails]
    rfl
  | cons name names ih =>
    obtain ⟨hne, hlt⟩ := hnames name List.mem_cons_self
    have hrest := ih (fun name h => hnames name (List.mem_cons_of_mem _ h))
      (fun name h => hfiles name ?_) (n + 1)
    have htake : name.take (sbufsize - 1) = name := List.take_of_length_le (by omega)
    have hhead : cstr name 0 = chr '.' ↔ name.head? = some (chr '.') := by
      obtain ⟨c, t, rfl⟩ := List.exists_cons_of_ne_nil hne
      exact Option.some_inj.symm
    have hlen : 0 ≠ name.length := (List.length_pos_iff.mpr hne).ne
    rw [grepNames, if_neg (by rw [hfails]; decide)]
    dsimp only
    rw [htake, if_neg hlen]
    by_cases hdot : name.head? = some (chr '.')
    · have hskip : searched (name :: names) = searched names :=
        List.filter_cons_of_neg (by simp [hdot])
      rw [if_pos (hhead.mpr hdot).symm, hskip]
      exact hrest
    · have htaken : searched (name :: names) = name :: searched names :=
        List.filter_cons_of_pos (by simp [hdot])
      have hfile := hfiles name (htaken ▸ List.mem_cons_self)
      rw [if_neg fun h => hdot (hhead.mp h.symm), doOneFile_prints hfile.opens hfile.fails
        hfile.closes hs hfile.nonzero hfile.fit (hstack n), htaken, List.flatMap_cons, hrest]
      rfl
    · rw [searched, List.filter_cons]
      split_ifs
      · exact List.mem_cons_of_mem _ h
      · exact h

/-- **`grep`** prints the lines of the files in the directory that contain the pattern, each after
the name of its file, in their order. The name is what the read gives up to the first zero byte. The
files whose names begin with a dot are left out. -/
theorem grepMain_prints {dir : DirCalls} {file : List Byte → FileCalls} {stack : ℕ → ℕ → Byte}
    (hs : (0 : Byte) ∉ s) (hopens : dir.opens = true) (hfails : ∀ n, dir.fails n = false)
    (hnames : ∀ name ∈ dir.names, name ≠ [] ∧ name.length < sbufsize)
    (hfiles : ∀ name ∈ searched dir.names, (file (cString name)).Searchable)
    (hstack : ∀ n, stack n bufsize ≠ nl) :
    grepMain (some s) dir file stack
      = some (0, (searched dir.names).flatMap fun name =>
          report s (cString name) (file (cString name)).content) :=
  (if_pos hopens).trans (grepNames_spec hs hfails hnames hfiles hstack 0)

/-- Two files in a directory. -/
def sampleFiles (name : List Byte) : FileCalls where
  opens := true
  content := if name = str "a".toList then str "halt\nexecute\nrelax".toList else str "lap".toList
  fails _ := false
  closes := true

/-- A name as `dir_read` gives it. -/
def sampleDirName (name : Byte) : List Byte := name :: List.replicate 31 0

/-- The pattern is in the last line of the first file and in that of the second. -/
theorem grepMain_prints_sample :
    grepMain (some (str "la".toList))
      ⟨true, [sampleDirName (chr '.'), sampleDirName (chr 'a'), sampleDirName (chr 'b')],
        fun _ => false⟩ sampleFiles (fun _ _ => 0)
      = some (0, str "a:relax\nb:lap\n".toList) := by
  have hfiles : ∀ name, (sampleFiles name).Searchable := fun name => by
    have hcontent : (sampleFiles name).content = str "halt\nexecute\nrelax".toList ∨
        (sampleFiles name).content = str "lap".toList := ite_eq_or_eq _ _ _
    refine ⟨rfl, fun _ => rfl, rfl, ?_, ?_⟩
    · rcases hcontent with h | h <;> rw [h] <;> decide
    · unfold LinesFit
      rcases hcontent with h | h <;> rw [h] <;> decide
  refine (grepMain_prints (by decide) rfl (fun _ => rfl) (by decide) (fun name _ => hfiles _)
    fun _ => by decide).trans ?_
  decide

end HieUnix
