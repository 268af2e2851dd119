import HieUnix.UserAccess

/-!
# `getargs`, `vidmap` and the command of `execute`

The calls that take a pointer and no descriptor, with their accesses to the memory of the caller
recorded. `execute` reads its command byte by byte in several loops: they read the whole string and
nothing else, and what they find is what `execute` is given.
-/

namespace HieUnix

variable {mem : Memory} {p a : Word}

/-! ## `getargs` and `vidmap` -/

/-- `getargs`. The comparison with `argument_buffer_size` is unsigned, the loop that clears the
buffer is signed, and the length of the `memcpy` is unsigned again. -/
def sysGetargs (p : Pcb) (mem : Memory) (buf nbytes : Word) : Traced (Word × Memory) :=
  if buf = 0 ∨ nbytes < p.argumentBufferSize ∨ p.argumentBufferSize ≤ 1 then pure (error, mem)
  else if accessOk buf = error then pure (error, mem)
  else do
    let mem ← Traced.fill mem buf 0 nbytes.toInt.toNat
    let n := if p.argumentBufferSize < nbytes then p.argumentBufferSize else nbytes
    let mem ← Traced.patch mem buf n.toNat p.argumentBuffer
    pure (0, mem)

/-- `add_new_pt` of the address that `vidmap` maps. -/
def addNewPt (m : Machine) (k : Kernel) (physical : Word) : Kernel :=
  { k with
    videoPde := m.ptVid1 ||| 0x4 ||| 0x2 ||| 0x1
    videoPte := (physical &&& 0xFFFFF000) ||| 7 }

/-- `vidmap`. -/
def sysVidmap (m : Machine) (k : Kernel) (mem : Memory) (screenStart : Word) :
    Traced (Word × Kernel × Memory) :=
  if screenStart = 0 then pure (error, k, mem)
  else if accessOk screenStart = error then pure (error, k, mem)
  else do
    let k := addNewPt m k 0xB8000
    let mem ← Traced.store32 mem screenStart videoAssignedMemAddr
    pure (0, k, mem)

/-! ## `execute` -/

/-- The loop of `strlen` on a string at `p`. An address space has no string longer than it. -/
def strlenLoopT (mem : Memory) (p : Word) : ℕ → ℕ → Traced ℕ
  | 0, len => pure len
  | fuel + 1, len => do
    let c ← Traced.load mem (p + BitVec.ofNat 32 len)
    if c ≠ 0 then strlenLoopT mem p fuel (len + 1) else pure len

/-- The bytes of a string at `p`, without the zero byte. -/
def userString (mem : Memory) (p : Word) : List Byte := mem.bytes p (strlen (mem.view p) (2 ^ 32))

/-- The loop of `execute` that copies the command from `i` on, with `strlen` in its condition. -/
def copyCommandLoopT (mem : Memory) (p : Word) : ℕ → ℕ → Traced (List Byte)
  | 0, _ => do
    let _ ← strlenLoopT mem p (2 ^ 32) 0
    pure []
  | fuel + 1, i => do
    let len ← strlenLoopT mem p (2 ^ 32) 0
    if i < len then do
      let c ← Traced.load mem (p + BitVec.ofNat 32 i)
      let rest ← copyCommandLoopT mem p fuel (i + 1)
      pure (c :: rest)
    else pure []

/-- The first loop of `parse` from `i` on: where the leading spaces end. -/
def skipSpacesT (mem : Memory) (p : Word) : ℕ → ℕ → Traced ℕ
  | 0, i => pure i
  | fuel + 1, i => do
    let c ← Traced.load mem (p + BitVec.ofNat 32 i)
    if c = chr ' ' then skipSpacesT mem p fuel (i + 1) else pure i

/-- The second loop of `parse` from `i` on: the name of the program. -/
def parseNameT (mem : Memory) (p : Word) : ℕ → ℕ → Traced (List Byte)
  | 0, _ => pure []
  | fuel + 1, i => do
    let c ← Traced.load mem (p + BitVec.ofNat 32 i)
    if c ≠ chr ' ' ∧ c ≠ 0 then do
      let rest ← parseNameT mem p fuel (i + 1)
      pure (c :: rest)
    else pure []

/-- `execute` of a command at `p`: it is read by `strlen`, the copy and the first `parse`, and its
address is never checked. -/
def executeT (m : Machine) (k : Kernel) (fr : Frame) (mem : Memory) (p : Word) :
    Traced (Control × Kernel) :=
  if p = 0 then pure (execute m k fr none)
  else do
    let c ← Traced.load mem p
    if c = 0 then pure (execute m k fr (some []))
    else do
      let _ ← copyCommandLoopT mem p maxBufferSize 0
      let i ← skipSpacesT mem p (2 ^ 32) 0
      let _ ← parseNameT mem p (2 ^ 32 - i) i
      pure (execute m k fr (some (userString mem p)))

/-- The loop of `strlen` reads every byte of the string from `len` on. -/
theorem touches_strlenLoopT {fuel len : ℕ} :
    (strlenLoopT mem p fuel len).Touches a ↔
      ∃ j, len ≤ j ∧ j < len + fuel ∧ a = p + BitVec.ofNat 32 j ∧
        ∀ l, len ≤ l → l < j → mem.view p l ≠ 0 := by
  induction fuel generalizing len with
  | zero =>
    refine iff_of_false (Traced.not_touches_pure _) ?_
    rintro ⟨j, h1, h2, -⟩
    omega
  | succ fuel ih =>
    rw [strlenLoopT, Traced.touches_bind, Traced.touches_load, Traced.val_load]
    by_cases hz : mem (p + BitVec.ofNat 32 len) = 0
    · rw [if_neg (not_not.mpr hz)]
      constructor
      · intro h
        have ha := h.resolve_right (Traced.not_touches_pure _)
        exact ⟨len, le_rfl, by omega, ha, fun l h1 h2 => by omega⟩
      · rintro ⟨j, h1, -, rfl, hnz⟩
        -- past its zero byte the string is not read
        rcases Nat.eq_or_lt_of_le h1 with rfl | hlt
        · exact Or.inl rfl
        · exact absurd hz (hnz len le_rfl hlt)
    · rw [if_pos hz, ih]
      constructor
      · rintro (rfl | ⟨j, h1, h2, rfl, hnz⟩)
        · exact ⟨len, le_rfl, by omega, rfl, fun l h1 h2 => by omega⟩
        · refine ⟨j, by omega, by omega, rfl, fun l hl hlj => ?_⟩
          rcases Nat.eq_or_lt_of_le hl with rfl | hlt
          · exact hz
          · exact hnz l hlt hlj
      · rintro ⟨j, h1, h2, rfl, hnz⟩
        rcases Nat.eq_or_lt_of_le h1 with rfl | hlt
        · exact Or.inl rfl
        · exact Or.inr ⟨j, hlt, by omega, rfl, fun l hl hlj => hnz l (by omega) hlj⟩

/-- `strlen` reads the whole string. -/
theorem touches_strlenLoopT_zero : (strlenLoopT mem p (2 ^ 32) 0).Touches a ↔ InString mem p a := by
  rw [touches_strlenLoopT]
  unfold InString
  constructor
  · rintro ⟨j, -, hj, ha, hnz⟩
    exact ⟨j, by omega, ha, fun l hl => hnz l (Nat.zero_le l) hl⟩
  · rintro ⟨j, hj, ha, hnz⟩
    exact ⟨j, Nat.zero_le j, by omega, ha, fun l _ hl => hnz l hl⟩

theorem val_strlenLoopT (mem : Memory) (p : Word) (fuel len : ℕ) :
    (strlenLoopT mem p fuel len).val = strlenLoop (mem.view p) fuel len := by
  induction fuel generalizing len with
  | zero => rfl
  | succ fuel ih =>
    rw [strlenLoopT, strlenLoop, Traced.val_bind, Traced.val_load, ← ih]
    unfold Memory.view
    split <;> rfl

/-- The copy of the command stays in the string. -/
theorem touches_copyCommandLoopT {fuel i : ℕ} (h : (copyCommandLoopT mem p fuel i).Touches a)
    (hi : i + fuel ≤ 2 ^ 32) : InString mem p a := by
  induction fuel generalizing i with
  | zero =>
    rw [copyCommandLoopT, Traced.touches_bind, touches_strlenLoopT_zero] at h
    exact h.resolve_right (Traced.not_touches_pure _)
  | succ fuel ih =>
    -- every turn measures the string again before it copies a byte
    rw [copyCommandLoopT, Traced.touches_bind, touches_strlenLoopT_zero, val_strlenLoopT] at h
    rcases h with h | h
    · exact h
    · split at h
      · rename_i hlt
        simp only [Traced.touches_bind, Traced.touches_load, Traced.not_touches_pure,
          or_false] at h
        rcases h with rfl | h
        · exact ⟨i, by omega, rfl, fun l hl =>
            ne_zero_of_lt_strlenLoop (Nat.zero_le l) (hl.trans hlt)⟩
        · exact ih h (by omega)
      · exact absurd h (Traced.not_touches_pure _)

/-- The loop over the leading spaces stays in the string, and stops in it. -/
theorem touches_skipSpacesT {fuel i : ℕ} (hi : ∀ l < i, mem.view p l ≠ 0)
    (hfuel : i + fuel ≤ 2 ^ 32) :
    (∀ a, (skipSpacesT mem p fuel i).Touches a → InString mem p a) ∧
      (skipSpacesT mem p fuel i).val ≤ i + fuel ∧
      ∀ l < (skipSpacesT mem p fuel i).val, mem.view p l ≠ 0 := by
  induction fuel generalizing i with
  | zero => exact ⟨fun a h => absurd h (Traced.not_touches_pure _), le_rfl, hi⟩
  | succ fuel ih =>
    by_cases hsp : mem (p + BitVec.ofNat 32 i) = chr ' '
    · have hval : (skipSpacesT mem p (fuel + 1) i).val = (skipSpacesT mem p fuel (i + 1)).val := by
        rw [skipSpacesT, Traced.val_bind, Traced.val_load, if_pos hsp]
      have hi' : ∀ l < i + 1, mem.view p l ≠ 0 := by
        intro l hl
        rcases Nat.lt_succ_iff_lt_or_eq.mp hl with hlt | rfl
        · exact hi l hlt
        · rw [Memory.view, hsp]
          decide
      obtain ⟨htouch, hle, hnz⟩ := ih hi' (by omega)
      rw [hval]
      refine ⟨fun a h => ?_, by omega, hnz⟩
      rw [skipSpacesT, Traced.touches_bind, Traced.touches_load, Traced.val_load, if_pos hsp] at h
      rcases h with rfl | h
      · exact ⟨i, by omega, rfl, hi⟩
      · exact htouch a h
    -- the byte read is in the string whether it is a space or not
    · have hval : (skipSpacesT mem p (fuel + 1) i).val = i := by
        rw [skipSpacesT, Traced.val_bind, Traced.val_load, if_neg hsp, Traced.val_pure]
      rw [hval]
      refine ⟨fun a h => ?_, Nat.le_add_right i _, hi⟩
      rw [skipSpacesT, Traced.touches_bind, Traced.touches_load, Traced.val_load, if_neg hsp] at h
      rcases h with rfl | h
      · exact ⟨i, by omega, rfl, hi⟩
      · exact absurd h (Traced.not_touches_pure _)

/-- The loop over the name stays in the string. -/
theorem touches_parseNameT {fuel i : ℕ} (h : (parseNameT mem p fuel i).Touches a)
    (hi : ∀ l < i, mem.view p l ≠ 0) (hfuel : i + fuel ≤ 2 ^ 32) : InString mem p a := by
  induction fuel generalizing i with
  | zero => exact absurd h (Traced.not_touches_pure _)
  | succ fuel ih =>
    rw [parseNameT, Traced.touches_bind, Traced.touches_load, Traced.val_load] at h
    rcases h with rfl | h
    · exact ⟨i, by omega, rfl, hi⟩
    · split at h
      · rename_i hname
        simp only [Traced.touches_bind, Traced.not_touches_pure, or_false] at h
        refine ih h (fun l hl => ?_) (by omega)
        rcases Nat.lt_succ_iff_lt_or_eq.mp hl with hlt | rfl
        · exact hi l hlt
        · exact hname.2
      · exact absurd h (Traced.not_touches_pure _)

/-! What the loops find. -/

@[simp] theorem length_userString (mem : Memory) (p : Word) :
    (userString mem p).length = strlen (mem.view p) (2 ^ 32) := by
  unfold userString
  rw [Memory.length_bytes]

/-- The rest of a string from one of its bytes on. -/
theorem drop_userString {i : ℕ} (h : i < strlen (mem.view p) (2 ^ 32)) :
    (userString mem p).drop i = mem.view p i :: (userString mem p).drop (i + 1) := by
  unfold userString
  rw [List.drop_eq_getElem_cons (by rwa [Memory.length_bytes]), Memory.getElem_bytes]

/-- The rest of a string from its end on. -/
theorem drop_userString_of_le {i : ℕ} (h : strlen (mem.view p) (2 ^ 32) ≤ i) :
    (userString mem p).drop i = [] := by
  rw [List.drop_eq_nil_iff, length_userString]
  exact h

/-- The copy is the beginning of the command. -/
theorem val_copyCommandLoopT (mem : Memory) (p : Word) (fuel i : ℕ) :
    (copyCommandLoopT mem p fuel i).val = ((userString mem p).drop i).take fuel := by
  induction fuel generalizing i with
  | zero => rfl
  | succ fuel ih =>
    rw [copyCommandLoopT, Traced.val_bind, val_strlenLoopT]
    show (if i < strlen (mem.view p) (2 ^ 32) then _ else _ : Traced (List Byte)).val = _
    by_cases hlt : i < strlen (mem.view p) (2 ^ 32)
    · rw [if_pos hlt, drop_userString hlt, List.take_succ_cons, ← ih]
      rfl
    · rw [if_neg hlt, drop_userString_of_le (Nat.not_lt.mp hlt), List.take_nil]
      rfl

/-- A string of the whole address space apart, the byte at its end is zero. -/
theorem view_strlen_eq_zero {i fuel : ℕ} (hi : i ≤ strlen (mem.view p) (2 ^ 32))
    (hlt : ¬ i < strlen (mem.view p) (2 ^ 32)) (hfuel : i + (fuel + 1) = 2 ^ 32) :
    mem.view p i = 0 := by
  have hend : i = strlen (mem.view p) (2 ^ 32) := by omega
  rw [hend]
  apply eq_zero_of_strlenLoop_lt
  show strlen (mem.view p) (2 ^ 32) < _
  omega

/-- The first loop of `parse` drops the leading spaces. -/
theorem val_skipSpacesT (mem : Memory) (p : Word) {fuel i : ℕ} (hi : i ≤ strlen (mem.view p) (2 ^ 32))
    (hfuel : i + fuel = 2 ^ 32) :
    (skipSpacesT mem p fuel i).val ≤ strlen (mem.view p) (2 ^ 32) ∧
      (userString mem p).drop (skipSpacesT mem p fuel i).val
        = ((userString mem p).drop i).dropWhile (· == chr ' ') := by
  induction fuel generalizing i with
  | zero =>
    have hle := strlen_le (mem.view p) (2 ^ 32)
    have hend : strlen (mem.view p) (2 ^ 32) ≤ i := by omega
    refine ⟨hi, ?_⟩
    show (userString mem p).drop i = _
    rw [drop_userString_of_le hend, List.dropWhile_nil]
  | succ fuel ih =>
    rw [skipSpacesT, Traced.val_bind, Traced.val_load]
    by_cases hlt : i < strlen (mem.view p) (2 ^ 32)
    · rw [drop_userString hlt]
      by_cases hsp : mem (p + BitVec.ofNat 32 i) = chr ' '
      · have hbeq : (mem.view p i == chr ' ') = true := beq_iff_eq.mpr hsp
        rw [if_pos hsp, List.dropWhile_cons_of_pos (p := (· == chr ' ')) hbeq]
        exact ih hlt (by omega)
      · have hbeq : ¬ (mem.view p i == chr ' ') = true := fun h => hsp (beq_iff_eq.mp h)
        rw [if_neg hsp, List.dropWhile_cons_of_neg (p := (· == chr ' ')) hbeq, ← drop_userString hlt]
        exact ⟨hi, rfl⟩
    · -- at the end of the string there is no space
      have hz := view_strlen_eq_zero hi hlt hfuel
      have hsp : ¬ mem (p + BitVec.ofNat 32 i) = chr ' ' := by
        rw [Memory.view] at hz
        rw [hz]
        decide
      rw [if_neg hsp, drop_userString_of_le (Nat.not_lt.mp hlt), List.dropWhile_nil]
      exact ⟨hi, drop_userString_of_le (Nat.not_lt.mp hlt)⟩

/-- The second loop of `parse` takes the bytes up to the next space. -/
theorem val_parseNameT {fuel i : ℕ} (hi : i ≤ strlen (mem.view p) (2 ^ 32))
    (hfuel : i + fuel = 2 ^ 32) :
    (parseNameT mem p fuel i).val = ((userString mem p).drop i).takeWhile (· != chr ' ') := by
  induction fuel generalizing i with
  | zero =>
    have hle := strlen_le (mem.view p) (2 ^ 32)
    have hend : strlen (mem.view p) (2 ^ 32) ≤ i := by omega
    rw [drop_userString_of_le hend, List.takeWhile_nil]
    rfl
  | succ fuel ih =>
    rw [parseNameT, Traced.val_bind, Traced.val_load]
    by_cases hlt : i < strlen (mem.view p) (2 ^ 32)
    · have hnz : mem (p + BitVec.ofNat 32 i) ≠ 0 :=
        ne_zero_of_lt_strlenLoop (s := mem.view p) (Nat.zero_le i) hlt
      rw [drop_userString hlt]
      by_cases hsp : mem (p + BitVec.ofNat 32 i) = chr ' '
      · have hbne : ¬ (mem.view p i != chr ' ') = true := fun h => (bne_iff_ne.mp h) hsp
        rw [if_neg fun h => h.1 hsp, List.takeWhile_cons_of_neg (p := (· != chr ' ')) hbne]
        rfl
      · have hbne : (mem.view p i != chr ' ') = true := bne_iff_ne.mpr hsp
        rw [if_pos ⟨hsp, hnz⟩, List.takeWhile_cons_of_pos (p := (· != chr ' ')) hbne, ← ih hlt (by omega)]
        rfl
    -- the zero byte ends the loop, as the list ends here
    · have hz := view_strlen_eq_zero hi hlt hfuel
      rw [if_neg fun h => h.2 hz, drop_userString_of_le (Nat.not_lt.mp hlt), List.takeWhile_nil]
      rfl

/-- **The loops of `execute` find what `execute` is given**: the copy is the command up to the size
of `temp_cmd`, and the name is that of `parse`. -/
theorem val_commandLoops (mem : Memory) (p : Word) :
    (copyCommandLoopT mem p maxBufferSize 0).val = (userString mem p).take maxBufferSize ∧
      (parseNameT mem p (2 ^ 32 - (skipSpacesT mem p (2 ^ 32) 0).val)
        (skipSpacesT mem p (2 ^ 32) 0).val).val = (parse (userString mem p)).1 := by
  constructor
  · rw [val_copyCommandLoopT, List.drop_zero]
  · obtain ⟨hle, hdrop⟩ := val_skipSpacesT mem p (Nat.zero_le _) (Nat.zero_add _)
    have hbound := strlen_le (mem.view p) (2 ^ 32)
    rw [val_parseNameT hle, hdrop, List.drop_zero]
    · rfl
    · omega

/-- **`execute` reads its command**, the whole of it and nothing else, unless the pointer is
null. -/
theorem touches_executeT (m : Machine) (k : Kernel) (fr : Frame) (hp : p ≠ 0) :
    (executeT m k fr mem p).Touches a ↔ InString mem p a := by
  have hfirst : p + BitVec.ofNat 32 0 = p := BitVec.add_zero p
  unfold executeT
  rw [if_neg hp, Traced.touches_bind, Traced.touches_load, Traced.val_load]
  by_cases hz : mem p = 0
  · rw [if_pos hz]
    constructor
    · intro h
      have ha := h.resolve_right (Traced.not_touches_pure _)
      exact ⟨0, by decide, ha.trans hfirst.symm, fun l hl => absurd hl (Nat.not_lt_zero l)⟩
    · rintro ⟨j, -, rfl, hnz⟩
      rcases Nat.eq_zero_or_pos j with rfl | hj
      · exact Or.inl hfirst
      · refine absurd ?_ (hnz 0 hj)
        rw [Memory.view, hfirst]
        exact hz
  · rw [if_neg hz]
    have hnone : ∀ l < 0, mem.view p l ≠ 0 := fun l hl => absurd hl (Nat.not_lt_zero l)
    have hskip := touches_skipSpacesT hnone (show 0 + 2 ^ 32 ≤ 2 ^ 32 by decide)
    obtain ⟨hspaces, hle, hstop⟩ := hskip
    simp only [Traced.touches_bind, Traced.not_touches_pure, or_false]
    constructor
    · rintro (h | h | h | h)
      · exact ⟨0, by decide, h.trans hfirst.symm, fun l hl => absurd hl (Nat.not_lt_zero l)⟩
      · exact touches_copyCommandLoopT h (by decide)
      · exact hspaces a h
      · exact touches_parseNameT h hstop (by omega)
    · intro h
      -- the first `strlen` of the copy reads it all
      refine Or.inr (Or.inl ?_)
      rw [copyCommandLoopT, Traced.touches_bind]
      exact Or.inl (touches_strlenLoopT_zero.mpr h)

end HieUnix
