import HieUnix.LineEditing

/-!
# The modifier flags and the keys that are held

The two shift keys share one flag, which the release of either clears. In every run in which no
shift key is released while the other one is held, the flags say which modifiers are held, the Caps
Lock flag how often that key has been pressed and released, and each key has the character of the
key map for them (`flagsRight_of_safe`).
-/

namespace HieUnix

open Function

/-! ## Keys -/

/-- The make code of a key, from its make or break code. -/
def keyCode (c : Byte) : Byte := c &&& 0x7F

/-- What the hands do: the keys that are down, by their make codes, and how often Caps Lock has been
pressed and released. -/
structure Hands where
  held : Byte → Bool
  capsPresses : ℕ

/-- The keys after a scan code. -/
def Hands.scan (h : Hands) (c : Byte) : Hands where
  held := update h.held (keyCode c) (!isBreak c)
  capsPresses := if c = 186 then h.capsPresses + 1 else h.capsPresses

/-- The keys after an event. -/
def recordHands (_ : Tty) (op : TtyOp) (_ : Tty) (h : Hands) : Hands :=
  match op with
  | .key _ _ c => h.scan c
  | _ => h

/-- The runs of the terminals with the keys that are held, none at first. A key that is held may
send its make code again. -/
def handsLTS (m : Machine) : LTS (Tty × Hands) TtyOp :=
  (ttyLTS m).history (fun _ => ⟨fun _ => false, 0⟩) recordHands

/-- No shift key is released while the other one is held. -/
def ShiftsApart (q : Tty × Hands) : TtyOp → Prop
  | .key _ _ c => (c = 170 → q.2.held 54 = false) ∧ (c = 182 → q.2.held 42 = false)
  | _ => True

/-! ## The property -/

/-- Whether a shift key is held. -/
def Hands.shift (h : Hands) : Bool := h.held 42 || h.held 54

/-- Whether Caps Lock is on. -/
def Hands.capsLock (h : Hands) : Bool := h.capsPresses % 2 = 1

/-- The key map for Caps Lock and the shift keys. -/
def selectedKeymap (capsLock shift : Bool) : List Byte :=
  match capsLock, shift with
  | false, false => keymap
  | true, false => capsLockKeymap
  | false, true => shiftKeymap
  | true, true => shiftClKeymap

/-- The flags other than the one of the shift keys say what the hands do. -/
structure FlagsFollow (mods : Modifiers) (h : Hands) : Prop where
  ctrl : mods.ctrlFlag = h.held 29
  alt : mods.altFlag = h.held 56
  capsLock : mods.capsLockFlag = h.capsLock

/-- The flags say what the hands do, and each ordinary key has the character of the key map for
it. -/
structure FlagsRight (mods : Modifiers) (h : Hands) : Prop extends FlagsFollow mods h where
  shift : mods.shiftFlag = h.shift
  lookup : ∀ c, isBreak c = false → fnKey c = false →
    getKey mods c = (selectedKeymap h.capsLock h.shift).getD c.toNat 0

variable {m : Machine} {k : Kernel} {fr : Frame} {tty tty' : Tty} {mods : Modifiers} {h : Hands}
  {q q' : Tty × Hands} {op : TtyOp} {c : Byte}

/-- The character of a key is that of the key map for the flags. -/
theorem getKey_eq (mods : Modifiers) (c : Byte) :
    getKey mods c = (selectedKeymap mods.capsLockFlag mods.shiftFlag).getD c.toNat 0 := by
  rw [getKey]
  cases mods.shiftFlag <;> cases mods.capsLockFlag <;> rfl

theorem flagsRight_iff : FlagsRight mods h ↔ FlagsFollow mods h ∧ mods.shiftFlag = h.shift := by
  constructor
  · intro hright
    exact ⟨hright.toFlagsFollow, hright.shift⟩
  · rintro ⟨hfollow, hshift⟩
    refine ⟨hfollow, hshift, ?_⟩
    intro c _ _
    rw [getKey_eq, hfollow.capsLock, hshift]

/-- The flags after a scan code. -/
theorem doHandleKeyboard_mods (m : Machine) (k : Kernel) (fr : Frame) (tty : Tty) (c : Byte) :
    (doHandleKeyboard m k fr tty c).2.2.mods
      = if isBreak c then breakKey tty.mods c else makeKey tty.mods c := by
  rcases doHandleKeyboard_cases m k fr tty c with
    ⟨hbreak, hcase⟩ | ⟨hmake, -, hcase⟩ | ⟨hmake, newNum, -, hcase⟩
  · rw [hcase, hbreak]
    rfl
  · rw [hcase, hmake]
    exact typeKey_mods (madeKey tty c) c _
  · have hchange := (changeScreen_line k (acknowledge (madeKey tty c) kbIrqLine) newNum).2.2
    rw [hmake]
    rcases hcase with hcase | hcase
    · rw [hcase]
      exact hchange
    · rw [hcase]
      exact hchange

/-! ## One scan code -/

/-- A make code is the code of its key. -/
theorem keyCode_make : ∀ c : Byte, isBreak c = false → keyCode c = c := by decide

/-- The break codes of the modifiers. -/
theorem keyCode_break : ∀ c : Byte, isBreak c = true →
    (keyCode c = 42 ↔ c = 170) ∧ (keyCode c = 54 ↔ c = 182) ∧ (keyCode c = 29 ↔ c = 157) ∧
      (keyCode c = 56 ↔ c = 184) := by
  decide

theorem ne_capsLock_of_make (hmake : isBreak c = false) : c ≠ 186 := by
  rintro rfl
  cases hmake

theorem Hands.scan_held (h : Hands) (c : Byte) {key : Byte} :
    (h.scan c).held key = if keyCode c = key then !isBreak c else h.held key := by
  show update h.held (keyCode c) (!isBreak c) key = _
  rw [update_apply]
  simp only [eq_comm]

/-- The fields of the flags after a break code. -/
theorem breakKey_eq (mods : Modifiers) (c : Byte) :
    breakKey mods c =
      { shiftFlag := if c = 170 ∨ c = 182 then false else mods.shiftFlag
        capsLockFlag := if c = 186 then !mods.capsLockFlag else mods.capsLockFlag
        ctrlFlag := if c = 157 then false else mods.ctrlFlag
        altFlag := if c = 184 then false else mods.altFlag } := by
  rw [breakKey]
  split_ifs <;> simp_all

/-- The fields of the flags after a make code. -/
theorem makeKey_eq (mods : Modifiers) (c : Byte) :
    makeKey mods c =
      { shiftFlag := if c = 42 ∨ c = 54 then true else mods.shiftFlag
        capsLockFlag := mods.capsLockFlag
        ctrlFlag := if c = 29 then true else mods.ctrlFlag
        altFlag := if c = 56 then true else mods.altFlag } := by
  rw [makeKey]
  split_ifs <;> simp_all

/-- Pressing Caps Lock once more. -/
theorem capsLock_succ (n : ℕ) : decide ((n + 1) % 2 = 1) = !decide (n % 2 = 1) := by
  rcases Nat.mod_two_eq_zero_or_one n with h | h
  · rw [h, Nat.add_mod, h]
    rfl
  · rw [h, Nat.add_mod, h]
    rfl

/-- **A scan code** keeps the flags of Control, Alt and Caps Lock right. -/
theorem FlagsFollow.scan (hfollow : FlagsFollow mods h) (c : Byte) :
    FlagsFollow (if isBreak c then breakKey mods c else makeKey mods c) (h.scan c) := by
  cases hbreak : isBreak c with
  | true =>
    obtain ⟨-, -, hctrl, halt⟩ := keyCode_break c hbreak
    rw [if_pos rfl, breakKey_eq]
    constructor
    · rw [Hands.scan_held, hbreak, hfollow.ctrl]
      simp only [hctrl, Bool.not_true]
    · rw [Hands.scan_held, hbreak, hfollow.alt]
      simp only [halt, Bool.not_true]
    · dsimp only
      rw [Hands.capsLock, Hands.scan, hfollow.capsLock]
      dsimp only
      split_ifs
      · rw [capsLock_succ, Hands.capsLock]
      · rfl
  | false =>
    have hcode := keyCode_make c hbreak
    rw [if_neg Bool.false_ne_true, makeKey_eq]
    constructor
    · rw [Hands.scan_held, hbreak, hfollow.ctrl, hcode]
      rfl
    · rw [Hands.scan_held, hbreak, hfollow.alt, hcode]
      rfl
    · dsimp only
      rw [Hands.capsLock, Hands.scan, if_neg (ne_capsLock_of_make hbreak), hfollow.capsLock]
      rfl

/-- The shift flag after a scan code is right unless one shift key is released while the other one
is held. -/
theorem shiftFlag_scan (hshift : mods.shiftFlag = h.shift) (c : Byte) :
    (if isBreak c then breakKey mods c else makeKey mods c).shiftFlag = (h.scan c).shift ↔
      (c = 170 → h.held 54 = false) ∧ (c = 182 → h.held 42 = false) := by
  rw [Hands.shift] at hshift
  rw [Hands.shift, Hands.scan_held, Hands.scan_held]
  cases hbreak : isBreak c with
  | true =>
    obtain ⟨hleft, hright, -, -⟩ := keyCode_break c hbreak
    rw [if_pos rfl, breakKey_eq]
    dsimp only
    rw [hshift]
    simp only [hleft, hright, Bool.not_true]
    by_cases h170 : c = 170
    · subst h170
      cases h.held 54 <;> simp
    · by_cases h182 : c = 182
      · subst h182
        cases h.held 42 <;> simp
      · rw [if_neg (not_or.mpr ⟨h170, h182⟩), if_neg h170, if_neg h182]
        exact iff_of_true rfl ⟨fun h => absurd h h170, fun h => absurd h h182⟩
  | false =>
    have hne : c ≠ 170 ∧ c ≠ 182 := by
      constructor
      · rintro rfl
        cases hbreak
      · rintro rfl
        cases hbreak
    have hcode := keyCode_make c hbreak
    rw [if_neg Bool.false_ne_true, makeKey_eq]
    refine iff_of_true ?_ ⟨fun h => absurd h hne.1, fun h => absurd h hne.2⟩
    dsimp only
    rw [hshift, hcode]
    by_cases h42 : c = 42
    · simp [h42]
    · by_cases h54 : c = 54
      · simp [h54]
      · rw [if_neg (not_or.mpr ⟨h42, h54⟩), if_neg h42, if_neg h54]

/-! ## Runs -/

/-- **One event** keeps the flags right unless it is the release of a shift key while the other one
is held. -/
theorem handsLTS_step (hst : (handsLTS m).step q op q') :
    (FlagsFollow q.1.mods q.2 → FlagsFollow q'.1.mods q'.2) ∧
      (FlagsRight q.1.mods q.2 → (FlagsRight q'.1.mods q'.2 ↔ ShiftsApart q op)) := by
  obtain ⟨⟨-, hrun⟩, hrecord⟩ := hst
  rw [hrun, hrecord]
  cases op with
  | key k fr c =>
    show (FlagsFollow q.1.mods q.2 → FlagsFollow (doHandleKeyboard m k fr q.1 c).2.2.mods _) ∧
      (FlagsRight q.1.mods q.2 → (FlagsRight (doHandleKeyboard m k fr q.1 c).2.2.mods _ ↔ _))
    rw [doHandleKeyboard_mods]
    refine ⟨fun hfollow => hfollow.scan c, fun hright => ?_⟩
    rw [flagsRight_iff, recordHands, and_iff_right (hright.toFlagsFollow.scan c),
      shiftFlag_scan hright.shift c]
    rfl
  | afterSwitch => exact ⟨id, fun hright => iff_of_true hright trivial⟩
  | putc t c => exact ⟨id, fun hright => iff_of_true hright trivial⟩
  | read t mem buf nbytes => exact ⟨id, fun hright => iff_of_true hright trivial⟩
  | click newPos => exact ⟨id, fun hright => iff_of_true hright trivial⟩

theorem flagsFollow_boot (mem : ℤ → Byte) (banner : List Byte) :
    FlagsFollow (bootTty mem banner).mods ⟨fun _ => false, 0⟩ := ⟨rfl, rfl, rfl⟩

/-- **The flags follow the keys.** In every run the flags of Control, Alt and Caps Lock say what the
hands do. In every run in which no shift key is released while the other one is held all the flags
do, and each ordinary key has the character of the key map for Caps Lock and the shift keys; a
further event keeps it so if and only if it is no such release. -/
theorem flagsRight_of_safe (m : Machine) :
    (∀ q, (handsLTS m).Reach LTS.always q → FlagsFollow q.1.mods q.2) ∧
    ∀ q, (handsLTS m).Reach ShiftsApart q → FlagsRight q.1.mods q.2 ∧
      ∀ op q', (handsLTS m).step q op q' → (FlagsRight q'.1.mods q'.2 ↔ ShiftsApart q op) := by
  constructor
  · intro q hreach
    apply hreach.invariant (I := fun q => FlagsFollow q.1.mods q.2)
    · rintro q ⟨⟨mem, banner, htty⟩, hstart⟩
      rw [htty, hstart]
      exact flagsFollow_boot mem banner
    · intro q op q' hfollow _ hst
      exact (handsLTS_step hst).1 hfollow
  · intro q hreach
    have hright : FlagsRight q.1.mods q.2 := by
      apply hreach.invariant (I := fun q => FlagsRight q.1.mods q.2)
      · rintro q ⟨⟨mem, banner, htty⟩, hstart⟩
        rw [htty, hstart]
        exact flagsRight_iff.mpr ⟨flagsFollow_boot mem banner, rfl⟩
      · intro q op q' hright hok hst
        exact ((handsLTS_step hst).2 hright).mpr hok
    exact ⟨hright, fun op q' hst => (handsLTS_step hst).2 hright⟩

/-- A press or a release of a key. -/
def sampleScan (tty : Tty) (c : Byte) : TtyOp :=
  .key { sampleBoot with currentActiveTerminal := tty.active } (Frame.top 0) c

/-- The state after it. -/
def sampleScanned (q : Tty × Hands) (c : Byte) : Tty × Hands :=
  ((sampleScan q.1 c).run sampleMachine q.1, q.2.scan c)

/-- The terminals at boot, with no key held. -/
def sampleHands : Tty × Hands := (bootTty (fun _ => 0) [], ⟨fun _ => false, 0⟩)

theorem sampleScanned_step (q : Tty × Hands) (c : Byte) :
    (handsLTS sampleMachine).step q (sampleScan q.1 c) (sampleScanned q c) :=
  ⟨⟨rfl, rfl⟩, rfl⟩

/-- Both shift keys are pressed and the left one is released: the flag is clear while the right one
is held. -/
theorem not_flagsRight_bothShifts :
    ∃ q, (handsLTS sampleMachine).Reach LTS.always q ∧ ¬ FlagsRight q.1.mods q.2 := by
  have h₀ : (handsLTS sampleMachine).Reach LTS.always sampleHands :=
    .init ⟨⟨fun _ => 0, [], rfl⟩, rfl⟩
  have hright₀ : FlagsRight sampleHands.1.mods sampleHands.2 :=
    flagsRight_iff.mpr ⟨flagsFollow_boot _ _, rfl⟩
  have hleft := sampleScanned_step sampleHands 42
  have hboth := sampleScanned_step (sampleScanned sampleHands 42) 54
  have hrelease := sampleScanned_step (sampleScanned (sampleScanned sampleHands 42) 54) 170
  have hright₁ := ((handsLTS_step hleft).2 hright₀).mpr ⟨nofun, nofun⟩
  have hright₂ := ((handsLTS_step hboth).2 hright₁).mpr ⟨nofun, nofun⟩
  refine ⟨_, ((h₀.step trivial hleft).step trivial hboth).step trivial hrelease, ?_⟩
  intro hright
  have happart := (((handsLTS_step hrelease).2 hright₂).mp hright).1 rfl
  exact absurd happart (by decide)

/-- Any scan code but the release of a shift key may come next. -/
theorem reach_sampleScanned {q : Tty × Hands} {c : Byte}
    (h : (handsLTS sampleMachine).Reach ShiftsApart q) (hc : c ≠ 170 ∧ c ≠ 182) :
    (handsLTS sampleMachine).Reach ShiftsApart (sampleScanned q c) :=
  h.step (a := sampleScan q.1 c) ⟨fun h170 => absurd h170 hc.1, fun h182 => absurd h182 hc.2⟩
    (sampleScanned_step q c)

/-- A letter with the left shift key held. -/
def sampleShifted : Tty × Hands := [42, 30, 158].foldl sampleScanned sampleHands

/-- That key is released, Caps Lock is pressed and released, and another letter, whose make code
comes twice, is typed with the right shift key held. -/
def sampleLettered : Tty × Hands :=
  [58, 186, 54, 16, 16].foldl sampleScanned (sampleScanned sampleShifted 170)

/-- The right shift key is held and Caps Lock is on, so that the letter is a small one; the release
of the key clears the flag. -/
theorem flagsRight_of_safe_sample :
    FlagsRight sampleLettered.1.mods sampleLettered.2 ∧
    sampleLettered.1.mods = ⟨true, true, false, false⟩ ∧
    getKey sampleLettered.1.mods 16 = chr 'q' ∧
    FlagsRight (sampleScanned sampleLettered 182).1.mods (sampleScanned sampleLettered 182).2 := by
  have h₀ : (handsLTS sampleMachine).Reach ShiftsApart sampleHands :=
    .init ⟨⟨fun _ => 0, [], rfl⟩, rfl⟩
  have hshifted : (handsLTS sampleMachine).Reach ShiftsApart sampleShifted :=
    reach_sampleScanned (reach_sampleScanned (reach_sampleScanned h₀ (by decide)) (by decide))
      (by decide)
  have hreleased : (handsLTS sampleMachine).Reach ShiftsApart (sampleScanned sampleShifted 170) :=
    hshifted.step (a := sampleScan sampleShifted.1 170) ⟨fun _ => by decide, nofun⟩
      (sampleScanned_step _ _)
  have hreach : (handsLTS sampleMachine).Reach ShiftsApart sampleLettered :=
    reach_sampleScanned (reach_sampleScanned (reach_sampleScanned (reach_sampleScanned
      (reach_sampleScanned hreleased (by decide)) (by decide)) (by decide)) (by decide)) (by decide)
  obtain ⟨hright, hnext⟩ := (flagsRight_of_safe sampleMachine).2 sampleLettered hreach
  have hmods : sampleLettered.1.mods = ⟨true, true, false, false⟩ := by decide +kernel
  refine ⟨hright, hmods, ?_, ?_⟩
  · rw [hmods]
    decide
  · exact (hnext _ _ (sampleScanned_step _ _)).mpr ⟨nofun, fun _ => by decide +kernel⟩

end HieUnix
