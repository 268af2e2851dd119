import HieUnix.Ownership
import HieUnix.ReadData
import HieUnix.UserAccess

/-!
# Loading a program

`execute` once more, on any image and with the accesses of its loader recorded. The checks look at
40 bytes of the file and at the address where the program starts. The file is loaded when the page,
the control block and the links are in place; its length is not compared with the room from
`EXEC_ADDR` on (`loadsInside_iff`), and what `read_data` returns is not looked at, so a program runs
with what was read before the first bad block (`startsWhole_iff`).
-/

namespace HieUnix

open Function

variable {fs : Fs} {img : Memory} {k k' : Kernel} {fr : Frame} {command : List Byte} {exe : Exe}
  {pt c : Slot} {a : Word}

/-! ## `execute` with its loader recorded -/

/-- `execute` from the second `parse`, which leaves `child`, to the loader. -/
def linkChild (k : Kernel) (fr : Frame) (pcbIdx : Slot) (child : Pcb) : Kernel :=
  let k := k.setPcb pcbIdx fun _ => child
  -- the first program of a terminal has no parent
  let k :=
    match k.termCurrPcb k.currentActiveTerminal with
    | some _ => k.setPcb pcbIdx fun p =>
        { p with parent := some fr.pcb, oldEsp := fr.esp, oldEbp := fr.ebp, oldTssEsp := k.tssEsp0 }
    | none => k.setPcb pcbIdx fun p => { p with parent := none }
  k.setPcb fr.pcb fun p => { p with esp := fr.esp, ebp := fr.ebp, eip := .retHere }

/-- `execute` from the loader to the `iret`, when the loader has left `page`. -/
def enterChild (k : Kernel) (ptIdx pcbIdx : Slot) (page : Memory) : Kernel :=
  let k := { k with progPage := update k.progPage ptIdx page }
  let k := k.setTssEsp0 (getKstackAddr pcbIdx)
  let k := k.setTermCurr k.currentActiveTerminal (some pcbIdx)
  { k with esp := k.tssEsp0 }

/-- `execute` from `initialize_pcb` to the `iret`. -/
def runChildL (fs : Fs) (img : Memory) (k : Kernel) (fr : Frame) (command : List Byte) (exe : Exe)
    (ptIdx pcbIdx : Slot) : Traced Kernel := do
  let k := linkChild k fr pcbIdx (childPcb k command ptIdx pcbIdx)
  let loaded ← readDataT fs img exe.inode 0 (k.progPage ptIdx) execAddr exe.length
  pure (enterChild k ptIdx pcbIdx loaded.2)

/-- `execute`. A null command is `none`. -/
def executeL (fs : Fs) (img : Memory) (k : Kernel) (fr : Frame) (command : Option (List Byte)) :
    Traced (Control × Kernel) :=
  match command with
  | none => pure (.ret error, k)
  | some command =>
    if command = [] then pure (.ret error, k)
    else
      match checkProgram fs img command with
      | none => pure (.ret error, k)
      | some exe =>
        match k.addProgPage with
        | none => pure (.ret error, k)
        | some (ptIdx, k) =>
          match k.addPcb with
          | none => pure (.ret error, k)
          | some (pcbIdx, k) => do
            let k ← runChildL fs img k fr command exe ptIdx pcbIdx
            pure (.enter exe.eip, k)

theorem val_runChildL (fs : Fs) (img : Memory) (k : Kernel) (fr : Frame) (command : List Byte)
    (exe : Exe) (pt c : Slot) :
    (runChildL fs img k fr command exe pt c).val
      = let k := linkChild k fr c (childPcb k command pt c)
        enterChild k pt c (readData fs img exe.inode 0 (k.progPage pt) execAddr exe.length).2 := by
  rw [runChildL, Traced.val_bind, val_readDataT]
  rfl

/-- On the image of a machine this is `execute`. -/
theorem val_executeL (m : Machine) (k : Kernel) (fr : Frame) (command : Option (List Byte)) :
    (executeL m.fs m.img k fr command).val = execute m k fr command := by
  cases command with
  | none => rfl
  | some s =>
    rw [executeL, execute]
    split
    · rfl
    · cases checkProgram m.fs m.img s with
      | none => rfl
      | some exe =>
        dsimp only
        cases k.addProgPage with
        | none => rfl
        | some r =>
          dsimp only
          cases r.2.addPcb with
          | none => rfl
          | some r' =>
            dsimp only
            rw [Traced.val_bind, val_runChildL]
            rfl

/-- The links are made in the control blocks. -/
theorem linkChild_pages (k : Kernel) (fr : Frame) (c : Slot) (child : Pcb) :
    (linkChild k fr c child).progPde = k.progPde ∧
      (linkChild k fr c child).progPage = k.progPage := by
  simp only [linkChild, Kernel.setPcb]
  cases k.termCurrPcb k.currentActiveTerminal <;> exact ⟨rfl, rfl⟩

theorem enterChild_progPde (k : Kernel) (pt c : Slot) (page : Memory) :
    (enterChild k pt c page).progPde = k.progPde := by
  unfold enterChild
  cases k
  dsimp only [Kernel.setTssEsp0, Kernel.setTermCurr]

theorem enterChild_progPage (k : Kernel) (pt c : Slot) (page : Memory) :
    (enterChild k pt c page).progPage pt = page := by
  simp only [enterChild, Kernel.setTssEsp0, Kernel.setTermCurr, update_self]

/-- What it accesses is what `read_data` accesses. -/
theorem touches_runChildL : (runChildL fs img k fr command exe pt c).Touches a ↔
    (readDataT fs img exe.inode 0 (k.progPage pt) execAddr exe.length).Touches a := by
  rw [runChildL, Traced.touches_bind, or_iff_left (Traced.not_touches_pure _),
    (linkChild_pages k fr c _).2]

/-- `execute` of a command: the checks, the two allocators, and the start of the program. -/
theorem executeL_eq (fs : Fs) (img : Memory) (k : Kernel) (fr : Frame) (hs : command ≠ []) :
    executeL fs img k fr (some command)
      = match checkProgram fs img command, firstFree k.progUsedPage, firstFree k.pcbUsed with
        | none, _, _ => pure (.ret error, k)
        | some _, none, _ => pure (.ret error, k)
        | some _, some pt, none =>
          pure (.ret error, { k with
            progUsedPage := update k.progUsedPage pt true
            progPde := progPde pt })
        | some exe, some pt, some c =>
          runChildL fs img (allocatedAt k pt c) fr command exe pt c >>= fun k =>
            pure (.enter exe.eip, k) := by
  rw [executeL, if_neg hs]
  cases checkProgram fs img command with
  | none => rfl
  | some exe =>
    dsimp only
    rw [Kernel.addProgPage]
    cases firstFree k.progUsedPage with
    | none => rfl
    | some pt =>
      dsimp only [Option.map_some]
      rw [Kernel.addPcb]
      cases firstFree k.pcbUsed <;> rfl

/-- What the checks have found of the file. -/
theorem checkProgram_eq_some (h : checkProgram fs img command = some exe) :
    ∃ entry, readDentryByName fs img (cstr (parse command).1) Dentry.uninit = some entry ∧
      exe.inode = entry.inode ∧ exe.length = getFileLength fs img entry.inode ∧
      fs.fsBaseAdr ≠ 0 ∧ entry.inode < fs.numIndexNodes := by
  rw [checkProgram] at h
  cases hlookup : readDentryByName fs img (cstr (parse command).1) Dentry.uninit with
  | none =>
    rw [hlookup] at h
    cases h
  | some entry =>
    have hbase := fsBaseAdr_ne_zero_of_lookup hlookup
    rw [hlookup] at h
    dsimp only at h
    split_ifs at h with hret hmagic heip
    obtain rfl := Option.some.inj h
    refine ⟨entry, rfl, rfl, rfl, hbase, ?_⟩
    by_contra hinode
    apply hret
    rw [readData, if_neg hbase, if_pos (BitVec.not_lt.mp hinode)]

/-- The entry that was found is the one that was checked. -/
theorem entry_of_checkProgram (h : checkProgram fs img command = some exe) {entry : Dentry}
    (hlookup : readDentryByName fs img (cstr (parse command).1) Dentry.uninit = some entry) :
    entry.inode = exe.inode ∧ getFileLength fs img entry.inode = exe.length ∧
      entry.inode < fs.numIndexNodes := by
  obtain ⟨entry', hlookup', hinode, hlength, -, hlt⟩ := checkProgram_eq_some h
  rw [hlookup] at hlookup'
  obtain rfl := Option.some.inj hlookup'
  exact ⟨hinode.symm, hlength.symm, hlt⟩

/-- When `execute` enters user mode. -/
theorem executeL_enter {s : Option (List Byte)} {eip : Word}
    (h : (executeL fs img k fr s).val = (.enter eip, k')) :
    ∃ command exe pt c, s = some command ∧ command ≠ [] ∧ checkProgram fs img command = some exe ∧
      firstFree k.progUsedPage = some pt ∧
      executeL fs img k fr s
        = runChildL fs img (allocatedAt k pt c) fr command exe pt c >>= fun k =>
          pure (.enter exe.eip, k) := by
  cases s with
  | none => cases h
  | some command =>
    by_cases hnil : command = []
    · rw [executeL, if_pos hnil] at h
      cases h
    rw [executeL_eq fs img k fr hnil] at h ⊢
    match hexe : checkProgram fs img command, hpt : firstFree k.progUsedPage,
        hc : firstFree k.pcbUsed with
    | none, _, _ =>
      rw [hexe] at h
      cases h
    | some exe, none, _ =>
      rw [hexe, hpt] at h
      cases h
    | some exe, some pt, none =>
      rw [hexe, hpt, hc] at h
      cases h
    | some exe, some pt, some c => exact ⟨command, exe, pt, c, rfl, hnil, hexe, rfl, rfl⟩

/-- It does when the checks succeed and there is a page and a slot. -/
theorem executeL_of_free (fr : Frame) (hs : command ≠ [])
    (hexe : checkProgram fs img command = some exe) (hpt : firstFree k.progUsedPage = some pt)
    (hc : firstFree k.pcbUsed = some c) :
    ∃ k', (executeL fs img k fr (some command)).val = (.enter exe.eip, k') := by
  rw [executeL_eq fs img k fr hs, hexe, hpt, hc]
  exact ⟨_, rfl⟩

theorem sampleBoot_firstFree :
    firstFree sampleBoot.progUsedPage = some 1 ∧ firstFree sampleBoot.pcbUsed = some 1 := by
  decide

/-! ## The room for a program -/

/-- Every byte that the loader writes is one of the room for a program. -/
def LoadsInside (fs : Fs) (img : Memory) (k : Kernel) (fr : Frame) (command : List Byte) : Prop :=
  ∀ a, (executeL fs img k fr (some command)).Touches a → execAddr ≤ a ∧ a < userStack

theorem inSpan_execAddr_iff (len : ℕ) :
    (∀ a, InSpan a execAddr len → execAddr ≤ a ∧ a < userStack) ↔ len ≤ 0x3B8000 := by
  have hroom : (userStack - execAddr).toNat = 0x3B8000 := by decide
  constructor
  · intro h
    by_contra hlen
    have hlast : InSpan userStack execAddr len := by
      rw [InSpan, hroom]
      omega
    exact absurd (h userStack hlast).2 (BitVec.lt_irrefl _)
  · intro hlen a ha
    rw [InSpan] at ha
    constructor <;> bv_omega

/-- The bytes that the loader accesses are as many as the file has, from `EXEC_ADDR` on. -/
theorem touches_executeL {eip : Word}
    (hexec : (executeL fs img k fr (some command)).val = (.enter eip, k')) :
    ∃ entry, readDentryByName fs img (cstr (parse command).1) Dentry.uninit = some entry ∧
      ∀ a, (executeL fs img k fr (some command)).Touches a ↔
        InSpan a execAddr (getFileLength fs img entry.inode).toNat := by
  obtain ⟨s, exe, pt, c, hs, -, hexe, -, heq⟩ := executeL_enter hexec
  obtain rfl := Option.some.inj hs
  obtain ⟨entry, hlookup, hinode, hlength, hbase, hlt⟩ := checkProgram_eq_some hexe
  rw [← hinode] at hlt
  refine ⟨entry, hlookup, ?_⟩
  intro a
  rw [heq, Traced.touches_bind, or_iff_left (Traced.not_touches_pure _), touches_runChildL,
    touches_readDataT hbase (BitVec.not_le.mpr hlt) (by decide), hlength]

/-- **The loader stays in the room for a program** if and only if the file is not larger. -/
theorem loadsInside_iff {eip : Word}
    (hexec : (executeL fs img k fr (some command)).val = (.enter eip, k')) :
    LoadsInside fs img k fr command ↔
      ∀ entry, readDentryByName fs img (cstr (parse command).1) Dentry.uninit = some entry →
        (getFileLength fs img entry.inode).toNat ≤ 0x3B8000 := by
  obtain ⟨entry, hlookup, htouches⟩ := touches_executeL hexec
  simp only [LoadsInside, htouches, inSpan_execAddr_iff, hlookup, Option.some.injEq, forall_eq']

/-- The shell of the sample image is loaded into the room for a program. -/
theorem loadsInside_iff_sample :
    LoadsInside (fsInit sampleImage sampleBase) sampleImage sampleBoot (Frame.top 0) shell := by
  have hexe : checkProgram (fsInit sampleImage sampleBase) sampleImage shell
      = some ⟨0, execAddr, 40⟩ := sampleMachine.checkProgram_shell
  obtain ⟨k', hexec⟩ := executeL_of_free (Frame.top 0) (by decide) hexe sampleBoot_firstFree.1
    sampleBoot_firstFree.2
  refine (loadsInside_iff hexec).mpr ?_
  intro entry hlookup
  rw [(entry_of_checkProgram hexe hlookup).2.1]
  decide

/-- The sample image with a shell of 953 blocks. -/
def sampleLarge : Memory :=
  ((sampleImage.store32 (sampleBase + 8) 953).store32 (sampleBase + 4096) 0x3B9000).patch
    (sampleBase + 4100) 0 (4 * 953) fun j => BitVec.ofNat 8 (j / 4 / 256 ^ (j % 4))

theorem sampleLarge_goodFile : (fsInit sampleLarge sampleBase).GoodFile sampleLarge 0 where
  fits := by decide
  inode_lt := by decide
  length_le := by decide
  blocks k hk := by
    have hlength : (getFileLength (fsInit sampleLarge sampleBase) sampleLarge 0).toNat
        = 0x3B9000 := by
      decide
    have hblocks : ∀ k < 953, (fsInit sampleLarge sampleBase).fileBlock sampleLarge 0 k
        < (fsInit sampleLarge sampleBase).numDataBlocks := by
      decide +kernel
    exact hblocks k (by omega)

/-- Its shell is sound, and loading it writes over the end of the room for a program. -/
theorem not_loadsInside_sampleLarge :
    (fsInit sampleLarge sampleBase).GoodFile sampleLarge 0 ∧
      (executeL (fsInit sampleLarge sampleBase) sampleLarge sampleBoot (Frame.top 0)
        (some shell)).val.1 = .enter execAddr ∧
      ¬ LoadsInside (fsInit sampleLarge sampleBase) sampleLarge sampleBoot (Frame.top 0) shell := by
  have hexe : checkProgram (fsInit sampleLarge sampleBase) sampleLarge shell
      = some ⟨0, execAddr, 0x3B9000⟩ := by
    decide
  obtain ⟨k', hexec⟩ := executeL_of_free (Frame.top 0) (by decide) hexe sampleBoot_firstFree.1
    sampleBoot_firstFree.2
  refine ⟨sampleLarge_goodFile, congrArg Prod.fst hexec, ?_⟩
  intro h
  obtain ⟨entry, hlookup, htouches⟩ := touches_executeL hexec
  rw [(entry_of_checkProgram hexe hlookup).2.1] at htouches
  have hinside := (inSpan_execAddr_iff 0x3B9000).mp fun a ha => h a ((htouches a).mpr ha)
  exact absurd hinside (by decide)

/-! ## Programs that are loaded in part -/

/-- The tables that an `execute` which fails has to leave as they are. -/
structure SameTables (k k' : Kernel) : Prop where
  pcbUsed : k'.pcbUsed = k.pcbUsed
  progUsedPage : k'.progUsedPage = k.progUsedPage
  progPde : k'.progPde = k.progPde
  termCurrPcb : k'.termCurrPcb = k.termCurrPcb
  tssEsp0 : k'.tssEsp0 = k.tssEsp0

theorem SameTables.refl (k : Kernel) : SameTables k k := ⟨rfl, rfl, rfl, rfl, rfl⟩

/-- Some block of the file cannot be read: there is no such file, or a block of it is bad. -/
def Fs.Unreadable (fs : Fs) (img : Memory) (inode : Word) : Prop :=
  fs.numIndexNodes ≤ inode ∨
    ∃ p < (getFileLength fs img inode).toNat, fs.BadBlock img inode p

/-- No program is started that is loaded in part: a program that is started has its whole file in
the page that is mapped, and for a file that cannot be read `execute` fails. -/
structure StartsWhole (fs : Fs) (img : Memory) (k : Kernel) (fr : Frame)
    (command : Option (List Byte)) : Prop where
  entered : ∀ eip k', (executeL fs img k fr command).val = (.enter eip, k') →
    ∃ s entry, ∃ pt : Slot, command = some s ∧
      readDentryByName fs img (cstr (parse s).1) Dentry.uninit = some entry ∧
      k'.progPde = progPde pt ∧ ∀ j < (getFileLength fs img entry.inode).toNat,
        (k'.progPage pt).view execAddr j = fs.fileByte img entry.inode.toNat j
  failed : ∀ s entry, command = some s →
    readDentryByName fs img (cstr (parse s).1) Dentry.uninit = some entry →
    fs.Unreadable img entry.inode →
      (executeL fs img k fr command).val.1 = .ret error ∧
        SameTables k (executeL fs img k fr command).val.2

/-- A file without bad blocks is read as a whole. -/
theorem readData_whole {inode buf : Word} (hbase : fs.fsBaseAdr ≠ 0)
    (hinode : inode < fs.numIndexNodes) (hbuf : buf ≠ 0)
    (hgood : ∀ p < (getFileLength fs img inode).toNat, ¬ fs.BadBlock img inode p) (mem : Memory)
    {j : ℕ} (hj : j < (getFileLength fs img inode).toNat) :
    (readData fs img inode 0 mem buf (getFileLength fs img inode)).2.view buf j
      = fs.fileByte img inode.toNat j := by
  obtain ⟨d, hdn, -, hmem, hstop⟩ :=
    readData_stops img hbase hinode hbuf 0 (getFileLength fs img inode) mem
  have hzero : (0 : Word).toNat = 0 := rfl
  rw [hzero, Nat.sub_zero, Nat.min_self] at hdn hstop
  rcases hstop with ⟨rfl, -⟩ | ⟨hlt, hbad, -⟩
  · have hbyte : (readMemory fs img inode 0 mem buf (getFileLength fs img inode)
        (getFileLength fs img inode).toNat).view buf j
          = fs.fileByte img inode.toNat ((0 : Word).toNat + j) :=
      view_readMemory_of_lt hj (Nat.le_refl _)
    rw [hzero, Nat.zero_add] at hbyte
    rw [hmem, hbyte]
  · rw [Nat.zero_add] at hbad
    exact absurd hbad (hgood d hlt)

/-- The program that `execute` starts is the one that was checked, in the page that it got. -/
theorem executeL_pages {s : Option (List Byte)} {eip : Word}
    (h : (executeL fs img k fr s).val = (.enter eip, k')) :
    ∃ command exe pt mem, s = some command ∧ command ≠ [] ∧
      checkProgram fs img command = some exe ∧ firstFree k.progUsedPage = some pt ∧
      k'.progPde = progPde pt ∧
      k'.progPage pt = (readData fs img exe.inode 0 mem execAddr exe.length).2 := by
  obtain ⟨command, exe, pt, c, hs, hnil, hexe, hpt, heq⟩ := executeL_enter h
  rw [heq, Traced.val_bind, val_runChildL, Traced.val_pure] at h
  obtain rfl := (congrArg Prod.snd h).symm
  refine ⟨command, exe, pt, _, hs, hnil, hexe, hpt, ?_, enterChild_progPage _ _ _ _⟩
  dsimp only
  rw [enterChild_progPde, (linkChild_pages (allocatedAt k pt c) fr c _).1, allocatedAt]

/-- **When no program is started in part**: if and only if `execute` fails before it takes a page,
or no block of the file is bad. -/
theorem startsWhole_iff (fs : Fs) (img : Memory) (k : Kernel) (fr : Frame)
    (command : Option (List Byte)) :
    StartsWhole fs img k fr command ↔
      ∀ s exe, command = some s → s ≠ [] → checkProgram fs img s = some exe →
        firstFree k.progUsedPage ≠ none →
        ∀ p < (getFileLength fs img exe.inode).toNat, ¬ fs.BadBlock img exe.inode p := by
  constructor
  · rintro h s exe rfl hnil hexe hpage p hp hbad
    obtain ⟨entry, hlookup, hinode, -⟩ := checkProgram_eq_some hexe
    rw [hinode] at hp hbad
    obtain ⟨herr, hsame⟩ := h.failed s entry rfl hlookup (.inr ⟨p, hp, hbad⟩)
    rw [executeL_eq fs img k fr hnil, hexe] at herr hsame
    cases hpt : firstFree k.progUsedPage with
    | none => exact hpage hpt
    | some pt =>
      rw [hpt] at herr hsame
      cases hc : firstFree k.pcbUsed with
      | none =>
        -- the page is not given back
        rw [hc] at hsame
        have hused := congrFun hsame.progUsedPage pt
        dsimp only [Traced.val_pure] at hused
        rw [update_self, firstFree_eq_some hpt] at hused
        cases hused
      | some c =>
        rw [hc] at herr
        cases herr
  · intro h
    constructor
    · intro eip k' hexec
      obtain ⟨s, exe, pt, mem, hs, hnil, hexe, hpt, hpde, hpage⟩ := executeL_pages hexec
      obtain ⟨entry, hlookup, hinode, hlength, hbase, hlt⟩ := checkProgram_eq_some hexe
      have hgood := h s exe hs hnil hexe (by rw [hpt]; exact Option.some_ne_none pt)
      refine ⟨s, entry, pt, hs, hlookup, hpde, ?_⟩
      intro j hj
      rw [hinode] at hgood hpage
      rw [hpage, hlength, readData_whole hbase hlt (by decide) hgood mem hj]
    · rintro s entry rfl hlookup hunread
      by_cases hnil : s = []
      · rw [executeL, if_pos hnil]
        exact ⟨rfl, .refl k⟩
      rw [executeL_eq fs img k fr hnil]
      cases hexe : checkProgram fs img s with
      | none => exact ⟨rfl, .refl k⟩
      | some exe =>
        obtain ⟨hinode, -, hlt⟩ := entry_of_checkProgram hexe hlookup
        cases hpt : firstFree k.progUsedPage with
        | none => exact ⟨rfl, .refl k⟩
        | some pt =>
          have hgood := h s exe rfl hnil hexe (by rw [hpt]; exact Option.some_ne_none pt)
          rw [← hinode] at hgood
          rcases hunread with hle | ⟨p, hp, hbad⟩
          · exact absurd hlt (BitVec.not_lt.mpr hle)
          · exact absurd hbad (hgood p hp)

/-- The sample image with a shell of 5000 bytes, whose second block is bad. -/
def sampleTorn : Memory :=
  (sampleImage.store32 (sampleBase + 4096) 5000).store32 (sampleBase + 4104) 7

/-- Its shell is started although the last bytes cannot be read. -/
theorem not_startsWhole_sampleTorn :
    ¬ StartsWhole (fsInit sampleTorn sampleBase) sampleTorn sampleBoot (Frame.top 0)
      (some shell) := by
  intro h
  have hexe : checkProgram (fsInit sampleTorn sampleBase) sampleTorn shell
      = some ⟨0, execAddr, 5000⟩ := by
    decide
  obtain ⟨k', hexec⟩ := executeL_of_free (Frame.top 0) (by decide) hexe sampleBoot_firstFree.1
    sampleBoot_firstFree.2
  obtain ⟨entry, hlookup, -⟩ := checkProgram_eq_some hexe
  obtain ⟨hinode, hlength, -⟩ := entry_of_checkProgram hexe hlookup
  have hbad : (fsInit sampleTorn sampleBase).BadBlock sampleTorn 0 4096 := by
    rw [Fs.BadBlock]
    decide
  have hlast : 4096 < (getFileLength (fsInit sampleTorn sampleBase) sampleTorn
      entry.inode).toNat := by
    rw [hlength]
    decide
  have herr := (h.failed shell entry rfl hlookup (.inr ⟨4096, hlast, hinode ▸ hbad⟩)).1
  rw [hexec] at herr
  cases herr

end HieUnix
