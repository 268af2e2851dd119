import HieUnix.Arguments
import HieUnix.Loader

/-!
# The buffers of `execute`

`execute` with its buffers for the command. It cuts the command to 128 bytes for `temp_cmd`, and
the second `parse`, which is for the arguments, is given that copy: it stays in `cmd` and in
`argument_buffer`. The first one is given the command as it is, and its copy of the name has no
bound of its own, so that a name of more than 128 bytes is written behind `cmd`
(`executeB_isSome_iff`).
-/

namespace HieUnix

open Function

variable {fs : Fs} {img : Memory} {k : Kernel} {fr : Frame} {command : List Byte}
  {cmd tempCmd : ℕ → Byte}

/-! ## The code -/

/-- The loop of `execute` that copies the command to `temp_cmd`, from `i` on. `none` when it leaves
`temp_cmd`. -/
def copyCommand (size : ℕ) (command : ℕ → Byte) : ℕ → ℕ → (ℕ → Byte) → Option (ℕ × (ℕ → Byte))
  | 0, i, tempCmd => some (i, tempCmd)
  | fuel + 1, i, tempCmd =>
    if i < strlen command size ∧ i < maxBufferSize then
      if i < maxBufferSize + 1 then
        copyCommand size command fuel (i + 1) (update tempCmd i (command i))
      else none
    else some (i, tempCmd)

/-- The checks of `execute` on the file with the name in `cmd`. -/
def checkFile (fs : Fs) (img : Memory) (cmd : ℕ → Byte) : Option Exe :=
  match readDentryByName fs img cmd Dentry.uninit with
  | none => none
  | some dentry =>
    let (ret, mem) := readData fs img dentry.inode 0 (fun _ => 0) headerBuf 40
    if ret = error then none
    else
      let buf := mem.view headerBuf
      if checkMagicHeader buf then none
      else
        let eip : Word := buf 27 ++ buf 26 ++ buf 25 ++ buf 24
        if eip < execAddr ∨ userStack ≤ eip then none
        else some { inode := dentry.inode, eip := eip, length := getFileLength fs img dentry.inode }

/-- `execute` from the lookup on, with what the copy and the first `parse` have left in `temp_cmd`
and `cmd`. -/
def executeFound (fs : Fs) (img : Memory) (k : Kernel) (fr : Frame) (tempCmd cmd : ℕ → Byte) :
    Option (Control × Kernel) :=
  match checkFile fs img cmd with
  | none => some (.ret error, k)
  | some exe =>
    match k.addProgPage with
    | none => some (.ret error, k)
    | some (ptIdx, k) =>
      match k.addPcb with
      | none => some (.ret error, k)
      | some (pcbIdx, k) =>
        let child :=
          { initializePcb k.currentActiveTerminal pcbIdx (k.pcb pcbIdx) with
            ptIdx := ptIdx, pcbIdx := pcbIdx }
        (parseLoops (maxBufferSize + 1) tempCmd cmd (some child)).map fun (_, newPcb) =>
          let k := linkChild k fr pcbIdx (newPcb.getD child)
          (.enter exe.eip, enterChild k ptIdx pcbIdx
            (readData fs img exe.inode 0 (k.progPage ptIdx) execAddr exe.length).2)

/-- `execute` with what `temp_cmd` and `cmd` hold before. `none` when a write leaves `temp_cmd`,
`cmd` or the `argument_buffer` of the new process. -/
def executeB (fs : Fs) (img : Memory) (k : Kernel) (fr : Frame) (command : Option (List Byte))
    (tempCmd cmd : ℕ → Byte) : Option (Control × Kernel) :=
  match command with
  | none => some (.ret error, k)
  | some command =>
    if cstr command 0 = 0 then some (.ret error, k)
    else
      let size := command.length + 1
      match copyCommand size (cstr command) size 0 tempCmd with
      | none => none
      | some (i, tempCmd) =>
        if i < maxBufferSize + 1 then
          let tempCmd := update tempCmd i 0
          match parseLoops size (cstr command) cmd none with
          | none => none
          | some (cmd, _) => executeFound fs img k fr tempCmd cmd
        else none

/-! ## The copy of the command -/

theorem strlen_cstr (h0 : (0 : Byte) ∉ command) :
    strlen (cstr command) (command.length + 1) = command.length := by
  apply strlenLoop_eq (Nat.zero_le _) (by omega)
  · intro j _ hj
    exact cstr_ne_zero h0 hj
  · intro _
    exact cstr_of_length_le (Nat.le_refl _)

/-- The copy has the bytes of the command up to the bound, and stays in `temp_cmd`. -/
theorem copyCommand_eq (h0 : (0 : Byte) ∉ command) {fuel i : ℕ} (hi : i ≤ command.length)
    (hi' : i ≤ maxBufferSize) (hfuel : command.length < i + fuel) (tempCmd : ℕ → Byte) :
    copyCommand (command.length + 1) (cstr command) fuel i tempCmd
      = some ((command.take maxBufferSize).length,
          overlay tempCmd i ((command.take maxBufferSize).drop i)) := by
  induction fuel generalizing i tempCmd with
  | zero => omega
  | succ fuel ih =>
    rw [copyCommand, strlen_cstr h0]
    have hlen : (command.take maxBufferSize).length = min maxBufferSize command.length :=
      List.length_take
    by_cases hmore : i < command.length ∧ i < maxBufferSize
    · have hi'' : i < (command.take maxBufferSize).length := by omega
      rw [if_pos hmore, if_pos (by omega), ih (by omega) (by omega) (by omega), overlay_update,
        List.drop_eq_getElem_cons hi'', List.getElem_take, cstr_eq_getElem hmore.1]
    · rw [if_neg hmore, List.drop_eq_nil_of_le (by omega), overlay_nil, hlen]
      congr 2
      omega

/-! ## When `execute` stays in its buffers -/

/-- The checks are about the name that the first `parse` leaves in `cmd`. -/
theorem checkFile_nameBuffer (h0 : (0 : Byte) ∉ command) (fs : Fs) (img : Memory)
    (cmd : ℕ → Byte) :
    checkFile fs img (nameBuffer cmd (parse command).1) = checkProgram fs img command := by
  have hname : checkFile fs img (cstr (parse command).1) = checkProgram fs img command := rfl
  rw [← hname, checkFile, checkFile, readDentryByName_nameBuffer h0]

/-- The copy stays in `temp_cmd`, so that it is the first `parse` that decides. -/
theorem executeB_of_ne_nil (h0 : (0 : Byte) ∉ command) (hnil : command ≠ [])
    (tempCmd cmd : ℕ → Byte) :
    executeB fs img k fr (some command) tempCmd cmd
      = match parseLoops (command.length + 1) (cstr command) cmd none with
        | none => none
        | some (cmd, _) =>
          executeFound fs img k fr (nameBuffer tempCmd (command.take maxBufferSize)) cmd := by
  have hfirst : cstr command 0 ≠ 0 := cstr_ne_zero h0 (List.length_pos_iff.mpr hnil)
  have hcut : (command.take maxBufferSize).length ≤ maxBufferSize := List.length_take_le _ _
  rw [executeB]
  dsimp only
  rw [if_neg hfirst, copyCommand_eq h0 (Nat.zero_le _) (Nat.zero_le _) (by omega)]
  dsimp only
  rw [if_pos (Nat.lt_succ_of_le hcut)]
  rfl

/-- The second `parse` stays in its buffers, whatever the command is. -/
theorem executeFound_eq (h0 : (0 : Byte) ∉ command) (hnil : command ≠ [])
    (tempCmd cmd : ℕ → Byte) :
    executeFound fs img k fr (nameBuffer tempCmd (command.take maxBufferSize))
        (nameBuffer cmd (parse command).1)
      = some (executeL fs img k fr (some command)).val := by
  have hcut : (command.take maxBufferSize).length ≤ maxBufferSize := List.length_take_le _ _
  have h0' : (0 : Byte) ∉ command.take maxBufferSize := fun h => h0 (List.mem_of_mem_take h)
  rw [executeFound, checkFile_nameBuffer h0, executeL_eq fs img k fr hnil]
  cases checkProgram fs img command with
  | none => rfl
  | some exe =>
    dsimp only
    rw [Kernel.addProgPage]
    cases firstFree k.progUsedPage with
    | none => rfl
    | some pt =>
      dsimp only [Option.map_some]
      rw [Kernel.addPcb]
      cases firstFree k.pcbUsed with
      | none => rfl
      | some c =>
        dsimp only [Option.map_some]
        rw [parseLoops_arguments (isString_nameBuffer tempCmd h0') (Nat.lt_succ_of_le hcut)
          (length_name_take command) (length_arguments_lt command), Traced.val_bind, val_runChildL]
        rfl

/-- A command whose name fits is executed as it is without the buffers. -/
theorem executeB_eq (h0 : (0 : Byte) ∉ command)
    (hname : (parse command).1.length ≤ maxBufferSize) (tempCmd cmd : ℕ → Byte) :
    executeB fs img k fr (some command) tempCmd cmd
      = some (executeL fs img k fr (some command)).val := by
  by_cases hnil : command = []
  · rw [hnil]
    rfl
  rw [executeB_of_ne_nil h0 hnil, parseLoops_name (isString_cstr h0) (Nat.lt_succ_self _) hname]
  exact executeFound_eq h0 hnil tempCmd cmd

/-- **When `execute` stays in its buffers**: if and only if the name of the program has at most 128
bytes. -/
theorem executeB_isSome_iff (fs : Fs) (img : Memory) (k : Kernel) (fr : Frame)
    (h0 : (0 : Byte) ∉ command) (tempCmd cmd : ℕ → Byte) :
    (executeB fs img k fr (some command) tempCmd cmd).isSome ↔
      (parse command).1.length ≤ maxBufferSize := by
  by_cases hname : (parse command).1.length ≤ maxBufferSize
  · rw [executeB_eq h0 hname]
    exact iff_of_true rfl hname
  · refine iff_of_false ?_ hname
    have hnil : command ≠ [] := by
      rintro rfl
      exact hname (Nat.zero_le _)
    rw [executeB_of_ne_nil h0 hnil, parseLoops_eq_none (isString_cstr h0) (Nat.lt_succ_self _)
      (Nat.lt_of_not_le hname)]
    exact Bool.false_ne_true

/-- A command with arguments. -/
theorem executeB_isSome_iff_sample :
    (executeB (fsInit sampleImage sampleBase) sampleImage sampleBoot (Frame.top 0)
      (some sampleCommand) (fun _ => 0) fun _ => 0).isSome :=
  (executeB_isSome_iff (fsInit sampleImage sampleBase) sampleImage sampleBoot (Frame.top 0)
    (by decide) (fun _ => 0) fun _ => 0).mpr (by decide)

/-- The zero byte of a name of 129 letters is written behind `cmd`. -/
theorem not_executeB_letters :
    (0 : Byte) ∉ letters 129 ∧
      ¬ (executeB (fsInit sampleImage sampleBase) sampleImage sampleBoot (Frame.top 0)
        (some (letters 129)) (fun _ => 0) fun _ => 0).isSome := by
  have h0 : (0 : Byte) ∉ letters 129 := by
    intro h
    exact absurd (List.eq_of_mem_replicate h) (by decide)
  refine ⟨h0, ?_⟩
  rw [executeB_of_ne_nil h0 (by decide),
    parseLoops_eq_none (isString_cstr h0) (Nat.lt_succ_self _) (by decide +kernel)]
  exact Bool.false_ne_true

end HieUnix
