import HieUnix.ContextSwitch
import HieUnix.Lib.Transition

/-!
# Switching stacks

What `__switch_to`, `execute` and `halt` store in the control blocks, on the kernel stacks and in
`tss.esp0`, the steps of the machine with its processes, and what one of them needs to go on.
-/

namespace HieUnix.Interrupt

open X86 Function

/-! ## Control blocks -/

theorem toNat_pcbAddr : ∀ i : Slot, (pcbAddr i).toNat = 0x800000 - (i.val + 1) * 0x2000 := by
  decide

/-- The block that `get_pcb` finds for a stack pointer in the page of a process. -/
theorem and_pcbMask {x : Word} {i : Slot} (hx : InSpan x (pcbAddr i) 8192) :
    x &&& pcbMask = pcbAddr i := by
  have hmask : x &&& pcbMask = (x >>> 13) <<< 13 := by
    have hm : ∀ k : Fin 32, pcbMask.getLsbD k = decide (13 ≤ k.val) := by decide
    apply BitVec.eq_of_getLsbD_eq
    intro k hk
    rw [BitVec.getLsbD_and, hm ⟨k, hk⟩, BitVec.getLsbD_shiftLeft, BitVec.getLsbD_ushiftRight]
    by_cases h : 13 ≤ k
    · simp [h, hk, Nat.not_lt.mpr h]
    · simp [h, Nat.not_le.mp h]
  have hi := toNat_pcbAddr i
  have hlt := i.isLt
  unfold InSpan at hx
  apply BitVec.eq_of_toNat_eq
  rw [hmask, BitVec.toNat_shiftLeft, BitVec.toNat_ushiftRight, Nat.shiftLeft_eq,
    Nat.shiftRight_eq_div_pow, hi]
  have hx' : (x - pcbAddr i).toNat + (pcbAddr i).toNat = x.toNat := by bv_omega
  omega

/-- The pages of two processes are apart. -/
theorem page_disjoint {i j : Slot} {b : Word} (hij : i ≠ j) (hi : InSpan b (pcbAddr i) 8192) :
    ¬ InSpan b (pcbAddr j) 8192 := by
  intro hj
  have heq : (pcbAddr i).toNat = (pcbAddr j).toNat := by rw [← and_pcbMask hi, and_pcbMask hj]
  rw [toNat_pcbAddr, toNat_pcbAddr] at heq
  have hi6 : i.val < 6 := i.isLt
  have hj6 : j.val < 6 := j.isLt
  exact hij (Fin.ext (by omega))

theorem NewWord.inPage {i : Slot} {b : Word} (h : NewWord i b) : InSpan b (pcbAddr i) 8192 := by
  unfold NewWord InSpan at h
  unfold InSpan
  bv_omega

theorem StartWord.inPage {i : Slot} {b : Word} (h : StartWord i b) :
    InSpan b (pcbAddr i) 8192 := by
  unfold StartWord InSpan at h
  unfold InSpan
  bv_omega

theorem StartWord.not_newWord {i : Slot} {b : Word} (h : StartWord i b) : ¬ NewWord i b := by
  unfold StartWord InSpan at h
  unfold NewWord InSpan
  bv_omega

theorem KernelStack.not_words {i : Slot} {b : Word} (h : KernelStack i b) :
    ¬ NewWord i b ∧ ¬ StartWord i b := by
  unfold KernelStack InSpan at h
  unfold NewWord StartWord InSpan
  bv_omega

/-! ## The switch of stacks -/

variable {c : Core Reg} {i j : Slot} {switched : Word}

/-- `__switch_to` stores two words on the stack and the context in the block of the process that
gives up the processor. -/
theorem mem_switchStacks {b : Word} (hstack : ¬ Below c.esp 8 b) (hnew : ¬ NewWord i b) :
    (switchStacks switched (pcbAddr i) (pcbAddr j) c).mem b = c.mem b := by
  have h184 : ¬ InSpan b (pcbAddr i + 184) 4 := by
    unfold NewWord InSpan at hnew
    unfold InSpan
    bv_omega
  have h188 : ¬ InSpan b (pcbAddr i + 188) 4 := by
    unfold NewWord InSpan at hnew
    unfold InSpan
    bv_omega
  have h192 : ¬ InSpan b (pcbAddr i + 192) 4 := by
    unfold NewWord InSpan at hnew
    unfold InSpan
    bv_omega
  have h4 : ¬ InSpan b (c.esp - 4) 4 := by
    unfold Below at hstack
    unfold InSpan
    bv_omega
  have h8 : ¬ InSpan b (c.esp - 4 - 4) 4 := by
    unfold Below at hstack
    unfold InSpan
    bv_omega
  show (((((c.mem.store32 (c.esp - 4) _).store32 (c.esp - 4 - 4) _).store32 (pcbAddr i + 188)
    _).store32 (pcbAddr i + 192) _).store32 (pcbAddr i + 184) _) b = c.mem b
  rw [Memory.store32_of_not_inSpan _ _ h184, Memory.store32_of_not_inSpan _ _ h192,
    Memory.store32_of_not_inSpan _ _ h188, Memory.store32_of_not_inSpan _ _ h8,
    Memory.store32_of_not_inSpan _ _ h4]

/-- A word of one block is not touched by a store to another word, nor to another block. -/
theorem load32_block (m : Memory) (v : Word) {x y : Word} (hx : x.toNat < 8188)
    (hy : y.toNat < 8188) (hxy : i ≠ j ∨ 4 ≤ (x - y).toNat ∧ 4 ≤ (y - x).toNat) :
    (m.store32 (pcbAddr i + x) v).load32 (pcbAddr j + y) = m.load32 (pcbAddr j + y) := by
  have hi := toNat_pcbAddr i
  have hj := toNat_pcbAddr j
  have hi6 : i.val < 6 := i.isLt
  have hj6 : j.val < 6 := j.isLt
  by_cases hij : i = j
  · obtain rfl := hij
    have h4 := hxy.resolve_left fun h => h rfl
    exact Memory.load32_store32_of_disjoint _ _ (by bv_omega) (by bv_omega)
  · have hne : i.val ≠ j.val := fun h => hij (Fin.ext h)
    exact Memory.load32_store32_of_disjoint _ _ (by bv_omega) (by bv_omega)

/-- A word of a block is read from its four bytes. -/
theorem load32_words_congr {m m' : Memory} (lo : Word) {x : Word} {len : ℕ}
    (hx : lo.toNat ≤ x.toNat ∧ x.toNat + 4 ≤ lo.toNat + len)
    (hm : ∀ b, InSpan b (pcbAddr i + lo) len → m' b = m b) :
    m'.load32 (pcbAddr i + x) = m.load32 (pcbAddr i + x) := by
  refine Memory.load32_congr fun n hn => hm _ ?_
  have hn' : (BitVec.ofNat 32 n).toNat = n := by
    rw [BitVec.toNat_ofNat, Nat.mod_eq_of_lt (by omega)]
  unfold InSpan
  bv_omega

theorem load32_newWord_congr {m m' : Memory} {x : Word}
    (hx : 184 ≤ x.toNat ∧ x.toNat + 4 ≤ 184 + 12) (hm : ∀ b, NewWord i b → m' b = m b) :
    m'.load32 (pcbAddr i + x) = m.load32 (pcbAddr i + x) :=
  load32_words_congr 184 hx hm

theorem load32_startWord_congr {m m' : Memory} {x : Word}
    (hx : 140 ≤ x.toNat ∧ x.toNat + 4 ≤ 140 + 28 ∨ x = 180)
    (hm : ∀ b, StartWord i b → m' b = m b) :
    m'.load32 (pcbAddr i + x) = m.load32 (pcbAddr i + x) := by
  obtain hx | rfl := hx
  · exact load32_words_congr 140 hx fun b hb => hm b (.inl hb)
  · exact load32_words_congr 180 (by decide) fun b hb => hm b (.inr hb)

/-- `tss.esp0` is read from its four bytes. -/
theorem load32_tssWord_congr {S : Symbols} {m m' : Memory} (hm : ∀ b, TssWord S b → m' b = m b) :
    m'.load32 (S.tss + 4) = m.load32 (S.tss + 4) :=
  Memory.load32_congr fun _ hn => hm _ (inSpan_add_ofNat hn)

/-- The context of the process that gives up the processor is in its block, and its `%ebp` on its
stack. -/
theorem saved_switchStacks (switched : Word) (j : Slot)
    (hstack : ∀ b, Below c.esp 8 b → ¬ NewWord i b) :
    let q := switchStacks switched (pcbAddr i) (pcbAddr j) c
    q.mem.load32 (pcbAddr i + 188) = c.esp - 8 ∧ q.mem.load32 (pcbAddr i + 192) = c.reg .ebp ∧
      q.mem.load32 (pcbAddr i + 184) = switched ∧ q.mem.load32 (c.esp - 8) = c.reg .ebp := by
  intro q
  have hsub : c.esp - 4 - 4 = c.esp - 8 := by bv_omega
  have hq : q.mem = ((((c.mem.store32 (c.esp - 4) c.eflags).store32 (c.esp - 4 - 4)
      (c.reg .ebp)).store32 (pcbAddr i + 188) (c.esp - 4 - 4)).store32 (pcbAddr i + 192)
      (c.reg .ebp)).store32 (pcbAddr i + 184) switched := rfl
  rw [hq, hsub]
  refine ⟨?_, ?_, Memory.load32_store32_self _ _ _, ?_⟩
  · rw [load32_block _ _ (by decide) (by decide) (.inr (by decide)),
      load32_block _ _ (by decide) (by decide) (.inr (by decide)), Memory.load32_store32_self]
  · rw [load32_block _ _ (by decide) (by decide) (.inr (by decide)), Memory.load32_store32_self]
  · refine Eq.trans (Memory.load32_congr fun n hn => ?_)
      (Memory.load32_store32_self (c.mem.store32 (c.esp - 4) c.eflags) _ _)
    have hn' : (BitVec.ofNat 32 n).toNat = n := by
      rw [BitVec.toNat_ofNat, Nat.mod_eq_of_lt (by omega)]
    have hout := hstack (c.esp - 8 + BitVec.ofNat 32 n) (by
      unfold Below
      bv_omega)
    unfold NewWord InSpan at hout
    rw [Memory.store32_of_not_inSpan _ _ (by unfold InSpan; bv_omega),
      Memory.store32_of_not_inSpan _ _ (by unfold InSpan; bv_omega),
      Memory.store32_of_not_inSpan _ _ (by unfold InSpan; bv_omega)]

/-- The other one is continued from its own. -/
theorem loaded_switchStacks (switched : Word) (i j : Slot) (c : Core Reg) :
    let q := switchStacks switched (pcbAddr i) (pcbAddr j) c
    q.esp = q.mem.load32 (pcbAddr j + 188) ∧ q.reg .ebp = q.mem.load32 (pcbAddr j + 192) ∧
      q.eip = q.mem.load32 (pcbAddr j + 184) := by
  intro q
  have hesp : q.esp = (((c.mem.store32 (c.esp - 4) c.eflags).store32 (c.esp - 4 - 4)
      (c.reg .ebp)).store32 (pcbAddr i + 188) (c.esp - 4 - 4)).load32 (pcbAddr j + 188) := by
    simp only [q, switchStacks, pushl, pushfl, Core.push]
  have hebp : q.reg .ebp = q.mem.load32 (pcbAddr j + 192) := by
    simp only [q, switchStacks, update_self]
  have heip : q.eip = q.mem.load32 (pcbAddr j + 184) := by
    simp only [q, switchStacks]
  have hq : q.mem = ((((c.mem.store32 (c.esp - 4) c.eflags).store32 (c.esp - 4 - 4)
      (c.reg .ebp)).store32 (pcbAddr i + 188) (c.esp - 4 - 4)).store32 (pcbAddr i + 192)
      (c.reg .ebp)).store32 (pcbAddr i + 184) switched := rfl
  refine ⟨?_, hebp, heip⟩
  rw [hq, load32_block _ _ (by decide) (by decide) (.inr (by decide)),
    load32_block _ _ (by decide) (by decide) (.inr (by decide)), hesp]

/-! ## The stores of `execute` -/

section ExecuteStores

variable {S : Symbols} {retHere : Word} {nested : Bool} {b : Word} {m : Memory}

/-- The stores change the memory only. -/
theorem executeStores_eq (S : Symbols) (retHere prev : Word) (j : Slot) (nested : Bool)
    (c : Core Reg) : executeStores S retHere prev j nested c
      = { c with mem := (executeStores S retHere prev j nested c).mem } := by
  cases nested <;> rfl

/-- A byte of a word is not touched by a store to another one. -/
theorem store32_block {x v : Word} (h : ¬ InSpan b (pcbAddr i + x) 4) :
    (m.store32 (pcbAddr i + x) v) b = m b :=
  Memory.store32_of_not_inSpan _ _ h

/-- A word of a block is apart from `tss.esp0`. -/
theorem load32_block_tss (htss : ∀ b, TssWord S b → ∀ i, ¬ InSpan b (pcbAddr i) 8192) (v : Word)
    {x : Word} (hx : x.toNat < 8188) :
    (m.store32 (S.tss + 4) v).load32 (pcbAddr i + x) = m.load32 (pcbAddr i + x) := by
  refine Memory.load32_congr fun n hn => Memory.store32_of_not_inSpan _ _ fun hin => ?_
  have hn' : (BitVec.ofNat 32 n).toNat = n := by
    rw [BitVec.toNat_ofNat, Nat.mod_eq_of_lt (by omega)]
  refine htss _ hin i ?_
  unfold InSpan
  bv_omega

theorem load32_tss_block (htss : ∀ b, TssWord S b → ∀ i, ¬ InSpan b (pcbAddr i) 8192) (v : Word)
    {x : Word} (hx : x.toNat < 8188) :
    (m.store32 (pcbAddr i + x) v).load32 (S.tss + 4) = m.load32 (S.tss + 4) := by
  refine Memory.load32_congr fun n hn => Memory.store32_of_not_inSpan _ _ fun hin => ?_
  refine htss _ (inSpan_add_ofNat hn) i ?_
  unfold InSpan at hin ⊢
  bv_omega

theorem mem_storeContext (hnew : ¬ NewWord i b) :
    (storeContext retHere (pcbAddr i) c).mem b = c.mem b := by
  unfold NewWord InSpan at hnew
  show (((c.mem.store32 (pcbAddr i + 188) _).store32 (pcbAddr i + 192) _).store32
    (pcbAddr i + 184) _) b = c.mem b
  rw [store32_block (by unfold InSpan; bv_omega), store32_block (by unfold InSpan; bv_omega),
    store32_block (by unfold InSpan; bv_omega)]

theorem mem_storeOld (hold : ¬ InSpan b (pcbAddr i + 140) 28) :
    (storeOld S retHere (pcbAddr i) c).mem b = c.mem b := by
  unfold InSpan at hold
  show ((((c.mem.store32 (pcbAddr i + 140) _).store32 (pcbAddr i + 152) _).store32
    (pcbAddr i + 144) _).store32 (pcbAddr i + 164) _) b = c.mem b
  rw [store32_block (by unfold InSpan; bv_omega), store32_block (by unfold InSpan; bv_omega),
    store32_block (by unfold InSpan; bv_omega), store32_block (by unfold InSpan; bv_omega)]

theorem mem_initTssEsp (hstart : ¬ StartWord i b) : (initTssEsp i c).mem b = c.mem b := by
  unfold StartWord InSpan at hstart
  exact store32_block (by unfold InSpan; bv_omega)

/-- A byte outside the words of the waiting process, of the new one and of `tss.esp0`. -/
theorem mem_executeStores (hnew : ¬ NewWord i b) (hstart : ¬ StartWord j b) (htss : ¬ TssWord S b) :
    (executeStores S retHere (pcbAddr i) j nested c).mem b = c.mem b := by
  refine (Memory.store32_of_not_inSpan _ _ htss).trans ((mem_storeContext hnew).trans ?_)
  cases nested with
  | false => exact mem_initTssEsp hstart
  | true => exact (mem_storeOld fun h => hstart (.inl h)).trans (mem_initTssEsp hstart)

/-- The context of the process that waits. -/
theorem saved_storeContext (retHere : Word) (i : Slot) (c : Core Reg) :
    let m := (storeContext retHere (pcbAddr i) c).mem
    m.load32 (pcbAddr i + 188) = c.esp ∧ m.load32 (pcbAddr i + 192) = c.reg .ebp ∧
      m.load32 (pcbAddr i + 184) = retHere := by
  intro m
  have hm : m = ((c.mem.store32 (pcbAddr i + 188) c.esp).store32 (pcbAddr i + 192)
      (c.reg .ebp)).store32 (pcbAddr i + 184) retHere := rfl
  rw [hm]
  refine ⟨?_, ?_, Memory.load32_store32_self _ _ _⟩
  · rw [load32_block _ _ (by decide) (by decide) (.inr (by decide)),
      load32_block _ _ (by decide) (by decide) (.inr (by decide)), Memory.load32_store32_self]
  · rw [load32_block _ _ (by decide) (by decide) (.inr (by decide)), Memory.load32_store32_self]

/-- It is in the block of the child as well, with the stack of its interrupts. -/
theorem saved_storeOld (htss : ∀ b, TssWord S b → ∀ i, ¬ InSpan b (pcbAddr i) 8192)
    (retHere : Word) (i : Slot) (c : Core Reg) :
    let m := (storeOld S retHere (pcbAddr i) c).mem
    m.load32 (pcbAddr i + 140) = c.esp ∧ m.load32 (pcbAddr i + 152) = c.reg .ebp ∧
      m.load32 (pcbAddr i + 164) = c.mem.load32 (S.tss + 4) := by
  intro m
  generalize hm₁ : ((c.mem.store32 (pcbAddr i + 140) c.esp).store32 (pcbAddr i + 152)
      (c.reg .ebp)).store32 (pcbAddr i + 144) retHere = m₁
  have hm : m = m₁.store32 (pcbAddr i + 164) (m₁.load32 (S.tss + 4)) := by
    rw [← hm₁]
    rfl
  rw [hm, Memory.load32_store32_self, ← hm₁]
  refine ⟨?_, ?_, ?_⟩
  · rw [load32_block _ _ (by decide) (by decide) (.inr (by decide)),
      load32_block _ _ (by decide) (by decide) (.inr (by decide)),
      load32_block _ _ (by decide) (by decide) (.inr (by decide)), Memory.load32_store32_self]
  · rw [load32_block _ _ (by decide) (by decide) (.inr (by decide)),
      load32_block _ _ (by decide) (by decide) (.inr (by decide)), Memory.load32_store32_self]
  · rw [load32_tss_block htss _ (by decide), load32_tss_block htss _ (by decide),
      load32_tss_block htss _ (by decide)]

/-- The words of the new process are not touched by the stores for the one that waits. -/
theorem mem_executeStores_startWord (htss : ∀ b, TssWord S b → ∀ i, ¬ InSpan b (pcbAddr i) 8192)
    (i : Slot) (hb : StartWord j b) :
    (executeStores S retHere (pcbAddr i) j nested c).mem b
      = (if nested then storeOld S retHere (pcbAddr j) (initTssEsp j c)
          else initTssEsp j c).mem b := by
  have hnew : ¬ NewWord i b := by
    by_cases hij : i = j
    · obtain rfl := hij
      exact hb.not_newWord
    · exact fun h => page_disjoint hij h.inPage hb.inPage
  exact (Memory.store32_of_not_inSpan _ _ fun h => htss b h j hb.inPage).trans
    (mem_storeContext hnew)

/-- The stack of the new process is the next one of the interrupts. -/
theorem esp0_executeStores (htss : ∀ b, TssWord S b → ∀ i, ¬ InSpan b (pcbAddr i) 8192)
    (retHere : Word) (i j : Slot) (nested : Bool) (c : Core Reg) :
    let m := (executeStores S retHere (pcbAddr i) j nested c).mem
    m.load32 (S.tss + 4) = getKstackAddr j ∧ m.load32 (pcbAddr j + 180) = getKstackAddr j := by
  intro m
  refine ⟨Memory.load32_store32_self _ _ _, ?_⟩
  have hinit : (initTssEsp j c).mem.load32 (pcbAddr j + 180) = getKstackAddr j :=
    Memory.load32_store32_self _ _ _
  rw [load32_startWord_congr (.inr rfl) fun b hb => mem_executeStores_startWord htss i hb]
  cases nested with
  | false => exact hinit
  | true =>
    refine Eq.trans (load32_words_congr 180 (show _ ∧ _ ≤ 180 + 4 by decide) fun b hb => ?_) hinit
    refine mem_storeOld fun h => ?_
    unfold InSpan at hb h
    bv_omega

/-- The context of the waiting process is in its block, and in that of a child. -/
theorem saved_executeStores (htss : ∀ b, TssWord S b → ∀ i, ¬ InSpan b (pcbAddr i) 8192)
    (retHere : Word) (nested : Bool) (c : Core Reg) (i j : Slot) :
    let m := (executeStores S retHere (pcbAddr i) j nested c).mem
    (m.load32 (pcbAddr i + 188) = c.esp ∧ m.load32 (pcbAddr i + 192) = c.reg .ebp ∧
      m.load32 (pcbAddr i + 184) = retHere) ∧
      (nested = true → m.load32 (pcbAddr j + 140) = c.esp ∧
        m.load32 (pcbAddr j + 152) = c.reg .ebp ∧
        m.load32 (pcbAddr j + 164) = c.mem.load32 (S.tss + 4)) := by
  intro m
  constructor
  · have hlast : ∀ b, NewWord i b → m b = (storeContext retHere (pcbAddr i)
        (if nested then storeOld S retHere (pcbAddr j) (initTssEsp j c)
          else initTssEsp j c)).mem b := fun b hb =>
      Memory.store32_of_not_inSpan _ _ fun h => htss b h i hb.inPage
    rw [load32_newWord_congr (by decide) hlast, load32_newWord_congr (by decide) hlast,
      load32_newWord_congr (by decide) hlast]
    cases nested with
    | false => exact saved_storeContext retHere i (initTssEsp j c)
    | true => exact saved_storeContext retHere i (storeOld S retHere (pcbAddr j) (initTssEsp j c))
  · rintro rfl
    have hword : ∀ b, StartWord j b →
        m b = (storeOld S retHere (pcbAddr j) (initTssEsp j c)).mem b := fun b hb =>
      mem_executeStores_startWord htss i hb
    rw [load32_startWord_congr (.inl (by decide)) hword,
      load32_startWord_congr (.inl (by decide)) hword,
      load32_startWord_congr (.inl (by decide)) hword]
    obtain ⟨hesp, hebp, htssEsp⟩ := saved_storeOld htss retHere j (initTssEsp j c)
    exact ⟨hesp, hebp, htssEsp.trans (load32_tss_block htss _ (by decide))⟩

end ExecuteStores

/-! ## The machine -/

/-- The processor, the process that has it, the processes that wait and their children. -/
structure SwitchState where
  core : Core Reg
  current : Slot
  waiting : Slot → Option Waiting
  parent : Slot → Option Slot

inductive SwitchEvent
  | run
  | tick (j : Slot)
  | start (w : Way) (nested : Bool) (j : Slot)
  | halt (i : Slot)
  | restart (j : Slot)
deriving DecidableEq

/-- What a waiting process needs: its context and its stack. -/
def Parked (i : Slot) (b : Word) : Prop := NewWord i b ∨ StartWord i b ∨ KernelStack i b

/-- The code at the label to which the kernel has jumped. -/
def KernelCode.Continued (C : KernelCode) (q r : Core Reg) : Prop :=
  q.eip = C.switched ∧ C.fromSwitch (switchBack q) r ∨ q.eip = C.retHere ∧ C.fromStart q r

/-- A process waits at `p` with the memory `m`. -/
def waitingAt (w : Way) (c E p : Core Reg) (m : Memory) : Waiting where
  way := w
  user := c
  entry := E
  used := (E.esp + 4 - p.esp).toNat
  ebp := p.reg .ebp
  mem := m

/-- The steps. The process that has the processor runs, in its program or in the kernel, which
stores to the data and to the kernel stack of the process, and when it runs in the kernel the stack
has room for an interrupt; the timer switches to a process that does not wait for a child; a program
is started in a free slot, by a program that waits for it or not; a child halts; a program without a
parent is started again. -/
inductive SwitchStep (S : Symbols) (C : KernelCode) (KernelData : Word → Prop) (depth : ℕ) :
    SwitchState → SwitchEvent → SwitchState → Prop
  -- a program, or the kernel for it
  | run {s : SwitchState} {c : Core Reg} (hruns : Runs S .tick c)
      (hmem : ∀ b, ¬ KernelData b → ¬ KernelStack s.current b → c.mem b = s.core.mem b)
      (hroom : c.cpl = 0 → Room S depth s.current c) :
      SwitchStep S C KernelData depth s .run { s with core := c }
  -- `do_handle_pit`, from the interrupt to the end of the handler that is resumed
  | tick {s : SwitchState} {j : Slot} {e p q r : Core Reg} {w : Way}
      (henter : Enters S .tick s.core e) (hto : C.toSwitch j (Way.tick.enter C.retAddr e) p)
      (hj : j = s.current ∨ (s.waiting j).isSome) (hchild : ∀ i, s.parent i ≠ some j)
      (hq : q = pitSwitch S C.switched j p) (hfrom : C.Continued q r)
      (hret : r.eip = C.retAddr w) :
      SwitchStep S C KernelData depth s (.tick j)
        { s with
          core := w.leave S.registers r
          current := j
          waiting := update (update s.waiting s.current
            (some (waitingAt .tick s.core (Way.tick.enter C.retAddr e) p q.mem))) j none }
  -- `execute` in a system call or in the handler of a key, up to the first instruction
  | start {s : SwitchState} {w : Way} {nested : Bool} {j : Slot} {e p c : Core Reg}
      (hw : w ≠ .tick) (henter : Enters S w s.core e) (hto : C.toStart w (w.enter C.retAddr e) p)
      (hj : j ≠ s.current) (hfree : s.waiting j = none)
      (hstart : C.start j (executeStores S C.retHere (p.esp &&& pcbMask) j nested p) c) :
      SwitchStep S C KernelData depth s (.start w nested j)
        { core := c
          current := j
          waiting := update s.waiting s.current
            (some (waitingAt w s.core (w.enter C.retAddr e) p c.mem))
          parent := update s.parent j (if nested then some s.current else none) }
  -- `halt` of a child, which goes on after `ret_here` of its parent
  | halt {s : SwitchState} {i : Slot} {p r : Core Reg} {w : Way}
      (hparent : s.parent s.current = some i) (hto : C.toHalt s.current s.core p)
      (hfrom : C.fromStart (haltJump S C.retHere (pcbAddr s.current) p) r)
      (hret : r.eip = C.retAddr w) :
      SwitchStep S C KernelData depth s (.halt i)
        { core := w.leave S.registers r
          current := i
          waiting := update s.waiting i none
          parent := update s.parent s.current none }
  -- `halt` of a program without a parent, which calls `execute` for a shell
  | restart {s : SwitchState} {j : Slot} {p q c : Core Reg} (hparent : s.parent s.current = none)
      (hj : j = s.current ∨ s.waiting j = none) (hto : C.toRestart s.current s.core p)
      (hq : q = setTssEsp0 S (p.mem.load32 (pcbAddr s.current + 164)) p)
      (hstart : C.restart s.current j
        (executeStores S C.retHere (q.esp &&& pcbMask) j false q) c) :
      SwitchStep S C KernelData depth s (.restart j)
        { s with core := c, current := j, parent := update s.parent j none }

/-! ## The processes that wait -/

variable {S : Symbols} {C : KernelCode} {KernelData : Word → Prop} {depth k : ℕ}
  {ready : Way → Core Reg → ℕ → Word → Memory → Prop} {w : Way} {e p q r : Core Reg}
  {v : Waiting} {m m' : Memory} {W : Slot → Option Waiting}

theorem Waits.held (hw : Waits S C depth ready i v) {b : Word} (hb : v.Held S b) :
    KernelStack i b := by
  have hused := hw.used
  have hle := v.way.used_le v.user
  exact hw.room b (hb.mono (by omega))

/-- A process waits on while others run. -/
theorem Holds.congr (h : Holds S C i v m) (hw : Waits S C depth ready i v)
    (hm : ∀ b, NewWord i b ∨ KernelStack i b → m' b = m b) : Holds S C i v m' where
  held b hb := (hm b (.inr (hw.held hb))).trans (h.held b hb)
  esp := (load32_newWord_congr (by decide) fun b hb => hm b (.inl hb)).trans h.esp
  ebp := (load32_newWord_congr (by decide) fun b hb => hm b (.inl hb)).trans h.ebp
  eip := (load32_newWord_congr (by decide) fun b hb => hm b (.inl hb)).trans h.eip

/-- Every process that waits can go on. -/
def Suspended (S : Symbols) (C : KernelCode) (depth : ℕ)
    (ready : Way → Core Reg → ℕ → Word → Memory → Prop) (W : Slot → Option Waiting)
    (m : Memory) : Prop :=
  ∀ i v, W i = some v → Waits S C depth ready i v ∧ Holds S C i v m

theorem Suspended.congr (h : Suspended S C depth ready W m)
    (hm : ∀ i b, (W i).isSome → NewWord i b ∨ KernelStack i b → m' b = m b) :
    Suspended S C depth ready W m' := by
  intro i v hv
  obtain ⟨hw, hh⟩ := h i v hv
  exact ⟨hw, hh.congr hw fun b hb => hm i b (by rw [hv]; rfl) hb⟩

/-- Another process begins to wait. -/
theorem Suspended.update_some (h : Suspended S C depth ready W m)
    (hv : Waits S C depth ready i v ∧ Holds S C i v m')
    (hm : ∀ j b, j ≠ i → NewWord j b ∨ KernelStack j b → m' b = m b) :
    Suspended S C depth ready (update W i (some v)) m' := by
  intro j v' hj
  by_cases hji : j = i
  · subst hji
    rw [update_self] at hj
    obtain rfl := Option.some.inj hj
    exact hv
  · rw [update_of_ne hji] at hj
    obtain ⟨hw, hh⟩ := h j v' hj
    exact ⟨hw, hh.congr hw fun b hb => hm j b hji hb⟩

theorem Suspended.update_none (h : Suspended S C depth ready W m) (i : Slot) :
    Suspended S C depth ready (update W i none) m := by
  intro j v hj
  by_cases hji : j = i
  · subst hji
    rw [update_self] at hj
    exact absurd hj (by simp)
  · rw [update_of_ne hji] at hj
    exact h j v hj

/-- The stub stores below the top of the stack. -/
theorem Enters.mem (h : Enters S w c e) (R : Way → Word) {b : Word}
    (hb : ¬ Below (stackTop S c) (w.used c + 4) b) : (w.enter R e).mem b = c.mem b := by
  obtain ⟨hent, -⟩ := h.entered
  have hesp := h.esp
  have hle := w.used_le c
  unfold Way.used at hb hle
  have hmem := hent.mem b (by
    rw [frameWords_next]
    show ¬ Below (stackTop S (w.next c)) _ b
    rw [stackTop_next]
    exact fun h => hb (h.mono (by omega)))
  rw [Way.mem_next] at hmem
  refine ((w.stub R e).mem b fun hlow => hb ?_).trans hmem
  rw [hesp] at hlow
  exact (hlow.of_sub (by omega)).mono (by omega)

/-- The function of a way runs in the kernel's segments. -/
theorem Within.inKernel (hin : Within KernelData depth k (w.enter C.retAddr e) p)
    (he : Enters S w c e) : InKernel p := by
  have hstub := w.stub C.retAddr e
  obtain ⟨hcs, hss, hds, hes⟩ := he.inKernel
  exact ⟨hin.cs.trans (hstub.cs.trans hcs), hin.ss.trans (hstub.ss.trans hss),
    hin.ds.trans (hstub.ds.trans hds), hin.es.trans (hstub.es.trans hes)⟩

/-- What is below the entry of the function is on the kernel stack. -/
theorem Room.below (hroom : Room S depth i c) (he : Enters S w c e) (hfits : 72 + depth ≤ 7860)
    {b : Word} (hb : Below ((w.enter C.retAddr e).esp + 4) depth b) : KernelStack i b := by
  have hle := w.used_le c
  rw [he.entry rfl] at hb
  exact hroom b ((hb.of_sub (by omega)).mono (by omega))

theorem Within.mem_eq (hin : Within KernelData depth k (w.enter C.retAddr e) p)
    (he : Enters S w c e) (hroom : Room S depth i c) (hfits : 72 + depth ≤ 7860) {b : Word}
    (hdata : ¬ KernelData b) (hstack : ¬ KernelStack i b) : p.mem b = c.mem b := by
  have hused := hin.used
  have hle := w.used_le c
  rw [hin.mem b hdata fun h => hstack (hroom.below he hfits h)]
  exact he.mem C.retAddr fun h => hstack (hroom b (h.mono (by omega)))

/-- A program in user mode is interrupted on the stack that `tss.esp0` says. -/
theorem room_of_esp0 (hcpl : c.cpl ≠ 0) (hesp0 : c.mem.load32 (S.tss + 4) = getKstackAddr i)
    (hfits : 72 + depth ≤ 7860) : Room S depth i c := by
  intro b hb
  rw [stackTop, TableRegisters.entryTop, if_neg hcpl, stackPointer_zero] at hb
  rw [hesp0] at hb
  have hkstack : getKstackAddr i = pcbAddr i + 8188 := by
    rw [getKstackAddr, pcbOffset]
    bv_omega
  have hb' := hb.mono hfits
  rw [hkstack] at hb'
  unfold Below at hb'
  unfold KernelStack InSpan
  bv_omega

/-- The stack pointer of the process that waits. -/
theorem Within.esp_waitingAt {E : Core Reg} (hin : Within KernelData depth k E p)
    (hfits : 72 + depth ≤ 7860) :
    (waitingAt w c E p m).used = k ∧ (waitingAt w c E p m).esp = p.esp := by
  have hused := hin.used
  have hk : (BitVec.ofNat 32 k).toNat = k := by
    rw [BitVec.toNat_ofNat, Nat.mod_eq_of_lt (by omega)]
  have hk' : (waitingAt w c E p m).used = k := by
    show (E.esp + 4 - p.esp).toNat = k
    rw [hin.esp]
    generalize BitVec.ofNat 32 k = x at hk
    bv_omega
  refine ⟨hk', ?_⟩
  rw [Waiting.esp, hk', hin.esp]
  rfl

/-- **A process begins to wait.** -/
theorem Within.waits (hC : Compiled S C KernelData depth ready)
    (hin : Within KernelData depth k (w.enter C.retAddr e) p) (he : Enters S w c e)
    (hroom : Room S depth i c) (hready : ready w (w.enter C.retAddr e) k (p.reg .ebp) m)
    (hpush : w = .tick → m.load32 (p.esp - 8) = p.reg .ebp)
    (hm : ∀ b, KernelStack i b → ¬ Below ((w.enter C.retAddr e).esp + 4) depth b →
      m b = p.mem b) :
    Waits S C depth ready i (waitingAt w c (w.enter C.retAddr e) p m) := by
  have hfits := hC.fits
  have hle := w.used_le c
  obtain ⟨hk, hesp⟩ := hin.esp_waitingAt (w := w) (c := c) (m := m) hfits
  refine ⟨⟨e, he, rfl⟩, by rw [hk]; exact hready, fun b hb => ?_, fun hway => ?_, hroom,
    by rw [hk]; exact hin.used⟩
  · have hstack : KernelStack i b := hroom b (Below.mono hb (hle.trans (Nat.le_add_right _ _)))
    have hnot : ¬ Below ((w.enter C.retAddr e).esp + 4) depth b := by
      rw [he.entry rfl]
      exact Below.not_sub hb (by show w.used c + depth < 2 ^ 32; omega)
    exact (hm b hstack hnot).trans
      (hin.mem b (fun h => ((hC.data b h).2.2 i).2.2 hstack) hnot)
  · rw [hesp]
    exact hpush hway

/-! ## Steps -/

/-- A process that waits is continued at its label. -/
theorem Waits.continued (hw : Waits S C depth ready i v) (hC : Compiled S C KernelData depth ready)
    (hh : Holds S C i v q.mem) (hesp : q.esp = v.stored) (hebp : q.reg .ebp = v.ebp)
    (heip : q.eip = v.label C) (hq : InKernel q) (htab : Tabled S q.mem) (hfrom : C.Continued q r)
    (hret : r.eip = C.retAddr w) :
    w.leave S.registers r = v.back (w.leave S.registers r) ∧
      ∀ b, ¬ KernelData b → ¬ KernelStack i b → (w.leave S.registers r).mem b = q.mem b := by
  by_cases hway : v.way = .tick
  · -- `__switch_to` pops what it had pushed
    have hlabel : q.eip = C.switched := by rw [heip, Waiting.label, hway]
    have hstored : q.esp = v.esp - 8 := by rw [hesp, Waiting.stored, hway]
    have hswitched : C.fromSwitch (switchBack q) r := by
      obtain ⟨-, h⟩ | ⟨h, -⟩ := hfrom
      · exact h
      · exact absurd (hlabel.symm.trans h) hC.labels
    obtain ⟨hused4, hused⟩ := hw.used
    have hfits := hC.fits
    have hle := v.way.used_le v.user
    obtain ⟨e, he, hE⟩ := hw.entered
    have hentry := he.entry hE
    have hpopped : q.mem.load32 q.esp = v.ebp := by
      rw [hstored, ← hw.pushed hway]
      refine Memory.load32_congr fun n hn => hh.held _ ?_
      have hspan : InSpan (v.esp - 8 + BitVec.ofNat 32 n) (v.esp - 8) 8 :=
        inSpan_add_ofNat (by omega)
      have hbelow : Below (v.entry.esp + 4) (v.used + 8) (v.esp - 8 + BitVec.ofNat 32 n) := by
        have h8 : (BitVec.ofNat 32 8 : Word) = 8 := rfl
        rw [← h8, inSpan_iff_below (by decide)] at hspan
        exact hspan.of_sub (by omega)
      rw [hentry] at hbelow
      exact hbelow.of_sub (by omega)
    refine hw.resume (q := switchBack q) hC (fun b hb => hh.held b hb) ?_ ?_ ⟨hq.cs, hq.ss, hq.ds,
      hq.es⟩ htab (.inl ⟨hway, hswitched⟩) hret
    · show q.esp + 4 + 4 = v.esp
      rw [hstored]
      bv_omega
    · show update q.reg .ebp q.top .ebp = v.ebp
      rw [update_self]
      exact hpopped
  · -- `ret_here` is reached with the stack as `execute` left it
    have hlabel : q.eip = C.retHere := heip.trans (Waiting.label_of_ne C hway)
    have hstored : q.esp = v.esp := hesp.trans (Waiting.stored_of_ne hway)
    have hstarted : C.fromStart q r := by
      obtain ⟨h, -⟩ | ⟨-, h⟩ := hfrom
      · exact absurd (h.symm.trans hlabel) hC.labels
      · exact h
    exact hw.resume hC hh.held hstored hebp hq htab (.inr ⟨hway, hstarted⟩) hret

/-- The program that goes on runs as it did. -/
theorem Waits.runs (hw : Waits S C depth ready i v) (hback : c = v.back c) (htab : Tabled S c.mem) :
    Runs S .tick c := by
  obtain ⟨e, he, -⟩ := hw.entered
  have hruns := he.runs
  have hcs : c.cs = v.user.cs := by rw [hback]; exact Way.cs_next _ _
  have hss : c.ss = v.user.ss := by rw [hback]; exact Way.ss_next _ _
  have hds : c.ds = v.user.ds := by rw [hback]; exact Way.ds_next _ _
  have hes : c.es = v.user.es := by rw [hback]; exact Way.es_next _ _
  refine ⟨htab, ?_, hds.trans hruns.ds, hes.trans hruns.es⟩
  rw [Core.cpl, hcs, hss]
  exact hruns.level.imp id fun h => ⟨by decide, h.2⟩

/-- It has room on its stack again. -/
theorem Waits.room_back (hw : Waits S C depth ready i v) (hback : c = v.back c)
    (hesp0 : c.mem.load32 (S.tss + 4) = getKstackAddr i) (hfits : 72 + depth ≤ 7860) :
    Room S depth i c := by
  by_cases hcpl : c.cpl = 0
  · have hcs : c.cs = v.user.cs := by rw [hback]; exact Way.cs_next _ _
    have hesp : c.esp = v.user.esp := by rw [hback]; exact Way.esp_next _ _
    have hcpl' : v.user.cpl = 0 := by rw [← hcpl, Core.cpl, Core.cpl, hcs]
    have htop : stackTop S c = stackTop S v.user := by
      rw [stackTop, stackTop, TableRegisters.entryTop, TableRegisters.entryTop, if_pos hcpl,
        if_pos hcpl', hesp]
    intro b hb
    rw [htop] at hb
    exact hw.room b hb
  · exact room_of_esp0 hcpl hesp0 hfits

/-- The block in slot `j` says where the process in slot `i`, which waits for it, goes on. -/
structure WaitsFor (j i : Slot) (v : Waiting) (m : Memory) : Prop where
  way : v.way ≠ .tick
  esp : m.load32 (pcbAddr j + 140) = v.esp
  ebp : m.load32 (pcbAddr j + 152) = v.ebp
  tssEsp : m.load32 (pcbAddr j + 164) = getKstackAddr i

theorem WaitsFor.congr (h : WaitsFor j i v m) (hm : ∀ b, StartWord j b → m' b = m b) :
    WaitsFor j i v m' where
  way := h.way
  esp := (load32_startWord_congr (.inl (by decide)) hm).trans h.esp
  ebp := (load32_startWord_congr (.inl (by decide)) hm).trans h.ebp
  tssEsp := (load32_startWord_congr (.inl (by decide)) hm).trans h.tssEsp

/-- What holds between steps. -/
structure SwitchInv (S : Symbols) (C : KernelCode) (depth : ℕ)
    (ready : Way → Core Reg → ℕ → Word → Memory → Prop) (s : SwitchState) : Prop where
  runs : Runs S .tick s.core
  room : Room S depth s.current s.core
  esp0 : s.core.mem.load32 (S.tss + 4) = getKstackAddr s.current
  current : s.waiting s.current = none
  tssEsp : ∀ i, i = s.current ∨ (s.waiting i).isSome →
    s.core.mem.load32 (pcbAddr i + 180) = getKstackAddr i
  suspended : Suspended S C depth ready s.waiting s.core.mem
  children : ∀ j i, s.parent j = some i → ∃ v, s.waiting i = some v ∧ WaitsFor j i v s.core.mem
  only : ∀ j j' i, s.parent j = some i → s.parent j' = some i → j = j'

variable {s s' : SwitchState} {a : SwitchEvent}

/-- The bytes of a process that waits are not kernel data and no tables. -/
theorem Parked.not_data (hC : Compiled S C KernelData depth ready) {b : Word} (h : Parked i b) :
    ¬ KernelData b := by
  intro hd
  obtain ⟨-, -, hout⟩ := hC.data b hd
  obtain ⟨h1, h2, h3⟩ := hout i
  exact h.elim h1 fun h => h.elim h2 h3

theorem Parked.inPage {b : Word} (h : Parked i b) : InSpan b (pcbAddr i) 8192 :=
  h.elim NewWord.inPage fun h => h.elim StartWord.inPage KernelStack.inPage

theorem Compiled.tss (hC : Compiled S C KernelData depth ready) :
    ∀ b, TssWord S b → ∀ i, ¬ InSpan b (pcbAddr i) 8192 := fun b hb => hC.tables b (.inr hb)

/-- What a process stores as it gives up the processor is apart from what another one needs. -/
theorem Parked.kept (hC : Compiled S C KernelData depth ready) {b : Word} (hb : Parked j b)
    (hij : j ≠ i)
    (hm : ¬ KernelData b → ¬ KernelStack i b → ¬ NewWord i b → ¬ TssWord S b → m' b = m b) :
    m' b = m b :=
  hm (hb.not_data hC) (fun h => page_disjoint hij hb.inPage h.inPage)
    (fun h => page_disjoint hij hb.inPage h.inPage) fun h => hC.tss b h j hb.inPage

/-- It is apart from the words that a process was started with. -/
theorem StartWord.kept (hC : Compiled S C KernelData depth ready) {b : Word} (hb : StartWord j b)
    (hm : ¬ KernelData b → ¬ KernelStack i b → ¬ NewWord i b → ¬ TssWord S b → m' b = m b) :
    m' b = m b := by
  have hpark : Parked j b := .inr (.inl hb)
  by_cases hij : j = i
  · subst hij
    exact hm (hpark.not_data hC) (fun h => h.not_words.2 hb) hb.not_newWord
      fun h => hC.tss b h j hb.inPage
  · exact hpark.kept hC hij hm

/-- `tss.esp0` is not one of the tables. -/
theorem not_tssWord_of_inTables {b : Word} (hb : S.InTables b) : ¬ TssWord S b := by
  intro h
  have htss : InSpan b S.tss 104 := inSpan_of_inSpan_add (by decide) (by decide) h
  obtain hb | hb | hb := hb
  · exact S.apart_gdt_tss _ hb htss
  · exact S.apart_idt_tss _ hb htss
  · unfold TssWord InSpan at h
    unfold InSpan at hb
    bv_omega

/-- It is apart from the descriptor tables. -/
theorem Compiled.inTables_kept (hC : Compiled S C KernelData depth ready) {b : Word}
    (hb : S.InTables b)
    (hm : ¬ KernelData b → ¬ KernelStack i b → ¬ NewWord i b → ¬ TssWord S b → m' b = m b) :
    m' b = m b :=
  hm (fun hd => (hC.data b hd).1 hb) (fun h => hC.tables b (.inl hb) _ h.inPage)
    (fun h => hC.tables b (.inl hb) _ h.inPage) (not_tssWord_of_inTables hb)

/-- A process that runs on leaves `tss.esp0` alone. -/
theorem Compiled.tssWord_kept (hC : Compiled S C KernelData depth ready) {b : Word}
    (hb : TssWord S b) (hm : ¬ KernelData b → ¬ KernelStack i b → m' b = m b) : m' b = m b :=
  hm (fun hd => (hC.data b hd).2.1 hb) fun h => hC.tss b hb _ h.inPage

/-- The process in slot `i`, which waited as `v` says, has the processor again, at `c`. -/
structure GoesOn (S : Symbols) (C : KernelCode) (depth : ℕ)
    (ready : Way → Core Reg → ℕ → Word → Memory → Prop) (W : Slot → Option Waiting) (i : Slot)
    (v : Waiting) (q c : Core Reg) : Prop where
  back : c = v.back c
  runs : Runs S .tick c
  room : Room S depth i c
  esp0 : c.mem.load32 (S.tss + 4) = getKstackAddr i
  suspended : Suspended S C depth ready (update W i none) c.mem
  start : ∀ j b, StartWord j b → c.mem b = q.mem b

/-- A process goes on, whatever way it came. -/
theorem Suspended.resume (h : Suspended S C depth ready W q.mem) (hi : W i = some v)
    (hC : Compiled S C KernelData depth ready) (hesp : q.esp = v.stored)
    (hebp : q.reg .ebp = v.ebp) (heip : q.eip = v.label C) (hq : InKernel q)
    (htab : Tabled S q.mem) (hesp0 : q.mem.load32 (S.tss + 4) = getKstackAddr i)
    (hfrom : C.Continued q r) (hret : r.eip = C.retAddr w) :
    GoesOn S C depth ready W i v q (w.leave S.registers r) := by
  obtain ⟨hw, hh⟩ := h i v hi
  obtain ⟨hback, hmem⟩ := hw.continued hC hh hesp hebp heip hq htab hfrom hret
  have htables : ∀ b, S.InTables b → (w.leave S.registers r).mem b = q.mem b := fun b hb =>
    hC.inTables_kept hb fun hd hk _ _ => hmem b hd hk
  have hesp0' := (load32_tssWord_congr fun b hb => hC.tssWord_kept hb (hmem b)).trans hesp0
  refine ⟨hback, hw.runs hback (htab.congr htables), hw.room_back hback hesp0' hC.fits, hesp0',
    (h.update_none i).congr fun j b hj hb => ?_,
    fun j b hb => hb.kept hC fun hd hk _ _ => hmem b hd hk⟩
  have hji : j ≠ i := by
    rintro rfl
    rw [update_self] at hj
    exact absurd hj (by decide)
  have hpark : Parked j b := hb.imp id .inr
  exact hpark.kept hC hji fun hd hk _ _ => hmem b hd hk

/-- The block that `get_pcb` finds in the function of a way. -/
theorem Within.and_pcbMask (hin : Within KernelData depth k (w.enter C.retAddr e) p)
    (he : Enters S w c e) (hroom : Room S depth i c) (hfits : 72 + depth ≤ 7860) :
    p.esp &&& pcbMask = pcbAddr i := by
  have hused := hin.used
  have hk : (BitVec.ofNat 32 k).toNat = k := by
    rw [BitVec.toNat_ofNat, Nat.mod_eq_of_lt (by omega)]
  have hbelow : Below ((w.enter C.retAddr e).esp + 4) depth p.esp := by
    rw [hin.esp]
    generalize BitVec.ofNat 32 k = x at hk
    unfold Below
    bv_omega
  exact Interrupt.and_pcbMask (hroom.below he hfits hbelow).inPage

/-- The words that `__switch_to` pushes are on the kernel stack. -/
theorem Within.pushed (hin : Within KernelData depth k (w.enter C.retAddr e) p)
    (he : Enters S w c e) (hroom : Room S depth i c) (hfits : 72 + depth ≤ 7860) {b : Word}
    (hb : Below p.esp 8 b) :
    KernelStack i b ∧ Below ((w.enter C.retAddr e).esp + 4) depth b ∧
      ¬ Below ((w.enter C.retAddr e).esp + 4) k b := by
  have hused := hin.used
  rw [hin.esp] at hb
  have hbelow : Below ((w.enter C.retAddr e).esp + 4) depth b :=
    (hb.of_sub (by omega)).mono (by omega)
  exact ⟨hroom.below he hfits hbelow, hbelow, fun h => h.not_sub (by omega) hb⟩

/-- The process that `do_handle_pit` switches from. -/
theorem Within.parks_tick (hC : Compiled S C KernelData depth ready)
    (hin : Within KernelData depth k (Way.tick.enter C.retAddr e) p) (he : Enters S .tick c e)
    (hroom : Room S depth i c)
    (hready : ready .tick (Way.tick.enter C.retAddr e) k (p.reg .ebp) p.mem)
    (hm : m = (pitSwitch S C.switched j p).mem) :
    let v := waitingAt .tick c (Way.tick.enter C.retAddr e) p m
    Waits S C depth ready i v ∧ Holds S C i v m := by
  intro v
  have hfits := hC.fits
  rw [pitSwitch, hin.and_pcbMask he hroom hfits] at hm
  generalize hset : setTssEsp0 S (p.mem.load32 (pcbAddr j + 180)) p = p' at hm
  have hesp : p'.esp = p.esp := by rw [← hset]; rfl
  have hebp : p'.reg .ebp = p.reg .ebp := by rw [← hset]; rfl
  have hout : ∀ b, Below p'.esp 8 b → ¬ NewWord i b := fun b hb =>
    (hin.pushed he hroom hfits (hesp ▸ hb)).1.not_words.1
  obtain ⟨hsp, hbp, hip, hpush⟩ := saved_switchStacks C.switched j hout
  rw [hesp] at hsp hpush
  rw [hebp] at hbp hpush
  have hmem : ∀ b, ¬ Below p.esp 8 b → KernelStack i b → m b = p.mem b := by
    intro b hb hk
    rw [hm, mem_switchStacks (by rw [hesp]; exact hb) hk.not_words.1, ← hset]
    exact Memory.store32_of_not_inSpan _ _ fun h => hC.tss b h i hk.inPage
  rw [← hm] at hsp hbp hip hpush
  -- the frame of `do_handle_pit` is above the words pushed and outside the block
  have hready' : ready .tick (Way.tick.enter C.retAddr e) k (p.reg .ebp) m := by
    refine hC.frame _ _ _ _ _ _ hready fun b hb => hmem b (fun h => ?_) ?_
    · exact (hin.pushed he hroom hfits h).2.2 hb
    · have hk := hin.used
      exact hroom.below he hfits (hb.mono (by omega))
  obtain ⟨-, hvesp⟩ := hin.esp_waitingAt (w := .tick) (c := c) (m := m) hfits
  refine ⟨hin.waits hC he hroom hready' (fun _ => hpush) fun b hb hnot => ?_, fun _ _ => rfl, ?_,
    hbp, hip⟩
  · exact hmem b (fun h => hnot (hin.pushed he hroom hfits h).2.1) hb
  · show _ = v.esp - 8
    rw [hvesp]
    exact hsp

/-- The process that starts another. -/
theorem Within.parks_start (hC : Compiled S C KernelData depth ready) {nested : Bool}
    (hin : Within KernelData depth k (w.enter C.retAddr e) p) (he : Enters S w c e)
    (hroom : Room S depth i c) (hw : w ≠ .tick) (hij : i ≠ j)
    (hready : ready w (w.enter C.retAddr e) k (p.reg .ebp) m)
    (hm : ∀ b, ¬ KernelData b → ¬ Below ((w.enter C.retAddr e).esp + 4) depth b →
      m b = (executeStores S C.retHere (pcbAddr i) j nested p).mem b) :
    let v := waitingAt w c (w.enter C.retAddr e) p m
    (Waits S C depth ready i v ∧ Holds S C i v m) ∧
      (nested = true → m.load32 (pcbAddr j + 140) = v.esp ∧ m.load32 (pcbAddr j + 152) = v.ebp ∧
        m.load32 (pcbAddr j + 164) = p.mem.load32 (S.tss + 4)) := by
  intro v
  have hfits := hC.fits
  -- the program is loaded after the stores, into neither of the blocks
  have hnew : ∀ b, NewWord i b →
      m b = (executeStores S C.retHere (pcbAddr i) j nested p).mem b := fun b hb =>
    hm b (Parked.not_data hC (.inl hb)) fun h => (hroom.below he hfits h).not_words.1 hb
  have hstart : ∀ b, StartWord j b →
      m b = (executeStores S C.retHere (pcbAddr i) j nested p).mem b := fun b hb =>
    hm b (Parked.not_data hC (.inr (.inl hb))) fun h =>
      page_disjoint hij (hroom.below he hfits h).inPage hb.inPage
  obtain ⟨⟨hsp, hbp, hip⟩, hchild⟩ := saved_executeStores hC.tss C.retHere nested p i j
  rw [← load32_newWord_congr (by decide) hnew] at hsp hbp hip
  rw [← load32_startWord_congr (.inl (by decide)) hstart,
    ← load32_startWord_congr (.inl (by decide)) hstart,
    ← load32_startWord_congr (.inl (by decide)) hstart] at hchild
  obtain ⟨-, hesp⟩ := hin.esp_waitingAt (w := w) (c := c) (m := m) hfits
  have hway : v.way ≠ .tick := hw
  have hstored : v.stored = p.esp := (Waiting.stored_of_ne hway).trans hesp
  have hlabel : v.label C = C.retHere := Waiting.label_of_ne C hway
  refine ⟨⟨hin.waits hC he hroom hready (fun h => absurd h hw) fun b hb hnot => ?_,
    fun _ _ => rfl, hsp.trans hstored.symm, hbp, hip.trans hlabel.symm⟩, ?_⟩
  · rw [hm b (Parked.not_data hC (.inr (.inr hb))) hnot]
    exact mem_executeStores hb.not_words.1 (fun h => page_disjoint hij hb.inPage h.inPage)
      fun h => hC.tss b h i hb.inPage
  · rw [hesp]
    exact hchild

end HieUnix.Interrupt
