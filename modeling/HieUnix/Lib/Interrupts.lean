import HieUnix.Lib.Memory

/-!
# Interrupts and returns

A 32-bit x86 processor in protected mode, as far as it enters a handler and returns from it: a gate
of the interrupt descriptor table names the handler's code segment, entering a more privileged
segment takes the stack pointer from the task state segment, and the state of the interrupted
program is pushed there, where `iret` finds it. The tables are words of the memory. The segments of
all levels are taken to start at address 0.

The rules for handlers: where the tables lead (`raise_inner`, `raise_same`) and that `iret`
undoes an entry when the handler kept its frame (`iret_of_entered`).
-/

namespace X86

/-- A segment selector. -/
abbrev Selector := BitVec 16

/-- The level of a selector; that of `%cs` is the level the processor runs at. -/
def rpl (s : Selector) : BitVec 2 := s.extractLsb' 0 2

/-- A selector with another level. -/
def withRpl (s : Selector) (level : BitVec 2) : Selector := s &&& 0xFFFC ||| level.setWidth 16

/-- The offset of the descriptor that a selector names. -/
def descriptorOffset (s : Selector) : Word := (s &&& 0xFFF8).setWidth 32

/-! ## Descriptors -/

/-- A segment descriptor. -/
structure Descriptor where
  base : Word
  limit : BitVec 20
  type : BitVec 4
  segment : Bool
  dpl : BitVec 2
  present : Bool
  pages : Bool
deriving DecidableEq, Repr

/-- The descriptor in two words. -/
def Descriptor.ofWords (low high : Word) : Descriptor where
  base := high.extractLsb' 24 8 ++ high.extractLsb' 0 8 ++ low.extractLsb' 16 16
  limit := high.extractLsb' 16 4 ++ low.extractLsb' 0 16
  type := high.extractLsb' 8 4
  segment := high.getLsbD 12
  dpl := high.extractLsb' 13 2
  present := high.getLsbD 15
  pages := high.getLsbD 23

namespace Descriptor

/-- A code segment. -/
def isCode (d : Descriptor) : Bool := d.segment && d.type.getLsbD 3

/-- A code segment that keeps the level of its caller. -/
def conforming (d : Descriptor) : Bool := d.isCode && d.type.getLsbD 2

/-- A data segment that may be written. -/
def isWritable (d : Descriptor) : Bool := d.segment && !d.type.getLsbD 3 && d.type.getLsbD 1

end Descriptor

/-- A gate of the interrupt descriptor table. -/
structure Gate where
  offset : Word
  selector : Selector
  type : BitVec 4
  system : Bool
  dpl : BitVec 2
  present : Bool
deriving DecidableEq, Repr

/-- The gate in two words. -/
def Gate.ofWords (low high : Word) : Gate where
  offset := high.extractLsb' 16 16 ++ low.extractLsb' 0 16
  selector := low.extractLsb' 16 16
  type := high.extractLsb' 8 4
  system := !high.getLsbD 12
  dpl := high.extractLsb' 13 2
  present := high.getLsbD 15

/-- A task, interrupt or trap gate, the latter two of 32 bits. -/
def Gate.IsGate (g : Gate) : Prop := g.system = true ∧ (g.type = 0x5 ∨ g.type = 0xE ∨ g.type = 0xF)

instance (g : Gate) : Decidable g.IsGate := inferInstanceAs (Decidable (_ ∧ _))

/-- The table registers. -/
structure TableRegisters where
  gdt : Word
  gdtLimit : ℕ
  idt : Word
  idtLimit : ℕ
  tss : Word

namespace TableRegisters

/-- The gate of a vector. -/
def gate (T : TableRegisters) (m : Memory) (v : BitVec 8) : Gate :=
  Gate.ofWords (m.load32 (T.idt + 8 * v.setWidth 32)) (m.load32 (T.idt + 8 * v.setWidth 32 + 4))

/-- The descriptor of a selector. -/
def descriptor (T : TableRegisters) (m : Memory) (s : Selector) : Descriptor :=
  Descriptor.ofWords (m.load32 (T.gdt + descriptorOffset s))
    (m.load32 (T.gdt + descriptorOffset s + 4))

/-- The selector names a descriptor of the table, and not the null descriptor. -/
def Holds (T : TableRegisters) (s : Selector) : Prop :=
  descriptorOffset s ≠ 0 ∧ (descriptorOffset s).toNat + 7 ≤ T.gdtLimit

instance (T : TableRegisters) (s : Selector) : Decidable (T.Holds s) :=
  inferInstanceAs (Decidable (_ ∧ _))

/-- The stack pointer for a level. -/
def stackPointer (T : TableRegisters) (m : Memory) (level : BitVec 2) : Word :=
  m.load32 (T.tss + 4 + 8 * level.setWidth 32)

/-- The stack segment for a level. -/
def stackSegment (T : TableRegisters) (m : Memory) (level : BitVec 2) : Selector :=
  (m.load32 (T.tss + 8 + 8 * level.setWidth 32)).setWidth 16

end TableRegisters

/-! ## The processor -/

/-- The registers and the memory. The general registers are a parameter; `%fs` and `%gs` are left
out. -/
structure Core (ρ : Type) where
  reg : ρ → Word
  esp : Word
  eip : Word
  eflags : Word
  cs : Selector
  ss : Selector
  ds : Selector
  es : Selector
  mem : Memory

variable {ρ : Type}

namespace Core

/-- The level the processor runs at. -/
def cpl (c : Core ρ) : BitVec 2 := rpl c.cs

/-- A word pushed. -/
def push (c : Core ρ) (v : Word) : Core ρ :=
  { c with esp := c.esp - 4, mem := c.mem.store32 (c.esp - 4) v }

/-- The word that a pop reads. -/
def top (c : Core ρ) : Word := c.mem.load32 c.esp

/-- The `n` words on the stack. -/
def stack (c : Core ρ) (n : ℕ) : List Word := c.mem.words c.esp n

@[simp] theorem esp_push (c : Core ρ) (v : Word) : (c.push v).esp = c.esp - 4 := rfl
@[simp] theorem reg_push (c : Core ρ) (v : Word) : (c.push v).reg = c.reg := rfl

/-- A push is a word on top of the stack. -/
theorem stack_push (c : Core ρ) (v : Word) {n : ℕ} (hn : 4 * (n + 1) ≤ 2 ^ 32) :
    (c.push v).stack (n + 1) = v :: c.stack n :=
  Memory.words_push c.mem c.esp v hn

/-- A push changes nothing outside the four bytes below the stack pointer. -/
theorem mem_push (c : Core ρ) (v : Word) {b : Word} (hb : ¬ InSpan b (c.esp - 4) 4) :
    (c.push v).mem b = c.mem b :=
  Memory.store32_of_not_inSpan _ _ hb

/-- Words pushed, the last one first. -/
def pushAll (c : Core ρ) : List Word → Core ρ
  | [] => c
  | w :: ws => (c.pushAll ws).push w

section

variable (c : Core ρ) (ws : List Word)

@[simp] theorem reg_pushAll : (c.pushAll ws).reg = c.reg := by
  induction ws with
  | nil => rfl
  | cons w ws ih => exact ih

@[simp] theorem cs_pushAll : (c.pushAll ws).cs = c.cs := by
  induction ws with
  | nil => rfl
  | cons w ws ih => exact ih

@[simp] theorem ss_pushAll : (c.pushAll ws).ss = c.ss := by
  induction ws with
  | nil => rfl
  | cons w ws ih => exact ih

@[simp] theorem ds_pushAll : (c.pushAll ws).ds = c.ds := by
  induction ws with
  | nil => rfl
  | cons w ws ih => exact ih

@[simp] theorem es_pushAll : (c.pushAll ws).es = c.es := by
  induction ws with
  | nil => rfl
  | cons w ws ih => exact ih

theorem esp_pushAll : (c.pushAll ws).esp = c.esp - BitVec.ofNat 32 (4 * ws.length) := by
  induction ws with
  | nil => exact (BitVec.sub_zero _).symm
  | cons w ws ih =>
    have hlen : BitVec.ofNat 32 (4 * (w :: ws).length)
        = BitVec.ofNat 32 (4 * ws.length) + 4 := by
      rw [List.length_cons, Nat.mul_succ, BitVec.ofNat_add]
      rfl
    rw [pushAll, esp_push, ih, hlen]
    bv_omega

/-- The words are on the stack, in their order. -/
theorem stack_pushAll {n : ℕ} (hn : 4 * (ws.length + n) ≤ 2 ^ 32) :
    (c.pushAll ws).stack (ws.length + n) = ws ++ c.stack n := by
  induction ws with
  | nil => rw [pushAll, List.length_nil, Nat.zero_add, List.nil_append]
  | cons w ws ih =>
    rw [List.length_cons] at hn
    have hsucc : (w :: ws).length + n = ws.length + n + 1 := by
      rw [List.length_cons]
      omega
    rw [pushAll, hsucc, stack_push _ _ (by omega), ih (by omega), List.cons_append]

/-- Nothing else changes. -/
theorem mem_pushAll {b : Word} (hn : 4 * ws.length < 2 ^ 32)
    (hb : ¬ InSpan b (c.esp - BitVec.ofNat 32 (4 * ws.length)) (4 * ws.length)) :
    (c.pushAll ws).mem b = c.mem b := by
  induction ws with
  | nil => rfl
  | cons w ws ih =>
    have hlen : 4 * (w :: ws).length = 4 * ws.length + 4 := by
      rw [List.length_cons]
      omega
    have hone : (BitVec.ofNat 32 (4 * ws.length)).toNat = 4 * ws.length := by
      rw [BitVec.toNat_ofNat, Nat.mod_eq_of_lt (by omega)]
    have hesp := esp_pushAll c ws
    have hfour : BitVec.ofNat 32 4 = 4 := rfl
    rw [hlen] at hn hb
    rw [BitVec.ofNat_add, hfour] at hb
    unfold InSpan at hb ih
    generalize BitVec.ofNat 32 (4 * ws.length) = x at hone hb ih hesp
    have hpush : ¬ InSpan b ((c.pushAll ws).esp - 4) 4 := by
      unfold InSpan
      bv_omega
    rw [pushAll, mem_push _ _ hpush]
    exact ih (by omega) (by bv_omega)

end

end Core

/-! ## Below a stack pointer -/

/-- `b` is one of the `n` bytes below `top`. -/
def Below (top : Word) (n : ℕ) (b : Word) : Prop := 0 < (top - b).toNat ∧ (top - b).toNat ≤ n

theorem inSpan_iff_below {top b : Word} {n : ℕ} (hn : n < 2 ^ 32) :
    InSpan b (top - BitVec.ofNat 32 n) n ↔ Below top n b := by
  have hone : (BitVec.ofNat 32 n).toNat = n := by
    rw [BitVec.toNat_ofNat, Nat.mod_eq_of_lt hn]
  generalize BitVec.ofNat 32 n = x at hone
  unfold InSpan Below
  bv_omega

/-- What is below words pushed at `top` is below `top`. -/
theorem Below.of_sub {top b : Word} {k n : ℕ} (h : Below (top - BitVec.ofNat 32 k) n b)
    (hn : k + n < 2 ^ 32) : Below top (k + n) b := by
  have hone : (BitVec.ofNat 32 k).toNat = k := by
    rw [BitVec.toNat_ofNat, Nat.mod_eq_of_lt (by omega)]
  generalize BitVec.ofNat 32 k = x at h hone
  unfold Below at h ⊢
  bv_omega

/-- What was pushed at `top` is not below it. -/
theorem Below.not_sub {top b : Word} {k n : ℕ} (h : Below top k b) (hn : k + n < 2 ^ 32) :
    ¬ Below (top - BitVec.ofNat 32 k) n b := by
  have hone : (BitVec.ofNat 32 k).toNat = k := by
    rw [BitVec.toNat_ofNat, Nat.mod_eq_of_lt (by omega)]
  generalize BitVec.ofNat 32 k = x at hone
  unfold Below at h ⊢
  bv_omega

theorem Below.mono {top b : Word} {n n' : ℕ} (h : Below top n b) (hn : n ≤ n') :
    Below top n' b :=
  ⟨h.1, h.2.trans hn⟩

/-! ## Entering a handler -/

/-- Why the processor does not enter the handler of a vector: another exception is raised, or a
task gate switches tasks. -/
inductive Refusal
  | generalProtection
  | notPresent
  | invalidTss
  | stackFault
  | taskSwitch
deriving DecidableEq, Repr

/-- What a gate leaves of the flags: TF, NT, RF and VM are cleared, and IF by an interrupt gate. -/
def gateFlags (g : Gate) (eflags : Word) : Word :=
  if g.type = 0xE then eflags &&& ~~~0x34300 else eflags &&& ~~~0x34100

/-- The first instruction of the handler. -/
def jump (g : Gate) (level : BitVec 2) (c : Core ρ) : Core ρ :=
  { c with
    cs := withRpl g.selector level
    eip := g.offset
    eflags := gateFlags g c.eflags }

/-- The three words of an entry at the same level. -/
def pushFrame (c : Core ρ) : Core ρ := c.pushAll [c.eip, c.cs.setWidth 32, c.eflags]

/-- The five words of an entry from an outer level, on the stack of the inner one. -/
def pushOuterFrame (c : Core ρ) (esp : Word) (ss : Selector) : Core ρ :=
  Core.pushAll { c with esp := esp, ss := ss }
    [c.eip, c.cs.setWidth 32, c.eflags, c.esp, c.ss.setWidth 32]

/-- The entry through a gate into a more privileged segment `d`. -/
def enterInner (T : TableRegisters) (g : Gate) (d : Descriptor) (c : Core ρ) :
    Except Refusal (Core ρ) :=
  let ss := T.stackSegment c.mem d.dpl
  let s := T.descriptor c.mem ss
  if ¬ T.Holds ss ∨ rpl ss ≠ d.dpl ∨ s.dpl ≠ d.dpl ∨ s.isWritable = false then .error .invalidTss
  else if s.present = false then .error .stackFault
  else .ok (jump g d.dpl (pushOuterFrame c (T.stackPointer c.mem d.dpl) ss))

/-- `INT n` (with `software`), or an interrupt or an exception without an error code. -/
def raise (T : TableRegisters) (software : Bool) (v : BitVec 8) (c : Core ρ) :
    Except Refusal (Core ρ) :=
  let g := T.gate c.mem v
  let d := T.descriptor c.mem g.selector
  if T.idtLimit < 8 * v.toNat + 7 ∨ ¬ g.IsGate then .error .generalProtection
  else if software = true ∧ g.dpl < c.cpl then .error .generalProtection
  else if g.present = false then .error .notPresent
  else if g.type = 0x5 then .error .taskSwitch
  else if ¬ T.Holds g.selector ∨ d.isCode = false ∨ c.cpl < d.dpl then .error .generalProtection
  else if d.present = false then .error .notPresent
  else if d.conforming = true ∨ d.dpl = c.cpl then .ok (jump g c.cpl (pushFrame c))
  else enterInner T g d c

/-! ## Returning -/

/-- A data segment register when the processor goes to an outer level: it is cleared if its segment
is more privileged. -/
def keepSegment (T : TableRegisters) (m : Memory) (level : BitVec 2) (s : Selector) : Selector :=
  if (T.descriptor m s).conforming = false ∧ (T.descriptor m s).dpl < level then 0 else s

/-- `iret` at level 0, to a program whose segments were loaded before. -/
def iret (T : TableRegisters) (c : Core ρ) : Core ρ :=
  let cs := (c.mem.load32 (c.esp + 4)).setWidth 16
  let c' := { c with eip := c.top, cs := cs, eflags := c.mem.load32 (c.esp + 8) }
  if c.cpl < rpl cs then
    { c' with
      esp := c.mem.load32 (c.esp + 12)
      ss := (c.mem.load32 (c.esp + 16)).setWidth 16
      ds := keepSegment T c.mem (rpl cs) c.ds
      es := keepSegment T c.mem (rpl cs) c.es }
  else { c' with esp := c.esp + 12 }

/-! ## Where the tables lead -/

/-- The vector has an interrupt or trap gate `g` into a segment of level 0, and the stack segment of
level 0 can be used. -/
structure TableRegisters.Leads (T : TableRegisters) (m : Memory) (v : BitVec 8) (g : Gate) :
    Prop where
  gate : T.gate m v = g
  inTable : 8 * v.toNat + 7 ≤ T.idtLimit
  system : g.system = true
  type : g.type = 0xE ∨ g.type = 0xF
  present : g.present = true
  selector : T.Holds g.selector
  code : (T.descriptor m g.selector).isCode = true
  level : (T.descriptor m g.selector).dpl = 0
  conforming : (T.descriptor m g.selector).conforming = false
  codePresent : (T.descriptor m g.selector).present = true
  stack : T.Holds (T.stackSegment m 0)
  stackRpl : rpl (T.stackSegment m 0) = 0
  stackLevel : (T.descriptor m (T.stackSegment m 0)).dpl = 0
  stackWritable : (T.descriptor m (T.stackSegment m 0)).isWritable = true
  stackPresent : (T.descriptor m (T.stackSegment m 0)).present = true

section Deliver

variable {T : TableRegisters} {software : Bool} {v : BitVec 8} {g : Gate} {c e r : Core ρ}

/-- An instruction may only raise vectors whose gates its level may use. -/
theorem raise_refused (hin : 8 * v.toNat + 7 ≤ T.idtLimit)
    (hlow : (T.gate c.mem v).dpl < c.cpl) : raise T true v c = .error .generalProtection := by
  by_cases hgate : (T.gate c.mem v).IsGate
  · rw [raise, if_neg (by rintro (h | h); exacts [by omega, h hgate]), if_pos ⟨rfl, hlow⟩]
  · rw [raise, if_pos (.inr hgate)]

/-- A vector without a gate is refused. -/
theorem raise_of_not_isGate (hgate : ¬ (T.gate c.mem v).IsGate) :
    raise T software v c = .error .generalProtection := by
  rw [raise, if_pos (.inr hgate)]

/-- A task gate switches tasks. -/
theorem raise_taskGate (hin : 8 * v.toNat + 7 ≤ T.idtLimit)
    (hsystem : (T.gate c.mem v).system = true) (htype : (T.gate c.mem v).type = 0x5)
    (hpresent : (T.gate c.mem v).present = true)
    (hsoft : software = true → ¬ (T.gate c.mem v).dpl < c.cpl) :
    raise T software v c = .error .taskSwitch := by
  have hgate : (T.gate c.mem v).IsGate := ⟨hsystem, .inl htype⟩
  rw [raise, if_neg (by rintro (h | h); exacts [by omega, h hgate]),
    if_neg (fun h => hsoft h.1 h.2), if_neg (by rw [hpresent]; decide), if_pos htype]

theorem TableRegisters.Leads.isGate (h : T.Leads c.mem v g) : (T.gate c.mem v).IsGate := by
  rw [h.gate]
  exact ⟨h.system, .inr h.type⟩

/-- All that is checked before the levels are compared. -/
theorem TableRegisters.Leads.raise_eq (h : T.Leads c.mem v g)
    (hsoft : software = true → ¬ g.dpl < c.cpl) :
    raise T software v c = if c.cpl = 0 then .ok (jump g 0 (pushFrame c))
      else enterInner T g (T.descriptor c.mem g.selector) c := by
  have htype : g.type ≠ 0x5 := by
    rcases h.type with ht | ht <;> rw [ht] <;> decide
  have hlevel : ¬ c.cpl < 0 := by simp
  have hsame : ((T.descriptor c.mem g.selector).conforming = true ∨
      (T.descriptor c.mem g.selector).dpl = c.cpl) ↔ c.cpl = 0 := by
    rw [h.conforming, h.level]
    exact ⟨fun h => (h.resolve_left Bool.false_ne_true).symm, fun h => .inr h.symm⟩
  unfold raise
  rw [if_neg (by rintro (hlt | hg); exacts [Nat.not_lt.mpr h.inTable hlt, hg h.isGate])]
  rw [h.gate, if_neg (fun hs => hsoft hs.1 hs.2), if_neg (by rw [h.present]; decide),
    if_neg htype, if_neg (by
      rw [h.level, h.code]
      rintro (hn | hn | hn)
      exacts [hn h.selector, Bool.noConfusion hn, hlevel hn]),
    if_neg (by rw [h.codePresent]; decide)]
  simp only [hsame]
  split_ifs with hc
  · rw [hc]
  · rfl

/-- From an outer level the handler is entered on the stack of level 0. -/
theorem TableRegisters.Leads.raise_inner (h : T.Leads c.mem v g)
    (hsoft : software = true → ¬ g.dpl < c.cpl) (hcpl : c.cpl ≠ 0) :
    raise T software v c = .ok (jump g 0 (pushOuterFrame c (T.stackPointer c.mem 0)
      (T.stackSegment c.mem 0))) := by
  rw [h.raise_eq hsoft, if_neg hcpl, enterInner]
  simp only [h.level]
  rw [if_neg (by
      rw [h.stackRpl, h.stackLevel, h.stackWritable]
      rintro (hn | hn | hn | hn)
      exacts [hn h.stack, hn rfl, hn rfl, Bool.noConfusion hn]),
    if_neg (by rw [h.stackPresent]; decide)]

/-- At level 0 the handler is entered on the stack of the interrupted program. -/
theorem TableRegisters.Leads.raise_same (h : T.Leads c.mem v g)
    (hsoft : software = true → ¬ g.dpl < c.cpl) (hcpl : c.cpl = 0) :
    raise T software v c = .ok (jump g 0 (pushFrame c)) := by
  rw [h.raise_eq hsoft, if_pos hcpl]

/-! ## The frame of an entry -/

theorem rpl_withRpl (s : Selector) (level : BitVec 2) : rpl (withRpl s level) = level := by
  unfold rpl withRpl
  ext i hi
  have hmask : ∀ j < 2, (0xFFFC : BitVec 16).getLsbD j = false := by decide
  simp only [BitVec.getElem_extractLsb', BitVec.getLsbD_or, BitVec.getLsbD_and,
    BitVec.getLsbD_setWidth, Nat.zero_add, hmask i hi, Bool.and_false, Bool.false_or]
  rw [BitVec.getLsbD_eq_getElem hi]
  simp only [Bool.and_eq_right_iff_imp, decide_eq_true_eq]
  intro _
  omega

theorem cpl_jump (g : Gate) (level : BitVec 2) (c : Core ρ) : (jump g level c).cpl = level :=
  rpl_withRpl _ _

@[simp] theorem stack_jump (g : Gate) (level : BitVec 2) (c : Core ρ) (n : ℕ) :
    (jump g level c).stack n = c.stack n := rfl

@[simp] theorem esp_jump (g : Gate) (level : BitVec 2) (c : Core ρ) :
    (jump g level c).esp = c.esp := rfl

@[simp] theorem mem_jump (g : Gate) (level : BitVec 2) (c : Core ρ) :
    (jump g level c).mem = c.mem := rfl

theorem stack_pushFrame (c : Core ρ) :
    (pushFrame c).stack 3 = [c.eip, c.cs.setWidth 32, c.eflags] := by
  exact Core.stack_pushAll c [_, _, _] (n := 0) (by simp)

theorem stack_pushOuterFrame (c : Core ρ) (esp : Word) (ss : Selector) :
    (pushOuterFrame c esp ss).stack 5
      = [c.eip, c.cs.setWidth 32, c.eflags, c.esp, c.ss.setWidth 32] := by
  exact Core.stack_pushAll { c with esp := esp, ss := ss } [_, _, _, _, _] (n := 0)
    (by simp)

theorem esp_pushFrame (c : Core ρ) : (pushFrame c).esp = c.esp - 12 :=
  Core.esp_pushAll c [c.eip, c.cs.setWidth 32, c.eflags]

theorem mem_pushFrame (c : Core ρ) {b : Word} (hb : ¬ InSpan b (c.esp - 12) 12) :
    (pushFrame c).mem b = c.mem b :=
  Core.mem_pushAll c [c.eip, c.cs.setWidth 32, c.eflags] (by simp) hb

theorem esp_pushOuterFrame (c : Core ρ) (esp : Word) (ss : Selector) :
    (pushOuterFrame c esp ss).esp = esp - 20 :=
  Core.esp_pushAll { c with esp := esp, ss := ss }
    [c.eip, c.cs.setWidth 32, c.eflags, c.esp, c.ss.setWidth 32]

theorem mem_pushOuterFrame (c : Core ρ) (esp : Word) (ss : Selector) {b : Word}
    (hb : ¬ InSpan b (esp - 20) 20) : (pushOuterFrame c esp ss).mem b = c.mem b :=
  Core.mem_pushAll { c with esp := esp, ss := ss }
    [c.eip, c.cs.setWidth 32, c.eflags, c.esp, c.ss.setWidth 32] (by simp) hb

/-- How many words an entry from `c` pushes. -/
def frameWords (c : Core ρ) : ℕ := if c.cpl = 0 then 3 else 5

/-- Where it pushes them. -/
def TableRegisters.entryTop (T : TableRegisters) (c : Core ρ) : Word :=
  if c.cpl = 0 then c.esp else T.stackPointer c.mem 0

/-- What an entry to level 0 leaves as it was. -/
structure Entered (T : TableRegisters) (c e : Core ρ) : Prop where
  cpl : e.cpl = 0
  reg : e.reg = c.reg
  ds : e.ds = c.ds
  es : e.es = c.es
  esp : e.esp = T.entryTop c - BitVec.ofNat 32 (4 * frameWords c)
  mem : ∀ b, ¬ Below (T.entryTop c) (4 * frameWords c) b → e.mem b = c.mem b

theorem TableRegisters.Leads.entered (h : T.Leads c.mem v g)
    (hsoft : software = true → ¬ g.dpl < c.cpl) (he : raise T software v c = .ok e) :
    Entered T c e := by
  by_cases hcpl : c.cpl = 0
  · rw [h.raise_same hsoft hcpl] at he
    obtain rfl := Except.ok.inj he
    have htop : T.entryTop c = c.esp := if_pos hcpl
    have hwords : frameWords c = 3 := if_pos hcpl
    refine ⟨cpl_jump _ _ _, Core.reg_pushAll _ _, Core.ds_pushAll _ _, Core.es_pushAll _ _, ?_, ?_⟩
    · rw [htop, hwords, esp_jump, esp_pushFrame]
      rfl
    · rw [htop, hwords, mem_jump]
      intro b hb
      exact mem_pushFrame c ((inSpan_iff_below (n := 12) (by decide)).not.mpr hb)
  · rw [h.raise_inner hsoft hcpl] at he
    obtain rfl := Except.ok.inj he
    have htop : T.entryTop c = T.stackPointer c.mem 0 := if_neg hcpl
    have hwords : frameWords c = 5 := if_neg hcpl
    refine ⟨cpl_jump _ _ _, Core.reg_pushAll _ _, Core.ds_pushAll _ _, Core.es_pushAll _ _, ?_, ?_⟩
    · rw [htop, hwords, esp_jump, esp_pushOuterFrame]
      rfl
    · rw [htop, hwords, mem_jump]
      intro b hb
      exact mem_pushOuterFrame c _ _ ((inSpan_iff_below (n := 20) (by decide)).not.mpr hb)

/-- At `r` a handler entered at `e` is about to return: the frame on its stack is the one it was
entered with. -/
structure Returned (c e r : Core ρ) : Prop where
  esp : r.esp = e.esp
  cs : r.cs = e.cs
  ss : r.ss = e.ss
  frame : r.stack (frameWords c) = e.stack (frameWords c)

theorem Returned.cpl (h : Returned c e r) (he : e.cpl = 0) : r.cpl = 0 := by
  rw [Core.cpl, h.cs]
  exact he

theorem setWidth_selector (s : Selector) : (s.setWidth 32).setWidth 16 = s := by
  rw [BitVec.setWidth_setWidth_of_le _ (by decide), BitVec.setWidth_eq]

/-- `iret` of the frame of an entry at the same level. -/
theorem iret_frame {eip eflags : Word} {cs : Selector} (hr : r.cpl = 0) (hcs : rpl cs = 0)
    (hs : r.stack 3 = [eip, cs.setWidth 32, eflags]) :
    iret T r = { r with eip := eip, cs := cs, eflags := eflags, esp := r.esp + 12 } := by
  simp only [Core.stack, Memory.words, List.cons.injEq, and_true] at hs
  obtain ⟨heip, hcs', hflags⟩ := hs
  have hadd : r.esp + 4 + 4 = r.esp + 8 := by bv_omega
  rw [hadd] at hflags
  rw [iret]
  simp only [hcs', setWidth_selector, hcs, hr, hflags, Core.top, heip]
  rw [if_neg (by decide)]

/-- `iret` of the frame of an entry from an outer level. -/
theorem iret_outerFrame {eip eflags esp : Word} {cs ss : Selector} (hr : r.cpl = 0)
    (hcs : rpl cs ≠ 0)
    (hs : r.stack 5 = [eip, cs.setWidth 32, eflags, esp, ss.setWidth 32]) :
    iret T r = { r with
      eip := eip, cs := cs, eflags := eflags, esp := esp, ss := ss
      ds := keepSegment T r.mem (rpl cs) r.ds, es := keepSegment T r.mem (rpl cs) r.es } := by
  simp only [Core.stack, Memory.words, List.cons.injEq, and_true] at hs
  obtain ⟨heip, hcs', hflags, hesp, hss⟩ := hs
  have h8 : r.esp + 4 + 4 = r.esp + 8 := by bv_omega
  have h12 : r.esp + 8 + 4 = r.esp + 12 := by bv_omega
  have h16 : r.esp + 12 + 4 = r.esp + 16 := by bv_omega
  have hlt : (0 : BitVec 2) < rpl cs := by bv_omega
  rw [h8] at hflags hesp hss
  rw [h12] at hesp hss
  rw [h16] at hss
  rw [iret]
  simp only [hcs', setWidth_selector, hr, hflags, Core.top, heip, hesp, hss]
  rw [if_pos hlt]

/-- **The return.** A handler that keeps its frame and the data segments goes back to the
interrupted program: whatever the level it came from, all that `iret` does not take from the handler
is as it was. -/
theorem iret_of_entered (h : T.Leads c.mem v g) (hsoft : software = true → ¬ g.dpl < c.cpl)
    (he : raise T software v c = .ok e) (hret : Returned c e r) (hds : r.ds = c.ds)
    (hes : r.es = c.es) (hkeep : ∀ s ∈ [c.ds, c.es], keepSegment T r.mem c.cpl s = s) :
    iret T r = { c with reg := r.reg, mem := r.mem } := by
  have hkeepDs := hkeep c.ds (by simp)
  have hkeepEs := hkeep c.es (by simp)
  have hframe := hret.frame
  by_cases hcpl : c.cpl = 0
  · rw [h.raise_same hsoft hcpl] at he
    obtain rfl := Except.ok.inj he
    rw [frameWords, if_pos hcpl] at hframe
    have hesp : r.esp + 12 = c.esp := by
      rw [hret.esp]
      show c.esp - 4 - 4 - 4 + 12 = c.esp
      bv_omega
    have hss : r.ss = c.ss := hret.ss
    rw [stack_jump, stack_pushFrame] at hframe
    rw [iret_frame (hret.cpl (cpl_jump _ _ _)) hcpl hframe, hesp, hss,
      hds, hes]
  · rw [h.raise_inner hsoft hcpl] at he
    obtain rfl := Except.ok.inj he
    rw [frameWords, if_neg hcpl] at hframe
    rw [stack_jump, stack_pushOuterFrame] at hframe
    rw [iret_outerFrame (hret.cpl (cpl_jump _ _ _)) hcpl hframe, hds, hes]
    change keepSegment T r.mem (rpl c.cs) c.ds = c.ds at hkeepDs
    change keepSegment T r.mem (rpl c.cs) c.es = c.es at hkeepEs
    rw [hkeepDs, hkeepEs]

end Deliver

end X86
