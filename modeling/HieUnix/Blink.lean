import HieUnix.Types
import HieUnix.Lib.LinkedStacks
import HieUnix.Lib.Transition

/-!
# The blinking characters of `fish`

`blink.S` and the allocator of `fish.c`: nodes in the slots of `blink_array`, linked into one
list, that are added, removed, found, synchronised and ticked. A pointer to a node is a slot or
null. A walk along the list may not end; one that has not ended after as many turns as there are
slots, and one more, never does, and is `none` here.

The list is what it should be as long as no node is added at location 0, which the allocator
takes for a free slot.
-/

namespace HieUnix

open Function LinkedStacks

namespace Blink

/-! ## The program's data -/

/-- A slot of `blink_array`. -/
abbrev Slot := Fin (80 * 25)

/-- `struct mp1_blink_struct`. -/
structure Node where
  location : BitVec 16
  onChar : Byte
  offChar : Byte
  onLength : BitVec 16
  offLength : BitVec 16
  countdown : BitVec 16
  status : BitVec 16
  next : Option Slot
  deriving DecidableEq

/-- A slot of zeros. -/
def Node.zero : Node := ⟨0, 0, 0, 0, 0, 0, 0, none⟩

/-- `fish` between two calls; `vmem` is by offset from `vmem_base_addr`. -/
structure Fish where
  blinkArray : Slot → Node
  mp1ListHead : Option Slot
  vmem : ℕ → Byte

namespace Fish

def setNode (s : Fish) (i : Slot) (n : Node) : Fish :=
  { s with blinkArray := update s.blinkArray i n }

@[simp] theorem setNode_self (s : Fish) (i : Slot) (n : Node) :
    (s.setNode i n).blinkArray i = n :=
  update_self ..

theorem setNode_of_ne (s : Fish) {i j : Slot} (n : Node) (h : j ≠ i) :
    (s.setNode i n).blinkArray j = s.blinkArray j :=
  update_of_ne h ..

/-- The pointers of the nodes. -/
def next (s : Fish) (i : Slot) : Option Slot := (s.blinkArray i).next

/-- `mp1_malloc` does not take the slot for a free one. -/
def InUse (s : Fish) (i : Slot) : Prop := (s.blinkArray i).location ≠ 0

end Fish

/-- `mp1_malloc`. -/
def mp1Malloc (s : Fish) : Option Slot :=
  (List.finRange (80 * 25)).find? fun i => (s.blinkArray i).location = 0

/-- `mp1_free`. -/
def mp1Free (s : Fish) (i : Slot) : Fish := s.setNode i .zero

/-- `mp1_poke`. -/
def mp1Poke (s : Fish) (cl : Byte) (eax : ℕ) : Fish := { s with vmem := update s.vmem eax cl }

/-- The offset of a location in the video memory. -/
def cellOffset (n : Node) : ℕ := 2 * n.location.toNat

/-! ## `mp1_rtc_tasklet` -/

/-- A turn of `tasklet_loop`. -/
def tick (s : Fish) (ebx : Slot) : Fish :=
  let n := s.blinkArray ebx
  let n := { n with countdown := n.countdown - 1 }
  if 0 < n.countdown.toInt then s.setNode ebx n
  else if n.status &&& 1 ≠ 0 then
    (mp1Poke s n.offChar (cellOffset n)).setNode ebx
      { n with countdown := n.offLength, status := n.status ^^^ 1 }
  else
    (mp1Poke s n.onChar (cellOffset n)).setNode ebx
      { n with countdown := n.onLength, status := n.status ^^^ 1 }

/-- More turns than there are slots. -/
def turns : ℕ := 80 * 25 + 1

def taskletLoop : ℕ → Option Slot → Fish → Option Fish
  | 0, _, _ => none
  | _ + 1, none, s => some s
  | fuel + 1, some ebx, s =>
    let s := tick s ebx
    taskletLoop fuel (s.next ebx) s

def mp1RtcTasklet (s : Fish) : Option Fish := taskletLoop turns s.mp1ListHead s

/-! ## `mp1_ioctl` -/

/-- A node copied to a slot, put at the front of the list and displayed. -/
def insertNode (s : Fish) (edx : Slot) (temp : Node) : Fish :=
  let s := s.setNode edx { temp with next := s.mp1ListHead }
  let s := { s with mp1ListHead := some edx }
  mp1Poke s temp.onChar (cellOffset temp)

@[simp] theorem insert_self (s : Fish) (a : Slot) (temp : Node) :
    (insertNode s a temp).blinkArray a = { temp with next := s.mp1ListHead } :=
  Fish.setNode_self ..

theorem insert_of_ne {s : Fish} {a i : Slot} (temp : Node) (h : i ≠ a) :
    (insertNode s a temp).blinkArray i = s.blinkArray i :=
  Fish.setNode_of_ne _ _ h

/-- `mp1_ioctl_add` of the caller's structure. -/
def mp1IoctlAdd (user : Node) (s : Fish) : Fish × ℤ :=
  if 80 * 25 ≤ user.location.toNat then (s, -1)
  else
    let temp := { user with status := 1, countdown := user.onLength }
    match mp1Malloc s with
    | none => (s, -1)
    | some edx => (insertNode s edx temp, 0)

/-- The loop of `mp1_find_helper`. -/
def findLoop (s : Fish) (ax : BitVec 16) : ℕ → Option Slot → Option (Option Slot)
  | 0, _ => none
  | _ + 1, none => some none
  | fuel + 1, some ebx =>
    if (s.blinkArray ebx).location = ax then some (some ebx)
    else findLoop s ax fuel (s.next ebx)

def mp1FindHelper (s : Fish) (ax : BitVec 16) : Option (Option Slot) :=
  findLoop s ax turns s.mp1ListHead

/-- A place that holds a pointer of the list. -/
inductive Cell where
  | listHead
  | next (i : Slot)

def load (s : Fish) : Cell → Option Slot
  | .listHead => s.mp1ListHead
  | .next i => s.next i

def store (s : Fish) (p : Option Slot) : Cell → Fish
  | .listHead => { s with mp1ListHead := p }
  | .next i => s.setNode i { s.blinkArray i with next := p }

@[simp] theorem store_next_self (s : Fish) (p : Option Slot) (i : Slot) :
    (store s p (.next i)).blinkArray i = { s.blinkArray i with next := p } :=
  Fish.setNode_self ..

theorem store_next_of_ne {s : Fish} {i j : Slot} (p : Option Slot) (h : i ≠ j) :
    (store s p (.next j)).blinkArray i = s.blinkArray i :=
  Fish.setNode_of_ne _ _ h

/-- `remove_find_prev`: the place that points to the node. -/
def findPrev (s : Fish) (eax : Slot) : ℕ → Cell → Option Cell
  | 0, _ => none
  | fuel + 1, edx =>
    if load s edx = some eax then some edx
    else (load s edx).bind fun i => findPrev s eax fuel (.next i)

/-- `mp1_ioctl_remove`. -/
def mp1IoctlRemove (arg : Word) (s : Fish) : Option (Fish × ℤ) :=
  (mp1FindHelper s (arg.setWidth 16)).bind fun
    | none => some (s, -1)
    | some eax => (findPrev s eax turns .listHead).map fun edx =>
      (mp1Free (store s (s.next eax) edx) eax, 0)

/-- What `mp1_ioctl_sync` displays: `testb $0x1` leaves the sign of its result and no overflow,
and `cmovl` moves when the two differ. -/
def syncChar (n : Node) : Byte :=
  let sf := (n.status.setWidth 8 &&& 1).msb
  let of := false
  if sf ≠ of then n.onChar else n.offChar

/-- `sync_copy_loop` and `sync_display`, from the node `esi` to the node `edi`. -/
def syncNodes (s : Fish) (esi edi : Slot) : Fish :=
  let src := s.blinkArray esi
  let dst := { s.blinkArray edi with
    onLength := src.onLength, offLength := src.offLength
    countdown := src.countdown, status := src.status }
  mp1Poke (s.setNode edi dst) (syncChar dst) (cellOffset dst)

/-- `mp1_ioctl_sync`. -/
def mp1IoctlSync (arg : Word) (s : Fish) : Option (Fish × ℤ) :=
  (mp1FindHelper s ((arg >>> 16).setWidth 16)).bind fun
    | none => some (s, -1)
    | some esi => (mp1FindHelper s ((arg &&& 0xFFFF).setWidth 16)).map fun
      | none => (s, -1)
      | some edi => (syncNodes s esi edi, 0)

/-- `mp1_ioctl_find`: the node that is copied to the caller, and the result. -/
def mp1IoctlFind (location : BitVec 16) (s : Fish) : Option (Option Node × ℤ) :=
  (mp1FindHelper s location).map fun
    | none => (none, -1)
    | some eax => (some (s.blinkArray eax), 0)

/-- A call into `blink.S`: the four commands of `call_table`, and the tasklet. -/
inductive Call where
  | add (user : Node)
  | remove (arg : Word)
  | find (location : BitVec 16)
  | sync (arg : Word)
  | tasklet

/-- What a call leaves; `none` when it does not return. -/
def call (s : Fish) : Call → Option Fish
  | .add user => some (mp1IoctlAdd user s).1
  | .remove arg => (mp1IoctlRemove arg s).map Prod.fst
  | .find location => (mp1IoctlFind location s).map fun _ => s
  | .sync arg => (mp1IoctlSync arg s).map Prod.fst
  | .tasklet => mp1RtcTasklet s

/-- Any calls one after the other, from the array that `main` cleared. -/
def fish : LTS Fish Call where
  init s := (∀ i, s.blinkArray i = .zero) ∧ s.mp1ListHead = none
  step s c s' := call s c = some s'

variable {s s' : Fish} {l l₁ l₂ : List Slot} {p : Option Slot} {a i : Slot} {fuel : ℕ}

/-! ## The list -/

/-- The list from `mp1_list_head` is `l`, and its nodes are the slots in use. -/
structure Listed (s : Fish) (l : List Slot) : Prop where
  chain : Chain s.next s.mp1ListHead l
  inUse : ∀ i, i ∈ l ↔ s.InUse i

/-- From `s` to `s'` no pointer and no location changed. -/
structure Keeps (s s' : Fish) : Prop where
  head : s'.mp1ListHead = s.mp1ListHead
  next : ∀ i, (s'.blinkArray i).next = (s.blinkArray i).next
  location : ∀ i, (s'.blinkArray i).location = (s.blinkArray i).location

theorem Keeps.refl (s : Fish) : Keeps s s := ⟨rfl, fun _ => rfl, fun _ => rfl⟩

theorem Keeps.trans {s'' : Fish} (h : Keeps s s') (h' : Keeps s' s'') : Keeps s s'' :=
  ⟨h'.head.trans h.head, fun i => (h'.next i).trans (h.next i),
    fun i => (h'.location i).trans (h.location i)⟩

theorem Keeps.chain (h : Keeps s s') (hl : Chain s.next p l) : Chain s'.next p l :=
  hl.congr fun a _ => h.next a

theorem Keeps.listed (h : Keeps s s') (hl : Listed s l) : Listed s' l where
  chain := by
    rw [h.head]
    exact h.chain hl.chain
  inUse i := by
    rw [hl.inUse i, Fish.InUse, Fish.InUse, h.location]

/-- A write to a node that leaves its pointer and its location alone. -/
theorem keeps_setNode {n : Node} (hnext : n.next = (s.blinkArray i).next)
    (hlocation : n.location = (s.blinkArray i).location) :
    Keeps s (s.setNode i n) where
  head := rfl
  next j := by
    rcases eq_or_ne j i with rfl | hj
    · rw [Fish.setNode_self, hnext]
    · rw [Fish.setNode_of_ne _ _ hj]
  location j := by
    rcases eq_or_ne j i with rfl | hj
    · rw [Fish.setNode_self, hlocation]
    · rw [Fish.setNode_of_ne _ _ hj]

theorem keeps_poke (s : Fish) (cl : Byte) (eax : ℕ) : Keeps s (mp1Poke s cl eax) :=
  ⟨rfl, fun _ => rfl, fun _ => rfl⟩

theorem Listed.nodup (h : Listed s l) : l.Nodup := h.chain.nodup

/-- A list of slots is shorter than the walks are allowed to be. -/
theorem Listed.length_lt (h : Listed s l) : l.length < turns := by
  have hcard := h.nodup.length_le_card
  rw [Fintype.card_fin] at hcard
  exact Nat.lt_succ_of_le hcard

/-! ## Walks along the list -/

/-- `mp1_find_helper` gives the first node at the location. -/
theorem findLoop_eq {ax : BitVec 16} (h : Chain s.next p l) (hfuel : l.length < fuel) :
    findLoop s ax fuel p = some (l.find? fun i => (s.blinkArray i).location = ax) := by
  induction h generalizing fuel with
  | nil =>
    obtain ⟨fuel, rfl⟩ := Nat.exists_eq_add_one.mpr hfuel
    rfl
  | @cons a l _ ih =>
    rw [List.length_cons] at hfuel
    obtain ⟨fuel, rfl⟩ := Nat.exists_eq_add_one.mpr (Nat.zero_lt_of_lt hfuel)
    rw [findLoop, List.find?_cons]
    by_cases ha : (s.blinkArray a).location = ax
    · rw [if_pos ha, decide_eq_true ha]
    · rw [if_neg ha, decide_eq_false ha]
      exact ih (by omega)

theorem mp1FindHelper_eq (h : Listed s l) (ax : BitVec 16) :
    mp1FindHelper s ax = some (l.find? fun i => (s.blinkArray i).location = ax) :=
  findLoop_eq h.chain h.length_lt

theorem tick_keeps (s : Fish) (i : Slot) : Keeps s (tick s i) := by
  unfold tick
  dsimp only
  split_ifs
  · exact keeps_setNode rfl rfl
  · exact (keeps_poke s _ _).trans (keeps_setNode rfl rfl)
  · exact (keeps_poke s _ _).trans (keeps_setNode rfl rfl)

theorem foldl_tick_keeps (s : Fish) (l : List Slot) : Keeps s (l.foldl tick s) := by
  induction l generalizing s with
  | nil => exact .refl s
  | cons i l ih => exact (tick_keeps s i).trans (ih (tick s i))

/-- The tasklet ticks the nodes of the list in order. -/
theorem taskletLoop_eq (h : Chain s.next p l) (hfuel : l.length < fuel) :
    taskletLoop fuel p s = some (l.foldl tick s) := by
  induction l generalizing s p fuel with
  | nil =>
    cases h
    obtain ⟨fuel, rfl⟩ := Nat.exists_eq_add_one.mpr hfuel
    rfl
  | cons i l ih =>
    obtain ⟨rfl, hrest⟩ := h.head_eq
    rw [List.length_cons] at hfuel
    obtain ⟨fuel, rfl⟩ := Nat.exists_eq_add_one.mpr (Nat.zero_lt_of_lt hfuel)
    have hnext : (tick s i).next i = s.next i := (tick_keeps s i).next i
    rw [taskletLoop, hnext, List.foldl_cons]
    exact ih ((tick_keeps s i).chain hrest) (by omega)

theorem mp1RtcTasklet_eq (h : Listed s l) : mp1RtcTasklet s = some (l.foldl tick s) :=
  taskletLoop_eq h.chain h.length_lt

/-- The place after the nodes of `l`, from the place `c` on. -/
def cellAfter (c : Cell) : List Slot → Cell
  | [] => c
  | b :: l => cellAfter (.next b) l

theorem cellAfter_concat (c : Cell) (l : List Slot) (b : Slot) :
    cellAfter c (l ++ [b]) = .next b := by
  induction l generalizing c with
  | nil => rfl
  | cons d l ih => exact ih (.next d)

/-- `remove_find_prev` ends at the place before the node. -/
theorem findPrev_eq {c : Cell} (h : Chain s.next (load s c) (l₁ ++ a :: l₂))
    (hfuel : l₁.length < fuel) : findPrev s a fuel c = some (cellAfter c l₁) := by
  induction l₁ generalizing c fuel with
  | nil =>
    obtain ⟨fuel, rfl⟩ := Nat.exists_eq_add_one.mpr hfuel
    rw [findPrev, if_pos h.head_eq.1]
    rfl
  | cons b l₁ ih =>
    obtain ⟨hb, hrest⟩ := h.head_eq
    -- the node is on the list once, so that the walk does not stop here
    have hne : b ≠ a := by
      rintro rfl
      exact (List.nodup_cons.mp h.nodup).1 (List.mem_append_right l₁ List.mem_cons_self)
    rw [List.length_cons] at hfuel
    obtain ⟨fuel, rfl⟩ := Nat.exists_eq_add_one.mpr (Nat.zero_lt_of_lt hfuel)
    rw [findPrev, if_neg (by rw [hb]; exact fun h => hne (Option.some.inj h)), hb]
    exact ih hrest (by omega)

/-! ## What the calls do to the list -/

/-- A node inserted in a free slot is the new front of the list. -/
theorem insert_listed {temp : Node} (h : Listed s l) (ha : ¬ s.InUse a)
    (hlocation : temp.location ≠ 0) : Listed (insertNode s a temp) (a :: l) where
  chain := by
    refine .cons ?_
    rw [Fish.next, insert_self]
    refine h.chain.congr fun b hb => ?_
    have hne : b ≠ a := by
      rintro rfl
      exact ha ((h.inUse b).mp hb)
    rw [Fish.next, insert_of_ne temp hne, Fish.next]
  inUse i := by
    rw [List.mem_cons]
    rcases eq_or_ne i a with rfl | hi
    · rw [Fish.InUse, insert_self]
      exact iff_of_true (Or.inl rfl) hlocation
    · rw [Fish.InUse, insert_of_ne temp hi, h.inUse i]
      exact or_iff_right hi

/-- A node that is freed once no pointer of the list leads to it. -/
theorem free_listed (hchain : Chain s.next s.mp1ListHead (l₁ ++ l₂)) (ha : a ∉ l₁ ++ l₂)
    (hinUse : ∀ i, i ∈ l₁ ++ a :: l₂ ↔ s.InUse i) : Listed (mp1Free s a) (l₁ ++ l₂) where
  chain := by
    refine hchain.congr fun b hb => ?_
    have hne : b ≠ a := by
      rintro rfl
      exact ha hb
    rw [Fish.next, mp1Free, Fish.setNode_of_ne _ _ hne, Fish.next]
  inUse i := by
    rcases eq_or_ne i a with rfl | hi
    · rw [Fish.InUse, mp1Free, Fish.setNode_self]
      exact iff_of_false ha (not_not_intro rfl)
    · rw [Fish.InUse, mp1Free, Fish.setNode_of_ne _ _ hi, ← Fish.InUse, ← hinUse i]
      simp [hi]

/-- A node taken out of the list and freed. -/
theorem remove_listed (h : Listed s (l₁ ++ a :: l₂)) :
    Listed (mp1Free (store s (s.next a) (cellAfter .listHead l₁)) a) (l₁ ++ l₂) := by
  have ha : a ∉ l₁ ++ l₂ := (List.nodup_middle.mp h.nodup).notMem
  rcases List.eq_nil_or_concat' l₁ with rfl | ⟨l₀, b, rfl⟩
  -- the place is `mp1_list_head`, or the `NEXT` of the node before
  · exact free_listed h.chain.head_eq.2 ha h.inUse
  · have hmem : b ∈ l₀ ++ [b] ++ a :: l₂ := by simp
    rw [cellAfter_concat]
    have hnext : (store s (s.next a) (.next b)).next = update s.next b (s.next a) := by
      funext i
      rcases eq_or_ne i b with rfl | hi
      · rw [update_self, Fish.next, store_next_self]
      · rw [update_of_ne hi, Fish.next, store_next_of_ne _ hi, Fish.next]
    refine free_listed ?_ ha fun i => ?_
    · have hchain := h.chain
      rw [List.append_assoc] at hchain ⊢
      rw [hnext]
      exact hchain.unlink
    · rw [h.inUse i]
      rcases eq_or_ne i b with rfl | hi
      · rw [Fish.InUse, Fish.InUse, store_next_self]
      · rw [Fish.InUse, Fish.InUse, store_next_of_ne _ hi]

theorem syncNodes_keeps (s : Fish) (esi edi : Slot) : Keeps s (syncNodes s esi edi) := by
  unfold syncNodes
  dsimp only
  refine Keeps.trans ?_ (keeps_poke _ _ _)
  exact keeps_setNode rfl rfl

/-- The node that `mp1_ioctl_add` makes of the caller's structure. -/
def addedNode (user : Node) : Node := { user with status := 1, countdown := user.onLength }

/-- What a call does to the list `l`. -/
inductive Effect (s : Fish) (l : List Slot) : Call → Fish → Prop
  | nothing {c : Call} : Effect s l c s
  | add {user : Node} {a : Slot} : mp1Malloc s = some a →
      Effect s l (.add user) (insertNode s a (addedNode user))
  | remove {arg : Word} {a : Slot} {l₁ l₂ : List Slot} : l = l₁ ++ a :: l₂ →
      Effect s l (.remove arg) (mp1Free (store s (s.next a) (cellAfter .listHead l₁)) a)
  | sync {arg : Word} {esi edi : Slot} : esi ∈ l → edi ∈ l →
      mp1FindHelper s ((arg >>> 16).setWidth 16) = some (some esi) →
        mp1FindHelper s ((arg &&& 0xFFFF).setWidth 16) = some (some edi) →
          Effect s l (.sync arg) (syncNodes s esi edi)
  | tasklet : Effect s l .tasklet (l.foldl tick s)

/-- Every call returns: the walks it makes along the list all end. -/
theorem exists_effect (h : Listed s l) (c : Call) : ∃ s', call s c = some s' ∧ Effect s l c s' := by
  cases c with
  | add user =>
    refine ⟨_, rfl, ?_⟩
    unfold mp1IoctlAdd
    split_ifs
    · exact .nothing
    · dsimp only
      split
      · exact .nothing
      · rename_i edx hmalloc
        exact .add hmalloc
  | remove arg =>
    cases hfind : l.find? fun i => (s.blinkArray i).location = arg.setWidth 16 with
    | none =>
      refine ⟨s, ?_, .nothing⟩
      rw [call, mp1IoctlRemove, mp1FindHelper_eq h, hfind]
      rfl
    | some a =>
      -- the search for the node before it ends, as the node is in the list
      obtain ⟨l₁, l₂, rfl⟩ := List.append_of_mem (List.mem_of_find?_eq_some hfind)
      have hlen := h.length_lt
      rw [List.length_append] at hlen
      refine ⟨_, ?_, .remove rfl⟩
      rw [call, mp1IoctlRemove, mp1FindHelper_eq h, hfind]
      show Option.map Prod.fst (Option.map _ (findPrev s a turns .listHead)) = _
      rw [findPrev_eq h.chain (by omega)]
      rfl
  | find location =>
    refine ⟨s, ?_, .nothing⟩
    rw [call, mp1IoctlFind, mp1FindHelper_eq h]
    rfl
  | sync arg =>
    -- both nodes are looked up, and only if both are found something is copied
    have hesi := mp1FindHelper_eq h ((arg >>> 16).setWidth 16)
    have hedi := mp1FindHelper_eq h ((arg &&& 0xFFFF).setWidth 16)
    cases hsrc : l.find? fun i => (s.blinkArray i).location = (arg >>> 16).setWidth 16 with
    | none =>
      refine ⟨s, ?_, .nothing⟩
      rw [call, mp1IoctlSync, hesi, hsrc]
      rfl
    | some esi =>
      cases hdst : l.find? fun i => (s.blinkArray i).location = (arg &&& 0xFFFF).setWidth 16 with
      | none =>
        refine ⟨s, ?_, .nothing⟩
        rw [call, mp1IoctlSync, hesi, hedi, hsrc, hdst]
        rfl
      | some edi =>
        rw [hsrc] at hesi
        rw [hdst] at hedi
        refine ⟨_, ?_, .sync (List.mem_of_find?_eq_some hsrc) (List.mem_of_find?_eq_some hdst)
          hesi hedi⟩
        rw [call, mp1IoctlSync, hesi, hedi]
        rfl
  | tasklet => exact ⟨_, mp1RtcTasklet_eq h, .tasklet⟩

/-- A step is the effect of its call. -/
theorem effect_of_step (h : Listed s l) {c : Call} (hstep : call s c = some s') :
    Effect s l c s' := by
  obtain ⟨s'', hcall, heffect⟩ := exists_effect h c
  rwa [Option.some.inj (hstep.symm.trans hcall)]

/-- An add that finds a slot has a location other than 0. -/
def AddsNonzero (s : Fish) : Call → Prop
  | .add user => mp1Malloc s ≠ none → user.location ≠ 0
  | _ => True

/-- While the list is shorter than the array there is a free slot. -/
theorem exists_malloc (h : Listed s l) (hlen : l.length < 80 * 25) : ∃ a, mp1Malloc s = some a := by
  refine Option.isSome_iff_exists.mp (Option.isSome_iff_ne_none.mpr fun hnone => ?_)
  have hall : ∀ i, i ∈ l := by
    intro i
    have hi := List.find?_eq_none.mp hnone i (List.mem_finRange i)
    exact (h.inUse i).mpr (by simpa [Fish.InUse] using hi)
  have hcard : Fintype.card Slot ≤ l.length := by
    rw [← List.toFinset_card_of_nodup h.nodup, ← Finset.card_univ]
    exact Finset.card_le_card fun i _ => List.mem_toFinset.mpr (hall i)
  rw [Fintype.card_fin] at hcard
  exact absurd hlen (Nat.not_lt.mpr hcard)

theorem not_inUse_of_malloc (h : mp1Malloc s = some a) : ¬ s.InUse a :=
  not_not_intro (by simpa using List.find?_some h)

/-- The list after an effect. -/
theorem Effect.listed {c : Call} (heffect : Effect s l c s') (h : Listed s l)
    (hok : AddsNonzero s c) : ∃ l', Listed s' l' := by
  cases heffect with
  | nothing => exact ⟨l, h⟩
  | @add user a hmalloc =>
    have hlocation : user.location ≠ 0 := hok (by rw [hmalloc]; exact Option.some_ne_none a)
    exact ⟨a :: l, insert_listed h (not_inUse_of_malloc hmalloc) hlocation⟩
  | @remove arg a l₁ l₂ hl =>
    subst hl
    exact ⟨l₁ ++ l₂, remove_listed h⟩
  | sync => exact ⟨l, (syncNodes_keeps s _ _).listed h⟩
  | tasklet => exact ⟨l, (foldl_tick_keeps s l).listed h⟩

/-! ## Runs -/

/-- The chain from `mp1_list_head` ends, visits distinct slots, runs into no cycle and has the
slots in use for its nodes, and no call loops for ever. -/
def IsList (s : Fish) : Prop :=
  (∃ l, Chain s.next s.mp1ListHead l ∧ l.Nodup
      ∧ (∀ i ∈ l, ¬ Relation.TransGen (Link s.next) i i) ∧ ∀ i, i ∈ l ↔ s.InUse i)
    ∧ ∀ c, (call s c).isSome

theorem Listed.isList (h : Listed s l) : IsList s := by
  refine ⟨⟨l, h.chain, h.nodup, fun i hi => h.chain.acyclic hi, h.inUse⟩, fun c => ?_⟩
  obtain ⟨s', hcall, -⟩ := exists_effect h c
  rw [hcall]
  rfl

/-- The empty list of the cleared array. -/
theorem listed_nil (h : fish.init s) : Listed s [] where
  chain := by
    rw [h.2]
    exact .nil
  inUse i := iff_of_false List.not_mem_nil (not_not_intro (by rw [h.1 i]; rfl))

/-- A run in which no node is added at location 0 keeps a list. -/
theorem exists_listed (h : fish.Reach AddsNonzero s) : ∃ l, Listed s l := by
  refine h.invariant (I := fun s => ∃ l, Listed s l) ?_ ?_
  · exact fun s hinit => ⟨[], listed_nil hinit⟩
  · rintro s c s' ⟨l, hl⟩ hok hstep
    exact (effect_of_step hl hstep).listed hl hok

/-- In every run in which no node is added at location 0 the blink list is a list. -/
theorem isList_of_reach (h : fish.Reach AddsNonzero s) : IsList s := by
  obtain ⟨l, hl⟩ := exists_listed h
  exact hl.isList

/-- The array that `main` cleared. -/
def cleared : Fish where
  blinkArray _ := .zero
  mp1ListHead := none
  vmem _ := 0

theorem init_cleared : fish.init cleared := ⟨fun _ => rfl, rfl⟩

/-- A structure for a location. -/
def blinkAt (location : BitVec 16) : Node :=
  { Node.zero with location := location, onChar := chr 'I', offChar := chr 'M', onLength := 7
                   offLength := 6 }

/-- What a call leaves. -/
def returned (s : Fish) (c : Call) : Fish := (call s c).getD s

/-- Every call of a run returns. -/
theorem reach_returned {c : Call} (h : fish.Reach AddsNonzero s) (hc : AddsNonzero s c) :
    fish.Reach AddsNonzero (returned s c) := by
  obtain ⟨l, hl⟩ := exists_listed h
  obtain ⟨s', hcall, -⟩ := exists_effect hl c
  have hs' : returned s c = s' := congrArg (Option.getD · s) hcall
  rw [hs']
  exact .step h hc hcall

theorem reach_foldl {cs : List Call} (h : fish.Reach AddsNonzero s)
    (hadd : ∀ user, Call.add user ∈ cs → user.location ≠ 0) :
    fish.Reach AddsNonzero (cs.foldl returned s) := by
  induction cs generalizing s with
  | nil => exact h
  | cons c cs ih =>
    refine ih (reach_returned h ?_) fun user hmem => hadd user (List.mem_cons_of_mem c hmem)
    cases c with
    | add user => exact fun _ => hadd user List.mem_cons_self
    | _ => trivial

/-- Two nodes are added, one of which a tick turns off; the other is synchronised with it, and it is
removed after another tick. -/
def sampleCalls : List Call :=
  [.add { blinkAt 40 with onLength := 1 }, .add (blinkAt 540), .tasklet, .sync 0x0028021C, .tasklet,
    .remove 40]

/-- After the first `n` of them. -/
def sampleFish (n : ℕ) : Fish := (sampleCalls.take n).foldl returned cleared

/-- The second slot is alone on the list. -/
theorem isList_of_reach_sample : IsList (sampleFish 6) ∧ (sampleFish 6).mp1ListHead = some 1 ∧
    (sampleFish 6).next 1 = none := by
  have hadd : ∀ user, Call.add user ∈ sampleCalls → user.location ≠ 0 := by
    intro user huser
    simp only [sampleCalls, List.mem_cons, Call.add.injEq, reduceCtorEq, List.not_mem_nil,
      or_false] at huser
    obtain rfl | rfl := huser <;> decide
  exact ⟨isList_of_reach (reach_foldl (.init init_cleared) hadd), by decide +kernel,
    by decide +kernel⟩

theorem mp1IoctlAdd_of_malloc {user : Node} (hlocation : user.location.toNat < 80 * 25)
    (hmalloc : mp1Malloc s = some a) :
    (mp1IoctlAdd user s).1 = insertNode s a (addedNode user) := by
  rw [mp1IoctlAdd, if_neg (Nat.not_le.mpr hlocation)]
  dsimp only
  rw [hmalloc]
  rfl

/-- A node added at location 0 is on the list and free at once. -/
theorem not_isList_add_zero (user : Node) (hlocation : user.location = 0)
    (hmalloc : mp1Malloc s = some a) : ¬ IsList (mp1IoctlAdd user s).1 := by
  rintro ⟨⟨l, hchain, -, -, hinUse⟩, -⟩
  rw [mp1IoctlAdd_of_malloc (by rw [hlocation]; decide) hmalloc] at hchain hinUse
  obtain ⟨l', rfl, -⟩ := Chain.some_iff.mp hchain
  refine (hinUse a).mp List.mem_cons_self ?_
  rw [insert_self]
  exact hlocation

/-- The tasklet does not get past a node that points to itself. -/
theorem taskletLoop_self (h : s.next a = some a) (fuel : ℕ) : taskletLoop fuel (some a) s = none := by
  induction fuel generalizing s with
  | zero => rfl
  | succ fuel ih =>
    -- a turn leaves the pointers alone
    have hnext : (tick s a).next a = some a := ((tick_keeps s a).next a).trans h
    rw [taskletLoop, hnext]
    exact ih hnext

/-- The slot of a node added at location 0 is given out again, and the tasklet then never
returns. -/
theorem tasklet_hangs_after_add_zero (user user' : Node) (hlocation : user.location = 0)
    (hlocation' : user'.location.toNat < 80 * 25) (hmalloc : mp1Malloc s = some a) :
    mp1RtcTasklet (mp1IoctlAdd user' (mp1IoctlAdd user s).1).1 = none := by
  have hsame : ∀ i, ((insertNode s a (addedNode user)).blinkArray i).location = 0
      ↔ (s.blinkArray i).location = 0 := by
    intro i
    rcases eq_or_ne i a with rfl | hi
    · rw [insert_self]
      exact iff_of_true hlocation (not_not.mp (not_inUse_of_malloc hmalloc))
    · rw [insert_of_ne _ hi]
  have hagain : mp1Malloc (insertNode s a (addedNode user)) = some a := by
    rw [mp1Malloc, ← hmalloc, mp1Malloc]
    simp only [hsame]
  rw [mp1IoctlAdd_of_malloc (by rw [hlocation]; decide) hmalloc,
    mp1IoctlAdd_of_malloc hlocation' hagain]
  refine taskletLoop_self (a := a) ?_ turns
  rw [Fish.next, insert_self]
  rfl

/-- A node added at location 0. -/
theorem blink_list_broken : ¬ ∀ s, fish.Reach LTS.always s → IsList s := by
  intro h
  obtain ⟨a, hmalloc⟩ := exists_malloc (listed_nil init_cleared) (by decide)
  refine not_isList_add_zero (blinkAt 0) rfl hmalloc (h _ ?_)
  exact .step (a := .add (blinkAt 0)) (.init init_cleared) trivial rfl

end Blink

end HieUnix
