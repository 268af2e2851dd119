import HieUnix.Blink

/-!
# What the blinking characters show

A node of the blink list is shown by its character for on or for off, as bit 0 of its status
says. Adding and ticking keep it so, whatever else is on the list, as long as no two nodes share
a location. `mp1_ioctl_sync` always displays the character for off: `testb` never leaves the
flags on which its `cmovl` moves.
-/

namespace HieUnix

open Function LinkedStacks

namespace Blink

variable {s s' : Fish} {l m : List Slot} {a i j : Slot}

/-! ## The shown character -/

/-- The character for the status of a node. -/
def statusChar (n : Node) : Byte := if n.status.getLsbD 0 then n.onChar else n.offChar

/-- The node in a slot is shown as its status says. -/
def Shows (s : Fish) (i : Slot) : Prop :=
  s.vmem (cellOffset (s.blinkArray i)) = statusChar (s.blinkArray i)

theorem and_one_ne_zero_iff (x : BitVec 16) : x &&& 1 ≠ 0 ↔ x.getLsbD 0 = true := by
  rw [← not_iff_not, not_not, Bool.not_eq_true]
  constructor
  · intro h
    have hzero := congrArg (BitVec.getLsbD · 0) h
    simpa using hzero
  · intro hbit
    refine BitVec.eq_of_getLsbD_eq fun k _ => ?_
    rcases eq_or_ne k 0 with rfl | hk
    · simpa using hbit
    · simp [hk]

theorem getLsbD_xor_one (x : BitVec 16) : (x ^^^ 1).getLsbD 0 = !x.getLsbD 0 := by
  simp

/-- The conditional move of `mp1_ioctl_sync` is never made. -/
theorem syncChar_eq (n : Node) : syncChar n = n.offChar := by
  have hsign : (n.status.setWidth 8 &&& 1).msb = false := by
    rw [BitVec.msb_and]
    exact Bool.and_false _
  rw [syncChar, hsign]
  rfl

/-- Nodes at different locations are shown in different cells. -/
theorem cellOffset_ne {n n' : Node} (h : n.location ≠ n'.location) :
    cellOffset n ≠ cellOffset n' := by
  have hne : n.location.toNat ≠ n'.location.toNat := fun he => h (BitVec.eq_of_toNat_eq he)
  rw [cellOffset, cellOffset]
  omega

/-! ## Ticks -/

theorem tick_shows_self (h : Shows s i) : Shows (tick s i) i := by
  unfold Shows tick
  dsimp only
  split_ifs with hcount hon
  · rw [Fish.setNode_self]
    exact h
  · rw [Fish.setNode_self, statusChar, getLsbD_xor_one, (and_one_ne_zero_iff _).mp hon]
    exact update_self ..
  · rw [Fish.setNode_self, statusChar, getLsbD_xor_one,
      Bool.eq_false_of_not_eq_true (mt (and_one_ne_zero_iff _).mpr hon)]
    exact update_self ..

theorem tick_shows_of_ne (hij : (s.blinkArray j).location ≠ (s.blinkArray i).location)
    (h : Shows s j) : Shows (tick s i) j := by
  have hne : j ≠ i := by
    rintro rfl
    exact hij rfl
  have hcell := cellOffset_ne hij
  unfold Shows tick
  dsimp only
  split_ifs
  · rw [Fish.setNode_of_ne _ _ hne]
    exact h
  · rw [Fish.setNode_of_ne _ _ hne]
    exact (update_of_ne hcell ..).trans h
  · rw [Fish.setNode_of_ne _ _ hne]
    exact (update_of_ne hcell ..).trans h

/-- No two nodes of `l` share a location. -/
def Distinct (s : Fish) (l : List Slot) : Prop :=
  ∀ i ∈ l, ∀ j ∈ l, (s.blinkArray i).location = (s.blinkArray j).location → i = j

theorem Keeps.distinct (h : Keeps s s') (hl : Distinct s l) : Distinct s' l := by
  intro i hi j hj hloc
  rw [h.location, h.location] at hloc
  exact hl i hi j hj hloc

/-- The ticks of some of the nodes keep all of them shown. -/
theorem foldl_tick_shows (hl : Distinct s l) (hm : ∀ i ∈ m, i ∈ l) (h : ∀ i ∈ l, Shows s i) :
    ∀ i ∈ l, Shows (m.foldl tick s) i := by
  induction m generalizing s with
  | nil => exact h
  | cons j m ih =>
    refine ih ((tick_keeps s j).distinct hl) (fun i hi => hm i (List.mem_cons_of_mem j hi)) ?_
    intro i hi
    rcases eq_or_ne i j with rfl | hij
    · exact tick_shows_self (h i hi)
    · exact tick_shows_of_ne (fun hloc => hij (hl i hi j (hm j List.mem_cons_self) hloc)) (h i hi)

/-! ## The other calls -/

theorem insert_shows_self (s : Fish) (a : Slot) (user : Node) :
    Shows (insertNode s a (addedNode user)) a := by
  have hon : statusChar (addedNode user) = user.onChar :=
    if_pos (show (1 : BitVec 16).getLsbD 0 = true by decide)
  rw [Shows, insert_self]
  exact (update_self (cellOffset (addedNode user)) user.onChar s.vmem).trans hon.symm

theorem insert_shows_of_ne {temp : Node} (hne : i ≠ a)
    (hloc : (s.blinkArray i).location ≠ temp.location) (h : Shows s i) :
    Shows (insertNode s a temp) i := by
  rw [Shows, insert_of_ne temp hne]
  exact (update_of_ne (cellOffset_ne hloc) ..).trans h

/-- A store into a pointer of the list shows nothing. -/
theorem store_shows {p : Option Slot} {c : Cell} (h : Shows s i) : Shows (store s p c) i := by
  cases c with
  | listHead => exact h
  | next j =>
    rcases eq_or_ne i j with rfl | hij
    · rw [Shows, store_next_self]
      exact h
    · rw [Shows, store_next_of_ne p hij]
      exact h

theorem free_shows (hne : i ≠ a) (h : Shows s i) : Shows (mp1Free s a) i := by
  rw [Shows, mp1Free, Fish.setNode_of_ne _ _ hne]
  exact h

/-- The node that is synchronised is shown as its status says when that is off, or when both
its characters are the same, and not otherwise. -/
theorem syncNodes_shows_iff (s : Fish) (esi edi : Slot) :
    Shows (syncNodes s esi edi) edi ↔
      ((s.blinkArray esi).status.getLsbD 0 = true →
        (s.blinkArray edi).onChar = (s.blinkArray edi).offChar) := by
  have hself : (syncNodes s esi edi).blinkArray edi = { s.blinkArray edi with
      onLength := (s.blinkArray esi).onLength, offLength := (s.blinkArray esi).offLength
      countdown := (s.blinkArray esi).countdown, status := (s.blinkArray esi).status } :=
    Fish.setNode_self ..
  have hshown : (syncNodes s esi edi).vmem (cellOffset (s.blinkArray edi))
      = (s.blinkArray edi).offChar := (update_self ..).trans (syncChar_eq _)
  have hcell : cellOffset ((syncNodes s esi edi).blinkArray edi) = cellOffset (s.blinkArray edi) := by
    rw [hself]
    rfl
  rw [Shows, hcell, hshown, hself, statusChar]
  dsimp only
  split_ifs with hon
  · exact ⟨fun h _ => h.symm, fun h => (h hon).symm⟩
  · exact iff_of_true rfl fun h => absurd h hon

theorem syncNodes_shows_of_ne {esi edi : Slot}
    (hloc : (s.blinkArray i).location ≠ (s.blinkArray edi).location) (h : Shows s i) :
    Shows (syncNodes s esi edi) i := by
  have hne : i ≠ edi := by
    rintro rfl
    exact hloc rfl
  have hother : (syncNodes s esi edi).blinkArray i = s.blinkArray i := Fish.setNode_of_ne _ _ hne
  rw [Shows, hother]
  exact (update_of_ne (cellOffset_ne hloc) ..).trans h

/-! ## Runs -/

/-- A slot on the list from `mp1_list_head`. -/
def OnList (s : Fish) (i : Slot) : Prop := Reaches s.next s.mp1ListHead i

/-- The locations on the list are pairwise distinct, and none is 0. -/
def Separate (s : Fish) : Prop :=
  (∀ i j, OnList s i → OnList s j →
      (s.blinkArray i).location = (s.blinkArray j).location → i = j)
    ∧ ∀ i, OnList s i → (s.blinkArray i).location ≠ 0

/-- A call after which the locations on the list are separate. -/
def KeepsSeparate (s : Fish) (c : Call) : Prop := ∀ s', call s c = some s' → Separate s'

/-- A sync does not copy the status of a node that is on to one whose characters differ. -/
def SyncsAlike (s : Fish) : Call → Prop
  | .sync arg => ∀ esi edi, mp1FindHelper s ((arg >>> 16).setWidth 16) = some (some esi) →
      mp1FindHelper s ((arg &&& 0xFFFF).setWidth 16) = some (some edi) →
        (s.blinkArray esi).status.getLsbD 0 = true →
          (s.blinkArray edi).onChar = (s.blinkArray edi).offChar
  | _ => True

/-- A list of nodes at distinct locations, all of them shown as their status says. -/
structure Displayed (s : Fish) (l : List Slot) : Prop extends Listed s l where
  distinct : Distinct s l
  shows : ∀ i ∈ l, Shows s i

theorem Listed.onList_iff (h : Listed s l) : OnList s i ↔ i ∈ l := h.chain.mem_iff_reaches.symm

theorem Separate.distinct (h : Separate s) (hl : Listed s l) : Distinct s l :=
  fun i hi j hj => h.1 i j (hl.onList_iff.mpr hi) (hl.onList_iff.mpr hj)

/-- A node that is added is on the list. -/
theorem onList_insert (s : Fish) (a : Slot) (temp : Node) : OnList (insertNode s a temp) a :=
  ⟨a, rfl, .refl⟩

/-- A node inserted at a location that no node of the list has. -/
theorem Displayed.insert {user : Node} (h : Displayed s l) (ha : ¬ s.InUse a)
    (hzero : user.location ≠ 0) (hnew : ∀ i ∈ l, (s.blinkArray i).location ≠ user.location) :
    Displayed (insertNode s a (addedNode user)) (a :: l) := by
  have hlisted : Listed (insertNode s a (addedNode user)) (a :: l) :=
    insert_listed h.toListed ha hzero
  have hne : ∀ i ∈ l, i ≠ a := by
    rintro i hi rfl
    exact ha ((h.inUse i).mp hi)
  have hother : ∀ i ∈ l, (insertNode s a (addedNode user)).blinkArray i = s.blinkArray i :=
    fun i hi => insert_of_ne _ (hne i hi)
  refine ⟨hlisted, ?_, ?_⟩
  · intro i hi j hj hloc
    rcases List.mem_cons.mp hi with rfl | hil
    · rcases List.mem_cons.mp hj with rfl | hjl
      · rfl
      · rw [insert_self, hother j hjl] at hloc
        exact absurd hloc.symm (hnew j hjl)
    · rcases List.mem_cons.mp hj with rfl | hjl
      · rw [insert_self, hother i hil] at hloc
        exact absurd hloc (hnew i hil)
      · rw [hother i hil, hother j hjl] at hloc
        exact h.distinct i hil j hjl hloc
  · intro i hi
    rcases List.mem_cons.mp hi with rfl | hil
    · exact insert_shows_self s i user
    · exact insert_shows_of_ne (hne i hil) (hnew i hil) (h.shows i hil)

/-- **Step lemma.** -/
theorem Displayed.step {c : Call} (h : Displayed s l) (heffect : Effect s l c s')
    (hsep : Separate s') (hsync : SyncsAlike s c) : ∃ l', Displayed s' l' := by
  cases heffect with
  | nothing => exact ⟨l, h⟩
  | @add user a hmalloc =>
    have hzero := hsep.2 a (onList_insert s a _)
    rw [insert_self] at hzero
    have hfree := not_inUse_of_malloc hmalloc
    have hdistinct := hsep.distinct (insert_listed h.toListed hfree hzero)
    refine ⟨a :: l, h.insert hfree hzero fun i hi hloc => ?_⟩
    have hne : i ≠ a := by
      rintro rfl
      exact hfree ((h.inUse i).mp hi)
    refine hne (hdistinct i (List.mem_cons_of_mem a hi) a List.mem_cons_self ?_)
    rw [insert_of_ne _ hne, insert_self]
    exact hloc
  | @remove arg a l₁ l₂ hl =>
    subst hl
    have ha : a ∉ l₁ ++ l₂ := (List.nodup_middle.mp h.nodup).notMem
    have hlisted := remove_listed h.toListed
    refine ⟨l₁ ++ l₂, hlisted, hsep.distinct hlisted, fun i hi => ?_⟩
    have hne : i ≠ a := by
      rintro rfl
      exact ha hi
    have hmem : i ∈ l₁ ++ a :: l₂ := by
      rcases List.mem_append.mp hi with h₁ | h₂
      · exact List.mem_append_left _ h₁
      · exact List.mem_append_right _ (List.mem_cons_of_mem a h₂)
    exact free_shows hne (store_shows (h.shows i hmem))
  | @sync arg esi edi hesi hedi hsrc hdst =>
    have hlisted := (syncNodes_keeps s esi edi).listed h.toListed
    refine ⟨l, hlisted, hsep.distinct hlisted, fun i hi => ?_⟩
    -- the destination shows what the copied status says, the others what they did
    rcases eq_or_ne i edi with rfl | hne
    · exact (syncNodes_shows_iff s esi i).mpr (hsync esi i hsrc hdst)
    · exact syncNodes_shows_of_ne (fun hloc => hne (h.distinct i hi edi hedi hloc)) (h.shows i hi)
  | tasklet =>
    have hlisted := (foldl_tick_keeps s l).listed h.toListed
    exact ⟨l, hlisted, hsep.distinct hlisted,
      foldl_tick_shows h.distinct (fun _ hi => hi) h.shows⟩

theorem displayed_nil (h : fish.init s) : Displayed s [] where
  toListed := listed_nil h
  distinct _ hi := absurd hi List.not_mem_nil
  shows _ hi := absurd hi List.not_mem_nil

theorem exists_displayed (h : fish.Reach (fun s c => KeepsSeparate s c ∧ SyncsAlike s c) s) :
    ∃ l, Displayed s l := by
  refine h.invariant (I := fun s => ∃ l, Displayed s l) ?_ ?_
  · exact fun s hinit => ⟨[], displayed_nil hinit⟩
  · rintro s c s' ⟨l, hl⟩ ⟨hsep, hsync⟩ hstep
    exact hl.step (effect_of_step hl.toListed hstep) (hsep s' hstep) hsync

/-- In every run over separate locations whose syncs copy no status that is on to a node with
two different characters, each node on the list is shown as its status says. -/
theorem shows_of_reach (h : fish.Reach (fun s c => KeepsSeparate s c ∧ SyncsAlike s c) s) :
    ∀ i, OnList s i → Shows s i := by
  obtain ⟨l, hl⟩ := exists_displayed h
  exact fun i hi => hl.shows i (hl.toListed.onList_iff.mp hi)

/-! ## Two nodes -/

theorem Listed.separate (h : Listed s l) (hdistinct : Distinct s l) : Separate s :=
  ⟨fun i j hi hj => hdistinct i (h.onList_iff.mp hi) j (h.onList_iff.mp hj),
    fun i hi => (h.inUse i).mp (h.onList_iff.mp hi)⟩

theorem Displayed.separate (h : Displayed s l) : Separate s := h.toListed.separate h.distinct

/-- A node is added to a list that has room and no node at its location. -/
theorem Displayed.exists_add (h : Displayed s l) (user : Node) (hlen : l.length < 80 * 25)
    (hzero : user.location ≠ 0) (hlocation : user.location.toNat < 80 * 25)
    (hnew : ∀ i ∈ l, (s.blinkArray i).location ≠ user.location) :
    ∃ a, a ∉ l ∧ (mp1IoctlAdd user s).1 = insertNode s a (addedNode user)
      ∧ Displayed (mp1IoctlAdd user s).1 (a :: l) := by
  obtain ⟨a, hmalloc⟩ := exists_malloc h.toListed hlen
  have hfree := not_inUse_of_malloc hmalloc
  rw [mp1IoctlAdd_of_malloc hlocation hmalloc]
  exact ⟨a, fun hmem => hfree ((h.inUse a).mp hmem), rfl, h.insert hfree hzero hnew⟩

/-- An add at a new location. -/
theorem reach_shown_add {user : Node}
    (h : fish.Reach (fun s c => KeepsSeparate s c ∧ SyncsAlike s c) s)
    (hl : Displayed (mp1IoctlAdd user s).1 l) :
    fish.Reach (fun s c => KeepsSeparate s c ∧ SyncsAlike s c) (mp1IoctlAdd user s).1 := by
  refine .step (a := .add user) h ⟨fun s' hcall => ?_, trivial⟩ rfl
  rw [← Option.some.inj hcall]
  exact hl.separate

/-- The node of `main`, alone on the list. -/
def oneBlink : Fish := (mp1IoctlAdd (blinkAt 540) cleared).1

theorem displayed_oneBlink : ∃ a, Displayed oneBlink [a]
    ∧ (oneBlink.blinkArray a).location = 540 ∧ (oneBlink.blinkArray a).status = 1 := by
  obtain ⟨a, -, hadd, hdisplayed⟩ := (displayed_nil init_cleared).exists_add
    (blinkAt 540) (by decide) (by decide) (by decide) fun _ hi => absurd hi List.not_mem_nil
  refine ⟨a, hdisplayed, ?_, ?_⟩ <;>
  · rw [oneBlink, hadd, insert_self]
    rfl

theorem reach_oneBlink : fish.Reach (fun s c => KeepsSeparate s c ∧ SyncsAlike s c) oneBlink := by
  obtain ⟨a, hdisplayed, -⟩ := displayed_oneBlink
  exact reach_shown_add (.init init_cleared) hdisplayed

theorem remove_location {p : Option Slot} {e : Cell} {a : Slot} (hne : i ≠ a) :
    ((mp1Free (store s p e) a).blinkArray i).location = (s.blinkArray i).location := by
  rw [mp1Free, Fish.setNode_of_ne _ _ hne]
  cases e with
  | listHead => rfl
  | next j =>
    rcases eq_or_ne i j with rfl | hij
    · rw [store_next_self]
    · rw [store_next_of_ne p hij]

/-- All calls but an add leave the locations apart. -/
theorem Displayed.keepsSeparate (h : Displayed s l) {c : Call}
    (hadd : ∀ user, c ≠ .add user) : KeepsSeparate s c := by
  intro s' hcall
  cases effect_of_step h.toListed hcall with
  | nothing => exact h.separate
  | add => exact absurd rfl (hadd _)
  | @remove arg a l₁ l₂ hl =>
    subst hl
    have ha : a ∉ l₁ ++ l₂ := (List.nodup_middle.mp h.nodup).notMem
    have hmem : ∀ i ∈ l₁ ++ l₂, i ≠ a ∧ i ∈ l₁ ++ a :: l₂ := by
      intro i hi
      refine ⟨fun hia => ha (hia ▸ hi), ?_⟩
      simp only [List.mem_append, List.mem_cons] at hi ⊢
      tauto
    refine (remove_listed h.toListed).separate fun i hi j hj hloc => ?_
    rw [remove_location (hmem i hi).1, remove_location (hmem j hj).1] at hloc
    exact h.distinct i (hmem i hi).2 j (hmem j hj).2 hloc
  | @sync arg esi edi =>
    have hkeeps := syncNodes_keeps s esi edi
    exact (hkeeps.listed h.toListed).separate (hkeeps.distinct h.distinct)
  | tasklet =>
    have hkeeps := foldl_tick_keeps s l
    exact (hkeeps.listed h.toListed).separate (hkeeps.distinct h.distinct)

theorem reach_shown {c : Call}
    (h : fish.Reach (fun s c => KeepsSeparate s c ∧ SyncsAlike s c) s)
    (hadd : ∀ user, c ≠ .add user) (hsync : SyncsAlike s c) :
    fish.Reach (fun s c => KeepsSeparate s c ∧ SyncsAlike s c) (returned s c) := by
  obtain ⟨l, hl⟩ := exists_displayed h
  obtain ⟨s', hcall, -⟩ := exists_effect hl.toListed c
  have hs' : returned s c = s' := congrArg (Option.getD · s) hcall
  rw [hs']
  exact .step h ⟨hl.keepsSeparate hadd, hsync⟩ hcall

theorem reach_sampleFish_two :
    fish.Reach (fun s c => KeepsSeparate s c ∧ SyncsAlike s c) (sampleFish 2) := by
  obtain ⟨a, -, hadd, hone⟩ := (displayed_nil init_cleared).exists_add
    { blinkAt 40 with onLength := 1 } (by decide) (by decide) (by decide) fun _ hi =>
      absurd hi List.not_mem_nil
  obtain ⟨b, -, -, htwo⟩ := hone.exists_add (blinkAt 540) (by simp) (by decide) (by decide)
    fun i hi => by
      rw [List.mem_singleton.mp hi, hadd, insert_self]
      decide
  exact reach_shown_add (reach_shown_add (.init init_cleared) hone) htwo

theorem sampleFish_succ {n : ℕ} {c : Call} (h : sampleCalls[n]? = some c) :
    sampleFish (n + 1) = returned (sampleFish n) c := by
  rw [sampleFish, sampleFish, List.take_add_one, h, List.foldl_append]
  rfl

/-- The second slot is left, and shows what it shows when it is off. -/
theorem shows_of_reach_sample : Shows (sampleFish 6) 1 ∧ (sampleFish 6).mp1ListHead = some 1 ∧
    ((sampleFish 6).blinkArray 1).status = 0 ∧ (sampleFish 6).vmem 1080 = chr 'M' := by
  have h3 : fish.Reach (fun s c => KeepsSeparate s c ∧ SyncsAlike s c) (sampleFish 3) := by
    rw [sampleFish_succ (c := .tasklet) rfl]
    exact reach_shown reach_sampleFish_two nofun trivial
  have hoff : ∀ i, mp1FindHelper (sampleFish 3) 40 = some (some i) →
      ((sampleFish 3).blinkArray i).status.getLsbD 0 = false := by
    have hfind : mp1FindHelper (sampleFish 3) 40 = some (some 0) := by decide +kernel
    intro i hi
    obtain rfl := Option.some.inj (Option.some.inj (hfind.symm.trans hi))
    decide +kernel
  have hsync : SyncsAlike (sampleFish 3) (.sync 0x0028021C) := fun esi _ hsrc _ hon =>
    absurd (hon.symm.trans (hoff esi hsrc)) (by decide)
  have h6 : fish.Reach (fun s c => KeepsSeparate s c ∧ SyncsAlike s c) (sampleFish 6) := by
    rw [sampleFish_succ (c := .remove 40) rfl, sampleFish_succ (c := .tasklet) rfl,
      sampleFish_succ (c := .sync 0x0028021C) rfl]
    exact reach_shown (reach_shown (reach_shown h3 nofun hsync) nofun trivial) nofun trivial
  have hhead : (sampleFish 6).mp1ListHead = some 1 := by decide +kernel
  have hon : OnList (sampleFish 6) 1 := ⟨1, hhead, .refl⟩
  exact ⟨shows_of_reach h6 1 hon, hhead, by decide +kernel, by decide +kernel⟩

/-- The node of `main` synchronised with a second one, which then shows `M` while its status is
on. -/
theorem sync_shows_off :
    ¬ ∀ s, fish.Reach KeepsSeparate s → ∀ i, OnList s i → Shows s i := by
  intro h
  obtain ⟨a, hone, hlocation, hstatus⟩ := displayed_oneBlink
  have hnew : ∀ i ∈ [a], (oneBlink.blinkArray i).location ≠ (blinkAt 60).location := by
    intro i hi
    rw [List.mem_singleton.mp hi, hlocation]
    decide
  obtain ⟨b, hb, hadd, htwo⟩ :=
    hone.exists_add (blinkAt 60) (by simp) (by decide) (by decide) hnew
  have hne : a ≠ b := fun hab => hb (List.mem_singleton.mpr hab.symm)
  set s := (mp1IoctlAdd (blinkAt 60) oneBlink).1
  have ha : s.blinkArray a = oneBlink.blinkArray a := by rw [hadd, insert_of_ne _ hne]
  have hnode : s.blinkArray b
      = { addedNode (blinkAt 60) with next := oneBlink.mp1ListHead } := by rw [hadd, insert_self]
  -- `mp1_ioctl((540 << 16 | 60), RTC_SYNC)`
  have hsrc : mp1FindHelper s 540 = some (some a) := by
    rw [mp1FindHelper_eq htwo.toListed, List.find?_cons, hnode, List.find?_cons, ha, hlocation]
    rfl
  have hdst : mp1FindHelper s 60 = some (some b) := by
    rw [mp1FindHelper_eq htwo.toListed, List.find?_cons, hnode]
    rfl
  have hcall : call s (.sync 0x021C003C) = some (syncNodes s a b) := by
    have hsrc' : mp1FindHelper s (((0x021C003C : Word) >>> 16).setWidth 16) = some (some a) := hsrc
    have hdst' : mp1FindHelper s (((0x021C003C : Word) &&& 0xFFFF).setWidth 16) = some (some b) :=
      hdst
    rw [call, mp1IoctlSync, hsrc', hdst']
    rfl
  have hkeeps := syncNodes_keeps s a b
  have hlisted := hkeeps.listed htwo.toListed
  have hsep := hlisted.separate (hkeeps.distinct htwo.distinct)
  have hreach : fish.Reach KeepsSeparate (syncNodes s a b) := by
    refine .step (a := .sync 0x021C003C) (.step (a := .add (blinkAt 60))
      (reach_oneBlink.mono fun _ _ _ hok => hok.1) (fun s' hs' => ?_) rfl) (fun s' hs' => ?_) hcall
    · rw [← Option.some.inj hs']
      exact htwo.separate
    · rw [← Option.some.inj (hcall.symm.trans hs')]
      exact hsep
  have hshows := h _ hreach b (hlisted.onList_iff.mpr List.mem_cons_self)
  have hon : (s.blinkArray a).status.getLsbD 0 = true := by
    rw [ha, hstatus]
    decide
  have hsame := (syncNodes_shows_iff s a b).mp hshows hon
  rw [hnode] at hsame
  exact absurd hsame (by decide)

end Blink

end HieUnix
