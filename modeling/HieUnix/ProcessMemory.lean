import HieUnix.VirtualMemory
import HieUnix.VideoPage

/-!
# Processes and their memory

The process tables and the words of the page tables together. Each operation on processes makes the
calls of `page.c` that its source does (`VideoOp.calls`), on the tables that the processor walks; in
between, programs and the kernel store through the translation. The paging entries of `Kernel` are
the words of the tables in every state of every run (`entries_of_reach`), so that what was proved
about them holds of the memory: in runs whose programs start in the foreground, the memory of a
process only changes while it is running (`memory_kept`); and in runs that keep the video page
isolated, a process in the background changes nothing on the screen (`screen_kept`).
-/

namespace HieUnix.Page

open Function Paging

variable {m : Machine} {k k' : Kernel} {fr sub : Frame} {v : View} {L : Layout} {s s' : State}
  {i r : Slot} {b : Word}

/-! ## The calls of an operation -/

/-- What `execute` calls. -/
def executeCalls (m : Machine) (command : Option (List Byte)) : List Call :=
  match command with
  | none => []
  | some command =>
    if command = [] then []
    else
      match checkProgram m.fs m.img command with
      | none => []
      | some _ => [.addProgPage]

/-- What `halt` calls. -/
def haltCalls (m : Machine) (k : Kernel) (fr : Frame) : List Call :=
  let curr := k.pcb fr.pcb
  match curr.parent with
  | some parent => [.freeProgPage curr.ptIdx, .setProgPage (k.pcb parent).ptIdx]
  | none => .freeProgPage curr.ptIdx :: executeCalls m (some shell)

/-- What `change_video_mem` calls. -/
def changeVideoMemCalls (m : Machine) (k : Kernel) (oldTermNum newTermNum : Term) : List Call :=
  if oldTermNum = newTermNum then []
  else if firstFree k.pcbUsed = none ∧ k.termCurrPcb newTermNum = none then []
  else
    .setVideoPage false ::
      match k.termCurrPcb newTermNum with
      | some _ => []
      | none => executeCalls m (some shell)

/-- What `do_handle_pit` calls. -/
def doHandlePitCalls (k : Kernel) (fr : Frame) : List Call :=
  if ∀ t, k.termCurrPcb t = none then []
  else
    match nextTerminal k.termCurrPcb fr.pcb with
    | none => []
    | some qindex =>
      match k.termCurrPcb qindex with
      | none => []
      | some next => [.setProgPage (k.pcb next).ptIdx,
          .setVideoPage (decide (qindex = k.currentActiveTerminal))]

/-- What `vidmap` calls. -/
def vidmapCalls (screenStart : Word) : List Call :=
  if screenStart = 0 then []
  else if accessOk screenStart = error then []
  else [.addVideoPt]

/-- The calls of an operation. -/
def calls (m : Machine) (k : Kernel) : VideoOp → List Call
  | .kernel (.execute _ command) => executeCalls m command
  | .kernel (.halt fr _ _) => haltCalls m k fr
  | .kernel (.switch _ new) => changeVideoMemCalls m k k.currentActiveTerminal new
  | .kernel (.tick fr) => doHandlePitCalls k fr
  | .vidmap _ _ screenStart => vidmapCalls screenStart

/-- What is mapped after some calls. -/
def View.calls (v : View) (cs : List Call) : View := cs.foldl View.call v

/-! ## The entries of `Kernel` -/

/-- The entries of `k` are those of the view `v`. -/
structure Shows (m : Machine) (k : Kernel) (v : View) : Prop where
  used : k.progUsedPage = v.used
  progPde : k.progPde = (v.prog.map fun j : Slot => HieUnix.progPde j).getD 0
  videoPde : k.videoPde = (v.video.map fun _ => m.ptVid1 ||| 0x7).getD 0
  videoPte : k.videoPte = (v.video.map fun setOn => View.videoPage setOn ||| 0x7).getD 0

theorem Shows.congr (h : Shows m k v) (hused : k'.progUsedPage = k.progUsedPage)
    (hprog : k'.progPde = k.progPde) (hpde : k'.videoPde = k.videoPde)
    (hpte : k'.videoPte = k.videoPte) : Shows m k' v :=
  ⟨hused.trans h.used, hprog.trans h.progPde, hpde.trans h.videoPde, hpte.trans h.videoPte⟩

theorem shows_boot (m : Machine) (pcb : Slot → Pcb) (progPage : Slot → Memory) :
    Shows m (bootKernel pcb progPage) .start := ⟨rfl, rfl, rfl, rfl⟩

theorem Shows.setProgPage (h : Shows m k v) (idx : ℕ) :
    Shows m (k.setProgPage idx) (v.call (.setProgPage idx)) := by
  rw [Kernel.setProgPage, View.call]
  split_ifs with hidx
  · exact ⟨by rw [← h.used], rfl, h.videoPde, h.videoPte⟩
  · exact h

theorem Shows.freeProgPage (h : Shows m k v) (idx : ℕ) :
    Shows m (k.freeProgPage idx) (v.call (.freeProgPage idx)) := by
  rw [Kernel.freeProgPage, View.call]
  split_ifs with hidx
  · exact ⟨by rw [← h.used], rfl, h.videoPde, h.videoPte⟩
  · exact h

/-- The flags of an entry of the video page, in the order of the source. -/
theorem videoFlags (x : Word) : x ||| 0x4 ||| 0x2 ||| 0x1 = x ||| 0x7 := by
  rw [BitVec.or_assoc, BitVec.or_assoc]
  rfl

theorem Shows.setVideoPage (h : Shows m k v) (setOn : Bool) :
    Shows m (k.setVideoPage m setOn) (v.call (.setVideoPage setOn)) :=
  ⟨h.used, h.progPde, videoFlags _, videoFlags _⟩

theorem Shows.addNewPt (h : Shows m k v) :
    Shows m (HieUnix.addNewPt m k 0xB8000) (v.call .addVideoPt) :=
  ⟨h.used, h.progPde, videoFlags _, (by decide : ((0xB8000 : Word) &&& 0xFFFFF000) ||| 7
    = View.videoPage true ||| 0x7)⟩

/-- Only the two allocators of `execute` are about pages. -/
theorem runChild_entries (m : Machine) (k : Kernel) (fr : Frame) (command : List Byte) (exe : Exe)
    (pt c : Slot) :
    (runChild m k fr command exe pt c).videoPde = k.videoPde ∧
      (runChild m k fr command exe pt c).videoPte = k.videoPte := by
  cases h : k.termCurrPcb k.currentActiveTerminal <;>
    simp [runChild, Kernel.setPcb, Kernel.setTssEsp0, Kernel.setTermCurr, h]

theorem Shows.execute (h : Shows m k v) (fr : Frame) (command : Option (List Byte)) :
    Shows m (execute m k fr command).2 (v.calls (executeCalls m command)) := by
  match command with
  | none => exact h
  | some s =>
    by_cases hs : s = []
    · rw [executeCalls, if_pos hs, HieUnix.execute, if_pos hs]
      exact h
    rw [executeCalls, if_neg hs, execute_eq m k fr hs]
    cases checkProgram m.fs m.img s with
    | none => exact h
    | some exe =>
      show Shows m _ (v.call .addProgPage)
      rw [View.call, ← h.used]
      cases hpage : firstFree k.progUsedPage with
      | none => exact h
      | some pt =>
        cases firstFree k.pcbUsed with
        | none => exact ⟨rfl, rfl, h.videoPde, h.videoPte⟩
        | some c =>
          obtain ⟨-, hused, hprog, -⟩ := runChild_tables (m := m) (allocatedAt k pt c) fr s exe pt c
          obtain ⟨hpde, hpte⟩ := runChild_entries m (allocatedAt k pt c) fr s exe pt c
          exact ⟨hused, hprog, hpde.trans h.videoPde, hpte.trans h.videoPte⟩

theorem View.calls_cons (v : View) (c : Call) (cs : List Call) :
    v.calls (c :: cs) = (v.call c).calls cs := rfl

theorem freeProgPage_pcb (k : Kernel) (idx : ℕ) : (k.freeProgPage idx).pcb = k.pcb := by
  unfold Kernel.freeProgPage
  split_ifs <;> rfl

theorem Shows.halt (h : Shows m k v) (fr sub : Frame) (arg : Word) :
    Shows m (halt m k fr sub arg).2 (v.calls (haltCalls m k fr)) := by
  cases hparent : (k.pcb fr.pcb).parent with
  | some parent =>
    have h0 : Shows m (k.setTermCurr (k.pcb fr.pcb).terminalNumber (some parent)) v :=
      h.congr rfl rfl rfl rfl
    have h1 := h0.freeProgPage (k.pcb fr.pcb).ptIdx
    have h2 := h1.setProgPage (k.pcb parent).ptIdx
    simp only [HieUnix.halt, haltCalls, hparent, freeProgPage_pcb]
    exact h2.congr rfl rfl rfl rfl
  | none =>
    have h0 : Shows m (k.setTermCurr (k.pcb fr.pcb).terminalNumber none) v :=
      h.congr rfl rfl rfl rfl
    have h1 := h0.freeProgPage (k.pcb fr.pcb).ptIdx
    have h2 : Shows m ((((k.setTermCurr (k.pcb fr.pcb).terminalNumber none).freeProgPage
        (k.pcb fr.pcb).ptIdx).setTssEsp0 (k.pcb fr.pcb).oldTssEsp).freePcb (k.pcb fr.pcb).pcbIdx)
        (v.call (.freeProgPage (k.pcb fr.pcb).ptIdx)) := h1.congr rfl rfl rfl rfl
    have h3 := h2.execute sub (some shell)
    simp only [HieUnix.halt, haltCalls, hparent, View.calls_cons]
    revert h3
    -- whatever the shell's `execute` returns, its tables are those after the `halt`
    generalize HieUnix.execute m _ sub (some shell) = res
    obtain ⟨c, k''⟩ := res
    intro h3
    cases c <;> exact h3

theorem Shows.changeVideoMem (h : Shows m k v) (fr : Frame) (old new : Term) :
    Shows m (changeVideoMem m k fr old new).2 (v.calls (changeVideoMemCalls m k old new)) := by
  unfold changeVideoMemCalls HieUnix.changeVideoMem
  split_ifs with h1 h2
  · exact h
  · exact h
  · have hpage : Shows m { k.setVideoPage m false with currentActiveTerminal := new }
        (v.call (.setVideoPage false)) := (h.setVideoPage false).congr rfl rfl rfl rfl
    have hhead : (k.setVideoPage m false).termCurrPcb new = k.termCurrPcb new := rfl
    rw [View.calls_cons]
    simp only [hhead]
    cases k.termCurrPcb new with
    | some _ => exact hpage
    | none => exact hpage.execute fr (some shell)

theorem setProgPage_active (k : Kernel) (idx : ℕ) :
    (k.setProgPage idx).currentActiveTerminal = k.currentActiveTerminal := by
  unfold Kernel.setProgPage
  split_ifs <;> rfl

theorem Shows.tick (h : Shows m k v) {fr : Frame} {c : Control}
    (hrun : doHandlePit m k fr = some (c, k')) :
    Shows m k' (v.calls (doHandlePitCalls k fr)) := by
  unfold doHandlePitCalls
  unfold doHandlePit at hrun
  split_ifs at hrun ⊢ with hnone
  · obtain ⟨-, rfl⟩ := Prod.mk.inj (Option.some.inj hrun)
    exact h
  · cases hnext : nextTerminal k.termCurrPcb fr.pcb with
    | none =>
      rw [hnext] at hrun
      cases hrun
    | some q =>
      simp only [hnext] at hrun ⊢
      cases hq : k.termCurrPcb q with
      | none =>
        rw [hq] at hrun
        cases hrun
      | some next =>
        rw [hq, Option.map_some] at hrun
        obtain ⟨-, rfl⟩ := Prod.mk.inj (Option.some.inj hrun)
        have h0 : Shows m (k.setTssEsp0 (k.pcb next).tssEsp) v := h.congr rfl rfl rfl rfl
        have h1 := h0.setProgPage (k.pcb next).ptIdx
        have h2 := h1.setVideoPage (decide (q = k.currentActiveTerminal))
        simp only [setProgPage_active]
        exact h2.congr rfl rfl rfl rfl

/-- **The entries after an operation** are those of its calls. -/
theorem Shows.step (h : Shows m k v) {op : VideoOp} (hst : (videoLTS m).step k op k') :
    Shows m k' (v.calls (calls m k op)) := by
  have hent : ∀ fr : Frame, Shows m (k.entered fr) v := fun fr => h.congr rfl rfl rfl rfl
  match op with
  | .kernel (.execute fr command) =>
    obtain ⟨-, c, hrun⟩ := hst
    rw [← show _ = k' from congrArg Prod.snd (Option.some.inj hrun)]
    exact (hent fr).execute fr command
  | .kernel (.halt fr sub arg) =>
    obtain ⟨-, c, hrun⟩ := hst
    rw [← show _ = k' from congrArg Prod.snd (Option.some.inj hrun)]
    exact (hent fr).halt fr sub arg
  | .kernel (.switch fr new) =>
    obtain ⟨-, c, hrun⟩ := hst
    rw [← show _ = k' from congrArg Prod.snd (Option.some.inj hrun)]
    exact (hent fr).changeVideoMem fr _ new
  | .kernel (.tick fr) =>
    obtain ⟨-, c, hrun⟩ := hst
    exact (hent fr).tick hrun
  | .vidmap fr mem screenStart =>
    obtain ⟨-, rfl⟩ := hst
    show Shows m _ (v.calls (vidmapCalls screenStart))
    unfold vidmapCalls
    have hnull : accessOk 0 = error := rfl
    rcases sysVidmap_cases m (k.entered fr) mem screenStart with ⟨herr, heq⟩ | ⟨hok, heq⟩
    · rw [heq, if_pos herr, ite_self]
      exact hent fr
    · have hne : screenStart ≠ 0 := by
        rintro rfl
        exact hok hnull
      rw [heq, if_neg hne, if_neg hok]
      exact (hent fr).addNewPt

/-! ## The two together -/

/-- A call of `page.c` is part of an operation on processes, and none of the other events. -/
def Event.IsAccess : Event → Prop
  | .call _ => False
  | _ => True

/-- The kernel on its page tables. An operation on processes makes its calls, without the stores of
the loader; in between, whoever is running stores, and the processor keeps translations. -/
def machineLTS (m : Machine) (L : Layout) : LTS (Kernel × State) (VideoOp ⊕ Event) where
  init p := L.ptVid1 = m.ptVid1 ∧ (videoLTS m).init p.1 ∧ ∃ s₀, (pageLTS L).init s₀ ∧
    (pageLTS L).Run s₀ ((executeCalls m (some shell)).map .call) p.2
  step p o p' :=
    match o with
    | .inl op => (videoLTS m).step p.1 op p'.1 ∧
        (pageLTS L).Run p.2 ((calls m p.1 op).map .call) p'.2
    | .inr e => p'.1 = p.1 ∧ e.IsAccess ∧ (pageLTS L).step p.2 e p'.2

variable {p p' : Kernel × State} {o : VideoOp ⊕ Event}

/-- The words of the tables and the entries of the kernel are those of one view. -/
structure Linked (m : Machine) (L : Layout) (p : Kernel × State) (v : View) : Prop where
  shows : Shows m p.1 v
  installed : Installed L p.2 v
  ptVid1 : L.ptVid1 = m.ptVid1

/-- A run of calls maps what they say. -/
theorem Installed.calls (h : Installed L s v) {cs : List Call}
    (hr : (pageLTS L).Run s (cs.map .call) s') : Installed L s' (v.calls cs) := by
  induction cs generalizing s v with
  | nil =>
    cases hr
    exact h
  | cons c cs ih =>
    cases hr with
    | cons hst hr =>
      rw [View.calls_cons]
      exact ih (h.step hst) hr

/-- The calls only change the tables. -/
theorem Installed.calls_kept (h : Installed L s v) {cs : List Call}
    (hr : (pageLTS L).Run s (cs.map .call) s') (hb : Outside L b) :
    s'.mmu.mem b = s.mmu.mem b := by
  induction cs generalizing s v with
  | nil =>
    cases hr
    rfl
  | cons c cs ih =>
    cases hr with
    | cons hst hr =>
      obtain ⟨s₁, hs₁, h₁, hkept⟩ := Call.run_installed h c
      obtain rfl := Option.some.inj (hs₁.symm.trans hst)
      exact (ih h₁ hr).trans (hkept b hb)

/-- The calls can be made. -/
theorem Installed.exists_calls (h : Installed L s v) (cs : List Call) :
    ∃ s', (pageLTS L).Run s (cs.map .call) s' := by
  induction cs generalizing s v with
  | nil => exact ⟨s, .nil s⟩
  | cons c cs ih =>
    obtain ⟨s₁, hs₁, h₁, -⟩ := Call.run_installed h c
    obtain ⟨s', hr⟩ := ih h₁
    exact ⟨s', .cons hs₁ hr⟩

theorem View.event_of_isAccess (v : View) {e : Event} (he : e.IsAccess) : v.event e = v := by
  cases e with
  | call c => exact he.elim
  | store _ _ _ => rfl
  | fill _ => rfl
  | markDirectory _ _ => rfl
  | markTable _ _ => rfl

theorem linked_init (h : (machineLTS m L).init p) : ∃ v, Linked m L p v := by
  obtain ⟨hpt, ⟨pcb, progPage, fr, -, hk⟩, s₀, hs₀, hr⟩ := h
  have hI := (installed_of_init hs₀).calls hr
  refine ⟨_, ⟨?_, hI, hpt⟩⟩
  rw [hk]
  exact (shows_boot m pcb progPage).execute fr (some shell)

/-- **Step.** -/
theorem Linked.step (h : Linked m L p v) (hst : (machineLTS m L).step p o p') :
    ∃ v', Linked m L p' v' := by
  match o with
  | .inl op =>
    obtain ⟨hk, hs⟩ := hst
    exact ⟨_, h.shows.step hk, h.installed.calls hs, h.ptVid1⟩
  | .inr e =>
    obtain ⟨hk, he, hs⟩ := hst
    have hI := h.installed.step hs
    rw [View.event_of_isAccess v he] at hI
    exact ⟨v, hk ▸ h.shows, hI, h.ptVid1⟩

/-- An operation on processes can be taken on the tables. -/
theorem Linked.exists_step (h : Linked m L p v) {op : VideoOp} (hst : (videoLTS m).step p.1 op k') :
    ∃ s', (machineLTS m L).step p (.inl op) (k', s') := by
  obtain ⟨s', hs'⟩ := h.installed.exists_calls (calls m p.1 op)
  exact ⟨s', hst, hs'⟩

theorem exists_linked_of_reach {ok : Kernel × State → VideoOp ⊕ Event → Prop}
    (h : (machineLTS m L).Reach ok p) : ∃ v, Linked m L p v := by
  refine h.invariant (I := fun p => ∃ v, Linked m L p v) (fun _ hinit => linked_init hinit) ?_
  rintro p o p' ⟨v, hv⟩ - hst
  exact hv.step hst

/-- **The paging entries of the kernel are the words of the tables**, but for the bits that the
processor sets, in every state of every run, and every operation on processes can be taken on the
tables: none of its calls faults. -/
theorem entries_of_reach (h : (machineLTS m L).Reach LTS.always p) :
    settled (entry p.2.mmu.mem L.pageDirectory progPdEntry) = p.1.progPde ∧
      settled (entry p.2.mmu.mem L.pageDirectory (pdIdx videoVirtual)) = p.1.videoPde ∧
      settled (entry p.2.mmu.mem L.ptVid1 (ptIdx videoVirtual)) = p.1.videoPte ∧
      p.2.progUsedPage = p.1.progUsedPage ∧
      ∀ op k', (videoLTS m).step p.1 op k' → ∃ s', (machineLTS m L).step p (.inl op) (k', s') := by
  obtain ⟨v, hv⟩ := exists_linked_of_reach h
  refine ⟨?_, ?_, ?_, hv.installed.used.trans hv.shows.used.symm, fun op k' hst => ?_⟩
  · rw [hv.shows.progPde]
    exact hv.installed.dir 32 (by decide)
  · rw [hv.shows.videoPde, ← hv.ptVid1]
    exact hv.installed.dir 33 (by decide)
  · rw [hv.shows.videoPte]
    exact hv.installed.vid 0 (by decide)
  · exact hv.exists_step hst

/-! ## The memory of a process -/

/-- The programs that an operation starts are started in the foreground. -/
def ForegroundOp (m : Machine) (p : Kernel × State) : VideoOp ⊕ Event → Prop
  | .inl (.kernel op) => Foreground m p.1 op
  | _ => True

theorem progPde_ne_zero : ∀ i : Slot, HieUnix.progPde i ≠ 0 := by decide

theorem progPde_injective : ∀ i j : Slot, HieUnix.progPde i = HieUnix.progPde j → i = j := by decide

/-- The page that is mapped is that of the running process. -/
theorem Linked.prog_eq (h : Linked m L p v) (hpde : p.1.progPde = HieUnix.progPde r) :
    v.prog = some r := by
  have hshows := h.shows.progPde
  rw [hpde] at hshows
  cases hprog : v.prog with
  | none =>
    rw [hprog, Option.map_none, Option.getD_none] at hshows
    exact absurd hshows (progPde_ne_zero r)
  | some j =>
    rw [hprog, Option.map_some, Option.getD_some] at hshows
    rw [progPde_injective r j hshows]

/-- `vidmap` leaves the processes alone. -/
theorem inv_vidmap {St : Term → List Slot} (h : Inv k r St) {mem : Memory} {screenStart : Word}
    (hst : (videoLTS m).step k (.vidmap fr mem screenStart) k') : Inv k' r St := by
  obtain ⟨hfr, rfl⟩ := hst
  have hfr' : fr.pcb = r := by
    rcases hfr with h1 | h1
    · exact (Option.some.inj (h.current.symm.trans h1)).symm
    · rw [h.tssEsp0, getPcb_getKstackAddr] at h1
      exact (Option.some.inj h1).symm
  have hent := h.enter hfr'
  rcases sysVidmap_cases m (k.entered fr) mem screenStart with ⟨-, heq⟩ | ⟨-, heq⟩
  · rw [heq]
    exact hent
  · rw [heq]
    exact { hent with }

theorem exists_inv_of_foreground (h : (machineLTS m L).Reach (ForegroundOp m) p) :
    ∃ r St, Inv p.1 r St := by
  refine h.invariant (I := fun p => ∃ r St, Inv p.1 r St) (fun p hinit => ?_) ?_
  · exact ⟨_, _, inv_init hinit.2.1⟩
  · rintro p o p' ⟨r, St, hI⟩ hfg hst
    match o with
    | .inl (.kernel op) =>
      obtain ⟨⟨hop, c, hrun⟩, -⟩ := hst
      obtain ⟨r', St', -, hI'⟩ := hI.effect hfg hop hrun
      exact ⟨r', St', hI'⟩
    | .inl (.vidmap fr mem screenStart) => exact ⟨r, St, inv_vidmap hI hst.1⟩
    | .inr e => exact ⟨r, St, hst.1 ▸ hI⟩

/-- The page of a program is none of the tables. -/
theorem outside_of_inProgPage (hb : InProgPage b i) : Outside L b := by
  have hhigh : 0x800000 ≤ b.toNat := by
    rw [inProgPage_iff] at hb
    omega
  exact outside_of_notInKernel (.inr hhigh)

/-- An operation leaves the pages of the programs alone. -/
theorem Linked.op_kept (h : Linked m L p v) {op : VideoOp}
    (hst : (machineLTS m L).step p (.inl op) p') (hb : InProgPage b i) :
    p'.2.mmu.mem b = p.2.mmu.mem b :=
  h.installed.calls_kept hst.2 (outside_of_inProgPage hb)

/-- One step while the process is not running. -/
theorem memory_kept_step (h : (machineLTS m L).Reach (ForegroundOp m) p)
    (hi : getPcb p.1.esp ≠ some i) (hst : (machineLTS m L).step p o p') (hb : InProgPage b i) :
    p'.2.mmu.mem b = p.2.mmu.mem b := by
  obtain ⟨r, St, hI⟩ := exists_inv_of_foreground h
  obtain ⟨v, hv⟩ := exists_linked_of_reach h
  have hhigh : 0x800000 ≤ b.toNat := by
    rw [inProgPage_iff] at hb
    omega
  match o with
  | .inl op => exact hv.op_kept hst hb
  | .inr e =>
    obtain ⟨-, -, hs⟩ := hst
    refine hv.installed.kept hs (outside_of_inProgPage hb) (fun setOn hin => ?_)
      (fun j hj => ?_) fun hlow => ?_
    · have hin := inVideoPage_of_shown hin
      rw [inVideoPage_iff] at hin
      omega
    · rw [hv.prog_eq hI.progPde]
      intro hr
      obtain rfl : r = j := Option.some.inj hr
      have hri : r = i := by
        rw [inProgPage_iff] at hb hj
        exact Fin.ext (by omega)
      exact hi (hri ▸ hI.current)
    · omega

/-- **Isolation.** In runs whose programs start in the foreground, the memory of a process is the
same at the end of every stretch of the run in which it does not run, whatever programs and the
kernel store, execute or map meanwhile. -/
theorem memory_kept (h : (machineLTS m L).Reach (ForegroundOp m) p)
    (hr : ((machineLTS m L).startAt p).Reach
      (fun q o => ForegroundOp m q o ∧ getPcb q.1.esp ≠ some i) p') (hb : InProgPage b i) :
    p'.2.mmu.mem b = p.2.mmu.mem b := by
  induction hr with
  | init hs => rw [hs]
  | step hq hok hst ih =>
    rw [← ih]
    exact memory_kept_step (h.trans (hq.mono fun _ _ _ hok => hok.1)) hok.2 hst hb

/-! ## The screen -/

/-- `VideoSafe` for the operations of a run. -/
def VideoSafeOp (p : Kernel × State) : VideoOp ⊕ Event → Prop
  | .inl op => VideoSafe p.1 op
  | .inr _ => True

theorem videoReach_of_reach (h : (machineLTS m L).Reach VideoSafeOp p) :
    (videoLTS m).Reach VideoSafe p.1 := by
  apply h.invariant (I := fun p => (videoLTS m).Reach VideoSafe p.1)
  · intro p hinit
    exact .init hinit.2.1
  intro p o p' hreach hok hst
  match o with
  | .inl op => exact .step hreach hok hst.1
  | .inr e => exact hst.1 ▸ hreach

/-- A view that shows the screen is one whose entries map the video memory. -/
theorem Linked.mapsVideo (h : Linked m L p v) (hv : v.video = some true) : p.1.MapsVideo m := by
  have hpde := h.shows.videoPde
  have hpte := h.shows.videoPte
  rw [hv, Option.map_some, Option.getD_some] at hpde hpte
  have heq : (HieUnix.addNewPt m p.1 0xB8000).MapsVideo m := mapsVideo_addNewPt m p.1
  unfold Kernel.MapsVideo at heq ⊢
  rw [hpde, hpte, ← videoFlags]
  exact heq

/-- The running process is of a terminal that is not the active one. -/
def Background (p : Kernel × State) : Prop :=
  ∃ r, getPcb p.1.esp = some r ∧ (p.1.pcb r).terminalNumber ≠ p.1.currentActiveTerminal

/-- One step while a process of another terminal runs. -/
theorem screen_kept_step (h : (machineLTS m L).Reach VideoSafeOp p) (hback : Background p)
    (hst : (machineLTS m L).step p o p') (hb : InSpan b video 4096)
    (hk : ∀ x, o ≠ .inr (.store false b x)) : p'.2.mmu.mem b = p.2.mmu.mem b := by
  obtain ⟨r, hr, hback⟩ := hback
  obtain ⟨v, hv⟩ := exists_linked_of_reach h
  have hiso := (videoIsolated_of_safe (videoReach_of_reach h)).1 r hr hback
  have hpage : InVideoPage b := .inl hb
  rw [inVideoPage_iff] at hpage
  have hout : Outside L b := outside_of_notInKernel (.inl (by omega))
  match o with
  | .inl op => exact hv.installed.calls_kept hst.2 hout
  | .inr e =>
    obtain ⟨-, -, hs⟩ := hst
    refine hv.installed.kept hs hout (fun setOn hin hvideo => ?_) (fun j hj => ?_) fun _ x he => ?_
    · cases setOn with
      | true => exact hiso (hv.mapsVideo hvideo)
      | false =>
        -- the backup page is another one
        change InSpan b videoBackup 4096 at hin
        unfold InSpan at hb hin
        bv_omega
    · rw [inProgPage_iff] at hj
      omega
    · exact hk x (congrArg Sum.inr he)

/-- **The screen** is the same at the end of every stretch of a run in which only processes of
other terminals run, if `vidmap` is called in the foreground and `halt` goes back to a process of
the same terminal: no operation and no store of a program reaches it; only the kernel's own stores
at its address do. -/
theorem screen_kept (h : (machineLTS m L).Reach VideoSafeOp p)
    (hr : ((machineLTS m L).startAt p).Reach
      (fun q o => VideoSafeOp q o ∧ Background q ∧ ∀ x, o ≠ .inr (.store false b x)) p')
    (hb : InSpan b video 4096) : p'.2.mmu.mem b = p.2.mmu.mem b := by
  induction hr with
  | init hs => rw [hs]
  | step hq hok hst ih =>
    rw [← ih]
    exact screen_kept_step (h.trans (hq.mono fun _ _ _ hok => hok.1)) hok.2.1 hst hb hok.2.2

/-! ## A shell at work -/

/-- The machine after boot. -/
theorem exists_sampleInit :
    ∃ s, (machineLTS sampleMachine sampleLayout).init (sampleBoot, s) := by
  obtain ⟨s₀, hs₀, h₀⟩ := pagingInit_installed boot_sampleState
  obtain ⟨s, hs⟩ := h₀.exists_calls (executeCalls sampleMachine (some shell))
  exact ⟨s, rfl, sampleBoot_init, s₀, ⟨_, boot_sampleState, hs₀⟩, hs⟩

/-- A run goes on with an operation on processes, which leaves the pages of the programs alone. -/
theorem exists_reach_step {ok : Kernel × State → VideoOp ⊕ Event → Prop}
    (h : (machineLTS m L).Reach ok (k, s)) {op : VideoOp} (hst : (videoLTS m).step k op k') :
    ∃ s', (machineLTS m L).step (k, s) (.inl op) (k', s') ∧
      ∀ b i, InProgPage b i → s'.mmu.mem b = s.mmu.mem b := by
  obtain ⟨v, hv⟩ := exists_linked_of_reach h
  obtain ⟨s', hs'⟩ := hv.exists_step hst
  exact ⟨s', hs', fun _ _ hb => hv.op_kept hs' hb⟩

/-- A program stores a byte of its page or of the video page. -/
theorem Linked.exists_store (h : Linked m L p v) {va pa : Word} (x : Byte)
    (hpa : v.translate ⟨true, true⟩ va = some pa) :
    ∃ s', (machineLTS m L).step p (.inr (.store true va x)) (p.1, s') ∧ s'.mmu.mem pa = x := by
  have htrans : p.2.mmu.translate ⟨true, true⟩ va = some pa := by
    rw [h.installed.translate, hpa]
  have hbyte : p.2.mmu.mem.store8 pa x pa = x := Memory.store8_self _ _ _
  refine ⟨{ p.2 with mmu := { p.2.mmu with mem := p.2.mmu.mem.store8 pa x } },
    ⟨rfl, trivial, fun hk => Bool.noConfusion hk, _, ?_, rfl⟩, hbyte⟩
  rw [Mmu.write8, htrans]
  rfl

/-- It goes on with a store of the running program to its page. -/
theorem exists_reach_store {ok : Kernel × State → VideoOp ⊕ Event → Prop}
    (h : (machineLTS m L).Reach ok (k, s)) (hpde : k.progPde = HieUnix.progPde r) (va : Word)
    (hva : 0x8000000 ≤ va.toNat ∧ va.toNat < 0x8400000) (x : Byte) :
    ∃ s', (machineLTS m L).step (k, s) (.inr (.store true va x)) (k, s') ∧
      s'.mmu.mem (progPageAddr r + (va - userProgAddr)) = x := by
  obtain ⟨v, hv⟩ := exists_linked_of_reach h
  apply hv.exists_store
  rw [View.translate, if_pos hva, hv.prog_eq hpde]
  rfl

/-- A program that the first shell has executed stores a byte and calls `vidmap`, and is in the
background after a switch and a tick. The tables have its page and no video memory then, and the
next tick can be taken on them. -/
theorem entries_of_reach_sample : ∃ s, (machineLTS sampleMachine sampleLayout).Reach LTS.always
      (sampleBehind, s) ∧
    settled (entry s.mmu.mem 0x401000 32) = 0xC00097 ∧
    settled (entry s.mmu.mem 0x405000 0) = 0xBC007 ∧
    ∃ p', (machineLTS sampleMachine sampleLayout).step (sampleBehind, s)
      (.inl (.kernel (.tick (Frame.top 1)))) p' := by
  obtain ⟨s₀, hinit⟩ := exists_sampleInit
  have h0 : (machineLTS sampleMachine sampleLayout).Reach LTS.always (sampleBoot, s₀) := .init hinit
  have hexecute : (videoLTS sampleMachine).step sampleBoot
      (.kernel (.execute (Frame.top 0) (some shell))) sampleLaunched := sampleLaunched_step
  have hpde : sampleLaunched.progPde = HieUnix.progPde (1 : Slot) := by decide
  obtain ⟨s₁, hst₁, -⟩ := exists_reach_step h0 hexecute
  have h1 := h0.step trivial hst₁
  obtain ⟨s₂, hst₂, -⟩ := exists_reach_store h1 hpde 0x8048000 (by decide) 7
  have h2 := h1.step trivial hst₂
  obtain ⟨s₃, hst₃, -⟩ := exists_reach_step h2 sampleDrawing_step
  have h3 := h2.step trivial hst₃
  obtain ⟨s₄, hst₄, -⟩ := exists_reach_step h3 sampleHidden_step
  have h4 := h3.step trivial hst₄
  obtain ⟨s, hst, -⟩ := exists_reach_step h4 sampleBehind_step
  have hs := h4.step trivial hst
  obtain ⟨hprog, -, hvideo, -, hstep⟩ := entries_of_reach hs
  have hprog' : sampleBehind.progPde = 0xC00097 := by decide
  have hvideo' : sampleBehind.videoPte = 0xBC007 := by decide
  refine ⟨s, hs, hprog.trans hprog', hvideo.trans hvideo', ?_⟩
  have hhead : sampleBehind.termCurrPcb 1 = some 2 := by decide
  have hnext : nextTerminal sampleBehind.termCurrPcb 1 = some 1 := by decide
  have hesp : getPcb sampleBehind.esp = some 1 := by decide
  obtain ⟨s', hs'⟩ := hstep (.kernel (.tick (Frame.top 1))) _ ⟨⟨.inl hesp, trivial⟩, _,
    doHandlePit_of_next sampleMachine (sampleBehind.entered (Frame.top 1)) (Frame.top 1) hnext
      hhead⟩
  exact ⟨_, hs'⟩

/-- The program of terminal 0 has stored a byte and the user has switched. The shell of terminal 1
stores at the same address, and a tick comes: the byte of the program has stayed. -/
theorem memory_kept_sample : ∃ p p' : Kernel × State,
    (machineLTS sampleMachine sampleLayout).Reach (ForegroundOp sampleMachine) p ∧
    p.1 = sampleLeft ∧ p.2.mmu.mem 0xC48000 = 7 ∧
    p'.1 = sampleRejoined ∧ p'.2.mmu.mem 0x1048000 = 9 ∧ p'.2.mmu.mem 0xC48000 = 7 := by
  obtain ⟨s₀, hinit⟩ := exists_sampleInit
  have h0 : (machineLTS sampleMachine sampleLayout).Reach (ForegroundOp sampleMachine)
    (sampleBoot, s₀) := .init hinit
  have hexecute : (videoLTS sampleMachine).step sampleBoot
      (.kernel (.execute (Frame.top 0) (some shell))) sampleLaunched := sampleLaunched_step
  have hswitch : (videoLTS sampleMachine).step sampleLaunched
      (.kernel (.switch (Frame.top 1) 1)) sampleLeft := sampleLeft_step
  have htick : (videoLTS sampleMachine).step sampleLeft
      (.kernel (.tick (Frame.top 2))) sampleRejoined := sampleRejoined_step
  have hfg : HieUnix.Foreground sampleMachine sampleBoot (.execute (Frame.top 0) (some shell)) :=
    fun _ => by decide
  have hpde₁ : sampleLaunched.progPde = HieUnix.progPde (1 : Slot) := by decide
  have hpde₂ : sampleLeft.progPde = HieUnix.progPde (2 : Slot) := by decide
  have hin₁ : InProgPage 0xC48000 1 := by
    rw [inProgPage_iff]
    decide
  have hin₂ : InProgPage 0x1048000 2 := by
    rw [inProgPage_iff]
    decide
  have hesp : getPcb sampleLeft.esp ≠ some 1 := by decide
  obtain ⟨s₁, hst₁, -⟩ := exists_reach_step h0 hexecute
  have h1 : (machineLTS sampleMachine sampleLayout).Reach (ForegroundOp sampleMachine)
    (sampleLaunched, s₁) := .step (a := .inl (.kernel (.execute _ _))) h0 hfg hst₁
  obtain ⟨s₂, hst₂, hbyte₂⟩ := exists_reach_store h1 hpde₁ 0x8048000 (by decide) 7
  have h2 : (machineLTS sampleMachine sampleLayout).Reach (ForegroundOp sampleMachine)
    (sampleLaunched, s₂) := .step (a := .inr (.store true _ _)) h1 trivial hst₂
  obtain ⟨s₃, hst₃, hkept₃⟩ := exists_reach_step h2 hswitch
  have h3 : (machineLTS sampleMachine sampleLayout).Reach (ForegroundOp sampleMachine)
    (sampleLeft, s₃) := .step (a := .inl (.kernel (.switch _ _))) h2 trivial hst₃
  have hbyte₃ : s₃.mmu.mem 0xC48000 = 7 := (hkept₃ _ _ hin₁).trans hbyte₂
  -- the program does not run from here on
  obtain ⟨s₄, hst₄, hbyte₄⟩ := exists_reach_store h3 hpde₂ 0x8048000 (by decide) 9
  have hr₄ : ((machineLTS sampleMachine sampleLayout).startAt (sampleLeft, s₃)).Reach
      (fun q o => ForegroundOp sampleMachine q o ∧ getPcb q.1.esp ≠ some 1) (sampleLeft, s₄) :=
    .step (a := .inr (.store true _ _)) (.init rfl) ⟨trivial, hesp⟩ hst₄
  have h4 : (machineLTS sampleMachine sampleLayout).Reach (ForegroundOp sampleMachine)
    (sampleLeft, s₄) := .step (a := .inr (.store true _ _)) h3 trivial hst₄
  obtain ⟨s₅, hst₅, hkept₅⟩ := exists_reach_step h4 htick
  have hr₅ : ((machineLTS sampleMachine sampleLayout).startAt (sampleLeft, s₃)).Reach
      (fun q o => ForegroundOp sampleMachine q o ∧ getPcb q.1.esp ≠ some 1) (sampleRejoined, s₅) :=
    .step (a := .inl (.kernel (.tick _))) hr₄ ⟨trivial, hesp⟩ hst₅
  exact ⟨_, _, h3, rfl, hbyte₃, rfl, (hkept₅ _ _ hin₂).trans hbyte₄,
    (memory_kept h3 hr₅ hin₁).trans hbyte₃⟩

/-- The shell of terminal 0 draws in the background: what it stores is not on the screen. -/
theorem screen_kept_sample : ∃ p p', (machineLTS sampleMachine sampleLayout).step p
      (.inr (.store true 0x8400000 7)) p' ∧ p'.2.mmu.mem 0xBC000 = 7 ∧
    p'.2.mmu.mem 0xB8000 = p.2.mmu.mem 0xB8000 := by
  obtain ⟨s, hinit⟩ := exists_sampleInit
  obtain ⟨v₀, h₀⟩ := linked_init hinit
  have hswitch : (videoLTS sampleMachine).step sampleBoot (.kernel (.switch (Frame.top 0) 1))
      sampleSwitched := sampleSwitched_step
  have htick : (videoLTS sampleMachine).step sampleSwitched (.kernel (.tick (Frame.top 1)))
      sampleTicked := sampleTicked_step
  obtain ⟨s₁, hs₁⟩ := h₀.exists_step hswitch
  obtain ⟨v₁, h₁⟩ := h₀.step hs₁
  obtain ⟨s₂, hs₂⟩ := h₁.exists_step htick
  obtain ⟨v, hv⟩ := h₁.step hs₂
  have hreach : (machineLTS sampleMachine sampleLayout).Reach VideoSafeOp (sampleTicked, s₂) :=
    .step (a := .inl (.kernel (.tick (Frame.top 1))))
      (.step (a := .inl (.kernel (.switch (Frame.top 0) 1))) (.init hinit) trivial hs₁) trivial hs₂
  have hpte : sampleTicked.videoPte = 0xBC007 := by decide
  have hvideo : v.video = some false := by
    have hshows := hv.shows.videoPte.symm.trans hpte
    match hvid : v.video with
    | none =>
      rw [hvid] at hshows
      exact absurd hshows (by decide)
    | some true =>
      rw [hvid] at hshows
      exact absurd hshows (by decide)
    | some false => rfl
  have hpa : v.translate ⟨true, true⟩ 0x8400000 = some 0xBC000 := by
    rw [View.translate, if_neg (by decide), if_pos (by decide), hvideo]
    decide
  obtain ⟨s', hst, hbyte⟩ := hv.exists_store 7 hpa
  have hr : getPcb sampleTicked.esp = some 0 := by decide
  have hterm : (sampleTicked.pcb 0).terminalNumber ≠ sampleTicked.currentActiveTerminal := by decide
  have hback : Background (sampleTicked, s₂) := ⟨0, hr, hterm⟩
  refine ⟨_, _, hst, hbyte, ?_⟩
  exact screen_kept (b := 0xB8000) hreach (.step (a := .inr (.store true 0x8400000 7)) (.init rfl)
    ⟨trivial, hback, fun x he => by cases he⟩ hst) (by decide)

end HieUnix.Page
