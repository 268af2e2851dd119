import HieUnix.PageTables

/-!
# What can be accessed

Runs of the functions of `page.c` with everything that happens between their calls: programs and
the kernel store bytes through the translation, and the processor keeps translations and sets the
accessed and dirty bits whenever it likes. In every state of a run the translation of every access
is a function of the calls made so far (`translate_of_run`): no stale translation is ever used, and
user mode reaches nothing but its own program page and the video page. So the memory of the kernel,
and that of a program whose page is not mapped, is kept (`kept_of_run`).
-/

namespace HieUnix.Page

open Function Paging

/-! ## Runs -/

/-- What happens to the tables and to the memory. -/
inductive Event
  | call (c : Call)
  | store (user : Bool) (va : Word) (x : Byte)
  | fill (p : ℕ)
  | markDirectory (p : ℕ) (bits : Word)
  | markTable (p : ℕ) (bits : Word)
deriving DecidableEq

/-- Runs after `paging_init`. User mode may store anywhere; the kernel's own code stores anywhere
but in the tables. -/
def pageLTS (L : Layout) : LTS State Event where
  init s := ∃ s₀, Boot L s₀ ∧ pagingInit L s₀ = some s
  step s e s' :=
    match e with
    | .call c => c.run L s = some s'
    | .store user va x => (user = false → Outside L va) ∧
        ∃ u, s.mmu.write8 user va x = some u ∧ s' = { s with mmu := u }
    | .fill p => p < 2 ^ 20 ∧ s' = { s with mmu := s.mmu.fill p }
    | .markDirectory p bits => p < 2 ^ 20 ∧ s' = { s with mmu := s.mmu.markDirectory p bits }
    | .markTable p bits => p < 2 ^ 20 ∧ s.mmu.usesTable p = true ∧
        s' = { s with mmu := s.mmu.markTable p bits }

/-- Only calls change what is mapped. -/
def View.event (v : View) : Event → View
  | .call c => v.call c
  | _ => v

/-- What is mapped after the events `es`. -/
def View.after (es : List Event) : View := es.foldl View.event .start

theorem View.after_append_singleton (es : List Event) (e : Event) :
    View.after (es ++ [e]) = (View.after es).event e := by
  rw [View.after, List.foldl_append]
  rfl

variable {L : Layout} {s s' s₀ : State} {v : View} {t b va pa : Word} {i p : ℕ} {a : Access}
  {e : Event} {es es₀ : List Event}

/-! ## Where an access goes -/

/-- The bytes that user mode may have: those of a program page. -/
def InProgPage (b : Word) (i : Slot) : Prop := InSpan b (progPageAddr i) 0x400000

/-- The bytes of the two video pages. -/
def InVideoPage (b : Word) : Prop := InSpan b video 4096 ∨ InSpan b videoBackup 4096

theorem inVideoPage_iff (b : Word) : InVideoPage b ↔
    (0xB8000 ≤ b.toNat ∧ b.toNat < 0xB9000) ∨ (0xBC000 ≤ b.toNat ∧ b.toNat < 0xBD000) := by
  unfold InVideoPage InSpan
  constructor
  · intro h
    bv_omega
  · intro h
    bv_omega

theorem inProgPage_iff (b : Word) (i : Slot) : InProgPage b i ↔
    (2 + i) * 0x400000 ≤ b.toNat ∧ b.toNat < (3 + i) * 0x400000 := by
  have haddr := toNat_progPageAddr i
  have hi := i.isLt
  unfold InProgPage InSpan
  generalize progPageAddr i = x at haddr
  constructor
  · intro h
    bv_omega
  · intro h
    bv_omega

/-- An access goes to the mapped program page, to the page that the video page shows, or is the
kernel's own at the same address. -/
theorem View.translate_cases (h : v.translate a va = some pa) :
    (∃ i, v.prog = some i ∧ InProgPage pa i) ∨
      (∃ setOn, v.video = some setOn ∧ InSpan pa (View.videoPage setOn) 4096) ∨
      (a.user = false ∧ pa = va ∧ va.toNat < 0x800000) := by
  unfold View.translate at h
  split_ifs at h with h1 h2 h3
  · obtain ⟨i, hi, rfl⟩ := Option.map_eq_some_iff.mp h
    refine .inl ⟨i, hi, ?_⟩
    have hsub : progPageAddr i + (va - userProgAddr) - progPageAddr i = va - userProgAddr := by
      rw [BitVec.add_comm, BitVec.add_sub_cancel]
    rw [InProgPage, InSpan, hsub]
    bv_omega
  · obtain ⟨setOn, hv, rfl⟩ := Option.map_eq_some_iff.mp h
    refine .inr (.inl ⟨setOn, hv, ?_⟩)
    have hsub : View.videoPage setOn + (va - videoVirtual) - View.videoPage setOn
        = va - videoVirtual := by
      rw [BitVec.add_comm, BitVec.add_sub_cancel]
    rw [InSpan, hsub]
    bv_omega
  · exact .inr (.inr ⟨h3.1, (Option.some.inj h).symm, h3.2.2⟩)

theorem inVideoPage_of_shown {setOn : Bool} (h : InSpan b (View.videoPage setOn) 4096) :
    InVideoPage b := by
  cases setOn with
  | true => exact .inl h
  | false => exact .inr h

/-- A byte outside the kernel's 4 MB is in none of the tables. -/
theorem outside_of_notInKernel (h : b.toNat < 0x400000 ∨ 0x800000 ≤ b.toNat) : Outside L b := by
  intro t ht hin
  obtain ⟨h1, h2⟩ := L.inKernel t ht
  unfold InSpan at hin
  bv_omega

/-- No store reaches the tables. -/
theorem View.outside_of_translate (h : v.translate a va = some pa)
    (hk : a.user = false → Outside L va) : Outside L pa := by
  obtain ⟨i, -, hin⟩ | ⟨setOn, -, hin⟩ | ⟨ha, rfl, -⟩ := View.translate_cases h
  · rw [inProgPage_iff] at hin
    exact outside_of_notInKernel (.inr (by omega))
  · have hin := inVideoPage_of_shown hin
    rw [inVideoPage_iff] at hin
    exact outside_of_notInKernel (.inl (by omega))
  · exact hk ha

/-! ## Steps -/

/-- The memory may change where the entries of the tables do not. -/
theorem Installed.withMem (h : Installed L s v) (m : Memory)
    (hentry : ∀ t ∈ L.tables, ∀ i < 1024, settled (entry m t i) = settled (entry s.mmu.mem t i)) :
    Installed L { s with mmu := { s.mmu with mem := m } } v := by
  obtain ⟨hpd, hpt, hpv⟩ := L.mem_tables
  have hdir := fun j hj => (hentry _ hpd j hj).trans (h.dir j hj)
  have htable := fun j hj => (hentry _ hpt j hj).trans (h.table j hj)
  have hvid := fun j hj => (hentry _ hpv j hj).trans (h.vid j hj)
  refine ⟨h.cr3, h.enabled, h.pse, h.writeProtect, h.used, hdir, htable, hvid, ?_⟩
  refine h.coherent.congr rfl fun p hp => ?_
  rw [h.walk hp]
  exact walk_eq_mapping (u := { s.mmu with mem := m }) h.cr3 h.pse hdir htable hvid hp

/-- The processor may set its two bits in any entry. -/
theorem Installed.mark (h : Installed L s v) (ht : t ∈ L.tables) (hi : i < 1024) (bits : Word) :
    Installed L { s with mmu := { s.mmu with
      mem := s.mmu.mem.store32 (entryAddr t i) (entry s.mmu.mem t i ||| marks bits) } } v := by
  refine h.withMem _ fun t' ht' j hj => ?_
  have hcases : t' = t ∨ Apart t t' := by
    simp only [Layout.tables, List.mem_cons, List.not_mem_nil, or_false] at ht ht'
    obtain rfl | rfl | rfl := ht <;> obtain rfl | rfl | rfl := ht'
    · exact .inl rfl
    · exact .inr L.apart_dir_table
    · exact .inr L.apart_dir_vid
    · exact .inr L.apart_dir_table.symm
    · exact .inl rfl
    · exact .inr L.apart_table_vid
    · exact .inr L.apart_dir_vid.symm
    · exact .inr L.apart_table_vid.symm
    · exact .inl rfl
  obtain rfl | hapart := hcases
  · rw [settled_entry_store32 _ _ _ hi hj, settled_or_marks]
    split_ifs with hji
    · rw [hji]
    · rfl
  · rw [entry_store32_of_apart _ _ hapart hi hj]

/-- A translation that goes through a table goes through one of ours. -/
theorem Installed.tableOf_mem (h : Installed L s v) (hp : p < 2 ^ 20)
    (huse : s.mmu.usesTable p = true) :
    tableOf (entry s.mmu.mem L.pageDirectory (p / 1024)) ∈ L.tables := by
  obtain ⟨hpd, hpt, hpv⟩ := L.mem_tables
  have hdir := h.dir (p / 1024) (by omega)
  rw [Mmu.usesTable, h.cr3, Layout.tableOf_eq hpd, h.pse, ← present_settled, ← large_settled,
    hdir] at huse
  rw [← tableOf_settled, hdir]
  unfold View.dirEntry at huse ⊢
  split_ifs at huse ⊢ with h0 h1 h32 h33
  · rw [(flags_of_table (L.aligned _ hpt) 0x3 (by decide)).2.2.2.2]
    exact hpt
  · exact absurd huse (by decide)
  · cases hprog : v.prog with
    | none =>
      rw [hprog, Option.map_none, Option.getD_none] at huse
      exact absurd huse (by decide)
    | some j =>
      obtain ⟨hpresent, hlarge⟩ := flags_progPde j
      rw [hprog, Option.map_some, Option.getD_some, hpresent, hlarge] at huse
      exact absurd huse (by decide)
  · cases hvideo : v.video with
    | none =>
      rw [hvideo, Option.map_none, Option.getD_none] at huse
      exact absurd huse (by decide)
    | some setOn =>
      rw [Option.map_some, Option.getD_some,
        (flags_of_table (L.aligned _ hpv) 0x7 (by decide)).2.2.2.2]
      exact hpv
  · exact absurd huse (by decide)

/-- **Step.** Every event keeps the tables as the calls say. -/
theorem Installed.step (h : Installed L s v) (hst : (pageLTS L).step s e s') :
    Installed L s' (v.event e) := by
  obtain ⟨hpd, -, -⟩ := L.mem_tables
  have hcr3 : tableOf s.mmu.cr3 = L.pageDirectory := by rw [h.cr3, Layout.tableOf_eq hpd]
  cases e with
  | call c =>
    obtain ⟨s'', hs, hI, -⟩ := Call.run_installed h c
    obtain rfl : s'' = s' := Option.some.inj (hs.symm.trans hst)
    exact hI
  | store user va x =>
    obtain ⟨hk, u, hu, rfl⟩ := hst
    obtain ⟨pa, hpa, rfl⟩ := Option.map_eq_some_iff.mp hu
    rw [h.translate] at hpa
    have hout : Outside L pa := View.outside_of_translate hpa hk
    refine h.withMem _ fun t ht i hi => congrArg settled (entry_congr hi fun b hb => ?_)
    apply Memory.store8_of_ne
    rintro rfl
    exact hout t ht hb
  | fill p =>
    obtain ⟨-, rfl⟩ := hst
    exact { h with coherent := h.coherent.fill p }
  | markDirectory p bits =>
    obtain ⟨hp, rfl⟩ := hst
    rw [Mmu.markDirectory, hcr3]
    exact h.mark (i := p / 1024) hpd (by omega) bits
  | markTable p bits =>
    obtain ⟨hp, huse, rfl⟩ := hst
    rw [Mmu.markTable, hcr3]
    exact h.mark (i := p % 1024) (h.tableOf_mem hp huse) (by omega) bits

theorem installed_of_run (h : Installed L s₀ (.after es₀)) (hr : (pageLTS L).Run s₀ es s) :
    Installed L s (.after (es₀ ++ es)) := by
  induction hr generalizing es₀ with
  | nil => rwa [List.append_nil]
  | cons hst _ ih =>
    rw [List.append_cons]
    apply ih
    rw [View.after_append_singleton]
    exact h.step hst

theorem installed_of_init (h : (pageLTS L).init s) : Installed L s (.after []) := by
  obtain ⟨s₀, hboot, hs⟩ := h
  obtain ⟨s', hs', hI⟩ := pagingInit_installed hboot
  obtain rfl : s' = s := Option.some.inj (hs'.symm.trans hs)
  exact hI

/-- **Translations.** In every state of a run, whatever was stored, kept in the buffer or marked
by the processor, every access is translated as the calls made so far say, and each call can be
made without a page fault. -/
theorem translate_of_run (h : (pageLTS L).init s₀) (hr : (pageLTS L).Run s₀ es s) :
    (∀ a va, s.mmu.translate a va = (View.after es).translate a va) ∧
      ∀ c : Call, (c.run L s).isSome := by
  have hI := installed_of_run (installed_of_init h) hr
  refine ⟨hI.translate, fun c => ?_⟩
  obtain ⟨s', hs', -⟩ := Call.run_installed hI c
  rw [hs']
  rfl

/-- A kernel with its tables after the code. -/
def sampleLayout : Layout where
  pageDirectory := 0x401000
  pageTable := 0x402000
  ptVid1 := 0x405000
  aligned := by simp
  inKernel := by simp
  apart := by
    have h12 : Apart 0x401000 0x402000 := by constructor <;> decide
    have h13 : Apart 0x401000 0x405000 := by constructor <;> decide
    have h23 : Apart 0x402000 0x405000 := by constructor <;> decide
    simp only [List.pairwise_cons, List.forall_mem_cons]
    exact ⟨⟨h12, h13, by simp⟩, ⟨h23, by simp⟩, by simp⟩

/-- Memory that is all zero, with paging off. -/
def sampleState : State := ⟨⟨fun _ => 0, 0, 0, 0, fun _ => none⟩, fun _ => false⟩

theorem boot_sampleState : Boot sampleLayout sampleState :=
  ⟨by decide, by decide, fun _ _ _ _ =>
    (by decide : (0 : Byte) ++ (0 : Byte) ++ (0 : Byte) ++ (0 : Byte) = (0 : Word))⟩

/-- After a program has got a page and a terminal was switched off the screen, the program reaches
both pages and nothing of the kernel. -/
theorem translate_of_run_sample : ∃ s₀ s, (pageLTS sampleLayout).init s₀ ∧
    (pageLTS sampleLayout).Run s₀ [.call .addProgPage, .fill 0x8048, .call (.setVideoPage false)] s ∧
    s.mmu.translate ⟨true, true⟩ 0x8048010 = some 0x848010 ∧
    s.mmu.translate ⟨true, false⟩ 0x8400002 = some 0xBC002 ∧
    s.mmu.translate ⟨true, false⟩ 0x401000 = none := by
  obtain ⟨s₀, hs₀, h0⟩ := pagingInit_installed boot_sampleState
  obtain ⟨s₁, hs₁, h1, -⟩ := Call.run_installed h0 .addProgPage
  have hfill : (pageLTS sampleLayout).step s₁ (.fill 0x8048)
      { s₁ with mmu := s₁.mmu.fill 0x8048 } := ⟨by decide, rfl⟩
  have h1' := h1.step hfill
  obtain ⟨s₂, hs₂, -⟩ := Call.run_installed h1' (.setVideoPage false)
  have hinit : (pageLTS sampleLayout).init s₀ := ⟨_, boot_sampleState, hs₀⟩
  have hrun : (pageLTS sampleLayout).Run s₀
      [.call .addProgPage, .fill 0x8048, .call (.setVideoPage false)] s₂ :=
    .cons hs₁ (.cons ⟨by decide, rfl⟩ (.cons hs₂ (.nil _)))
  obtain ⟨htrans, -⟩ := translate_of_run hinit hrun
  refine ⟨s₀, s₂, hinit, hrun, ?_, ?_, ?_⟩
  · rw [htrans]
    decide
  · rw [htrans]
    decide
  · rw [htrans]
    decide

/-! ## What is kept -/

/-- A step changes a byte outside the tables only if the page it lies in is mapped, or if the
kernel stores it. -/
theorem Installed.kept (h : Installed L s v) (hst : (pageLTS L).step s e s') (hout : Outside L b)
    (hvideo : ∀ setOn, InSpan b (View.videoPage setOn) 4096 → v.video ≠ some setOn)
    (hprog : ∀ i, InProgPage b i → v.prog ≠ some i)
    (hk : b.toNat < 0x800000 → ∀ x, e ≠ .store false b x) : s'.mmu.mem b = s.mmu.mem b := by
  obtain ⟨hpd, -, -⟩ := L.mem_tables
  have hcr3 : tableOf s.mmu.cr3 = L.pageDirectory := by rw [h.cr3, Layout.tableOf_eq hpd]
  cases e with
  | call c =>
    obtain ⟨s'', hs, -, hkept⟩ := Call.run_installed h c
    obtain rfl : s'' = s' := Option.some.inj (hs.symm.trans hst)
    exact hkept b hout
  | store user va x =>
    obtain ⟨-, u, hu, rfl⟩ := hst
    obtain ⟨pa, hpa, rfl⟩ := Option.map_eq_some_iff.mp hu
    rw [h.translate] at hpa
    apply Memory.store8_of_ne
    rintro rfl
    obtain ⟨i, hi, hin⟩ | ⟨setOn, hv, hin⟩ | ⟨huser, rfl, hlow⟩ := View.translate_cases hpa
    · exact hprog i hin hi
    · exact hvideo setOn hin hv
    · obtain rfl : user = false := huser
      exact hk hlow x rfl
  | fill p =>
    obtain ⟨-, rfl⟩ := hst
    rfl
  | markDirectory p bits =>
    obtain ⟨hp, rfl⟩ := hst
    rw [Mmu.markDirectory, hcr3]
    exact store32_entryAddr_of_not_inSpan _ _ _ (by omega) (hout _ hpd)
  | markTable p bits =>
    obtain ⟨hp, huse, rfl⟩ := hst
    rw [Mmu.markTable, hcr3]
    exact store32_entryAddr_of_not_inSpan _ _ _ (by omega) (hout _ (h.tableOf_mem hp huse))

theorem kept_of_installed (h : Installed L s (.after es₀)) (hr : (pageLTS L).Run s es s')
    (hout : Outside L b) (hvideo : ¬ InVideoPage b)
    (hprog : ∀ i, InProgPage b i → ∀ es₁, es₁ <+: es → (View.after (es₀ ++ es₁)).prog ≠ some i)
    (hk : b.toNat < 0x800000 → ∀ x, Event.store false b x ∉ es) :
    s'.mmu.mem b = s.mmu.mem b := by
  induction hr generalizing es₀ with
  | nil => rfl
  | @cons s s₁ s' e es hst hr ih =>
    have hstep : s₁.mmu.mem b = s.mmu.mem b := by
      refine h.kept hst hout (fun _ hin _ => hvideo (inVideoPage_of_shown hin)) (fun i hi => ?_)
        fun hlow x he => hk hlow x (he ▸ List.mem_cons_self)
      have hmap := hprog i hi [] List.nil_prefix
      rwa [List.append_nil] at hmap
    have hI : Installed L s₁ (.after (es₀ ++ [e])) := by
      rw [View.after_append_singleton]
      exact h.step hst
    rw [← hstep]
    refine ih hI (fun i hi es₁ hes₁ => ?_) fun hlow x hx =>
      hk hlow x (List.mem_cons_of_mem _ hx)
    have hmap := hprog i hi (e :: es₁) (List.cons_prefix_cons.mpr ⟨rfl, hes₁⟩)
    rwa [List.append_cons] at hmap

/-- **Protection.** Whatever programs store during a run, a byte of the physical memory outside the
tables and the two video pages keeps its value, unless the kernel itself stores it or the program
page it lies in is mapped at some time in the run. -/
theorem kept_of_run (h : (pageLTS L).init s₀) (hr₀ : (pageLTS L).Run s₀ es₀ s)
    (hr : (pageLTS L).Run s es s') (hout : Outside L b) (hvideo : ¬ InVideoPage b)
    (hprog : ∀ i, InProgPage b i → ∀ es₁, es₁ <+: es → (View.after (es₀ ++ es₁)).prog ≠ some i)
    (hk : b.toNat < 0x800000 → ∀ x, Event.store false b x ∉ es) :
    s'.mmu.mem b = s.mmu.mem b :=
  kept_of_installed (installed_of_run (installed_of_init h) hr₀) hr hout hvideo hprog hk

/-- The program in page 0 stores a byte; the page of slot 1 is as before. -/
theorem kept_of_run_sample : ∃ s₀ s s', (pageLTS sampleLayout).init s₀ ∧
    (pageLTS sampleLayout).Run s₀ [.call .addProgPage] s ∧
    (pageLTS sampleLayout).Run s [.store true 0x8048000 7] s' ∧
    s'.mmu.mem 0x848000 = 7 ∧ s'.mmu.mem 0xC48000 = s.mmu.mem 0xC48000 := by
  obtain ⟨s₀, hs₀, h0⟩ := pagingInit_installed boot_sampleState
  obtain ⟨s₁, hs₁, h1, -⟩ := Call.run_installed h0 .addProgPage
  have htrans : s₁.mmu.translate ⟨true, true⟩ 0x8048000 = some 0x848000 := by
    rw [h1.translate]
    decide
  have hinit : (pageLTS sampleLayout).init s₀ := ⟨_, boot_sampleState, hs₀⟩
  have hrun₀ : (pageLTS sampleLayout).Run s₀ [.call .addProgPage] s₁ := .cons hs₁ (.nil _)
  have hrun : (pageLTS sampleLayout).Run s₁ [.store true 0x8048000 7]
      { s₁ with mmu := { s₁.mmu with mem := s₁.mmu.mem.store8 0x848000 7 } } :=
    .cons ⟨fun h => Bool.noConfusion h, _, by rw [Mmu.write8, htrans]; rfl, rfl⟩ (.nil _)
  have hbyte : s₁.mmu.mem.store8 0x848000 7 0x848000 = 7 := Memory.store8_self _ _ _
  refine ⟨s₀, s₁, _, hinit, hrun₀, hrun, hbyte, ?_⟩
  refine kept_of_run hinit hrun₀ hrun (outside_of_notInKernel (.inr (by decide))) ?_ ?_ ?_
  · rw [inVideoPage_iff]
    decide
  · intro i hi es₁ hes₁
    -- the byte is in page 1, and page 0 is mapped all the time
    have h1 : i = 1 := by
      rw [inProgPage_iff] at hi
      have hlt := i.isLt
      have hval : (0xC48000 : Word).toNat = 0xC48000 := by decide
      rw [hval] at hi
      exact Fin.ext (by show i.val = 1; omega)
    subst h1
    obtain ⟨es₂, hes₂⟩ := hes₁
    match es₁ with
    | [] => decide
    | [e] =>
      obtain rfl : e = .store true 0x8048000 7 := (List.cons.inj hes₂).1
      decide
    | e :: e' :: es₃ => cases hes₂
  · intro _ x hx
    rw [List.mem_singleton] at hx
    cases hx

end HieUnix.Page
