import HieUnix.Lib.Paging
import HieUnix.Process

/-!
# The page tables (`page.c`)

The functions of `page.c` on the words of `page_directory`, `page_table` and `pt_vid1`, which lie in
the physical memory that the processor walks. The kernel writes them through the translation that
they give. What a run of these functions has mapped is a `View`: which program page is mapped at
128 MB, and whether the video page shows the screen or the backup. `Installed L s v` says that the
words of `s` are those of the view `v`, but for the bits that the processor sets, and that no stale
translation is kept; each function keeps it (`Call.run_installed`), and it gives every translation
(`Installed.translate`).
-/

namespace HieUnix.Page

open Function Paging

/-! ## Constants -/

/-- `PRESENT`. -/
abbrev present : Word := 0x1
/-- `READ_WRITE`. -/
abbrev readWrite : Word := 0x2
/-- `USER_SUPER`. -/
abbrev userSuper : Word := 0x4
/-- `_4MB_PAGE`. -/
abbrev page4MB : Word := 0x80
/-- `KERNEL_ADR`. -/
abbrev kernelAdr : Word := 0x400000
/-- `PAGE_SIZE`. -/
abbrev pageSize : Word := 4096
/-- `PROG_PD_ENTRY`. -/
abbrev progPdEntry : ℕ := 32
/-- `VIDEO`. -/
abbrev video : Word := 0xB8000
/-- `VIDEO_BACKUP`. -/
abbrev videoBackup : Word := 0xBC000
/-- `VIDEO_VIRTUAL`. -/
abbrev videoVirtual : Word := 0x8400000
/-- `pt_mask`. -/
abbrev ptMask : Word := 0xFFFFF000

/-! ## State -/

/-- Where the linker puts the three tables: in the kernel's 4 MB, aligned to pages. -/
structure Layout where
  pageDirectory : Word
  pageTable : Word
  ptVid1 : Word
  aligned : ∀ t ∈ [pageDirectory, pageTable, ptVid1], t &&& 0xFFFFF000 = t
  inKernel : ∀ t ∈ [pageDirectory, pageTable, ptVid1],
    0x400000 ≤ t.toNat ∧ t.toNat + 4096 ≤ 0x800000
  apart : [pageDirectory, pageTable, ptVid1].Pairwise Apart

/-- The three tables. -/
def Layout.tables (L : Layout) : List Word := [L.pageDirectory, L.pageTable, L.ptVid1]

/-- The processor's unit and `prog_used_page`. -/
structure State where
  mmu : Mmu
  progUsedPage : Slot → Bool

/-- `table[i] = v`. -/
def setEntry (s : Mmu) (table : Word) (i : ℕ) (v : Word) : Option Mmu :=
  s.write32 (entryAddr table i) v

/-- `table[i] |= v`. -/
def orEntry (s : Mmu) (table : Word) (i : ℕ) (v : Word) : Option Mmu :=
  (s.read32 (entryAddr table i)).bind fun e => s.write32 (entryAddr table i) (e ||| v)

/-! ## `paging_init` -/

/-- The loop of `paging_init` over `page_table`: `n` entries from `i` on. -/
def initLoop (L : Layout) : ℕ → ℕ → Word → Mmu → Option Mmu
  | 0, _, _, s => some s
  | n + 1, i, address, s =>
    (setEntry s L.pageTable i (address ||| userSuper ||| readWrite ||| present)).bind
      (initLoop L n (i + 1) (address + pageSize))

/-- `paging_init`. `none` is a page fault, here and below. -/
def pagingInit (L : Layout) (s : State) : Option State := do
  let u ← setEntry s.mmu L.pageTable 0 (userSuper ||| readWrite)
  let u ← initLoop L 1023 1 pageSize u
  let u ← setEntry u L.pageDirectory 0 L.pageTable
  let u ← orEntry u L.pageDirectory 0 (readWrite ||| present)
  let u ← setEntry u L.pageDirectory 1 (kernelAdr ||| page4MB ||| present)
  let u := u.movCr3 L.pageDirectory
  let u := u.movCr4 (u.cr4 ||| 0x10)
  some ⟨u.movCr0 (u.cr0 ||| 0x80000000), fun _ => false⟩

/-! ## The pages of programs -/

/-- `add_prog_page`: the index it returns, `none` for `-1`. -/
def addProgPage (L : Layout) (s : State) : Option (Option Slot × State) :=
  match firstFree s.progUsedPage with
  | none => some (none, s)
  | some i =>
    (setEntry s.mmu L.pageDirectory progPdEntry (progPde i)).map fun u =>
      (some i, ⟨u.movCr3 L.pageDirectory, update s.progUsedPage i true⟩)

/-- `set_prog_page`. -/
def setProgPage (L : Layout) (idx : ℕ) (s : State) : Option State :=
  if h : idx < maxNumProg then
    (setEntry s.mmu L.pageDirectory progPdEntry (progPde idx)).map fun u =>
      ⟨u.movCr3 L.pageDirectory, update s.progUsedPage ⟨idx, h⟩ true⟩
  else some s

/-- `free_prog_page`. -/
def freeProgPage (L : Layout) (idx : ℕ) (s : State) : Option State :=
  if h : idx < maxNumProg then
    (setEntry s.mmu L.pageDirectory progPdEntry 0).map fun u =>
      ⟨u.movCr3 L.pageDirectory, update s.progUsedPage ⟨idx, h⟩ false⟩
  else some s

/-! ## The video page -/

/-- The index of an address in the directory: `vir >> 22`. -/
def pdIdx (vir : Word) : ℕ := (vir >>> 22).toNat

/-- The index of an address in its table: `(vir >> 12) & 0x3FF`. -/
def ptIdx (vir : Word) : ℕ := (vir >>> 12 &&& 0x3FF).toNat

/-- `add_new_pt`. -/
def addNewPt (L : Layout) (vir physical : Word) (s : State) : Option State := do
  let u ← setEntry s.mmu L.pageDirectory (pdIdx vir) L.ptVid1
  let u ← orEntry u L.pageDirectory (pdIdx vir) (userSuper ||| readWrite ||| present)
  let u ← setEntry u L.ptVid1 (ptIdx vir) ((physical &&& ptMask) ||| 7)
  some { s with mmu := u.movCr3 L.pageDirectory }

/-- `set_video_page`. -/
def setVideoPage (L : Layout) (setOn : Bool) (s : State) : Option State := do
  let u ← setEntry s.mmu L.pageDirectory (pdIdx videoVirtual) L.ptVid1
  let u ← orEntry u L.pageDirectory (pdIdx videoVirtual) (userSuper ||| readWrite ||| present)
  let page := if setOn then video else videoBackup
  let u ← setEntry u L.ptVid1 (ptIdx videoVirtual)
    ((page &&& ptMask) ||| userSuper ||| readWrite ||| present)
  some { s with mmu := u.movCr3 L.pageDirectory }

/-- The calls the rest of the kernel makes; `vidmap` is the only caller of `add_new_pt`. -/
inductive Call
  | addProgPage
  | setProgPage (idx : ℕ)
  | freeProgPage (idx : ℕ)
  | setVideoPage (setOn : Bool)
  | addVideoPt
deriving DecidableEq, Repr

/-- The effect of a call. -/
def Call.run (L : Layout) (s : State) : Call → Option State
  | .addProgPage => (Page.addProgPage L s).map Prod.snd
  | .setProgPage idx => Page.setProgPage L idx s
  | .freeProgPage idx => Page.freeProgPage L idx s
  | .setVideoPage setOn => Page.setVideoPage L setOn s
  | .addVideoPt => Page.addNewPt L videoAssignedMemAddr video s

/-! ## What is mapped -/

/-- What the calls have mapped: the program page at 128 MB, the screen (`true`) or the backup at
132 MB, and the pages in use. -/
structure View where
  prog : Option Slot
  video : Option Bool
  used : Slot → Bool

namespace View

/-- After `paging_init`. -/
def start : View := ⟨none, none, fun _ => false⟩

/-- What a call maps. -/
def call (v : View) : Call → View
  | .addProgPage =>
    match firstFree v.used with
    | none => v
    | some i => { v with prog := some i, used := update v.used i true }
  | .setProgPage idx =>
    if h : idx < maxNumProg then
      { v with prog := some ⟨idx, h⟩, used := update v.used ⟨idx, h⟩ true }
    else v
  | .freeProgPage idx =>
    if h : idx < maxNumProg then { v with prog := none, used := update v.used ⟨idx, h⟩ false }
    else v
  | .setVideoPage setOn => { v with video := some setOn }
  | .addVideoPt => { v with video := some true }

/-- The page that the video page shows. -/
def videoPage (setOn : Bool) : Word := if setOn then Page.video else videoBackup

/-- The physical address of an access. The first 8 MB but the first page are the kernel's own;
user mode has its program page and the video page. -/
def translate (v : View) (a : Access) (va : Word) : Option Word :=
  if 0x8000000 ≤ va.toNat ∧ va.toNat < 0x8400000 then
    v.prog.map fun i : Slot => progPageAddr i + (va - userProgAddr)
  else if 0x8400000 ≤ va.toNat ∧ va.toNat < 0x8401000 then
    v.video.map fun setOn => videoPage setOn + (va - videoVirtual)
  else if a.user = false ∧ 0x1000 ≤ va.toNat ∧ va.toNat < 0x800000 then some va
  else none

/-- The entries of `page_directory`. -/
def dirEntry (L : Layout) (v : View) (i : ℕ) : Word :=
  if i = 0 then L.pageTable ||| 0x3
  else if i = 1 then 0x400081
  else if i = 32 then (v.prog.map fun j : Slot => progPde j).getD 0
  else if i = 33 then (v.video.map fun _ => L.ptVid1 ||| 0x7).getD 0
  else 0

/-- The entries of `page_table`. -/
def tableEntry (i : ℕ) : Word := if i = 0 then 0x6 else BitVec.ofNat 32 (4096 * i) ||| 0x7

/-- The entries of `pt_vid1`. -/
def videoEntry (v : View) (i : ℕ) : Word :=
  if i = 0 then (v.video.map fun setOn => videoPage setOn ||| 0x7).getD 0 else 0

/-- The mapping of a page. -/
def mapping (v : View) (p : ℕ) : Option Mapping :=
  if p / 1024 = 0 then if p = 0 then none else some ⟨p, false, true⟩
  else if p / 1024 = 1 then some ⟨p, false, false⟩
  else if p / 1024 = 32 then v.prog.map fun i : Slot => ⟨(2 + i) * 1024 + p % 1024, true, true⟩
  else if p / 1024 = 33 ∧ p % 1024 = 0 then
    v.video.map fun setOn => ⟨(videoPage setOn).toNat / 4096, true, true⟩
  else none

end View

variable {L : Layout} {s s' : Mmu} {v : View} {t w : Word} {i j p : ℕ}

/-! ## Layout -/

theorem Layout.mem_tables : L.pageDirectory ∈ L.tables ∧ L.pageTable ∈ L.tables ∧
    L.ptVid1 ∈ L.tables := by
  simp [Layout.tables]

/-- An entry of a table is in the kernel's 4 MB. -/
theorem Layout.entryAddr_inKernel (ht : t ∈ L.tables) (hi : i < 1024) :
    0x400000 ≤ (entryAddr t i).toNat ∧ (entryAddr t i).toNat < 0x800000 := by
  obtain ⟨h1, h2⟩ := L.inKernel t ht
  have hoff := toNat_offset hi
  rw [entryAddr, BitVec.toNat_add, hoff]
  omega

theorem Layout.apart_dir_table : Apart L.pageDirectory L.pageTable :=
  List.rel_of_pairwise_cons L.apart (by simp)

theorem Layout.apart_dir_vid : Apart L.pageDirectory L.ptVid1 :=
  List.rel_of_pairwise_cons L.apart (by simp)

theorem Layout.apart_table_vid : Apart L.pageTable L.ptVid1 :=
  List.rel_of_pairwise_cons (List.Pairwise.of_cons L.apart) (by simp)

/-! ## The entries of a view -/

/-- The flags of an entry that leads to a table. -/
theorem flags_of_table (ht : t &&& 0xFFFFF000 = t) (f : Word) (hf : f &&& 0xFFFFF000 = 0) :
    Paging.present (t ||| f) = Paging.present f ∧ large (t ||| f) = large f ∧
      forUser (t ||| f) = forUser f ∧ writable (t ||| f) = writable f ∧ tableOf (t ||| f) = t :=
  ⟨getLsbD_or_flags ht (by decide), getLsbD_or_flags ht (by decide),
    getLsbD_or_flags ht (by decide), getLsbD_or_flags ht (by decide), tableOf_or_flags ht hf⟩

theorem settled_progPde : ∀ i : Slot, settled (progPde i) = progPde i := by decide

theorem largeMapping_progPde (i : Slot) (p : ℕ) :
    largeMapping (progPde i) p = ⟨(2 + i) * 1024 + p % 1024, true, true⟩ := by
  have hframe : ∀ i : Slot, (progPde i).toNat / 2 ^ 22 = 2 + i.val := by decide
  have huser : ∀ i : Slot, forUser (progPde i) = true := by decide
  have hwrite : ∀ i : Slot, writable (progPde i) = true := by decide
  rw [largeMapping, hframe, huser, hwrite]

theorem flags_progPde : ∀ i : Slot, Paging.present (progPde i) = true ∧ large (progPde i) = true := by
  decide

/-- The entry of an identity page of the first table. -/
theorem smallMapping_tableEntry (pde : Word) (hi : i ≠ 0) (hlt : i < 1024) :
    Paging.present (View.tableEntry i) = true ∧
      smallMapping pde (View.tableEntry i) = ⟨i, forUser pde, writable pde⟩ := by
  have hbase := page_and_mask i
  have hframe : (BitVec.ofNat 32 (4096 * i) ||| 0x7).toNat / 2 ^ 12 = i := by
    rw [frame_or_flags (by decide), BitVec.toNat_ofNat]
    omega
  have huser : forUser (BitVec.ofNat 32 (4096 * i) ||| 0x7) = true :=
    getLsbD_or_flags hbase (by decide)
  have hwrite : writable (BitVec.ofNat 32 (4096 * i) ||| 0x7) = true :=
    getLsbD_or_flags hbase (by decide)
  rw [View.tableEntry, if_neg hi]
  refine ⟨getLsbD_or_flags hbase (by decide), ?_⟩
  rw [smallMapping, hframe, huser, hwrite, Bool.and_true, Bool.and_true]

/-- The entry of the video page. -/
theorem smallMapping_videoEntry (pde : Word) (setOn : Bool) :
    Paging.present (View.videoPage setOn ||| 0x7) = true ∧
      smallMapping pde (View.videoPage setOn ||| 0x7)
        = ⟨(View.videoPage setOn).toNat / 4096, forUser pde, writable pde⟩ := by
  have hbits : ∀ b : Bool, Paging.present (View.videoPage b ||| 0x7) = true ∧
      (View.videoPage b ||| 0x7).toNat / 2 ^ 12 = (View.videoPage b).toNat / 4096 ∧
      forUser (View.videoPage b ||| 0x7) = true ∧ writable (View.videoPage b ||| 0x7) = true := by
    decide
  obtain ⟨hpresent, hframe, huser, hwrite⟩ := hbits setOn
  refine ⟨hpresent, ?_⟩
  rw [smallMapping, hframe, huser, hwrite, Bool.and_true, Bool.and_true]

/-! ## The invariant -/

/-- The words of `s` are those of the view `v`, and the processor uses them. -/
structure Installed (L : Layout) (s : State) (v : View) : Prop where
  cr3 : s.mmu.cr3 = L.pageDirectory
  enabled : s.mmu.enabled = true
  pse : s.mmu.pse = true
  writeProtect : s.mmu.writeProtect = false
  used : s.progUsedPage = v.used
  dir : ∀ i < 1024, settled (entry s.mmu.mem L.pageDirectory i) = v.dirEntry L i
  table : ∀ i < 1024, settled (entry s.mmu.mem L.pageTable i) = View.tableEntry i
  vid : ∀ i < 1024, settled (entry s.mmu.mem L.ptVid1 i) = v.videoEntry i
  coherent : s.mmu.Coherent

theorem Layout.tableOf_eq (ht : t ∈ L.tables) : tableOf t = t := L.aligned t ht

/-- The walk of a page gives its mapping in the view. -/
theorem walk_eq_mapping {u : Mmu} (hcr3 : u.cr3 = L.pageDirectory) (hpse : u.pse = true)
    (hdir : ∀ i < 1024, settled (entry u.mem L.pageDirectory i) = v.dirEntry L i)
    (htable : ∀ i < 1024, settled (entry u.mem L.pageTable i) = View.tableEntry i)
    (hvid : ∀ i < 1024, settled (entry u.mem L.ptVid1 i) = v.videoEntry i)
    (hp : p < 2 ^ 20) : u.walk p = v.mapping p := by
  obtain ⟨hpd, hpt, hpv⟩ := L.mem_tables
  have hd : p / 1024 < 1024 := by omega
  have hm : p % 1024 < 1024 := by omega
  rw [Mmu.walk, hcr3, Layout.tableOf_eq hpd, walk_eq_of_settled (hdir _ hd), hpse, View.mapping,
    View.dirEntry]
  by_cases h0 : p / 1024 = 0
  · -- the first 4 MB: `page_table`, which user mode cannot go through
    obtain ⟨hpresent, hlarge, huser, hwrite, htab⟩ :=
      flags_of_table (L.aligned _ hpt) 0x3 (by decide)
    have hp' : p % 1024 = p := by omega
    rw [if_pos h0, if_pos h0, hpresent, hlarge, htab, htable _ hm, hp']
    by_cases hz : p = 0
    · rw [if_pos hz, hz]
      rfl
    · obtain ⟨hpte, hmap⟩ := smallMapping_tableEntry (L.pageTable ||| 0x3) hz (by omega)
      rw [if_neg hz]
      simp only [hpte, hmap, huser, hwrite]
      rfl
  rw [if_neg h0, if_neg h0]
  -- the kernel page of 4 MB
  by_cases h1 : p / 1024 = 1
  · have hframe : largeMapping 0x400081 p = ⟨p, false, false⟩ := by
      show Mapping.mk (1 * 1024 + p % 1024) _ _ = _
      rw [show 1 * 1024 + p % 1024 = p by omega]
      rfl
    rw [if_pos h1, if_pos h1, hframe]
    rfl
  rw [if_neg h1, if_neg h1]
  -- the page of the running program
  by_cases h32 : p / 1024 = 32
  · rw [if_pos h32, if_pos h32]
    cases v.prog with
    | none => rfl
    | some i =>
      obtain ⟨hpresent, hlarge⟩ := flags_progPde i
      simp only [Option.map_some, Option.getD_some, hpresent, hlarge, largeMapping_progPde,
        Bool.and_true, if_true]
  rw [if_neg h32, if_neg h32]
  -- the video page, the first entry of its table
  by_cases h33 : p / 1024 = 33
  · rw [if_pos h33]
    have hvid' := hvid _ hm
    rw [View.videoEntry] at hvid'
    cases hv : v.video with
    | none => simp [Paging.present]
    | some setOn =>
      obtain ⟨hpresent, hlarge, huser, hwrite, htab⟩ :=
        flags_of_table (L.aligned _ hpv) 0x7 (by decide)
      rw [hv, Option.map_some, Option.getD_some] at hvid'
      rw [Option.map_some, Option.getD_some, hpresent, hlarge, htab, hvid']
      by_cases hz : p % 1024 = 0
      · obtain ⟨hpte, hmap⟩ := smallMapping_videoEntry (L.ptVid1 ||| 0x7) setOn
        rw [if_pos hz]
        simp only [hpte, hmap, huser, hwrite, h33, hz, Option.map_some]
        rfl
      · rw [if_neg hz, if_neg (c := p / 1024 = 33 ∧ p % 1024 = 0) fun h => hz h.2]
        rfl
  · rw [if_neg h33, if_neg (c := p / 1024 = 33 ∧ p % 1024 = 0) fun h => h33 h.1]
    rfl

theorem Installed.walk {s : State} (h : Installed L s v) (hp : p < 2 ^ 20) :
    s.mmu.walk p = v.mapping p :=
  walk_eq_mapping h.cr3 h.pse h.dir h.table h.vid hp

/-! ## Translations -/

theorem allows_kernel {a : Access} (ha : a.user = false) (x : Mapping) :
    x.allows false a = true := by
  simp [Mapping.allows, ha]

theorem allows_shared (a : Access) (wp : Bool) (f : ℕ) : Mapping.allows wp a ⟨f, true, true⟩ := by
  simp [Mapping.allows]

theorem allows_user {a : Access} (ha : a.user = true) (wp w : Bool) (f : ℕ) :
    Mapping.allows wp a ⟨f, false, w⟩ = false := by
  simp [Mapping.allows, ha]

theorem toNat_progPageAddr : ∀ i : Slot, (progPageAddr i).toNat = (2 + i) * 0x400000 := by decide

/-- The address in a program page by its frame. -/
theorem progPageAddr_add (i : Slot) (va : Word) (h1 : 0x8000000 ≤ va.toNat)
    (h2 : va.toNat < 0x8400000) :
    BitVec.ofNat 32 (((2 + i) * 1024 + va.toNat / 4096 % 1024) * 4096 + va.toNat % 4096)
      = progPageAddr i + (va - userProgAddr) := by
  have haddr := toNat_progPageAddr i
  have hi := i.isLt
  have hsub : (va - userProgAddr).toNat = va.toNat - 0x8000000 := by
    rw [BitVec.toNat_sub_of_le (by rw [BitVec.le_def]; exact h1)]
    rfl
  have hsum : ((2 + i.val) * 1024 + va.toNat / 4096 % 1024) * 4096 + va.toNat % 4096
      = (2 + i.val) * 0x400000 + (va.toNat - 0x8000000) := by omega
  apply BitVec.eq_of_toNat_eq
  rw [BitVec.toNat_add, haddr, hsub, BitVec.toNat_ofNat, hsum]

/-- The address in the video page by its frame. -/
theorem videoPage_add (setOn : Bool) (va : Word) (h1 : 0x8400000 ≤ va.toNat)
    (h2 : va.toNat < 0x8401000) :
    BitVec.ofNat 32 ((View.videoPage setOn).toNat / 4096 * 4096 + va.toNat % 4096)
      = View.videoPage setOn + (va - videoVirtual) := by
  have hpage : ∀ b, (View.videoPage b).toNat / 4096 * 4096 = (View.videoPage b).toNat := by decide
  have hsub : (va - videoVirtual).toNat = va.toNat - 0x8400000 := by
    rw [BitVec.toNat_sub_of_le (by rw [BitVec.le_def]; exact h1)]
    rfl
  have hoff : va.toNat % 4096 = va.toNat - 0x8400000 := by omega
  apply BitVec.eq_of_toNat_eq
  rw [BitVec.toNat_add, hpage, hsub, BitVec.toNat_ofNat, hoff]

theorem identity_add (va : Word) :
    BitVec.ofNat 32 (va.toNat / 4096 * 4096 + va.toNat % 4096) = va := by
  rw [Nat.div_add_mod', BitVec.ofNat_toNat, BitVec.setWidth_eq]

/-- What the mappings of a view say about an address. -/
theorem View.translate_eq (v : View) (a : Access) (va : Word) :
    (((v.mapping (va.toNat / 4096)).filter (Mapping.allows false a)).map fun x =>
      BitVec.ofNat 32 (x.frame * 4096 + va.toNat % 4096)) = v.translate a va := by
  rw [View.translate, View.mapping]
  -- the page of the program, where every access is allowed
  by_cases hprog : 0x8000000 ≤ va.toNat ∧ va.toNat < 0x8400000
  · obtain ⟨h1, h2⟩ := hprog
    rw [if_neg (by omega), if_neg (by omega), if_pos (by omega), if_pos ⟨h1, h2⟩]
    cases v.prog with
    | none => rfl
    | some i =>
      rw [Option.map_some, Option.filter_some, if_pos (allows_shared _ _ _), Option.map_some,
        progPageAddr_add i va h1 h2]
      rfl
  rw [if_neg hprog]
  -- the video page, also for every access
  by_cases hvid : 0x8400000 ≤ va.toNat ∧ va.toNat < 0x8401000
  · obtain ⟨h1, h2⟩ := hvid
    rw [if_neg (by omega), if_neg (by omega), if_neg (by omega), if_pos (by omega),
      if_pos ⟨h1, h2⟩]
    cases v.video with
    | none => rfl
    | some setOn =>
      rw [Option.map_some, Option.filter_some, if_pos (allows_shared _ _ _), Option.map_some,
        videoPage_add setOn va h1 h2]
      rfl
  rw [if_neg hvid]
  by_cases hlow : va.toNat < 0x800000
  · -- the kernel's own 8 MB
    have hid := identity_add va
    by_cases hz : va.toNat < 0x1000
    · rw [if_pos (by omega), if_pos (by omega), if_neg (by omega)]
      rfl
    · have hmap : ∃ w, (if va.toNat / 4096 / 1024 = 0 then
            if va.toNat / 4096 = 0 then none else some ⟨va.toNat / 4096, false, true⟩
          else if va.toNat / 4096 / 1024 = 1 then some ⟨va.toNat / 4096, false, false⟩
          else if va.toNat / 4096 / 1024 = 32 then
            v.prog.map fun i : Slot => ⟨(2 + i) * 1024 + va.toNat / 4096 % 1024, true, true⟩
          else if va.toNat / 4096 / 1024 = 33 ∧ va.toNat / 4096 % 1024 = 0 then
            v.video.map fun setOn => ⟨(View.videoPage setOn).toNat / 4096, true, true⟩
          else none) = some (Mapping.mk (va.toNat / 4096) false w) := by
        by_cases hd : va.toNat / 4096 / 1024 = 0
        · exact ⟨true, by rw [if_pos hd, if_neg (by omega)]⟩
        · exact ⟨false, by rw [if_neg hd, if_pos (by omega)]⟩
      obtain ⟨w, hmap⟩ := hmap
      rw [hmap, Option.filter_some]
      cases ha : a.user with
      | true =>
        rw [allows_user ha, if_neg Bool.false_ne_true, if_neg (by simp)]
        rfl
      | false =>
        rw [if_pos (allows_kernel ha _), if_pos ⟨rfl, by omega, hlow⟩, Option.map_some, hid]
  · rw [if_neg (by omega), if_neg (by omega), if_neg (by omega), if_neg (by omega),
      if_neg (by omega)]
    rfl

/-- **What the processor translates.** -/
theorem Installed.translate {s : State} (h : Installed L s v) (a : Access) (va : Word) :
    s.mmu.translate a va = v.translate a va := by
  rw [Mmu.translate_eq h.coherent h.enabled, h.writeProtect, h.walk (Mmu.page_lt va)]
  exact v.translate_eq a va

/-! ## Writes to the tables -/

/-- An entry stored. -/
def storeEntry (s : Mmu) (table : Word) (i : ℕ) (w : Word) : Mmu :=
  { s with mem := s.mem.store32 (entryAddr table i) w }

/-- The kernel reaches its own 4 MB at their physical addresses: paging is off, or the entry of
the directory for them is in place. -/
inductive Direct (L : Layout) (s : Mmu) : Prop
  | physical (henabled : s.enabled = false)
  | mapped (hcr3 : s.cr3 = L.pageDirectory) (hpse : s.pse = true) (hwp : s.writeProtect = false)
    (hdir : settled (entry s.mem L.pageDirectory 1) = 0x400081)
    (htlb : ∀ p x, p / 1024 = 1 → s.tlb p = some x → x = ⟨p, false, false⟩)

theorem Direct.translate (h : Direct L s) {a : Access} (ha : a.user = false) {va : Word}
    (h1 : 0x400000 ≤ va.toNat) (h2 : va.toNat < 0x800000) : s.translate a va = some va := by
  cases h with
  | physical henabled => rw [Mmu.translate, henabled, if_neg Bool.false_ne_true]
  | mapped hcr3 hpse hwp hdir htlb =>
    have hp : va.toNat / 4096 / 1024 = 1 := by omega
    have hwalk : s.walk (va.toNat / 4096) = some ⟨va.toNat / 4096, false, false⟩ := by
      have hdir' : settled (entry s.mem L.pageDirectory (va.toNat / 4096 / 1024)) = 0x400081 := by
        rw [hp, hdir]
      rw [Mmu.walk, hcr3, Layout.tableOf_eq Layout.mem_tables.1, walk_eq_of_settled hdir', hpse]
      show some (Mapping.mk (1 * 1024 + va.toNat / 4096 % 1024) _ _) = _
      rw [show 1 * 1024 + va.toNat / 4096 % 1024 = va.toNat / 4096 by omega]
      rfl
    have hlookup : s.lookup (va.toNat / 4096) = some ⟨va.toNat / 4096, false, false⟩ := by
      rw [Mmu.lookup, hwalk]
      cases ht : s.tlb (va.toNat / 4096) with
      | none => rfl
      | some x => rw [htlb _ x hp ht, Option.some_or]
    unfold Mmu.translate
    rw [hlookup, hwp, Option.filter_some, if_pos (allows_kernel ha _), Option.map_some,
      identity_add, ite_self]

/-- A write to another entry than that of the kernel's 4 MB. -/
theorem Direct.storeEntry (h : Direct L s) (ht : t ∈ L.tables) (hi : i < 1024)
    (hne : t = L.pageDirectory → i ≠ 1) (w : Word) : Direct L (storeEntry s t i w) := by
  cases h with
  | physical henabled => exact .physical henabled
  | mapped hcr3 hpse hwp hdir htlb =>
    refine .mapped hcr3 hpse hwp ?_ htlb
    have hentry : entry (s.mem.store32 (entryAddr t i) w) L.pageDirectory 1
        = entry s.mem L.pageDirectory 1 := by
      simp only [Layout.tables, List.mem_cons, List.not_mem_nil, or_false] at ht
      obtain rfl | rfl | rfl := ht
      · exact entry_store32_of_ne _ _ _ hi (by decide) (hne rfl).symm
      · exact entry_store32_of_apart _ _ L.apart_dir_table.symm hi (by decide)
      · exact entry_store32_of_apart _ _ L.apart_dir_vid.symm hi (by decide)
    show settled (entry (s.mem.store32 (entryAddr t i) w) L.pageDirectory 1) = _
    rw [hentry, hdir]

theorem Direct.setEntry (h : Direct L s) (ht : t ∈ L.tables) (hi : i < 1024) (w : Word) :
    setEntry s t i w = some (Page.storeEntry s t i w) := by
  obtain ⟨h1, h2⟩ := L.entryAddr_inKernel ht hi
  rw [Page.setEntry, Mmu.write32, h.translate rfl h1 h2]
  rfl

/-- `|=` on an entry that has just been stored. -/
theorem Direct.orEntry (h : Direct L (Page.storeEntry s t i w)) (ht : t ∈ L.tables) (hi : i < 1024)
    (x : Word) : orEntry (Page.storeEntry s t i w) t i x
      = some (Page.storeEntry (Page.storeEntry s t i w) t i (w ||| x)) := by
  obtain ⟨h1, h2⟩ := L.entryAddr_inKernel ht hi
  have hload : (Page.storeEntry s t i w).mem.load32 (entryAddr t i) = w :=
    Memory.load32_store32_self _ _ _
  rw [Page.orEntry, Mmu.read32, h.translate rfl h1 h2, Option.map_some, Option.bind_some, hload,
    Mmu.write32, h.translate rfl h1 h2]
  rfl

/-! ## What the functions do -/

theorem Installed.direct {s : State} (h : Installed L s v) : Direct L s.mmu := by
  refine .mapped h.cr3 h.pse h.writeProtect (h.dir 1 (by decide)) fun p x hp hx => ?_
  have hlt : p < 2 ^ 20 := by omega
  have hwalk := h.coherent p hlt x hx
  rw [h.walk hlt, View.mapping, if_neg (by omega), if_pos hp] at hwalk
  exact (Option.some.inj hwalk).symm

/-- A byte of none of the tables. -/
def Outside (L : Layout) (b : Word) : Prop := ∀ t ∈ L.tables, ¬ InSpan b t 4096

theorem settled_entry_store32 (m : Memory) (t w : Word) (hi : i < 1024) (hj : j < 1024) :
    settled (entry (m.store32 (entryAddr t i) w) t j)
      = if j = i then settled w else settled (entry m t j) := by
  split_ifs with h
  · rw [h, entry_store32_self]
  · rw [entry_store32_of_ne m t w hi hj h]

/-- Loading the directory again after the tables have changed. -/
theorem Installed.reload {s : State} (h : Installed L s v) (v' : View) (m : Memory)
    (hdir : ∀ i < 1024, settled (entry m L.pageDirectory i) = v'.dirEntry L i)
    (htable : ∀ i < 1024, settled (entry m L.pageTable i) = View.tableEntry i)
    (hvid : ∀ i < 1024, settled (entry m L.ptVid1 i) = v'.videoEntry i) :
    Installed L ⟨Mmu.movCr3 { s.mmu with mem := m } L.pageDirectory, v'.used⟩ v' where
  cr3 := rfl
  enabled := h.enabled
  pse := h.pse
  writeProtect := h.writeProtect
  used := rfl
  dir := hdir
  table := htable
  vid := hvid
  coherent := Mmu.coherent_of_empty fun _ => rfl

/-- A program entry replaced. -/
theorem Installed.storeProg {s : State} (h : Installed L s v) (prog : Option Slot)
    (used : Slot → Bool) :
    ∃ u, setEntry s.mmu L.pageDirectory progPdEntry
        ((prog.map fun j : Slot => progPde j).getD 0) = some u ∧
      Installed L ⟨u.movCr3 L.pageDirectory, used⟩ { v with prog := prog, used := used } ∧
      ∀ b, Outside L b → u.mem b = s.mmu.mem b := by
  obtain ⟨hpd, hpt, hpv⟩ := L.mem_tables
  have hsettled : settled ((prog.map fun j : Slot => progPde j).getD 0)
      = (prog.map fun j : Slot => progPde j).getD 0 := by
    cases prog with
    | none => rfl
    | some j => exact settled_progPde j
  refine ⟨_, h.direct.setEntry hpd (by decide) _, ?_, fun b hb =>
    store32_entryAddr_of_not_inSpan _ _ _ (by decide) (hb _ hpd)⟩
  refine h.reload { v with prog := prog, used := used } _ (fun i hi => ?_) (fun i hi => ?_)
    (fun i hi => ?_)
  · rw [settled_entry_store32 _ _ _ (by decide) hi, hsettled, h.dir i hi]
    simp only [View.dirEntry]
    grind
  · rw [entry_store32_of_apart _ _ L.apart_dir_table (by decide) hi, h.table i hi]
  · rw [entry_store32_of_apart _ _ L.apart_dir_vid (by decide) hi, h.vid i hi]
    rfl

/-- The three writes for the video page. -/
theorem Installed.storeVideo {s : State} (h : Installed L s v) (setOn : Bool) :
    ∃ u, ((setEntry s.mmu L.pageDirectory 33 L.ptVid1).bind fun u =>
        (orEntry u L.pageDirectory 33 (userSuper ||| readWrite ||| present)).bind fun u =>
          setEntry u L.ptVid1 0 (View.videoPage setOn ||| 0x7)) = some u ∧
      Installed L ⟨u.movCr3 L.pageDirectory, s.progUsedPage⟩ { v with video := some setOn } ∧
      ∀ b, Outside L b → u.mem b = s.mmu.mem b := by
  obtain ⟨hpd, hpt, hpv⟩ := L.mem_tables
  have h1 := h.direct.storeEntry hpd (i := 33) (by decide) (fun _ => by decide) L.ptVid1
  have h2 := h1.storeEntry hpd (i := 33) (by decide) (fun _ => by decide)
    (L.ptVid1 ||| (userSuper ||| readWrite ||| present))
  refine ⟨Page.storeEntry (Page.storeEntry (Page.storeEntry s.mmu L.pageDirectory 33 L.ptVid1)
    L.pageDirectory 33 (L.ptVid1 ||| (userSuper ||| readWrite ||| present)))
    L.ptVid1 0 (View.videoPage setOn ||| 0x7), ?_, ?_, ?_⟩
  · rw [h.direct.setEntry hpd (by decide), Option.bind_some, h1.orEntry hpd (by decide),
      Option.bind_some, h2.setEntry hpv (by decide)]
  · -- the flags are below the bits of the address, and none is the accessed or the dirty bit
    have hdirFlags : settled (L.ptVid1 ||| (userSuper ||| readWrite ||| present))
        = L.ptVid1 ||| 0x7 := settled_or_flags (L.aligned _ hpv) (by decide)
    have hvidFlags : ∀ b, settled (View.videoPage b ||| 0x7) = View.videoPage b ||| 0x7 := by decide
    rw [h.used]
    refine h.reload { v with video := some setOn } _ (fun i hi => ?_) (fun i hi => ?_)
      (fun i hi => ?_)
    · rw [entry_store32_of_apart _ _ L.apart_dir_vid.symm (by decide) hi]
      show settled (entry (Memory.store32 (Memory.store32 _ _ _) _ _) _ _) = _
      rw [settled_entry_store32 _ _ _ (by decide) hi, settled_entry_store32 _ _ _ (by decide) hi,
        hdirFlags, h.dir i hi]
      simp only [View.dirEntry]
      grind
    · rw [entry_store32_of_apart _ _ L.apart_table_vid.symm (by decide) hi]
      show settled (entry (Memory.store32 (Memory.store32 _ _ _) _ _) _ _) = _
      rw [entry_store32_of_apart _ _ L.apart_dir_table (by decide) hi,
        entry_store32_of_apart _ _ L.apart_dir_table (by decide) hi, h.table i hi]
    · rw [settled_entry_store32 _ _ _ (by decide) hi, hvidFlags]
      show (if i = 0 then _ else settled (entry (Memory.store32 (Memory.store32 _ _ _) _ _) _ _)) = _
      rw [entry_store32_of_apart _ _ L.apart_dir_vid (by decide) hi,
        entry_store32_of_apart _ _ L.apart_dir_vid (by decide) hi, h.vid i hi]
      simp only [View.videoEntry]
      grind
  · intro b hb
    show Memory.store32 (Memory.store32 (Memory.store32 _ _ _) _ _) _ _ b = _
    rw [store32_entryAddr_of_not_inSpan _ _ _ (by decide) (hb _ hpv),
      store32_entryAddr_of_not_inSpan _ _ _ (by decide) (hb _ hpd),
      store32_entryAddr_of_not_inSpan _ _ _ (by decide) (hb _ hpd)]

/-- **Each function of `page.c` maps what its call says**, never faults, and changes no byte
outside the tables. -/
theorem Call.run_installed {s : State} (h : Installed L s v) (c : Call) :
    ∃ s', c.run L s = some s' ∧ Installed L s' (v.call c) ∧
      ∀ b, Outside L b → s'.mmu.mem b = s.mmu.mem b := by
  -- each function makes one store or three, and loads `cr3` again
  cases c with
  | addProgPage =>
    rw [Call.run, Page.addProgPage, View.call, h.used]
    cases firstFree v.used with
    | none => exact ⟨s, rfl, h, fun _ _ => rfl⟩
    | some i =>
      obtain ⟨u, hu, hI, hout⟩ := h.storeProg (some i) (update v.used i true)
      rw [Option.map_some, Option.getD_some] at hu
      exact ⟨_, by simp only [hu, Option.map_some], hI, hout⟩
  | setProgPage idx =>
    rw [Call.run, Page.setProgPage, View.call, h.used]
    by_cases hidx : idx < maxNumProg
    · obtain ⟨u, hu, hI, hout⟩ := h.storeProg (some ⟨idx, hidx⟩) (update v.used ⟨idx, hidx⟩ true)
      rw [Option.map_some, Option.getD_some] at hu
      rw [dif_pos hidx, dif_pos hidx, hu]
      exact ⟨_, rfl, hI, hout⟩
    · rw [dif_neg hidx, dif_neg hidx]
      exact ⟨s, rfl, h, fun _ _ => rfl⟩
  | freeProgPage idx =>
    rw [Call.run, Page.freeProgPage, View.call, h.used]
    by_cases hidx : idx < maxNumProg
    · obtain ⟨u, hu, hI, hout⟩ := h.storeProg none (update v.used ⟨idx, hidx⟩ false)
      rw [Option.map_none, Option.getD_none] at hu
      rw [dif_pos hidx, dif_pos hidx, hu]
      exact ⟨_, rfl, hI, hout⟩
    · rw [dif_neg hidx, dif_neg hidx]
      exact ⟨s, rfl, h, fun _ _ => rfl⟩
  | setVideoPage setOn =>
    obtain ⟨u, hu, hI, hout⟩ := h.storeVideo setOn
    have hflags : ∀ b : Bool, ((if b then video else videoBackup) &&& ptMask) ||| userSuper |||
        readWrite ||| present = View.videoPage b ||| 0x7 := by decide
    have hidx : pdIdx videoVirtual = 33 ∧ ptIdx videoVirtual = 0 := by decide
    refine ⟨_, ?_, hI, hout⟩
    simp only [Option.bind_eq_some_iff] at hu
    obtain ⟨u1, hu1, u2, hu2, hu3⟩ := hu
    simp only [Call.run, Page.setVideoPage, hidx.1, hidx.2, hflags, hu1, hu2, hu3, Option.bind_eq_bind,
      Option.bind_some]
  | addVideoPt =>
    obtain ⟨u, hu, hI, hout⟩ := h.storeVideo true
    have hflags : (video &&& ptMask) ||| 7 = View.videoPage true ||| 0x7 := by decide
    have hidx : pdIdx videoAssignedMemAddr = 33 ∧ ptIdx videoAssignedMemAddr = 0 := by decide
    refine ⟨_, ?_, hI, hout⟩
    simp only [Option.bind_eq_some_iff] at hu
    obtain ⟨u1, hu1, u2, hu2, hu3⟩ := hu
    simp only [Call.run, addNewPt, hidx.1, hidx.2, hflags, hu1, hu2, hu3, Option.bind_eq_bind,
      Option.bind_some]

/-! ## After `paging_init` -/

/-- The state `paging_init` is called in: paging is off, and the tables are zero as the loader
leaves them. -/
structure Boot (L : Layout) (s : State) : Prop where
  enabled : s.mmu.enabled = false
  writeProtect : s.mmu.writeProtect = false
  zero : ∀ t ∈ L.tables, ∀ i < 1024, entry s.mmu.mem t i = 0

/-- An entry of `page_table` by the flags of the source. -/
theorem tableEntry_eq (hi : i ≠ 0) :
    BitVec.ofNat 32 (4096 * i) ||| userSuper ||| readWrite ||| present = View.tableEntry i := by
  rw [View.tableEntry, if_neg hi, BitVec.or_assoc, BitVec.or_assoc]
  rfl

theorem settled_tableEntry (i : ℕ) : settled (View.tableEntry i) = View.tableEntry i := by
  rw [View.tableEntry]
  split_ifs
  · decide
  · exact settled_or_flags (page_and_mask i) (by decide)

/-- What the loop has done when it leaves off: the entries from `i` on are those of identity
pages. -/
theorem initLoop_eq (n : ℕ) (hi : i ≠ 0) (hle : i + n ≤ 1024) (s : Mmu)
    (hoff : s.enabled = false) :
    ∃ m, initLoop L n i (BitVec.ofNat 32 (4096 * i)) s = some { s with mem := m } ∧
      (∀ j < 1024, entry m L.pageTable j
        = if i ≤ j ∧ j < i + n then View.tableEntry j else entry s.mem L.pageTable j) ∧
      (∀ t, Apart L.pageTable t → ∀ j < 1024, entry m t j = entry s.mem t j) ∧
      ∀ b, Outside L b → m b = s.mem b := by
  induction n generalizing i s with
  | zero =>
    refine ⟨s.mem, rfl, fun j _ => ?_, fun _ _ _ _ => rfl, fun _ _ => rfl⟩
    rw [if_neg (by omega)]
  | succ n ih =>
    have hset := (Direct.physical (L := L) hoff).setEntry L.mem_tables.2.1
      (show i < 1024 by omega) (View.tableEntry i)
    have hnext : BitVec.ofNat 32 (4096 * i) + pageSize = BitVec.ofNat 32 (4096 * (i + 1)) := by
      rw [Nat.mul_succ, BitVec.ofNat_add]
      rfl
    obtain ⟨m, hm, htable, hother, hout⟩ := ih (i := i + 1) (by omega) (by omega)
      (Page.storeEntry s L.pageTable i (View.tableEntry i)) hoff
    refine ⟨m, ?_, fun j hj => ?_, fun t ht j hj => ?_, fun b hb => ?_⟩
    · rw [initLoop, tableEntry_eq hi, hset, Option.bind_some, hnext, hm]
      rfl
    · rw [htable j hj]
      show (if _ then _ else entry (Memory.store32 _ _ _) _ _) = _
      by_cases hji : j = i
      · rw [hji, if_neg (by omega), if_pos (by omega), entry_store32_self]
      · rw [entry_store32_of_ne _ _ _ (by omega) hj hji]
        by_cases hin : i + 1 ≤ j ∧ j < i + 1 + n
        · rw [if_pos hin, if_pos (by omega)]
        · rw [if_neg hin, if_neg (by omega)]
    · rw [hother t ht j hj]
      exact entry_store32_of_apart _ _ ht (by omega) hj
    · rw [hout b hb]
      exact store32_entryAddr_of_not_inSpan _ _ _ (by omega) (hb _ L.mem_tables.2.1)

/-- **`paging_init`** maps the kernel's 8 MB to themselves and nothing else, and changes no byte
outside the tables. -/
theorem pagingInit_eq {s : State} (h : Boot L s) :
    ∃ s', pagingInit L s = some s' ∧ Installed L s' .start ∧
      ∀ b, Outside L b → s'.mmu.mem b = s.mmu.mem b := by
  obtain ⟨hpd, hpt, hpv⟩ := L.mem_tables
  -- paging is off, so that the stores go where they say
  have h0 : Direct L s.mmu := .physical h.enabled
  have hset0 := h0.setEntry hpt (i := 0) (by decide) (userSuper ||| readWrite)
  obtain ⟨m, hm, htable, hother, hout⟩ := initLoop_eq (L := L) 1023 (i := 1) (by decide) (by decide)
    (Page.storeEntry s.mmu L.pageTable 0 (userSuper ||| readWrite)) h.enabled
  have h1 : Direct L { s.mmu with mem := m } := .physical h.enabled
  have hset1 := h1.setEntry hpd (i := 0) (by decide) L.pageTable
  have h2 := h1.storeEntry hpd (i := 0) (by decide) (fun _ => by decide) L.pageTable
  have hset2 := h2.orEntry hpd (by decide) (readWrite ||| present)
  have h3 := h2.storeEntry hpd (i := 0) (by decide) (fun _ => by decide)
    (L.pageTable ||| (readWrite ||| present))
  have hset3 := Direct.setEntry (i := 1) (.physical h.enabled :
    Direct L (Page.storeEntry (Page.storeEntry { s.mmu with mem := m } L.pageDirectory 0 L.pageTable)
      L.pageDirectory 0 (L.pageTable ||| (readWrite ||| present)))) hpd (by decide)
    (kernelAdr ||| page4MB ||| present)
  have hm' : initLoop L 1023 1 pageSize
      (Page.storeEntry s.mmu L.pageTable 0 (userSuper ||| readWrite))
        = some { s.mmu with mem := m } := hm
  refine ⟨_, by simp only [pagingInit, hset0, hm', hset1, hset2, hset3, Option.bind_eq_bind,
    Option.bind_some]; rfl, ?_, fun b hb => ?_⟩
  -- first the frame, then the three tables and the control registers
  rotate_left
  · show Memory.store32 (Memory.store32 (Memory.store32 _ _ _) _ _) _ _ b = _
    rw [store32_entryAddr_of_not_inSpan _ _ _ (by decide) (hb _ hpd),
      store32_entryAddr_of_not_inSpan _ _ _ (by decide) (hb _ hpd),
      store32_entryAddr_of_not_inSpan _ _ _ (by decide) (hb _ hpd)]
    exact (hout b hb).trans (store32_entryAddr_of_not_inSpan _ _ _ (by decide) (hb _ hpt))
  have hflags : settled (L.pageTable ||| (readWrite ||| present)) = L.pageTable ||| 0x3 :=
    settled_or_flags (L.aligned _ hpt) (by decide)
  constructor
  · rfl
  · show (s.mmu.cr0 ||| 0x80000000).getLsbD 31 = true
    rw [BitVec.getLsbD_or]
    exact Bool.or_true _
  · show (s.mmu.cr4 ||| 0x10).getLsbD 4 = true
    rw [BitVec.getLsbD_or]
    exact Bool.or_true _
  · show (s.mmu.cr0 ||| 0x80000000).getLsbD 16 = false
    rw [BitVec.getLsbD_or]
    exact (Bool.or_false _).trans h.writeProtect
  · rfl
  · intro i hi
    show settled (entry (Memory.store32 (Memory.store32 (Memory.store32 _ _ _) _ _) _ _) _ _) = _
    rw [settled_entry_store32 _ _ _ (by decide) hi, settled_entry_store32 _ _ _ (by decide) hi,
      settled_entry_store32 _ _ _ (by decide) hi, hflags,
      hother _ L.apart_dir_table.symm i hi]
    show (if i = 1 then _ else if i = 0 then _ else if i = 0 then _ else
      settled (entry (Memory.store32 _ _ _) _ _)) = _
    rw [entry_store32_of_apart _ _ L.apart_dir_table.symm (by decide) hi, h.zero _ hpd i hi,
      View.dirEntry]
    have hk : settled (kernelAdr ||| page4MB ||| present) = 0x400081 := by decide
    have hz : settled 0 = 0 := by decide
    rw [hk, hz]
    simp only [View.start, Option.map_none, Option.getD_none]
    grind
  · intro i hi
    show settled (entry (Memory.store32 (Memory.store32 (Memory.store32 _ _ _) _ _) _ _) _ _) = _
    rw [entry_store32_of_apart _ _ L.apart_dir_table (by decide) hi,
      entry_store32_of_apart _ _ L.apart_dir_table (by decide) hi,
      entry_store32_of_apart _ _ L.apart_dir_table (by decide) hi, htable i hi]
    by_cases hz : i = 0
    · rw [hz, if_neg (by omega)]
      show settled (entry (Memory.store32 _ _ _) _ _) = _
      rw [entry_store32_self]
      decide
    · rw [if_pos (by omega), settled_tableEntry]
  · intro i hi
    show settled (entry (Memory.store32 (Memory.store32 (Memory.store32 _ _ _) _ _) _ _) _ _) = _
    rw [entry_store32_of_apart _ _ L.apart_dir_vid (by decide) hi,
      entry_store32_of_apart _ _ L.apart_dir_vid (by decide) hi,
      entry_store32_of_apart _ _ L.apart_dir_vid (by decide) hi,
      hother _ L.apart_table_vid i hi]
    show settled (entry (Memory.store32 _ _ _) _ _) = _
    rw [entry_store32_of_apart _ _ L.apart_table_vid (by decide) hi, h.zero _ hpv i hi,
      View.videoEntry]
    split_ifs <;> rfl
  · exact Mmu.coherent_of_empty fun _ => rfl

theorem pagingInit_installed {s : State} (h : Boot L s) :
    ∃ s', pagingInit L s = some s' ∧ Installed L s' .start := by
  obtain ⟨s', hs', hI, -⟩ := pagingInit_eq h
  exact ⟨s', hs', hI⟩

theorem pagingInit_kept {s s' : State} (h : Boot L s) (hs : pagingInit L s = some s') {b : Word}
    (hb : Outside L b) : s'.mmu.mem b = s.mmu.mem b := by
  obtain ⟨u, hu, -, hout⟩ := pagingInit_eq h
  obtain rfl := Option.some.inj (hs.symm.trans hu)
  exact hout b hb

end HieUnix.Page
