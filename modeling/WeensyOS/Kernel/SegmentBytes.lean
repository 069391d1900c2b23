import WeensyOS.Kernel.ProgramLoad
import Mathlib

namespace WeensyOS.Kernel

open ByteMemory LibC Loop ProgramBreak

variable {s s' : Machine} {p a pn : Nat} {page : NewPage} {used : List NewPage} {supply : List (Option NewPage)}
  {image : Nat → UInt8} {ph S : ElfProgram} {phs : List ElfProgram}

namespace ElfProgram

/-- The number of pages that the segment needs. -/
def pages (ph : ElfProgram) : Nat := (ph.pVa + ph.pMemsz - roundDown ph.pVa pageSize + (pageSize - 1)) / pageSize

/-- The byte that belongs at `p_va + k`: the file's, or zero. -/
def wanted (image : Nat → UInt8) (ph : ElfProgram) (k : Nat) : UInt8 :=
  if k < ph.pFilesz then image (ph.pOffset + k) else 0

/-- The addresses `[p_va, p_va + p_memsz)`. -/
def range (ph : ElfProgram) : Set Nat := Set.Ico ph.pVa (ph.pVa + ph.pMemsz)

def Apart (ph ph' : ElfProgram) : Prop := Disjoint ph.range ph'.range

instance : Std.Symm Apart := ⟨fun _ _ h => Disjoint.symm h⟩

end ElfProgram

/-- The last segment with the address on one of its pages, and the page of the supply that it has there. -/
def placeAt : List ElfProgram → List (Option NewPage) → Nat → Option (ElfProgram × NewPage)
  | [], _, _ => none
  | ph :: phs, supply, a =>
      if ph.Load then
        (placeAt phs (supply.drop ph.pages) a).or
          (if ph.Covers a then supply[(a - roundDown ph.pVa pageSize) / pageSize]?.join.map (ph, ·) else none)
      else placeAt phs supply a

section Place

theorem SegmentLoaded.length_used (h : SegmentLoaded image ph s s' p used) : used.length = ph.pages := by
  have hpage : pageSize = 4096 := rfl
  have hlast := h.cover used.length
  have hbefore := h.cover (used.length - 1)
  rw [ElfProgram.pages, hpage]
  rw [hpage] at hlast hbefore
  omega

theorem SegmentLoaded.drop_used (h : SegmentLoaded image ph s s' p used) (rest : List (Option NewPage)) :
    (used.map some ++ rest).drop ph.pages = rest := by
  apply List.drop_left'
  rw [List.length_map, h.length_used]

theorem getElem?_used {i : Nat} (h : used[i]? = some page) (rest : List (Option NewPage)) :
    (used.map some ++ rest)[i]?.join = some page := by
  obtain ⟨hlt, -⟩ := List.getElem?_eq_some_iff.mp h
  rw [List.getElem?_append_left (by rwa [List.length_map]), List.getElem?_map, h]
  rfl

theorem segmentsAt_cons_load (hload : ph.Load) : segmentsAt (ph :: phs) a ≠ [] ↔ ph.Covers a ∨ segmentsAt phs a ≠ [] := by
  by_cases hcovers : ph.Covers a
  · rw [segmentsAt, List.filter_cons_of_pos (by simpa using ⟨hload, hcovers⟩)]
    exact ⟨fun _ => .inl hcovers, fun _ => List.cons_ne_nil _ _⟩
  · rw [segmentsAt, List.filter_cons_of_neg (by simpa using fun _ => hcovers)]
    exact ⟨.inr, fun h => h.resolve_left hcovers⟩

theorem segmentsAt_cons_skip (hskip : ¬ph.Load) : segmentsAt (ph :: phs) a = segmentsAt phs a :=
  List.filter_cons_of_neg (by simpa using fun hload => absurd hload hskip)

theorem SegmentsLoaded.placed (h : SegmentsLoaded image p phs supply s s') (ha : segmentsAt phs a ≠ []) :
    ∃ S page, placeAt phs supply a = some (S, page) := by
  induction h with
  | nil => exact absurd rfl ha
  | @skip ph phs _ _ _ hskip _ ih =>
      rw [segmentsAt_cons_skip hskip] at ha
      rw [placeAt, if_neg hskip]
      exact ih ha
  | @load ph phs used rest _ _ _ hload _ hseg _ ih =>
      rw [placeAt, if_pos hload, hseg.drop_used]
      cases hlater : placeAt phs rest a with
      | some place => exact ⟨place.1, place.2, rfl⟩
      | none =>
          have hcovers : ph.Covers a := by
            rcases (segmentsAt_cons_load hload).mp ha with hcovers | hrest
            · exact hcovers
            · obtain ⟨S, page, hplace⟩ := ih hrest
              cases hlater.symm.trans hplace
          obtain ⟨page, hget, -⟩ := hseg.page hcovers
          rw [Option.none_or, if_pos hcovers, getElem?_used hget]
          exact ⟨ph, page, rfl⟩

theorem placeAt_segment (h : placeAt phs supply a = some (S, page)) : S ∈ phs ∧ S.Load ∧ S.Covers a := by
  induction phs generalizing supply with
  | nil => cases h
  | cons ph phs ih =>
      rw [placeAt] at h
      split at h
      case isTrue hload =>
        rcases Option.or_eq_some_iff.mp h with hlater | ⟨-, hhere⟩
        · exact (ih hlater).imp (List.mem_cons_of_mem _) id
        · split at hhere
          case isTrue hcovers =>
            obtain ⟨page', -, heq⟩ := Option.map_eq_some_iff.mp hhere
            obtain ⟨rfl, -⟩ := Prod.mk.inj heq
            exact ⟨List.mem_cons_self, hload, hcovers⟩
          case isFalse => cases hhere
      case isFalse => exact (ih h).imp (List.mem_cons_of_mem _) id

theorem SegmentsLoaded.bytes (h : SegmentsLoaded image p phs supply s s') (hpn : ∀ page, some page ∈ supply → pn ≠ page.number)
    (hno : ¬TableAt s.mem (s.processes p).pPagetable memsizeVirtual (pn * pageSize)) :
    SamePage s.mem s'.mem (pn * pageSize) := by
  induction h with
  | nil => exact fun _ _ _ => rfl
  | skip _ _ ih => exact ih hpn hno
  | load _ _ hseg _ ih =>
      intro x hx hx'
      rw [hseg.processes, hseg.upper.tableAt_iff] at ih
      rw [ih (fun page hpage => hpn page (List.mem_append_right _ hpage)) hno x hx hx']
      exact hseg.bytes pn (fun page hpage => hpn page (List.mem_append_left _ (List.mem_map_of_mem hpage))) hno x hx hx'

theorem SegmentsLoaded.place (h : SegmentsLoaded image p phs supply s s') (hlt : a < memsizeVirtual)
    (hplace : placeAt phs supply a = some (S, page)) :
    page.number < npages ∧
      leafEntry s'.mem (s.processes p).pPagetable a = some (leafValue (page.number * pageSize) (segmentPerm S)) ∧
        s'.mem (page.number * pageSize + pageOffset a) = segmentByte image S a (page.contents (pageOffset a)) := by
  induction h with
  | nil => cases hplace
  | @skip ph phs _ _ _ hskip _ ih =>
      rw [placeAt, if_neg hskip] at hplace
      exact ih hplace
  | @load ph phs used rest _ _ _ hload R hseg hrest ih =>
      rw [placeAt, if_pos hload, hseg.drop_used] at hplace
      rw [hseg.processes] at ih
      rcases Option.or_eq_some_iff.mp hplace with hlater | ⟨hnone, hhere⟩
      · exact ih hlater
      split at hhere
      case isFalse => cases hhere
      case isTrue hcovers =>
        obtain ⟨page', hget, hleaf⟩ := hseg.page hcovers
        rw [getElem?_used hget, Option.map_some, Option.some.injEq, Prod.mk.injEq] at hhere
        obtain ⟨rfl, rfl⟩ := hhere
        have hused := List.mem_of_getElem? hget
        have hnothing : segmentsAt phs a = [] := by
          by_contra hsome
          obtain ⟨S, page, hlater⟩ := hrest.placed hsome
          cases hnone.symm.trans hlater
        have hkept := hrest.elsewhere hlt hnothing
        rw [hseg.processes] at hkept
        have hsame := hrest.bytes (fun page hpage => (R.ne_of_mem hused hpage).symm) (by
          rw [hseg.processes, hseg.upper.tableAt_iff]
          exact R.not_table_of_mem hused)
        have hoffset : pageOffset a < pageSize := Nat.mod_lt _ (by decide)
        have haddr : roundDown ph.pVa pageSize + pageSize * ((a - roundDown ph.pVa pageSize) / pageSize) + pageOffset a = a := by
          have hpage : pageSize = 4096 := rfl
          have hva := roundDown_mod ph.pVa
          have hle := hcovers.1
          rw [hpage] at hva hle ⊢
          rw [pageOffset, hpage]
          omega
        have hcontents := hseg.contents _ _ hget _ hoffset
        rw [haddr] at hcontents
        refine ⟨R.lt_npages hused, hkept.trans hleaf, ?_⟩
        rw [hsame _ (Nat.le_add_right _ _) (Nat.add_lt_add_left hoffset _)]
        exact hcontents

end Place

/-- The byte at a virtual address, read through the page table of the process. -/
def byteAt (s : Machine) (p a : Nat) : Option UInt8 :=
  let vam := virtualMemoryLookup s.mem (s.processes p).pPagetable a
  if 0 ≤ vam.pn then some (s.mem vam.pa) else none

/-- All bytes of the loadable segments are at their addresses. -/
def SegmentsHold (image : Nat → UInt8) (phs : List ElfProgram) (s : Machine) (p : Nat) : Prop :=
  ∀ ph ∈ phs, ph.Load → ∀ k < ph.pMemsz, byteAt s p (ph.pVa + k) = some (ph.wanted image k)

/-- When the loader puts every byte where it belongs. A segment that does not start at a page has the right bytes only
if they are equal to those that far behind, and a page of a later segment only if it holds the right bytes by chance. -/
def LoadsRight (image : Nat → UInt8) (phs : List ElfProgram) (supply : List (Option NewPage)) : Prop :=
  ∀ ph ∈ phs, ph.Load → ∀ k < ph.pMemsz, ∀ S page, placeAt phs supply (ph.pVa + k) = some (S, page) →
    if ph.pVa + k < S.pVa then image (S.pOffset + pageOffset (ph.pVa + k)) = ph.wanted image k
    else if S.pVa + S.pMemsz ≤ ph.pVa + k then page.contents (pageOffset (ph.pVa + k)) = ph.wanted image k
    else k < ph.pFilesz → image (ph.pOffset + k + pageOffset ph.pVa) = image (ph.pOffset + k)

section Bytes

variable {k : Nat}

theorem ElfProgram.covers_of_lt (hk : k < ph.pMemsz) : ph.Covers (ph.pVa + k) :=
  ⟨Nat.le_trans (roundDown_le ph.pVa pageSize) (Nat.le_add_right _ _),
    Nat.lt_of_le_of_lt (roundDown_le (ph.pVa + k) pageSize) (Nat.add_lt_add_left hk _)⟩

theorem segmentsAt_of_mem (hph : ph ∈ phs) (hload : ph.Load) (hcovers : ph.Covers a) : segmentsAt phs a ≠ [] :=
  List.ne_nil_of_mem (List.mem_filter.mpr ⟨hph, decide_eq_true ⟨hload, hcovers⟩⟩)

theorem SegmentsLoaded.byteAt (T : Tree s.mem (s.processes p).pPagetable memsizeVirtual)
    (h : SegmentsLoaded image p phs supply s s') (hlt : a < memsizeVirtual) (hplace : placeAt phs supply a = some (S, page)) :
    Kernel.byteAt s' p a = some (segmentByte image S a (page.contents (pageOffset a))) := by
  obtain ⟨hpn, hleaf, hbyte⟩ := h.place hlt hplace
  have hlookup : virtualMemoryLookup s'.mem (s'.processes p).pPagetable a =
      ⟨page.number, page.number * pageSize + pageOffset a, segmentPerm S⟩ := by
    rw [h.processes, (Tree.congr h.upper T).lookup hlt, hleaf, (segmentPerm_ok S).lookup hpn]
  rw [Kernel.byteAt, hlookup]
  simp only [Nat.cast_nonneg, if_true, hbyte]

/-- The byte that the last segment leaves, in the three cases. -/
theorem segmentByte_wanted {b : UInt8} (hS : S.Covers (ph.pVa + k)) (hsize : S.pFilesz ≤ S.pMemsz)
    (hdisj : S.pVa ≤ ph.pVa + k → ph.pVa + k < S.pVa + S.pMemsz → S = ph) :
    segmentByte image S (ph.pVa + k) b = ph.wanted image k ↔
      if ph.pVa + k < S.pVa then image (S.pOffset + pageOffset (ph.pVa + k)) = ph.wanted image k
      else if S.pVa + S.pMemsz ≤ ph.pVa + k then b = ph.wanted image k
      else k < ph.pFilesz → image (ph.pOffset + k + pageOffset ph.pVa) = image (ph.pOffset + k) := by
  have hpage : pageSize = 4096 := rfl
  have hva := roundDown_mod S.pVa
  obtain ⟨hle, -⟩ := hS
  rw [segmentByte]
  by_cases hbelow : ph.pVa + k < S.pVa
  · have hoffset : ph.pVa + k - roundDown S.pVa pageSize = pageOffset (ph.pVa + k) := by
      rw [roundDown, hpage] at hle ⊢
      rw [pageOffset, hpage]
      omega
    rw [if_pos (by omega), if_pos hbelow, hoffset]
  rw [if_neg hbelow]
  by_cases habove : S.pVa + S.pMemsz ≤ ph.pVa + k
  · rw [if_neg (by omega), if_neg (by omega), if_pos habove]
  rw [if_neg habove]
  obtain rfl := hdisj (Nat.le_of_not_lt hbelow) (Nat.lt_of_not_le habove)
  rw [ElfProgram.wanted]
  by_cases hfile : k < S.pFilesz
  · have hoffset : S.pOffset + (S.pVa + k - roundDown S.pVa pageSize) = S.pOffset + k + pageOffset S.pVa := by
      rw [roundDown, pageOffset, hpage]
      omega
    rw [if_pos (by omega), if_pos hfile, hoffset]
    exact ⟨fun h _ => h, fun h => h hfile⟩
  · rw [if_neg (by omega), if_pos (by omega), if_neg hfile]
    exact ⟨fun _ h => absurd h hfile, fun _ => rfl⟩

theorem segmentsHold_iff (T : Tree s.mem (s.processes p).pPagetable memsizeVirtual)
    (h : SegmentsLoaded image p phs supply s s')
    (hbounds : ∀ ph ∈ phs, ph.Load → ph.pFilesz ≤ ph.pMemsz ∧ ph.pVa + ph.pMemsz ≤ memsizeVirtual)
    (hdisj : (phs.filter fun ph => ph.Load).Pairwise ElfProgram.Apart) :
    SegmentsHold image phs s' p ↔ LoadsRight image phs supply := by
  have hbyte (ph : ElfProgram) (hph : ph ∈ phs) (hload : ph.Load) (k : Nat) (hk : k < ph.pMemsz) (S : ElfProgram)
      (page : NewPage) (hplace : placeAt phs supply (ph.pVa + k) = some (S, page)) :
      byteAt s' p (ph.pVa + k) = some (ph.wanted image k) ↔
        if ph.pVa + k < S.pVa then image (S.pOffset + pageOffset (ph.pVa + k)) = ph.wanted image k
        else if S.pVa + S.pMemsz ≤ ph.pVa + k then page.contents (pageOffset (ph.pVa + k)) = ph.wanted image k
        else k < ph.pFilesz → image (ph.pOffset + k + pageOffset ph.pVa) = image (ph.pOffset + k) := by
    obtain ⟨hS, hloadS, hcovers⟩ := placeAt_segment hplace
    have hlt : ph.pVa + k < memsizeVirtual := Nat.lt_of_lt_of_le (Nat.add_lt_add_left hk _) (hbounds ph hph hload).2
    rw [h.byteAt T hlt hplace, Option.some.injEq]
    apply segmentByte_wanted hcovers (hbounds S hS hloadS).1
    intro hle hend
    by_contra hne
    have hapart := hdisj.forall (List.mem_filter.mpr ⟨hS, decide_eq_true hloadS⟩)
      (List.mem_filter.mpr ⟨hph, decide_eq_true hload⟩) hne
    exact Set.disjoint_left.mp hapart ⟨hle, hend⟩ ⟨Nat.le_add_right _ _, Nat.add_lt_add_left hk _⟩
  constructor
  · exact fun hold ph hph hload k hk S page hplace => (hbyte ph hph hload k hk S page hplace).mp (hold ph hph hload k hk)
  · intro hright ph hph hload k hk
    obtain ⟨S, page, hplace⟩ := h.placed (segmentsAt_of_mem hph hload (ElfProgram.covers_of_lt hk))
    exact (hbyte ph hph hload k hk S page hplace).mpr (hright ph hph hload k hk S page hplace)

/-- Segments that start at pages and share none are loaded right. -/
theorem loadsRight_of_aligned (haligned : ∀ ph ∈ phs, ph.Load → pageOffset ph.pVa = 0)
    (halone : ∀ a, (segmentsAt phs a).length ≤ 1) : LoadsRight image phs supply := by
  intro ph hph hload k hk S page hplace
  obtain ⟨hS, hloadS, hcovers⟩ := placeAt_segment hplace
  have hmem : S ∈ segmentsAt phs (ph.pVa + k) := List.mem_filter.mpr ⟨hS, decide_eq_true ⟨hloadS, hcovers⟩⟩
  have hmem' : ph ∈ segmentsAt phs (ph.pVa + k) :=
    List.mem_filter.mpr ⟨hph, decide_eq_true ⟨hload, ElfProgram.covers_of_lt hk⟩⟩
  obtain ⟨only, honly⟩ := List.length_eq_one_iff.mp
    (Nat.le_antisymm (halone (ph.pVa + k)) (List.length_pos_of_mem hmem))
  rw [honly, List.mem_singleton] at hmem hmem'
  obtain rfl : S = ph := hmem.trans hmem'.symm
  rw [if_neg (Nat.not_lt.mpr (Nat.le_add_right _ _)), if_neg (Nat.not_le.mpr (Nat.add_lt_add_left hk _)),
    haligned S hS hloadS]
  exact fun _ => rfl

end Bytes

section ProgramLoad

/-- The bytes are right after `program_load` of both kernels if and only if the layout of the segments makes them so. -/
theorem load_holds_iff (k : Symbols) (ramimages : List RamImage) (eh : RamImage) (p : Nat) (programnumber : Int)
    (s s' : Machine) (supply : List (Option NewPage)) (rip : Option Nat) (R : Ready s p supply)
    (himage : ramimages[programnumber.toNat]? = some eh)
    (hbounds : ∀ ph ∈ eh.programs, ph.Load → ph.pFilesz ≤ ph.pMemsz ∧ ph.pVa + ph.pMemsz ≤ memsizeVirtual)
    (hdisj : (eh.programs.filter fun ph => ph.Load).Pairwise ElfProgram.Apart)
    (hrun : programLoad k ramimages p programnumber s supply = some (0, rip, s') ∨
      RustKernel.programLoad k ramimages p programnumber s supply = some (0, rip, s')) :
    SegmentsHold eh.byte eh.programs s' p ↔ LoadsRight eh.byte eh.programs supply := by
  obtain ⟨s₁, maxEndMem, hsegs, -, rfl⟩ := hrun.elim
    (fun hrun => programLoadWith_spec (fun _ _ _ _ _ _ => rfl) R hbounds himage hrun)
    fun hrun => programLoadWith_spec (fun _ _ _ _ _ h => RustKernel.virtualMemoryMap_eq h) R hbounds himage hrun
  rw [← segmentsHold_iff R.tree hsegs hbounds hdisj]
  have hbyte (a : Nat) : byteAt (s₁.startHeap p (roundUp maxEndMem pageSize)) p a = byteAt s₁ p a := by
    rw [byteAt, startHeap_proc]
    rfl
  simp only [SegmentsHold, hbyte]

theorem twoSegments_apart {va : Nat} (h : 0x100001 ≤ va) :
    ((twoSegments va).programs.filter fun ph => ph.Load).Pairwise ElfProgram.Apart := by
  refine List.Pairwise.sublist List.filter_sublist (List.pairwise_pair.mpr ?_)
  exact Set.disjoint_left.mpr fun x hx hx' => absurd (Nat.lt_of_lt_of_le hx.2 h) (Nat.not_lt.mpr hx'.1)

theorem twoSegments_alone (a : Nat) : (segmentsAt (twoSegments 0x101000).programs a).length ≤ 1 := by
  have hpage : pageSize = 4096 := rfl
  have hsplit : segmentsAt (twoSegments 0x101000).programs a =
      segmentsAt [codeSegment] a ++ segmentsAt [dataSegment 0x101000] a :=
    List.filter_append [codeSegment] [dataSegment 0x101000]
  rw [hsplit]
  by_cases ha : a < 0x101000
  · have hdata : segmentsAt [dataSegment 0x101000] a = [] := by
      refine segmentsAt_nil fun ph hph _ hcovers => ?_
      rw [List.mem_singleton.mp hph] at hcovers
      exact Nat.not_le.mpr ha hcovers.1
    rw [hdata, List.append_nil]
    exact List.length_filter_le _ _
  · have hcode : segmentsAt [codeSegment] a = [] := by
      refine segmentsAt_nil fun ph hph _ hcovers => ?_
      rw [List.mem_singleton.mp hph] at hcovers
      have hlt := hcovers.2
      simp only [roundDown, hpage, codeSegment] at hlt
      omega
    rw [hcode, List.nil_append]
    exact List.length_filter_le _ _

theorem bootProcess_runs (va : Nat) (b : Option UInt8)
    (hrun : (programLoad bootSymbols [twoSegments va] 1 0 bootProcess twoPages).map
      (fun c => (c.1, byteAt c.2.2 1 va)) = some (0, b)) :
    ∃ rip s', programLoad bootSymbols [twoSegments va] 1 0 bootProcess twoPages = some (0, rip, s') ∧ byteAt s' 1 va = b := by
  obtain ⟨⟨r, rip, s'⟩, hload, hr⟩ := Option.map_eq_some_iff.mp hrun
  obtain ⟨rfl, hbyte⟩ := Prod.mk.inj hr
  exact ⟨rip, s', hload, hbyte⟩

theorem aligned_segments_hold : ∃ s', SegmentsHold (twoSegments 0x101000).byte (twoSegments 0x101000).programs s' 1 := by
  obtain ⟨rip, s', hload, -⟩ := bootProcess_runs 0x101000 (some 0) (by decide +kernel)
  exact ⟨s', (load_holds_iff bootSymbols [twoSegments 0x101000] (twoSegments 0x101000) 1 0 bootProcess s' twoPages rip
    bootProcess_ready rfl (by decide) (twoSegments_apart (by decide)) (.inl hload)).mpr
      (loadsRight_of_aligned (by decide) twoSegments_alone)⟩

/-- The data of a segment that does not start at a page are moved to the start of its page. -/
theorem unaligned_segment_moved : ¬∀ (k : Symbols) (ramimages : List RamImage) (eh : RamImage) (p : Nat)
    (programnumber : Int) (s s' : Machine) (supply : List (Option NewPage)) (rip : Option Nat), Ready s p supply →
    ramimages[programnumber.toNat]? = some eh →
    (∀ ph ∈ eh.programs, ph.Load →
      ph.pFilesz ≤ ph.pMemsz ∧ procStartAddr ≤ ph.pVa ∧ ph.pVa + ph.pMemsz ≤ memsizeVirtual - pageSize) →
    (eh.programs.filter fun ph => ph.Load).Pairwise ElfProgram.Apart →
    programLoad k ramimages p programnumber s supply = some (0, rip, s') → SegmentsHold eh.byte eh.programs s' p := by
  intro hclaim
  obtain ⟨rip, s', hload, hbyte⟩ := bootProcess_runs 0x101001 (some 1) (by decide +kernel)
  have hold := hclaim bootSymbols [twoSegments 0x101001] (twoSegments 0x101001) 1 0 bootProcess s' twoPages rip
    bootProcess_ready rfl (by decide) (twoSegments_apart (by decide)) hload (dataSegment 0x101001)
    (List.mem_cons_of_mem _ List.mem_cons_self) rfl 0 (by decide)
  exact absurd (hbyte.symm.trans hold) (by decide)

end ProgramLoad

end WeensyOS.Kernel
