import WeensyOS.Kernel.HeapMemory
import WeensyOS.Kernel.SegmentLoad
import Mathlib.Order.Bounds.Defs

namespace WeensyOS.Kernel

open ByteMemory LibC Loop ProgramBreak

variable {s s' s₁ : Machine} {p a : Nat} {used : List NewPage} {supply rest : List (Option NewPage)}
  {map : MapFunction} {image : Nat → UInt8} {ph : ElfProgram} {phs : List ElfProgram}

namespace ElfProgram

def Load (ph : ElfProgram) : Prop := ph.pType = elfPtypeLoad

instance (ph : ElfProgram) : Decidable ph.Load := inferInstanceAs (Decidable (_ = _))

/-- The address is on one of the pages of the segment. -/
def Covers (ph : ElfProgram) (a : Nat) : Prop :=
  roundDown ph.pVa pageSize ≤ a ∧ roundDown a pageSize < ph.pVa + ph.pMemsz

instance (ph : ElfProgram) (a : Nat) : Decidable (ph.Covers a) := inferInstanceAs (Decidable (_ ∧ _))

end ElfProgram

/-- The segments that the page of the address belongs to. -/
def segmentsAt (phs : List ElfProgram) (a : Nat) : List ElfProgram := phs.filter fun ph => ph.Load ∧ ph.Covers a

/-- The loadable segments have been loaded one after the other, on the pages of the supply. -/
inductive SegmentsLoaded (image : Nat → UInt8) (p : Nat) :
    List ElfProgram → List (Option NewPage) → Machine → Machine → Prop
  | nil (supply : List (Option NewPage)) (s : Machine) : SegmentsLoaded image p [] supply s s
  | skip {ph : ElfProgram} {phs : List ElfProgram} {supply : List (Option NewPage)} {s s' : Machine} (hskip : ¬ph.Load)
      (h : SegmentsLoaded image p phs supply s s') : SegmentsLoaded image p (ph :: phs) supply s s'
  | load {ph : ElfProgram} {phs : List ElfProgram} {used : List NewPage} {rest : List (Option NewPage)}
      {s s₁ s' : Machine} (hload : ph.Load) (R : Ready s p (used.map some ++ rest))
      (hseg : SegmentLoaded image ph s s₁ p used) (h : SegmentsLoaded image p phs rest s₁ s') :
      SegmentsLoaded image p (ph :: phs) (used.map some ++ rest) s s'

section Cover

theorem SegmentLoaded.covers_iff (h : SegmentLoaded image ph s s' p used) :
    ph.Covers a ↔ roundDown ph.pVa pageSize ≤ a ∧ a < roundDown ph.pVa pageSize + pageSize * used.length := by
  have hpage : pageSize = 4096 := rfl
  have hva := roundDown_mod ph.pVa
  apply and_congr_right
  intro ha
  have hdown : roundDown a pageSize = roundDown ph.pVa pageSize + pageSize * ((a - roundDown ph.pVa pageSize) / pageSize) := by
    rw [hpage] at hva ha ⊢
    rw [roundDown]
    omega
  rw [hdown, ← h.cover, hpage]
  rw [hpage] at ha
  omega

theorem SegmentLoaded.page (h : SegmentLoaded image ph s s' p used) (ha : ph.Covers a) :
    ∃ page, used[(a - roundDown ph.pVa pageSize) / pageSize]? = some page ∧
      leafEntry s'.mem (s.processes p).pPagetable a = some (leafValue (page.number * pageSize) (segmentPerm ph)) := by
  have hpage : pageSize = 4096 := rfl
  have hva := roundDown_mod ph.pVa
  obtain ⟨hle, hlt⟩ := h.covers_iff.mp ha
  have hindex : (a - roundDown ph.pVa pageSize) / pageSize < used.length := by
    rw [hpage] at hlt ⊢
    rw [hpage] at hle
    omega
  have hsame : a / 4096 = (roundDown ph.pVa pageSize + pageSize * ((a - roundDown ph.pVa pageSize) / pageSize)) / 4096 := by
    rw [hpage] at hva hle ⊢
    omega
  refine ⟨_, List.getElem?_eq_getElem hindex, ?_⟩
  rw [leafEntry_page hsame]
  exact h.new _ _ (List.getElem?_eq_getElem hindex)

theorem SegmentLoaded.elsewhere (h : SegmentLoaded image ph s s' p used) (hlt : a < memsizeVirtual) (ha : ¬ph.Covers a) :
    leafEntry s'.mem (s.processes p).pPagetable a = leafEntry s.mem (s.processes p).pPagetable a := by
  rw [h.covers_iff] at ha
  exact h.old a hlt (by omega)

end Cover

namespace SegmentsLoaded

theorem processes (h : SegmentsLoaded image p phs supply s s') : s'.processes = s.processes := by
  induction h with
  | nil => rfl
  | skip _ _ ih => exact ih
  | load _ _ hseg _ ih => exact ih.trans hseg.processes

theorem upper (h : SegmentsLoaded image p phs supply s s') :
    SameUpper s.mem s'.mem (s.processes p).pPagetable memsizeVirtual := by
  induction h with
  | nil => exact SameUpper.refl _ _ _
  | skip _ _ ih => exact ih
  | load _ _ hseg _ ih =>
      rw [hseg.processes] at ih
      exact hseg.upper.trans ih

theorem elsewhere (h : SegmentsLoaded image p phs supply s s') (hlt : a < memsizeVirtual) (ha : segmentsAt phs a = []) :
    leafEntry s'.mem (s.processes p).pPagetable a = leafEntry s.mem (s.processes p).pPagetable a := by
  induction h with
  | nil => rfl
  | @skip ph phs _ _ _ hskip _ ih =>
      have hnot : ¬(ph.Load ∧ ph.Covers a) := fun h => hskip h.1
      rw [segmentsAt, List.filter_cons_of_neg (by simpa using hnot)] at ha
      exact ih ha
  | @load ph phs _ _ _ _ _ hload _ hseg _ ih =>
      have hnot : ¬ph.Covers a := by
        intro hcovers
        rw [segmentsAt, List.filter_cons_of_pos (by simpa using ⟨hload, hcovers⟩)] at ha
        cases ha
      rw [segmentsAt, List.filter_cons_of_neg (by simpa using fun _ => hnot)] at ha
      rw [hseg.processes] at ih
      exact (ih ha).trans (hseg.elsewhere hlt hnot)

theorem single (h : SegmentsLoaded image p phs supply s s') (hlt : a < memsizeVirtual) (ha : segmentsAt phs a = [ph]) :
    ∃ pn < npages, leafEntry s'.mem (s.processes p).pPagetable a = some (leafValue (pn * pageSize) (segmentPerm ph)) := by
  induction h with
  | nil => cases ha
  | @skip ph' phs _ _ _ hskip _ ih =>
      have hnot : ¬(ph'.Load ∧ ph'.Covers a) := fun h => hskip h.1
      rw [segmentsAt, List.filter_cons_of_neg (by simpa using hnot)] at ha
      exact ih ha
  | @load ph' phs _ _ _ _ _ hload R hseg hrest ih =>
      by_cases hcovers : ph'.Covers a
      · rw [segmentsAt, List.filter_cons_of_pos (by simpa using ⟨hload, hcovers⟩)] at ha
        obtain ⟨rfl, hnone⟩ := List.cons.inj ha
        obtain ⟨page, hget, hleaf⟩ := hseg.page hcovers
        have hkept := hrest.elsewhere hlt hnone
        rw [hseg.processes] at hkept
        exact ⟨page.number, R.lt_npages (List.mem_of_getElem? hget), hkept.trans hleaf⟩
      · rw [segmentsAt, List.filter_cons_of_neg (by simpa using fun _ => hcovers)] at ha
        rw [hseg.processes] at ih
        exact ih ha

end SegmentsLoaded

section Run

variable {r : Int} {k : Symbols} {maxEndMem maxEndMem' : Nat}

/-- `max_end_mem` is the largest end of a segment. -/
structure LargestEnd (phs : List ElfProgram) (first last : Nat) : Prop where
  first_le : first ≤ last
  le : ∀ ph ∈ phs, ph.Load → ph.pVa + ph.pMemsz ≤ last
  mem : last = first ∨ ∃ ph ∈ phs, ph.Load ∧ ph.pVa + ph.pMemsz = last

theorem loadSegments_spec (hmap : MapsPages map) (R : Ready s p supply)
    (hbounds : ∀ ph ∈ phs, ph.Load → ph.pFilesz ≤ ph.pMemsz ∧ ph.pVa + ph.pMemsz ≤ memsizeVirtual)
    (hrun : loadSegments map k image p phs maxEndMem s supply = some (r, maxEndMem', s')) :
    r = -1 ∨ r = 0 ∧ SegmentsLoaded image p phs supply s s' ∧ LargestEnd phs maxEndMem maxEndMem' := by
  induction phs generalizing s supply maxEndMem with
  | nil =>
      cases hrun
      exact .inr ⟨rfl, .nil _ _, Nat.le_refl _, fun _ h => absurd h List.not_mem_nil, .inl rfl⟩
  | cons ph phs ih =>
      have hbounds' : ∀ ph ∈ phs, ph.Load → ph.pFilesz ≤ ph.pMemsz ∧ ph.pVa + ph.pMemsz ≤ memsizeVirtual :=
        fun ph h => hbounds ph (List.mem_cons_of_mem _ h)
      rw [loadSegments] at hrun
      split at hrun
      case isTrue hload =>
        obtain ⟨⟨r₁, s₁, rest⟩, hseg, hrun⟩ := Option.bind_eq_some_iff.mp hrun
        obtain ⟨hsize, hend⟩ := hbounds ph List.mem_cons_self hload
        rcases programLoadSegmentWith_spec hmap R hsize hend hseg with rfl | ⟨rfl, used, hsupply, hloaded⟩
        · cases hrun
          exact .inl rfl
        · have hV : memsizeVirtual = 3145728 := rfl
          have hend64 : (ph.pVa + ph.pMemsz) % 2 ^ 64 = ph.pVa + ph.pMemsz := Nat.mod_eq_of_lt (by omega)
          have R' := R
          rw [hsupply] at R'
          simp only [hend64] at hrun
          refine (ih (hloaded.ready R') hbounds' hrun).imp id ?_
          rintro ⟨rfl, hrest, hfirst, hle, hmem⟩
          rw [hsupply]
          refine ⟨rfl, .load hload R' hloaded hrest, ?_⟩
          split at hfirst
          case isTrue hlt =>
            rw [if_pos hlt] at hmem
            refine ⟨by omega, ?_, .inr ?_⟩
            · intro ph' hph' hload'
              rcases List.mem_cons.mp hph' with rfl | htail
              · exact hfirst
              · exact hle ph' htail hload'
            · rcases hmem with heq | ⟨ph', htail, hlast⟩
              · exact ⟨ph, List.mem_cons_self, hload, heq.symm⟩
              · exact ⟨ph', List.mem_cons_of_mem _ htail, hlast⟩
          case isFalse hge =>
            rw [if_neg hge] at hmem
            refine ⟨hfirst, ?_, ?_⟩
            · intro ph' hph' hload'
              rcases List.mem_cons.mp hph' with rfl | htail
              · exact Nat.le_trans (Nat.le_of_not_lt hge) hfirst
              · exact hle ph' htail hload'
            · exact hmem.imp id fun ⟨ph', htail, hlast⟩ => ⟨ph', List.mem_cons_of_mem _ htail, hlast⟩
      case isFalse hskip =>
        refine (ih R hbounds' hrun).imp id ?_
        rintro ⟨rfl, hrest, hfirst, hle, hmem⟩
        refine ⟨rfl, .skip hskip hrest, hfirst, ?_, ?_⟩
        · intro ph' hph' hload'
          rcases List.mem_cons.mp hph' with rfl | htail
          · exact absurd hload' hskip
          · exact hle ph' htail hload'
        · exact hmem.imp id fun ⟨ph', htail, hlast⟩ => ⟨ph', List.mem_cons_of_mem _ htail, hlast⟩

end Run

section Lookups

theorem segmentsAt_single (h : segmentsAt phs a = [ph]) : ph ∈ phs ∧ ph.Load ∧ ph.Covers a := by
  have hmem : ph ∈ segmentsAt phs a := by
    rw [h]
    exact List.mem_singleton_self ph
  obtain ⟨hin, hboth⟩ := List.mem_filter.mp hmem
  exact ⟨hin, of_decide_eq_true hboth⟩

theorem segmentsAt_nil (h : ∀ ph ∈ phs, ph.Load → ¬ph.Covers a) : segmentsAt phs a = [] := by
  rw [segmentsAt, List.filter_eq_nil_iff]
  intro ph hph
  rw [decide_eq_true_iff]
  exact fun hboth => h ph hph hboth.1 hboth.2

theorem segmentPerm_ok (ph : ElfProgram) : PagePerm (segmentPerm ph) := by
  rw [segmentPerm]
  split <;> decide

variable (T : Tree s.mem (s.processes p).pPagetable memsizeVirtual) (h : SegmentsLoaded image p phs supply s s')
include T h

theorem SegmentsLoaded.lookup_elsewhere (hlt : a < memsizeVirtual) (ha : segmentsAt phs a = []) :
    virtualMemoryLookup s'.mem (s.processes p).pPagetable a = virtualMemoryLookup s.mem (s.processes p).pPagetable a := by
  rw [(Tree.congr h.upper T).lookup hlt, T.lookup hlt, h.elsewhere hlt ha]

theorem SegmentsLoaded.lookup_single (hlt : a < memsizeVirtual) (ha : segmentsAt phs a = [ph]) :
    (virtualMemoryLookup s'.mem (s.processes p).pPagetable a).perm = segmentPerm ph := by
  obtain ⟨pn, hpn, hleaf⟩ := h.single hlt ha
  rw [(Tree.congr h.upper T).lookup hlt, hleaf, (segmentPerm_ok ph).lookup hpn]

end Lookups

/-- User code may access the address. -/
def UserMapped (s : Machine) (p a : Nat) : Prop :=
  permBits (virtualMemoryLookup s.mem (s.processes p).pPagetable a).perm &&& pteU ≠ 0

/-- A process after its program has been loaded: the heap starts above all segments, where nothing has been mapped,
and a page of one segment has the permissions of this segment. -/
structure HeapAbove (s s' : Machine) (p : Nat) (phs : List ElfProgram) : Prop where
  breaks : (s'.processes p).originalBreak = (s'.processes p).programBreak
  least : IsLeast {b | pageSize ∣ b ∧ ∀ ph ∈ phs, ph.Load → ph.pVa + ph.pMemsz ≤ b} (s'.processes p).programBreak
  below : ∀ a < memsizeVirtual, (s'.processes p).programBreak ≤ a →
    virtualMemoryLookup s'.mem (s'.processes p).pPagetable a = virtualMemoryLookup s.mem (s.processes p).pPagetable a
  heap : ∀ a < memsizeVirtual - pageSize, procStartAddr ≤ a → (s'.processes p).programBreak ≤ a → ¬UserMapped s' p a
  perm : ∀ a ph, segmentsAt phs a = [ph] →
    (virtualMemoryLookup s'.mem (s'.processes p).pPagetable a).perm = if ph.pFlags &&& elfPflagWrite ≠ 0 then 7 else 5

section ProgramLoad

theorem startHeap_proc (s : Machine) (p a : Nat) :
    (s.startHeap p a).processes p = { s.processes p with programBreak := a, originalBreak := a } :=
  Function.update_self _ _ _

theorem startHeap_break (s : Machine) (p a : Nat) : ((s.startHeap p a).processes p).programBreak = a := by
  rw [startHeap_proc]

variable {k : Symbols} {ramimages : List RamImage} {programnumber : Int} {eh : RamImage} {rip : Option Nat}

theorem programLoadWith_spec (hmap : MapsPages map) (R : Ready s p supply)
    (hbounds : ∀ ph ∈ eh.programs, ph.Load → ph.pFilesz ≤ ph.pMemsz ∧ ph.pVa + ph.pMemsz ≤ memsizeVirtual)
    (himage : ramimages[programnumber.toNat]? = some eh)
    (hrun : programLoadWith map k ramimages p programnumber s supply = some (0, rip, s')) :
    ∃ s₁ maxEndMem, SegmentsLoaded eh.byte p eh.programs supply s s₁ ∧ LargestEnd eh.programs 0 maxEndMem ∧
      s' = s₁.startHeap p (roundUp maxEndMem pageSize) := by
  rw [programLoadWith] at hrun
  split at hrun
  case isFalse => cases hrun
  rw [himage, Option.bind_some] at hrun
  split at hrun
  case isFalse => cases hrun
  obtain ⟨⟨r, maxEndMem, s₁⟩, hloop, hdone⟩ := Option.map_eq_some_iff.mp hrun
  rcases loadSegments_spec hmap R hbounds hloop with rfl | ⟨rfl, hsegs, hlargest⟩
  · cases hdone
  · cases hdone
    exact ⟨s₁, maxEndMem, hsegs, hlargest, rfl⟩

theorem programLoadWith_heapAbove (hmap : MapsPages map) (R : Ready s p supply)
    (hbounds : ∀ ph ∈ eh.programs, ph.Load → ph.pFilesz ≤ ph.pMemsz ∧ ph.pVa + ph.pMemsz ≤ memsizeVirtual - pageSize)
    (hempty : ∀ a < memsizeVirtual - pageSize, procStartAddr ≤ a → ¬UserMapped s p a)
    (himage : ramimages[programnumber.toNat]? = some eh)
    (hrun : programLoadWith map k ramimages p programnumber s supply = some (0, rip, s')) :
    HeapAbove s s' p eh.programs := by
  have hpage : pageSize = 4096 := rfl
  have hV : memsizeVirtual = 3145728 := rfl
  obtain ⟨s₁, maxEndMem, hsegs, ⟨-, hle, hmem⟩, rfl⟩ := programLoadWith_spec hmap R
    (fun ph hph hload => (hbounds ph hph hload).imp id fun h => Nat.le_trans h (Nat.sub_le _ _)) himage hrun
  have hproc : (s₁.startHeap p (roundUp maxEndMem pageSize)).processes p =
      { s.processes p with programBreak := roundUp maxEndMem pageSize, originalBreak := roundUp maxEndMem pageSize } := by
    rw [startHeap_proc, hsegs.processes]
  have hbreak : ((s₁.startHeap p (roundUp maxEndMem pageSize)).processes p).programBreak = roundUp maxEndMem pageSize :=
    startHeap_break _ _ _
  have hmax : maxEndMem ≤ memsizeVirtual - pageSize := by
    rcases hmem with rfl | ⟨ph, hph, hload, rfl⟩
    · exact Nat.zero_le _
    · exact (hbounds ph hph hload).2
  have hround : roundUp maxEndMem pageSize = (maxEndMem + 4095) / 4096 * 4096 := roundUp_page (by omega)
  have hnone (a : Nat) (ha : roundUp maxEndMem pageSize ≤ a) : segmentsAt eh.programs a = [] := by
    apply segmentsAt_nil
    rintro ph hph hload ⟨-, hlt⟩
    have hend := hle ph hph hload
    rw [hround] at ha
    rw [roundDown, hpage] at hlt
    omega
  have hsame (a : Nat) (hlt : a < memsizeVirtual) (ha : roundUp maxEndMem pageSize ≤ a) :
      virtualMemoryLookup s₁.mem (s.processes p).pPagetable a = virtualMemoryLookup s.mem (s.processes p).pPagetable a :=
    hsegs.lookup_elsewhere R.tree hlt (hnone a ha)
  have hmemory : (s₁.startHeap p (roundUp maxEndMem pageSize)).mem = s₁.mem := rfl
  refine ⟨?_, ?_, ?_, ?_, ?_⟩
  · rw [hproc]
  · rw [hbreak]
    constructor
    · refine ⟨?_, fun ph hph hload => ?_⟩
      · rw [hround]
        exact Dvd.intro_left _ rfl
      · have hend := hle ph hph hload
        rw [hround]
        omega
    · rintro b ⟨⟨q, rfl⟩, hb⟩
      rw [hround, hpage]
      rcases hmem with rfl | ⟨ph, hph, hload, rfl⟩
      · omega
      · have hend := hb ph hph hload
        rw [hpage] at hend
        omega
  · rw [hbreak, hproc]
    exact hsame
  · intro a ha hstart hle'
    rw [hbreak] at hle'
    rw [UserMapped, hproc, hmemory, hsame a (Nat.lt_of_lt_of_le ha (Nat.sub_le _ _)) hle']
    exact hempty a ha hstart
  · intro a ph hone
    obtain ⟨hph, hload, -, hcovers⟩ := segmentsAt_single hone
    have hend := (hbounds ph hph hload).2
    have hlt : a < memsizeVirtual := by
      rw [roundDown, hpage] at hcovers
      omega
    rw [hproc, hmemory, hsegs.lookup_single R.tree hlt hone, segmentPerm, ite_not]

/-- `program_load` of both kernels places the heap above the segments. -/
theorem load_places_heap (k : Symbols) (ramimages : List RamImage) (eh : RamImage) (p : Nat) (programnumber : Int)
    (s s' : Machine) (supply : List (Option NewPage)) (rip : Option Nat) (R : Ready s p supply)
    (himage : ramimages[programnumber.toNat]? = some eh)
    (hbounds : ∀ ph ∈ eh.programs, ph.Load → ph.pFilesz ≤ ph.pMemsz ∧ ph.pVa + ph.pMemsz ≤ memsizeVirtual - pageSize)
    (hempty : ∀ a < memsizeVirtual - pageSize, procStartAddr ≤ a → ¬UserMapped s p a)
    (hrun : programLoad k ramimages p programnumber s supply = some (0, rip, s') ∨
      RustKernel.programLoad k ramimages p programnumber s supply = some (0, rip, s')) :
    HeapAbove s s' p eh.programs := by
  rcases hrun with hrun | hrun
  · exact programLoadWith_heapAbove (fun _ _ _ _ _ _ => rfl) R hbounds hempty himage hrun
  · exact programLoadWith_heapAbove (fun _ _ _ _ _ h => RustKernel.virtualMemoryMap_eq h) R hbounds hempty himage hrun

end ProgramLoad

/-- The kernel's own table, on pages 6 to 9, next to the tables of process 1. -/
def kernelTable : Memory :=
  setEntry (setEntry (setEntry (setEntry (setEntry (setEntry emptyTables 0x6000 0 0x7003) 0x7000 0 0x8003) 0x8000 0 0x9003)
    0x9000 1 0x1003) 0x9000 6 0x6003) 0x9000 0x40 0x40003

/-- Process 1 sees the kernel's table and its code as well. -/
def bootTables : Memory := setEntry (setEntry kernelTable 0x4000 6 0x6003) 0x4000 0x40 0x40003

def bootProcess : Machine where
  mem := bootTables
  pageinfo pn := if pn < 6 then ⟨1, 1⟩ else if pn < 10 ∨ pn = 0x40 then ⟨poKernel, 1⟩ else ⟨poFree, 0⟩
  processes _ := ⟨0, 0, .free, 0x1000⟩

def bootSymbols : Symbols := ⟨0x40100, 0x6000, 0x40200⟩

def codeSegment : ElfProgram := ⟨1, 5, 0x1000, 0x100000, 1, 1⟩

def dataSegment (va : Nat) : ElfProgram := ⟨1, 6, 0x2000, va, 1, 2⟩

def twoSegments (va : Nat) : RamImage where
  eMagic := elfMagic
  eEntry := 0x100000
  programs := [codeSegment, dataSegment va]
  byte i := UInt8.ofNat i

def twoPages : List (Option NewPage) := [some ⟨0x41, fun _ => 0xCC⟩, some ⟨0x42, fun _ => 0xCC⟩]

section Boot

theorem emptyTables_upper {m : Memory} {t i : Nat} (v : PageEntry) (h : SameUpper emptyTables m 0x1000 memsizeVirtual)
    (hdvd : 4096 ∣ t) (ht : 0x4000 ≤ t) (hi : i < 512) :
    SameUpper emptyTables (setEntry m t i v) 0x1000 memsizeVirtual := by
  refine h.trans fun a ha j hj hr => samePage_setEntry hdvd (tableAt_dvd (by decide) m a j) ?_ hi
  obtain ⟨-, h1, h2, -⟩ := emptyTables_path ha
  have hzero : tableAt emptyTables 0x1000 a 0 = 0x1000 := rfl
  rw [(h.path ha (Nat.le_of_lt hj)).2 ((h.path ha (Nat.le_of_lt hj)).1.mp hr)]
  have hj' : j = 0 ∨ j = 1 ∨ j = 2 := by omega
  rcases hj' with rfl | rfl | rfl <;> omega

theorem kernelTable_upper : SameUpper emptyTables kernelTable 0x1000 memsizeVirtual := by
  repeat first
    | exact SameUpper.refl _ _ _
    | refine emptyTables_upper _ ?_ (by decide) (by decide) (by decide)

theorem bootTables_upper : SameUpper emptyTables bootTables 0x1000 memsizeVirtual :=
  emptyTables_upper _ (emptyTables_upper _ kernelTable_upper (by decide) (by decide) (by decide)) (by decide) (by decide)
    (by decide)

theorem kernelTable_entry {t j : Nat} (hdvd : 4096 ∣ t) (ht : t < 0x6000) (hj : j < 512) :
    entry kernelTable t j = entry emptyTables t j := by
  rw [kernelTable, entry_setEntry (by decide) hdvd (by decide) hj, if_neg (by omega),
    entry_setEntry (by decide) hdvd (by decide) hj, if_neg (by omega), entry_setEntry (by decide) hdvd (by decide) hj,
    if_neg (by omega), entry_setEntry (by decide) hdvd (by decide) hj, if_neg (by omega),
    entry_setEntry (by decide) hdvd (by decide) hj, if_neg (by omega), entry_setEntry (by decide) hdvd (by decide) hj,
    if_neg (by omega)]

theorem bootTables_unmapped (ha : a < memsizeVirtual) (hstart : procStartAddr ≤ a) :
    mappedPage bootTables 0x1000 a = none := by
  have hV : memsizeVirtual = 3145728 := rfl
  have hproc : procStartAddr = 1048576 := rfl
  have hleaf : leafEntry bootTables 0x1000 a = leafEntry emptyTables 0x1000 a := by
    obtain ⟨hr, -, -, htable, -⟩ := emptyTables_path ha
    obtain ⟨hreach, hsame⟩ := bootTables_upper.path ha (Nat.le_refl 3)
    have hdvd : 4096 ∣ 0x4000 + 0x1000 * (a / 2 ^ 21) := by omega
    have hindex := pageIndex_lt a 3
    have hpage := pageIndex_leaf a
    rw [leafEntry, if_pos (hreach.mpr hr), leafEntry, if_pos hr, levelEntry, levelEntry, hsame hr, htable, bootTables,
      entry_setEntry (by decide) hdvd (by decide) hindex, if_neg (by omega),
      entry_setEntry (by decide) hdvd (by decide) hindex, if_neg (by omega), kernelTable_entry hdvd (by omega) hindex]
  exact (mappedPage_congr hleaf).trans (emptyTables_unmapped ha)

theorem bootProcess_empty (ha : a < memsizeVirtual - pageSize) (hstart : procStartAddr ≤ a) : ¬UserMapped bootProcess 1 a := by
  have hunmapped := bootTables_unmapped (Nat.lt_of_lt_of_le ha (Nat.sub_le _ _)) hstart
  have hlookup : virtualMemoryLookup bootProcess.mem (bootProcess.processes 1).pPagetable a = .unmapped :=
    lookup_absent (mappedPage_eq_none.mp hunmapped)
  rw [UserMapped, hlookup]
  decide

theorem bootProcess_ready : Ready bootProcess 1 twoPages where
  tree := Tree.congr bootTables_upper emptyTables_tree
  inUse pn ht := by
    obtain ⟨-, hlt⟩ := freshProcess_table (p := 1) (bootTables_upper.tableAt_iff.mp ht)
    have hinfo : bootProcess.pageinfo pn = ⟨1, 1⟩ := if_pos hlt
    rw [hinfo]
    decide
  free := by
    intro page hpage
    simp only [twoPages, List.mem_cons, List.not_mem_nil, or_false, Option.some.injEq] at hpage
    rcases hpage with rfl | rfl <;> decide
  distinct := by decide

/-- The code and the data of a program are loaded, and its heap starts at the next page. -/
theorem two_segments_load : ∃ s', HeapAbove bootProcess s' 1 (twoSegments 0x101001).programs ∧
    (s'.processes 1).programBreak = 0x102000 := by
  have hrun : (programLoad bootSymbols [twoSegments 0x101001] 1 0 bootProcess twoPages).map
      (fun c => (c.1, (c.2.2.processes 1).programBreak)) = some (0, 0x102000) := by decide +kernel
  obtain ⟨⟨r, rip, s'⟩, hload, hr⟩ := Option.map_eq_some_iff.mp hrun
  obtain ⟨rfl, hbreak⟩ := Prod.mk.inj hr
  exact ⟨s', load_places_heap bootSymbols [twoSegments 0x101001] (twoSegments 0x101001) 1 0 bootProcess s' twoPages rip
    bootProcess_ready rfl (by decide) (fun a ha hstart => bootProcess_empty ha hstart) (.inl hload), hbreak⟩

end Boot

end WeensyOS.Kernel
