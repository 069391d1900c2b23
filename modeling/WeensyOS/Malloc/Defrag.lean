import WeensyOS.CMalloc.Runs
import WeensyOS.RustMalloc.Runs

namespace WeensyOS

open ByteMemory Tiling Tiling.Layout BlockHeap ProgramBreak

/-- The block states that both allocators have, whatever their codes. -/
inductive BlockKind
  | free
  | internal
  | used
  deriving DecidableEq

def BlockKind.isFree (k : BlockKind) : Bool := decide (k = .free)

def CMalloc.BlockHeader.kind (b : CMalloc.BlockHeader) : BlockKind :=
  if b.state = CMalloc.BlockState.free.code then .free
  else if b.state = CMalloc.BlockState.used.code then .used else .internal

def RustMalloc.Header.kind (b : RustMalloc.Header) : BlockKind :=
  if b.state = RustMalloc.BlockState.free.code then .free
  else if b.state = RustMalloc.BlockState.used.code then .used else .internal

/-- The states and sizes of a list of blocks. -/
def shape {B : Type*} (F : Format B) (kind : B → BlockKind) (bs : List B) : List (BlockKind × Nat) :=
  bs.map fun b => (kind b, F.size b)

/-- The heap with blocks `bs'` is the one with blocks `bs`, in which every maximal
run of free blocks has become one. -/
structure Defragmented {B : Type*} (F : Format B) (kind : B → BlockKind) (m : Memory) (s : Nat) (bs : List B)
    (m' : Memory) (s' : Nat) (bs' : List B) : Prop where
  runs : shape F kind bs' = mergeRuns BlockKind.isFree (shape F kind bs)
  busy : ∀ a b, kind b ≠ .free → (F.At s bs a b ↔ F.At s' bs' a b) ∧
    (F.At s bs a b → ∀ x, a + F.width ≤ x → x < a + F.size b → m' x = m x)
  total : F.total bs' = F.total bs
  separated : bs'.IsChain fun b c => ¬(kind b = .free ∧ kind c = .free)
  single : bs ≠ [] → (∀ b ∈ bs, kind b = .free) → ∃ b, bs' = [b] ∧ kind b = .free

theorem CMalloc.kind_free (b : CMalloc.BlockHeader) : b.kind = .free ↔ CMalloc.merging.free b = true := by
  constructor
  · intro hkind
    apply decide_eq_true
    by_contra hfree
    rw [CMalloc.BlockHeader.kind, if_neg hfree] at hkind
    split at hkind <;> cases hkind
  · intro hfree
    exact if_pos (of_decide_eq_true hfree)

theorem RustMalloc.kind_free (b : RustMalloc.Header) : b.kind = .free ↔ RustMalloc.merging.free b = true := by
  constructor
  · intro hkind
    apply decide_eq_true
    by_contra hfree
    rw [RustMalloc.Header.kind, if_neg hfree] at hkind
    split at hkind <;> cases hkind
  · intro hfree
    exact if_pos (of_decide_eq_true hfree)

section Coalesced

variable {B : Type*} {F : Format B} {M : Merging F} {kind : B → BlockKind} {m m' : Memory} {s s' : Nat} {bs : List B}

/-- What the coalescing of the library says, in terms of block kinds. -/
theorem Defragmented.of_coalesce (hfree : ∀ b, kind b = .free ↔ M.free b = true)
    (hkind : ∀ b n, kind (M.withSize b n) = kind b) (hbusy : ∀ b, kind b ≠ .free → F.busy b)
    (hkeeps : F.Keeps (fun _ b => F.busy b) m s bs m' s' (M.coalesce bs)) :
    Defragmented F kind m s bs m' s' (M.coalesce bs) where
  runs := by
    apply M.coalesce_shape
    · intro b
      rw [BlockKind.isFree, Bool.eq_iff_iff, decide_eq_true_iff]
      exact hfree b
    · exact hkind
  busy := by
    intro a b hb
    exact hkeeps a b (hbusy b hb)
  total := M.coalesce_total bs
  separated := by
    apply (M.coalesce_separated bs).imp
    intro b c hbc hboth
    exact hbc ⟨(hfree b).mp hboth.1, (hfree c).mp hboth.2⟩
  single := by
    intro hne hall
    obtain ⟨b, hb, hb', -⟩ := M.coalesce_all_free hne fun b hb => (hfree b).mp (hall b hb)
    exact ⟨b, hb, (hfree b).mpr hb'⟩

end Coalesced

theorem CMalloc.defrag_runs {s : CMalloc.Heap} {bs : List CMalloc.BlockHeader} (h : CMalloc.WellFormed s bs) :
    ∃ s' bs', CMalloc.defrag s = some s' ∧ CMalloc.WellFormed s' bs' ∧
      Defragmented CMalloc.format CMalloc.BlockHeader.kind s.mem s.managedMemoryStart bs s'.mem s'.managedMemoryStart bs' ∧
      CMalloc.defrag s' = some s' := by
  obtain ⟨m', hrun, hwf, hkeeps⟩ := CMalloc.defrag_spec h
  refine ⟨_, _, hrun, hwf, ?_, CMalloc.defrag_idle hwf (CMalloc.merging.coalesce_separated bs)⟩
  apply Defragmented.of_coalesce CMalloc.kind_free
  · intro b n
    rfl
  · intro b hb hfree
    exact hb (if_pos hfree)
  · exact hkeeps

theorem RustMalloc.defrag_runs {s : RustMalloc.Heap} {bs : List RustMalloc.Header} (h : RustMalloc.WellFormed s bs) :
    ∃ s' bs', RustMalloc.defrag s = some s' ∧ RustMalloc.WellFormed s' bs' ∧
      Defragmented RustMalloc.format RustMalloc.Header.kind s.mem s.heapStart bs s'.mem s'.heapStart bs' ∧
      RustMalloc.defrag s' = some s' := by
  obtain ⟨s', hrun, hwf, hkeeps, hstart⟩ := RustMalloc.defrag_spec h
  refine ⟨_, _, hrun, hwf, ?_, RustMalloc.defrag_idle hwf hstart (RustMalloc.merging.coalesce_separated bs)⟩
  apply Defragmented.of_coalesce RustMalloc.kind_free
  · intro b n
    rfl
  · intro b hb hfree
    exact hb (if_pos hfree)
  · exact hkeeps

/-- `defrag` merges exactly the maximal free runs, in both allocators, and both
make the same list of states and sizes of the same one. -/
theorem defrag_merges_runs :
    (∀ s bs, CMalloc.WellFormed s bs → ∃ s' bs', CMalloc.defrag s = some s' ∧ CMalloc.WellFormed s' bs' ∧
      Defragmented CMalloc.format CMalloc.BlockHeader.kind s.mem s.managedMemoryStart bs s'.mem
        s'.managedMemoryStart bs' ∧ CMalloc.defrag s' = some s') ∧
    (∀ s bs, RustMalloc.WellFormed s bs → ∃ s' bs', RustMalloc.defrag s = some s' ∧ RustMalloc.WellFormed s' bs' ∧
      Defragmented RustMalloc.format RustMalloc.Header.kind s.mem s.heapStart bs s'.mem s'.heapStart bs' ∧
      RustMalloc.defrag s' = some s') ∧
    ∀ s bs t cs s' bs' t' cs', CMalloc.WellFormed s bs → RustMalloc.WellFormed t cs →
      shape CMalloc.format CMalloc.BlockHeader.kind bs = shape RustMalloc.format RustMalloc.Header.kind cs →
      CMalloc.defrag s = some s' → CMalloc.WellFormed s' bs' →
      RustMalloc.defrag t = some t' → RustMalloc.WellFormed t' cs' →
      shape CMalloc.format CMalloc.BlockHeader.kind bs' = shape RustMalloc.format RustMalloc.Header.kind cs' := by
  refine ⟨fun s bs => CMalloc.defrag_runs, fun s bs => RustMalloc.defrag_runs, ?_⟩
  intro s bs t cs s' bs' t' cs' hs ht hsame hrun hs' hrun' ht'
  obtain ⟨s₁, bs₁, hrun₁, hwf₁, hd₁, -⟩ := CMalloc.defrag_runs hs
  obtain ⟨t₁, cs₁, hrun₂, hwf₂, hd₂, -⟩ := RustMalloc.defrag_runs ht
  obtain rfl : s₁ = s' := Option.some.inj (hrun₁.symm.trans hrun)
  obtain rfl : t₁ = t' := Option.some.inj (hrun₂.symm.trans hrun')
  obtain rfl : bs₁ = bs' := hwf₁.blocks_unique hs'
  obtain rfl : cs₁ = cs' := hwf₂.region.blocks_unique ht'.region
  rw [hd₁.runs, hd₂.runs, hsame]

open Allocator in
/-- Four blocks of 1024 bytes, of which the third is in use: the two before it become one, the one behind it stays. -/
theorem freed_blocks_merge : ∃ s bs t cs, CMalloc.WellFormed s bs ∧ RustMalloc.WellFormed t cs ∧
    shape CMalloc.format CMalloc.BlockHeader.kind bs = [(.free, 1024), (.free, 1024), (.used, 1024), (.free, 1024)] ∧
    shape RustMalloc.format RustMalloc.Header.kind cs = [(.free, 1024), (.free, 1024), (.used, 1024), (.free, 1024)] ∧
    ∃ s' bs' t' cs', CMalloc.defrag s = some s' ∧ CMalloc.WellFormed s' bs' ∧ RustMalloc.defrag t = some t' ∧
      RustMalloc.WellFormed t' cs' ∧
      shape CMalloc.format CMalloc.BlockHeader.kind bs' = [(.free, 2048), (.used, 1024), (.free, 1024)] ∧
      shape CMalloc.format CMalloc.BlockHeader.kind bs' = shape RustMalloc.format RustMalloc.Header.kind cs' := by
  obtain ⟨s, hs, hstart, hlast, h₁, h₂, h₃, h₄⟩ := Interface.reachable_of_any (A := CMalloc.library) CMalloc.SizeBound
    (CMalloc.start (fun _ => 0) sampleBreaks)
    [.call (.malloc 1016), .call (.malloc 1016), .call (.malloc 1016), .call (.malloc 1016), .call (.free 0x110008),
      .call (.free 0x110408), .call (.free 0x110C08)]
    (P := fun s => s.heap.managedMemoryStart = 0x110000 ∧ s.heap.lastValidAddress = 0x111000 ∧
      CMalloc.headerAt s.heap.mem 0x110000 = ⟨0, 0, 1024⟩ ∧ CMalloc.headerAt s.heap.mem 0x110400 = ⟨0, 0, 1024⟩ ∧
        CMalloc.headerAt s.heap.mem 0x110800 = ⟨2, 0, 1024⟩ ∧ CMalloc.headerAt s.heap.mem 0x110C00 = ⟨0, 0, 1024⟩)
    (by decide +kernel)
  obtain ⟨t, ht, hstart', hend', h₁', h₂', h₃', h₄'⟩ := Interface.reachable_of_any (A := RustMalloc.library)
    RustMalloc.SizeBound (RustMalloc.start (fun _ => 0) sampleBreaks)
    [.call (.malloc 1008), .call (.malloc 1008), .call (.malloc 1008), .call (.free 0x110010), .call (.free 0x110410)]
    (P := fun t => t.heap.heapStart = 0x110000 ∧ t.heap.heapEnd = 0x111000 ∧
      RustMalloc.headerAt t.heap.mem 0x110000 = ⟨0, 1024⟩ ∧ RustMalloc.headerAt t.heap.mem 0x110400 = ⟨0, 1024⟩ ∧
        RustMalloc.headerAt t.heap.mem 0x110800 = ⟨1, 1024⟩ ∧ RustMalloc.headerAt t.heap.mem 0x110C00 = ⟨0, 1024⟩)
    (by decide +kernel)
  obtain ⟨bs, hwf⟩ := (CMalloc.reach_inv (by decide) hs).wf
  obtain ⟨cs, hwf'⟩ := (RustMalloc.reach_inv (by decide) (by decide) ht).wf
  have hbs : CMalloc.WellFormed s.heap [⟨0, 0, 1024⟩, ⟨0, 0, 1024⟩, ⟨2, 0, 1024⟩, ⟨0, 0, 1024⟩] := by
    refine ⟨?_, ?_, hwf.last_eq, hwf.unused, hwf.aligned⟩
    · rw [hstart, hlast]
      exact ⟨h₁, h₂, h₃, h₄, rfl⟩
    · have hfree : CMalloc.BlockHeader.Valid ⟨0, 0, 1024⟩ := ⟨⟨.free, rfl⟩, rfl, by decide, by decide⟩
      have hused : CMalloc.BlockHeader.Valid ⟨2, 0, 1024⟩ := ⟨⟨.used, rfl⟩, rfl, by decide, by decide⟩
      simp [hfree, hused]
  have hcs : RustMalloc.WellFormed t.heap [⟨0, 1024⟩, ⟨0, 1024⟩, ⟨1, 1024⟩, ⟨0, 1024⟩] := by
    refine ⟨⟨?_, ?_⟩, hwf'.end_eq, hwf'.unused, hwf'.aligned, hwf'.break_pos⟩
    · rw [hstart', hend']
      exact ⟨h₁', h₂', h₃', h₄', rfl⟩
    · have hfree : RustMalloc.Header.Valid ⟨0, 1024⟩ := ⟨⟨.free, rfl⟩, by decide, by decide⟩
      have hused : RustMalloc.Header.Valid ⟨1, 1024⟩ := ⟨⟨.used, rfl⟩, by decide, by decide⟩
      simp [RustMalloc.format, hfree, hused]
  obtain ⟨s', bs', hrun, hs', hd, -⟩ := defrag_merges_runs.1 _ _ hbs
  obtain ⟨t', cs', hrun', ht', -⟩ := defrag_merges_runs.2.1 _ _ hcs
  exact ⟨_, _, _, _, hbs, hcs, rfl, rfl, s', bs', t', cs', hrun, hs', hrun', ht', hd.runs.trans (by decide),
    defrag_merges_runs.2.2 _ _ _ _ s' bs' t' cs' hbs hcs rfl hrun hs' hrun' ht'⟩

/-- A heap without any block has no live block, and it does not become a free block. -/
theorem empty_heap_stays_empty : ∃ s, CMalloc.WellFormed s [] ∧
    ∃ s', CMalloc.defrag s = some s' ∧ ∀ b, ¬CMalloc.WellFormed s' [b] := by
  have hwf : CMalloc.WellFormed (CMalloc.start (fun _ => 0) sampleBreaks).heap [] :=
    ⟨rfl, by simp, (fun hi => by cases hi), fun _ => ⟨rfl, rfl⟩, by decide⟩
  obtain ⟨s', bs', hrun, hwf', hd, -⟩ := CMalloc.defrag_runs hwf
  refine ⟨_, hwf, s', hrun, ?_⟩
  intro b hb
  obtain rfl := hwf'.blocks_unique hb
  have htotal := hd.total
  have hpos := hb.positive b List.mem_cons_self
  rw [total_cons, total_nil] at htotal
  exact absurd htotal (Nat.ne_of_gt hpos)

end WeensyOS
