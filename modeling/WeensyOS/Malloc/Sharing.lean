import WeensyOS.CMalloc.Sharing
import WeensyOS.RustMalloc.Sharing

namespace WeensyOS

open ByteMemory ProgramBreak Allocator BreakSharing Runs

/-- In every run in which no request wraps, and in which an allocation extends the
heap only where the heap ends at the program break and the break is aligned,
both allocators tolerate the ranges that the program got from `sbrk`, and every
further call of this kind returns. -/
theorem own_ranges_tolerated (m : Memory) (p : Breaks) (h8 : p.programBreak % 8 = 0) (hpos : 0 < p.programBreak) :
    (∀ s, (CMalloc.process.system CMalloc.Calm).Reachable (CMalloc.fresh m p) s →
      (∃ bs, CMalloc.Tolerant s bs) ∧ ∀ c, CMalloc.process.Allowed CMalloc.Calm s (.call c) →
        ∃ s', CMalloc.process.step s (.call c) = some s') ∧
    ∀ s, (RustMalloc.process.system RustMalloc.Calm).Reachable (RustMalloc.fresh m p) s →
      (∃ bs, RustMalloc.Tolerant s bs) ∧ ∀ c, RustMalloc.process.Allowed RustMalloc.Calm s (.call c) →
        ∃ s', RustMalloc.process.step s (.call c) = some s' := by
  constructor
  · intro s h
    have hinv : CMalloc.simulation.Inv s := (CMalloc.fresh_inv m h8).run h
    exact ⟨CMalloc.tolerant_of_inv hinv, fun c hc => hinv.returns hc⟩
  · intro s h
    have hinv : RustMalloc.simulation.Inv s := (RustMalloc.fresh_inv m h8 hpos).run h
    exact ⟨RustMalloc.tolerant_of_inv hinv, fun c hc => hinv.returns hc⟩

/-- A program that moves the break before its first allocation and again after
its last one, and stores into what it got. -/
theorem early_ranges_tolerated :
    (∃ s, s.own = [⟨0x110030, 100⟩, ⟨0x110000, 16⟩] ∧ s.live = [⟨0x110018, 24, .user⟩] ∧ ∃ bs, CMalloc.Tolerant s bs) ∧
    ∃ s, s.own = [⟨0x111010, 100⟩, ⟨0x110000, 16⟩] ∧ s.live = [⟨0x110020, 24, .user⟩] ∧
      ∃ bs, RustMalloc.Tolerant s bs := by
  constructor
  · obtain ⟨s, hreach, hown, hlive⟩ := System.reachable_of_any (M := CMalloc.process.system CMalloc.Calm)
      (CMalloc.fresh (fun _ => 0) sampleBreaks)
      [.sbrk 16, .store 0x110008 255, .call (.malloc 24), .sbrk 100, .store 0x110030 255]
      (P := fun s => s.own = [⟨0x110030, 100⟩, ⟨0x110000, 16⟩] ∧ s.live = [⟨0x110018, 24, .user⟩])
      (by decide +kernel)
    exact ⟨s, hown, hlive, ((own_ranges_tolerated _ _ (by decide) (by decide)).1 s hreach).1⟩
  · obtain ⟨s, hreach, hown, hlive⟩ := System.reachable_of_any (M := RustMalloc.process.system RustMalloc.Calm)
      (RustMalloc.fresh (fun _ => 0) sampleBreaks)
      [.sbrk 16, .store 0x110008 255, .call (.malloc 24), .sbrk 100, .store 0x111010 255]
      (P := fun s => s.own = [⟨0x111010, 100⟩, ⟨0x110000, 16⟩] ∧ s.live = [⟨0x110020, 24, .user⟩])
      (by decide +kernel)
    exact ⟨s, hown, hlive, ((own_ranges_tolerated _ _ (by decide) (by decide)).2 s hreach).1⟩

/-- Without the condition: the second block of the C library lies in the range
that the program got in between, and three bytes before the first allocation
misalign the blocks of the Rust library. -/
theorem later_ranges_overlap :
    (∃ s, (CMalloc.process.system CMalloc.SizeBound).Reachable (CMalloc.fresh (fun _ => 0) sampleBreaks) s ∧
      ¬∃ bs, CMalloc.Tolerant s bs) ∧
    ∃ s, (RustMalloc.process.system RustMalloc.SizeBound).Reachable
      (RustMalloc.fresh (fun _ => 0) sampleBreaks) s ∧ ¬∃ bs, RustMalloc.Tolerant s bs := by
  constructor
  · obtain ⟨s, hreach, hown, hlive⟩ := System.reachable_of_any (M := CMalloc.process.system CMalloc.SizeBound)
      (CMalloc.fresh (fun _ => 0) sampleBreaks) [.call (.malloc 8), .sbrk 100, .call (.malloc 8)]
      (P := fun s => (⟨0x110010, 100⟩ : Range) ∈ s.own ∧ (⟨0x110018, 8, .user⟩ : Alloc) ∈ s.live) (by decide +kernel)
    refine ⟨s, hreach, fun ⟨bs, h⟩ => ?_⟩
    obtain ⟨-, -, b, -, hroom, hout⟩ := h.live _ hlive
    simp only at hroom
    exact hout _ hown 0x110018 (by decide) (by simp only; omega) ⟨by decide, by decide⟩
  · obtain ⟨s, hreach, hlive⟩ := System.reachable_of_any (M := RustMalloc.process.system RustMalloc.SizeBound)
      (RustMalloc.fresh (fun _ => 0) sampleBreaks) [.sbrk 3, .call (.malloc 8)]
      (P := fun s => (⟨0x110013, 8, .user⟩ : Alloc) ∈ s.live) (by decide +kernel)
    refine ⟨s, hreach, fun ⟨bs, h⟩ => ?_⟩
    have hmod := (h.live _ hlive).1
    exact absurd hmod (by decide)

end WeensyOS
