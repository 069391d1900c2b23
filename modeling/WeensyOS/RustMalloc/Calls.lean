import WeensyOS.RustMalloc.Malloc
import WeensyOS.Lib.Coalesce

namespace WeensyOS.RustMalloc

open ByteMemory LibC ProgramBreak Tiling Tiling.Layout BlockHeap

variable {s s' : Heap} {bs bs' xs ys : List Header} {a n num sz p : Nat} {b : Header}

@[simp] theorem free_none (s : Heap) : free 0 s = s := if_pos rfl

theorem free_eq (h : WellFormed s bs) (hb : s.At bs a b) :
    free (a + 16) s = { s with mem := setState s.mem a .free } := by
  rw [free, if_neg (by omega), h.blockOf_payload hb]

theorem free_spec (h : WellFormed s bs) (hb : s.At bs a b) :
    ∃ bs', WellFormed (free (a + 16) s) bs' ∧
      (free (a + 16) s).At bs' a { b with state := BlockState.free.code } ∧
      s.Keeps (fun a' _ => a' ≠ a) bs (free (a + 16) s) bs' := by
  rw [free_eq h hb]
  exact h.setState hb .free

theorem free_mem (h : WellFormed s bs) (hb : s.At bs a b) {x : Nat} (hx : x < a ∨ a + 16 ≤ x) :
    (free (a + 16) s).mem x = s.mem x := by
  rw [free_eq h hb]
  exact setState_outside _ _ hx

theorem free_heapStart (p : Nat) (s : Heap) : (free p s).heapStart = s.heapStart := by
  rw [free]
  split <;> rfl

theorem free_keeps (h : WellFormed s bs) (hp : p = 0 ∨ ∃ a b, p = a + 16 ∧ s.At bs a b) :
    ∃ bs', WellFormed (free p s) bs' ∧ s.Keeps (fun a _ => a + 16 ≠ p) bs (free p s) bs' ∧
      ∀ a b, a + 16 = p → (free p s).At bs' a b → ¬format.busy b := by
  rcases hp with rfl | ⟨a, b, rfl, hb⟩
  · rw [free_none]
    exact ⟨bs, h, Keeps.refl, fun a b ha => by omega⟩
  · obtain ⟨bs', hwf, hat, hkeeps⟩ := free_spec h hb
    refine ⟨bs', hwf, hkeeps.mono fun a' b' hne => by omega, fun a' b' ha' hb' hbusy => ?_⟩
    obtain rfl : a' = a := by omega
    rw [hwf.region.unique hb' hat] at hbusy
    exact hbusy rfl

theorem WellFormed.writePayload (h : WellFormed s bs) (hb : s.At bs a b) {m' : Memory}
    (hm : ∀ x, x < a + 16 ∨ a + b.size ≤ x → m' x = s.mem x) :
    WellFormed { s with mem := m' } bs ∧ s.Keeps (fun a' _ => a' ≠ a) bs { s with mem := m' } bs := by
  obtain ⟨hregion, hkeeps⟩ := h.region.writePayload hb hm
  exact ⟨h.withMem hregion, hkeeps⟩

theorem calloc_overflow (hnum : num ≠ 0) (hsz : sz ≠ 0) (hover : 2 ^ 64 ≤ num * sz) : calloc num sz s = some (0, s) := by
  simp only [calloc, hnum, hsz, or_self, if_false, if_pos hover]

theorem calloc_spec (h : WellFormed s bs) (hnum : num ≠ 0) (hsz : sz ≠ 0) (hsize : Sound (num * sz) s) :
    ∃ p s' bs', calloc num sz s = some (p, s') ∧ Result busy (num * sz) s bs p s' bs' ∧
      (p ≠ 0 → ∀ i, i < num * sz → s'.mem (p + i) = 0) := by
  have hlt : ¬2 ^ 64 ≤ num * sz := by
    have hneed := (needed_spec (num * sz)).1
    have hceil := (pageCeil_spec (needed (num * sz))).1
    simp only [Sound] at hsize
    omega
  obtain ⟨p, s', bs', hrun, hres⟩ := malloc_spec h (Nat.mul_ne_zero hnum hsz) hsize
  have hcalloc : calloc num sz s =
      if p = 0 then some (0, s') else some (p, { s' with mem := memset s'.mem p 0 (num * sz) }) := by
    simp only [calloc, hnum, hsz, or_self, if_false, if_neg hlt, hrun, Option.bind_some]
  rcases hres.cases with rfl | ⟨a, b, rfl, hb, ⟨hused, hroom⟩, hfresh⟩
  · exact ⟨0, s', bs', by rw [hcalloc, if_pos rfl], hres, fun hne => absurd rfl hne⟩
  · have hbd := hres.wellFormed.bounds hb
    have hend := hres.wellFormed.end_lt
    have hout (x : Nat) (hx : x < a + 16 ∨ a + b.size ≤ x) : memset s'.mem (a + 16) 0 (num * sz) x = s'.mem x :=
      memset_outside _ (by omega) (by omega)
    obtain ⟨hwf, hkeeps⟩ := hres.wellFormed.writePayload hb hout
    refine ⟨a + 16, _, bs', by rw [hcalloc, if_neg (by omega)], ⟨hwf, hres.started, ?_, ?_, fun h0 => by omega⟩,
      fun _ i hi => memset_inside _ (by omega) hi⟩
    · exact hres.keeps.trans (hkeeps.mono fun a' b' hP => by omega)
    · exact .inr ⟨a, b, rfl, hb, ⟨hused, hroom⟩, hfresh⟩

/-- `realloc` of a block in use: nothing has changed, or the old block is free and
the new one starts with its bytes. -/
theorem realloc_spec (h : WellFormed s bs) (hb : s.At bs a b) (hbusy : busy a b) (hn : n ≠ 0) (hsize : Sound n s) :
    ∃ p s' bs', realloc (a + 16) n s = some (p, s') ∧
      Result (fun a' b' => busy a' b' ∧ (p ≠ 0 → a' ≠ a)) n s bs p s' bs' ∧
      (p ≠ 0 → ∀ i, i + 16 < b.size → i < n → s'.mem (p + i) = s.mem (a + 16 + i)) := by
  have hbd := h.bounds hb
  have hend := h.end_lt
  have hge := h.size_ge hb
  have hold : payloadSize (headerAt s.mem (blockOf (a + 16))) = b.size - 16 := by
    rw [h.blockOf_payload hb, h.header hb]
    simp only [payloadSize, headerSize]
    omega
  obtain ⟨p, s₁, bs₁, hrun, hres⟩ := malloc_spec h hn hsize
  rcases hres.cases with rfl | ⟨a', b', rfl, hb', ⟨hused, hroom⟩, hfresh⟩
  · refine ⟨0, s₁, bs₁, ?_, ⟨hres.wellFormed, hres.started, hres.keeps.mono fun a' b' hP => ⟨hP.1.1, hP.2⟩,
      .inl rfl, hres.none⟩, fun hne => absurd rfl hne⟩
    simp only [realloc, if_neg (by omega : ¬a + 16 = 0), if_neg hn, hrun, Option.bind_some, if_true]
  · have hne : a ≠ a' := by
      rintro rfl
      exact hfresh b hb hbusy
    have hkept : busy a b ∧ a + 16 ≠ a' + 16 := ⟨hbusy, by omega⟩
    have hold₁ : s₁.At bs₁ a b := (hres.keeps a b hkept).1.mp hb
    have hbd' := hres.wellFormed.bounds hb'
    have hend' := hres.wellFormed.end_lt
    have hdisj : a + b.size ≤ a' ∨ a' + b'.size ≤ a := (At.disjoint hold₁ hb').resolve_left fun he => hne he.1
    let len := min (b.size - 16) n
    have hlen : len ≤ b.size - 16 ∧ len ≤ n := ⟨Nat.min_le_left _ _, Nat.min_le_right _ _⟩
    have hout (x : Nat) (hx : x < a' + 16 ∨ a' + b'.size ≤ x) : memcpy s₁.mem (a' + 16) (a + 16) len x = s₁.mem x :=
      memcpy_outside _ (by omega) (by omega) (by omega)
    obtain ⟨hwf₂, hkeeps₂⟩ := hres.wellFormed.writePayload hb' hout
    have hold₂ := (hkeeps₂ a b hne).1.mp hold₁
    obtain ⟨bs₃, hwf₃, -, hkeeps₃⟩ := free_spec hwf₂ hold₂
    refine ⟨a' + 16, free (a + 16) { s₁ with mem := memcpy s₁.mem (a' + 16) (a + 16) len }, bs₃, ?_,
      ⟨hwf₃, ?_, ?_, .inr ⟨a', b', rfl, ?_, ⟨hused, hroom⟩, hfresh⟩, fun h0 => by omega⟩, fun _ i hi hi' => ?_⟩
    · simp only [realloc, if_neg (by omega : ¬a + 16 = 0), if_neg hn, hold, hrun, Option.bind_some,
        if_neg (by omega : ¬a' + 16 = 0), len]
    · rw [free_heapStart]
      exact hres.started
    · refine ((hres.keeps.mono fun a₀ b₀ hP => ⟨hP.1.1, hP.2⟩).trans (hkeeps₂.mono fun a₀ b₀ hP => ?_)).trans
        (hkeeps₃.mono fun a₀ b₀ hP => hP.1.2 (by omega))
      omega
    · exact (hkeeps₃ a' b' (Ne.symm hne)).1.mp hb'
    · have hi₁ : i < len := Nat.lt_min.mpr ⟨by omega, hi'⟩
      calc (free (a + 16) { s₁ with mem := memcpy s₁.mem (a' + 16) (a + 16) len }).mem (a' + 16 + i)
          = memcpy s₁.mem (a' + 16) (a + 16) len (a' + 16 + i) := free_mem hwf₂ hold₂ (by omega)
        _ = s₁.mem (a + 16 + i) := memcpy_inside _ (by omega) (by omega) (by omega) hi₁
        _ = s.mem (a + 16 + i) := (hres.keeps a b hkept).2 hb _ (by simp only [format_width]; omega) (by
            simp only [format_size]
            omega)

def merging : Merging format where
  free := Header.isFree
  withSize b n := { b with size := n }
  not_busy hfree hbusy := hbusy (of_decide_eq_true hfree)
  size_withSize _ _ := rfl
  free_withSize _ _ := rfl
  withSize_self _ := rfl
  valid_withSize := by
    intro b bs _ hv hbs
    exact ⟨hv.state, Nat.dvd_add hv.size_dvd (Region.total_dvd Header.Valid.size_dvd hbs),
      Nat.le_add_right_of_le hv.size_ge⟩

theorem foldl_size (l : List Header) (at₀ total : Nat) (h : total + format.total l < 2 ^ 64) :
    (format.located at₀ l).foldl (fun t p => (t + p.2.size) % 2 ^ 64) total = total + format.total l := by
  induction l generalizing at₀ total with
  | nil => rfl
  | cons b l ih =>
      simp only [total_cons, format_size] at h
      rw [located, List.foldl_cons, Nat.mod_eq_of_lt (by simp only; omega), ih _ _ (by simp only; omega), total_cons,
        format_size, Nat.add_assoc]

theorem mergeFree_eq {m : Memory} {st e : Nat} (h : Region format m st (xs ++ b :: ys) e) (he : e < 2 ^ 32) :
    mergeFree m e (b.size, st + format.total xs + b.size) = some (merging.grown b ys,
      st + format.total xs + b.size + format.total (ys.takeWhile Header.isFree)) := by
  have htail : format.Tiles m (st + format.total xs + b.size) ys e := (tiles_append.mp h.tiles).2.2
  have hpos (c : Header) (hc : c ∈ ys) : 0 < format.size c :=
    h.positive c (List.mem_append_right _ (List.mem_cons_of_mem _ hc))
  have hwalk := htail.walk_eq hpos (by omega) (fun t _ c => (t + c.size) % 2 ^ 64)
    (fun c => c.state = BlockState.free.code) b.size
  have htotal := h.tiles.end_eq
  have htake : format.total (ys.takeWhile merging.free) = format.total (ys.takeWhile Header.isFree) := rfl
  rw [total_append, total_cons, merging.total_split ys, format_size] at htotal
  have hsum := foldl_size (ys.takeWhile Header.isFree) (st + format.total xs + b.size) b.size (by omega)
  apply Eq.trans hwalk
  exact congrArg (fun t => some (t, _)) hsum

theorem defragStep_round {m : Memory} {st e : Nat} (h : Region format m st (xs ++ b :: ys) e) (he : e < 2 ^ 32) :
    ∃ r, defragStep e (m, st + format.total xs) = some r ∧ merging.Round m (st + format.total xs) b ys r := by
  have hat : format.At st (xs ++ b :: ys) (st + format.total xs) b := by simp
  have hheader : headerAt m (st + format.total xs) = b := h.tiles.header hat
  have hbd := h.bounds hat
  simp only [format_size] at hbd
  have hnext : nextBlock m (st + format.total xs) = st + format.total xs + b.size := by
    rw [nextBlock, hheader, Nat.mod_eq_of_lt (by omega)]
  by_cases hfree : b.state = BlockState.free.code
  · have htotal := h.tiles.end_eq
    rw [total_append, total_cons, merging.total_split ys] at htotal
    simp only [format_size] at htotal
    have hmerge := mergeFree_eq h he
    have hgrown : merging.grown b ys < 2 ^ 64 := by
      have hg : merging.grown b ys = b.size + format.total (ys.takeWhile merging.free) := rfl
      omega
    have hset : headerAt (setSize m (st + format.total xs) (merging.grown b ys)) (st + format.total xs) =
        { b with size := merging.grown b ys } := by
      rw [headerAt_setSize, hheader, Nat.mod_eq_of_lt hgrown]
    refine ⟨_, ?_, .merge (decide_eq_true hfree) (setSize m (st + format.total xs) (merging.grown b ys)) hset
      fun x hx => setSize_outside _ hx⟩
    have hlt : st + format.total xs + merging.grown b ys < 2 ^ 64 := by
      have hg : merging.grown b ys = b.size + format.total (ys.takeWhile merging.free) := rfl
      omega
    simp only [defragStep, hheader, hfree, ne_eq, not_true_eq_false, if_false, hnext, hmerge, Option.bind_some]
    rw [nextBlock, hset, Nat.mod_eq_of_lt hlt]
  · refine ⟨_, ?_, .pass fun hf => hfree (of_decide_eq_true hf)⟩
    simp only [defragStep, hheader, ne_eq, hfree, not_false_eq_true, if_true, hnext, format_size]

theorem defrag_spec (h : WellFormed s bs) :
    ∃ s', defrag s = some s' ∧ WellFormed s' (merging.coalesce bs) ∧ s.Keeps busy bs s' (merging.coalesce bs) ∧
      s'.heapStart ≠ 0 := by
  have hwf := h.heapBounds
  have hend := hwf.end_lt
  obtain ⟨⟨m', cur⟩, hrun, hregion, hkeeps⟩ := merging.coalesce_spec hwf.region (by omega)
    (defragStep (heapBounds s).heapEnd) fun m xs b ys hr => defragStep_round hr (by omega)
  refine ⟨{ heapBounds s with mem := m' }, ?_, hwf.withMem hregion, (heapBounds_keeps h _).trans hkeeps, h.started⟩
  simp only [defrag]
  rw [hrun]
  rfl

/-- Where no two free blocks are neighbours, `defrag` changes nothing. -/
theorem defrag_idle (h : WellFormed s bs) (hs : s.heapStart ≠ 0) (hsep : merging.Separated bs) :
    defrag s = some s := by
  have hend := h.end_lt
  have hpass (xs : List Header) (b : Header) (ys : List Header) (hbs : bs = xs ++ b :: ys) :
      defragStep s.heapEnd (s.mem, s.heapStart + format.total xs) =
        some (s.mem, s.heapStart + format.total xs + format.size b) := by
    subst hbs
    have hat : s.At (xs ++ b :: ys) (s.heapStart + format.total xs) b := at_append.mpr (.inr (.inl ⟨rfl, rfl⟩))
    have hheader := h.header hat
    have hbd := h.bounds hat
    have hnext : nextBlock s.mem (s.heapStart + format.total xs) = s.heapStart + format.total xs + b.size := by
      rw [nextBlock, hheader, Nat.mod_eq_of_lt (by omega)]
    by_cases hfree : b.state = BlockState.free.code
    · have htake := merging.takeWhile_of_separated (List.isChain_append.mp hsep).2.1 (decide_eq_true hfree)
      have hgrown : merging.grown b ys = b.size := by
        rw [Merging.grown, htake, total_nil, Nat.add_zero, format_size]
      have hmerge := mergeFree_eq h.region (by omega)
      rw [hgrown] at hmerge
      have hsame : setSize s.mem (s.heapStart + format.total xs) b.size = s.mem := by
        have hsize : b.size = readLE s.mem (s.heapStart + format.total xs + 8) 8 := by rw [← hheader]; rfl
        rw [setSize, hsize, writeLE_readLE]
      simp only [defragStep, hheader, hfree, ne_eq, not_true_eq_false, if_false, hnext, hmerge, Option.bind_some,
        hsame, format_size]
    · simp only [defragStep, hheader, ne_eq, hfree, not_false_eq_true, if_true, hnext, format_size]
  have hrun := h.region.idle_spec (by omega) (defragStep s.heapEnd) hpass
  simp only [defrag]
  rw [heapBounds_eq hs, hrun]
  rfl

end WeensyOS.RustMalloc
