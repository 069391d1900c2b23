import WeensyOS.CMalloc.Malloc

namespace WeensyOS.CMalloc

open ByteMemory LibC ProgramBreak Tiling Tiling.Layout

variable {s s' : Heap} {bs bs' : List BlockHeader} {a : Nat} {b : BlockHeader} {n num sz : Nat}

theorem WellFormed.headerOf_payload (h : WellFormed s bs) (hb : s.At bs a b) : headerOf (a + 8) = a := by
  have hbd := h.bounds hb
  have hlast := h.last_lt
  simp only [headerOf, sizeofHeader]
  omega

/-- Writes into the payloads of the blocks at the addresses `written`. -/
theorem WellFormed.writePayloads (h : WellFormed s bs) {m' : Memory} (written : List Nat)
    (hm : ∀ x, (∀ a ∈ written, ∀ b, s.At bs a b → x < a + 8 ∨ a + b.size ≤ x) → m' x = s.mem x) :
    WellFormed { s with mem := m' } bs ∧ s.Keeps (fun a _ => a ∉ written) bs { s with mem := m' } bs := by
  obtain ⟨hregion, hkeeps⟩ := h.region.writePayloads written hm
  exact ⟨h.withMem hregion, hkeeps⟩

theorem WellFormed.writePayload (h : WellFormed s bs) (hb : s.At bs a b) (m' : Memory)
    (hm : ∀ x, x < a + 8 ∨ a + b.size ≤ x → m' x = s.mem x) :
    WellFormed { s with mem := m' } bs ∧ s.Keeps (fun a' _ => a' ≠ a) bs { s with mem := m' } bs := by
  obtain ⟨hregion, hkeeps⟩ := h.region.writePayload hb hm
  exact ⟨h.withMem hregion, hkeeps⟩

@[simp] theorem free_null (s : Heap) : free null s = s := if_pos rfl

theorem free_at {xs ys : List BlockHeader} (h : WellFormed s (xs ++ b :: ys)) :
    WellFormed (free (s.managedMemoryStart + layout.total xs + 8) s)
      (xs ++ { b with state := BlockState.free.code } :: ys) := by
  have hat : s.At (xs ++ b :: ys) (s.managedMemoryStart + layout.total xs) b := by simp [Heap.At]
  rw [free, if_neg (by simp [null]), h.headerOf_payload hat]
  exact h.setState_at .free fun hne => absurd rfl hne

theorem free_spec (h : WellFormed s bs) (hb : s.At bs a b) :
    ∃ bs', WellFormed (free (a + 8) s) bs' ∧ (free (a + 8) s).At bs' a { b with state := BlockState.free.code } ∧
      s.Keeps (fun a' _ => a' ≠ a) bs (free (a + 8) s) bs' := by
  have hfree : free (a + 8) s = { s with mem := setState s.mem a .free } := by
    rw [free, if_neg (by simp [null]), h.headerOf_payload hb]
  rw [hfree]
  exact h.setState hb .free fun hne => absurd rfl hne

theorem free_mem (h : WellFormed s bs) (hb : s.At bs a b) {x : Nat} (hx : x < a ∨ a + 8 ≤ x) :
    (free (a + 8) s).mem x = s.mem x := by
  rw [free, if_neg (by simp [null]), h.headerOf_payload hb]
  exact setState_outside _ _ hx

theorem calloc_overflow (hnum : num ≠ 0) (hsz : sz ≠ 0) (hover : 2 ^ 64 ≤ num * sz) : calloc num sz s = some (null, s) := by
  have hdiv : (2 ^ 64 - 1) / sz < num := by
    rw [Nat.div_lt_iff_lt_mul (Nat.pos_of_ne_zero hsz)]
    omega
  simp only [calloc, hnum, hsz, or_self, if_false, if_pos hdiv]

theorem calloc_spec (h : WellFormed s bs) (hnum : num ≠ 0) (hsz : sz ≠ 0) (hsize : Sound (num * sz) s) :
    ∃ p s' bs', calloc num sz s = some (p, s') ∧ Result busy (num * sz) s bs p s' bs' ∧
      (p ≠ null → ∀ i, i < num * sz → s'.mem (p + i) = 0) ∧
      ∀ a b, p = a + 8 → s'.At bs' a b → (ExactFit (num * sz) bs ↔ num * sz + 8 + b.slop = b.size) := by
  have hn : num * sz ≠ 0 := Nat.mul_ne_zero hnum hsz
  have hlt : num * sz < 2 ^ 64 := by
    have hsum := blockSize_eq (num * sz)
    simp only [Sound] at hsize
    omega
  have hdiv : ¬(2 ^ 64 - 1) / sz < num := by
    rw [Nat.not_lt, Nat.le_div_iff_mul_le (Nat.pos_of_ne_zero hsz)]
    omega
  obtain ⟨p, s', bs', hrun, hres, hexact⟩ := malloc_spec h hn hsize
  have hcalloc : calloc num sz s =
      some (p, if p = null then s' else { s' with mem := memset s'.mem p 0 (num * sz) }) := by
    simp only [calloc, hnum, hsz, or_self, if_false, if_neg hdiv, Nat.mod_eq_of_lt hlt, hrun, Option.bind_some]
    split <;> rfl
  rcases hres.cases with ⟨rfl, hs, hbs⟩ | ⟨a, b, rfl, hnew⟩
  · exact ⟨null, s', bs', by rw [hcalloc, if_pos rfl], hres, fun hne => absurd rfl hne, hexact⟩
  · rw [if_neg (by simp [null])] at hcalloc
    have hbd := hres.wellFormed.bounds hnew.at_new
    have hlast := hres.wellFormed.last_lt
    have hroom := hnew.room
    obtain ⟨hwf, hkeeps⟩ := hres.wellFormed.writePayload hnew.at_new
      (memset s'.mem (a + 8) 0 (num * sz)) fun x hx => memset_outside _ (by omega) (by omega)
    exact ⟨_, _, bs', hcalloc, ⟨hwf, hres.initialized, hres.keeps.trans (hkeeps.mono fun a' b' hP => by omega),
      .inr ⟨a, b, rfl, hnew.at_new, hnew.used, hnew.room, hnew.fresh⟩⟩, fun _ i hi => memset_inside _ (by omega) hi,
      hexact⟩

/-- `realloc` of a block in use. On success the old block is free and the new
one starts with its bytes; otherwise nothing has changed. -/
theorem realloc_spec (h : WellFormed s bs) (hb : s.At bs a b) (hbusy : busy a b)
    (hn : n ≠ 0) (hsize : Sound n s) :
    ∃ p s' bs', realloc (a + 8) n s = some (p, s') ∧
      Result (fun a' b' => busy a' b' ∧ a' ≠ a) n s bs p s' bs' ∧
      (p ≠ null → s'.At bs' a { b with state := BlockState.free.code } ∧
        ∀ i, i + 8 + b.slop < b.size → i < n → s'.mem (p + i) = s.mem (a + 8 + i)) ∧
      ∀ a' b', p = a' + 8 → s'.At bs' a' b' → (ExactFit n bs ↔ n + 8 + b'.slop = b'.size) := by
  have hv := h.valid b hb.mem
  have hslop := hv.slop_le hbusy
  have hbd := h.bounds hb
  have hlast := h.last_lt
  have husable : usable (headerAt s.mem (headerOf (a + 8))) = b.size - 8 - b.slop := by
    rw [h.headerOf_payload hb, h.header hb]
    simp only [usable, sizeofHeader]
    omega
  obtain ⟨p, s₁, bs₁, hrun, hres, hexact⟩ := malloc_spec h hn hsize
  have hnull : ¬a + 8 = null := by simp [null]
  by_cases hp : p = null
  · rcases hres.cases with ⟨-, hs, hbs⟩ | ⟨a', b', hp', -⟩
    · refine ⟨null, s₁, bs₁, ?_, ⟨hres.wellFormed, hres.initialized, hres.keeps.mono fun _ _ hP => ⟨hP.1.1, by rw [hp]; exact hP.2⟩,
        .inl ⟨rfl, hs, hbs⟩⟩, fun hne => absurd rfl hne, fun a' b' ha' _ => ?_⟩
      · simp only [realloc, if_neg hnull, if_neg hn, hrun, Option.bind_some, if_pos hp]
      · rw [null] at ha'
        omega
    · rw [hp, null] at hp'
      omega
  · rcases hres.cases with ⟨hp', -, -⟩ | ⟨a', b', rfl, hnew⟩
    · exact absurd hp' hp
    · let len := if b.size - 8 - b.slop < n then b.size - 8 - b.slop else n
      let m₂ := memcpy s₁.mem (a' + 8) (a + 8) len
      have hlen : len ≤ n ∧ len ≤ b.size - 8 := by
        simp only [len]
        split <;> omega
      have hne : a ≠ a' := by
        rintro rfl
        exact hbusy (hnew.fresh b hb)
      have hkept : busy a b ∧ a + 8 ≠ a' + 8 := ⟨hbusy, by omega⟩
      have hold := (hres.keeps.at_iff hkept).mp hb
      have hbd' := hres.wellFormed.bounds hnew.at_new
      have hlast' := hres.wellFormed.last_lt
      have hroom := hnew.room
      have hdisj : a + b.size ≤ a' ∨ a' + b'.size ≤ a := by
        rcases At.disjoint hold hnew.at_new with hd | hd
        · exact absurd hd.1 hne
        · exact hd
      obtain ⟨hwf₂, hkeeps₂⟩ := hres.wellFormed.writePayload hnew.at_new m₂ fun x hx =>
        memcpy_outside _ (by omega) (by omega) (by omega)
      have hold₂ : ({ s₁ with mem := m₂ } : Heap).At bs₁ a b := (hkeeps₂.at_iff hne).mp hold
      obtain ⟨bs₃, hwf₃, hat₃, hkeeps₃⟩ := free_spec hwf₂ hold₂
      refine ⟨a' + 8, free (a + 8) { s₁ with mem := m₂ }, bs₃, ?_, ⟨hwf₃, ?_, ?_, .inr ⟨a', b', rfl, ?_⟩⟩,
        fun _ => ⟨hat₃, fun i hi hi' => ?_⟩, fun a'' b'' ha'' hb'' => ?_⟩
      · simp only [realloc, if_neg hnull, if_neg hn, husable, hrun, Option.bind_some, if_neg hp]
        rfl
      · simpa only [free, if_neg hnull] using hres.initialized
      · refine ((hres.keeps.mono fun a₀ b₀ hP => ⟨hP.1.1, hP.2⟩).trans (hkeeps₂.mono fun a₀ b₀ hP => ?_)).trans
          (hkeeps₃.mono fun a₀ b₀ hP => hP.1.2)
        omega
      · exact ⟨(hkeeps₃.at_iff (Ne.symm hne)).mp hnew.at_new, hnew.used, hroom, hnew.fresh⟩
      · have hi₁ : i < len := by
          simp only [len]
          split <;> omega
        calc (free (a + 8) { s₁ with mem := m₂ }).mem (a' + 8 + i)
            = m₂ (a' + 8 + i) := free_mem hwf₂ hold₂ (by omega)
          _ = s₁.mem (a + 8 + i) := memcpy_inside _ (by omega) (by omega) (by omega) hi₁
          _ = s.mem (a + 8 + i) := hres.keeps.payload hkept hb (by omega) (by omega)
      · obtain rfl : a'' = a' := by omega
        have hb₃ := (hkeeps₃.at_iff (Ne.symm hne)).mp hnew.at_new
        rw [hwf₃.unique hb'' hb₃]
        exact hexact a'' b' rfl hnew.at_new

end WeensyOS.CMalloc
