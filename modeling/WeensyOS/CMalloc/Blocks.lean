import WeensyOS.CMalloc.Model
import WeensyOS.Lib.BlockHeap

namespace WeensyOS.CMalloc

open ByteMemory LibC ProgramBreak Tiling Tiling.Layout BlockHeap

def layout : Layout BlockHeader where
  header := headerAt
  size := BlockHeader.size
  width := sizeofHeader
  header_congr := by
    intro m m' a h
    have hread (b n : Nat) (hb : a ≤ b) (hn : b + n ≤ a + 8) : readLE m' b n = readLE m b n :=
      readLE_congr fun x hx hx' => h x (Nat.le_trans hb hx) (Nat.lt_of_lt_of_le hx' hn)
    simp only [headerAt]
    rw [hread a 1 (by omega) (by omega), hread (a + 1) 1 (by omega) (by omega),
      hread (a + 4) 4 (by omega) (by omega)]

@[simp] theorem layout_size (b : BlockHeader) : layout.size b = b.size := rfl

@[simp] theorem layout_width : layout.width = 8 := rfl

@[simp] theorem layout_header (m : Memory) (a : Nat) : layout.header m a = headerAt m a := rfl

section Headers

variable (m : Memory) {h h' : Nat} (st : BlockState) {v : Nat}

@[simp] theorem headerAt_setState : headerAt (setState m h st) h = { headerAt m h with state := st.code } := by
  have hst : st.code % 256 ^ 1 = st.code := by cases st <;> rfl
  simp only [headerAt, setState]
  rw [readLE_writeLE_self, hst, readLE_writeLE_disjoint _ (by omega), readLE_writeLE_disjoint _ (by omega)]

@[simp] theorem headerAt_setSlop : headerAt (setSlop m h v) h = { headerAt m h with slop := v % 2 ^ 8 } := by
  simp only [headerAt, setSlop]
  rw [readLE_writeLE_self, readLE_writeLE_disjoint _ (by omega), readLE_writeLE_disjoint _ (by omega)]
  rfl

@[simp] theorem headerAt_setSize : headerAt (setSize m h v) h = { headerAt m h with size := v % 2 ^ 32 } := by
  simp only [headerAt, setSize]
  rw [readLE_writeLE_self, readLE_writeLE_disjoint _ (by omega), readLE_writeLE_disjoint _ (by omega)]
  rfl

variable {x : Nat} (hx : x < h ∨ h + 8 ≤ x)
include hx

theorem setState_outside : setState m h st x = m x := writeLE_outside m (by omega)

theorem setSlop_outside : setSlop m h v x = m x := writeLE_outside m (by omega)

theorem setSize_outside : setSize m h v x = m x := writeLE_outside m (by omega)

end Headers

theorem headerAt_congr {m m' : Memory} {h : Nat} (hm : ∀ x, h ≤ x → x < h + 8 → m' x = m x) :
    headerAt m' h = headerAt m h :=
  layout.header_congr hm

/-- What every header of the heap satisfies. -/
structure BlockHeader.Valid (b : BlockHeader) : Prop where
  state : ∃ st : BlockState, b.state = st.code
  size_mod : b.size % 8 = 0
  size_ge : 16 ≤ b.size
  slop_le : b.state ≠ BlockState.free.code → b.slop + 8 ≤ b.size

def format : Format BlockHeader where
  toLayout := layout
  Valid := BlockHeader.Valid
  busy b := b.state ≠ BlockState.free.code
  width_pos := Nat.zero_lt_succ _
  width_le hv := Nat.le_trans (by simp) hv.size_ge

/-- The heap is tiled by the blocks `bs`, up to the program break once `init` has run. -/
structure WellFormed (s : Heap) (bs : List BlockHeader) : Prop where
  tiles : layout.Tiles s.mem s.managedMemoryStart bs s.lastValidAddress
  valid : ∀ b ∈ bs, b.Valid
  last_eq : s.initialized = true → s.lastValidAddress = s.breaks.programBreak
  unused : s.initialized = false → s.managedMemoryStart = 0 ∧ s.lastValidAddress = 0
  aligned : s.breaks.programBreak % 8 = 0

def Heap.At (s : Heap) (bs : List BlockHeader) (a : Nat) (b : BlockHeader) : Prop :=
  layout.At s.managedMemoryStart bs a b

/-- Among the blocks that satisfy `P` none is lost, none is added, and their
headers and payloads are kept. -/
def Heap.Keeps (P : Nat → BlockHeader → Prop) (s : Heap) (bs : List BlockHeader) (s' : Heap)
    (bs' : List BlockHeader) : Prop :=
  layout.Keeps P s.mem s.managedMemoryStart bs s'.mem s'.managedMemoryStart bs'

theorem Heap.Keeps.at_iff {P : Nat → BlockHeader → Prop} {s s' : Heap} {bs bs' : List BlockHeader} {a : Nat}
    {b : BlockHeader} (h : s.Keeps P bs s' bs') (hP : P a b) : s.At bs a b ↔ s'.At bs' a b :=
  (h a b hP).1

theorem Heap.Keeps.payload {P : Nat → BlockHeader → Prop} {s s' : Heap} {bs bs' : List BlockHeader} {a x : Nat}
    {b : BlockHeader} (h : s.Keeps P bs s' bs') (hP : P a b) (hb : s.At bs a b) (hx : a + 8 ≤ x)
    (hx' : x < a + b.size) : s'.mem x = s.mem x :=
  (h a b hP).2 hb x hx hx'

def busy (_ : Nat) (b : BlockHeader) : Prop := b.state ≠ BlockState.free.code

theorem busy_of_used {b : BlockHeader} (h : b.state = BlockState.used.code) (a : Nat) : busy a b := by
  rw [busy, h]
  decide

theorem busy_internal (a : Nat) (b : BlockHeader) : busy a { b with state := BlockState.internal.code } := by
  have hne : BlockState.internal.code ≠ BlockState.free.code := by decide
  exact hne

namespace WellFormed

variable {s : Heap} {bs xs ys mid mid' : List BlockHeader} {a : Nat} {b : BlockHeader}

theorem last_lt (h : WellFormed s bs) : s.lastValidAddress < 3141632 := by
  cases hi : s.initialized with
  | false => rw [(h.unused hi).2]; exact Nat.zero_lt_succ _
  | true => rw [h.last_eq hi]; exact s.breaks.lt_limit

theorem region (h : WellFormed s bs) : Region format s.mem s.managedMemoryStart bs s.lastValidAddress :=
  ⟨h.tiles, h.valid⟩

theorem withMem (h : WellFormed s bs) {m' : Memory}
    (hr : Region format m' s.managedMemoryStart xs s.lastValidAddress) : WellFormed { s with mem := m' } xs :=
  ⟨hr.tiles, hr.valid, h.last_eq, h.unused, h.aligned⟩

theorem positive (h : WellFormed s bs) : ∀ b ∈ bs, 0 < layout.size b := h.region.positive

theorem bounds (h : WellFormed s bs) (hb : s.At bs a b) :
    s.managedMemoryStart ≤ a ∧ a + b.size ≤ s.lastValidAddress :=
  h.region.bounds hb

theorem header (h : WellFormed s bs) (hb : s.At bs a b) : headerAt s.mem a = b := h.tiles.header hb

theorem total_mod (hv : ∀ b ∈ bs, b.Valid) : layout.total bs % 8 = 0 := by
  induction bs with
  | nil => rfl
  | cons b bs ih =>
      have hb := (hv b List.mem_cons_self).size_mod
      have hbs := ih fun c hc => hv c (List.mem_cons_of_mem _ hc)
      simp only [total_cons, layout_size]
      omega

theorem last_mod (h : WellFormed s bs) : s.lastValidAddress % 8 = 0 := by
  cases hi : s.initialized with
  | false => rw [(h.unused hi).2]
  | true => rw [h.last_eq hi, h.aligned]

theorem start_mod (h : WellFormed s bs) : s.managedMemoryStart % 8 = 0 := by
  have hend := h.tiles.end_eq
  have htotal := total_mod h.valid
  have hlast := h.last_mod
  omega

theorem address_mod (h : WellFormed s bs) (hb : s.At bs a b) : a % 8 = 0 := by
  obtain ⟨xs, ys, rfl, rfl⟩ := At.split hb
  have hxs := total_mod fun c hc => h.valid c (List.mem_append_left _ hc)
  have hstart := h.start_mod
  omega

theorem unique (h : WellFormed s bs) {b' : BlockHeader} (hb : s.At bs a b) (hb' : s.At bs a b') : b = b' :=
  h.region.unique hb hb'

theorem blocks_unique (h : WellFormed s bs) (h' : WellFormed s xs) : bs = xs := h.region.blocks_unique h'.region

/-- A run of blocks is rewritten as another one of the same total size. -/
theorem rewrite (mid : List BlockHeader) (h : WellFormed s (xs ++ (mid ++ ys))) {m' : Memory}
    (hsize : layout.total mid' = layout.total mid)
    (hmid : layout.Tiles m' (s.managedMemoryStart + layout.total xs) mid'
      (s.managedMemoryStart + layout.total xs + layout.total mid))
    (hout : ∀ x, x < s.managedMemoryStart + layout.total xs ∨
      s.managedMemoryStart + layout.total xs + layout.total mid ≤ x → m' x = s.mem x)
    (hvalid : ∀ b ∈ mid', b.Valid) : WellFormed { s with mem := m' } (xs ++ (mid' ++ ys)) :=
  h.withMem (h.region.rewrite mid hsize hmid hout hvalid)

theorem setState_at (h : WellFormed s (xs ++ b :: ys)) (st : BlockState) (hslop : st ≠ .free → b.slop + 8 ≤ b.size) :
    WellFormed { s with mem := CMalloc.setState s.mem (s.managedMemoryStart + layout.total xs) st }
      (xs ++ { b with state := st.code } :: ys) := by
  have hat : s.At (xs ++ b :: ys) (s.managedMemoryStart + layout.total xs) b := by simp [Heap.At]
  have hv := h.valid b hat.mem
  have hheader : format.header (CMalloc.setState s.mem (s.managedMemoryStart + layout.total xs) st)
      (s.managedMemoryStart + layout.total xs) = { b with state := st.code } := by
    apply (headerAt_setState s.mem st).trans
    rw [h.header hat]
  exact h.withMem (h.region.replaceHeader hheader rfl
    ⟨⟨st, rfl⟩, hv.size_mod, hv.size_ge, fun hst => hslop fun he => hst (by rw [he])⟩
    fun x hx => setState_outside _ _ hx).1

theorem setState (h : WellFormed s bs) (hb : s.At bs a b) (st : BlockState)
    (hslop : st ≠ .free → b.slop + 8 ≤ b.size) :
    ∃ bs', WellFormed { s with mem := CMalloc.setState s.mem a st } bs' ∧
      s.At bs' a { b with state := st.code } ∧
      s.Keeps (fun a' _ => a' ≠ a) bs { s with mem := CMalloc.setState s.mem a st } bs' := by
  have hv := h.valid b hb.mem
  have hheader : format.header (CMalloc.setState s.mem a st) a = { b with state := st.code } := by
    apply (headerAt_setState s.mem st).trans
    rw [h.header hb]
  obtain ⟨bs', hregion, hat, hkeeps⟩ := h.region.setHeader hb hheader rfl
    ⟨⟨st, rfl⟩, hv.size_mod, hv.size_ge, fun hst => hslop fun he => hst (by rw [he])⟩
    fun x hx => setState_outside _ _ hx
  exact ⟨bs', h.withMem hregion, hat, hkeeps⟩

end WellFormed

end WeensyOS.CMalloc
