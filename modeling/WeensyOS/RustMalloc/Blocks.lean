import WeensyOS.RustMalloc.Model
import WeensyOS.Lib.Inventory

namespace WeensyOS.RustMalloc

open ByteMemory LibC ProgramBreak Tiling Tiling.Layout BlockHeap

section Headers

variable (m : Memory) {a v : Nat} (st : BlockState)

@[simp] theorem headerAt_setState : headerAt (setState m a st) a = { headerAt m a with state := st.code } := by
  have hst : st.code % 256 ^ 1 = st.code := by cases st <;> rfl
  simp only [headerAt, setState]
  rw [readLE_writeLE_self, hst, readLE_writeLE_disjoint _ (by omega)]

@[simp] theorem headerAt_setSize : headerAt (setSize m a v) a = { headerAt m a with size := v % 2 ^ 64 } := by
  simp only [headerAt, setSize]
  rw [readLE_writeLE_self, readLE_writeLE_disjoint _ (by omega)]
  rfl

@[simp] theorem headerAt_setHeader : headerAt (setHeader m a st v) a = ⟨st.code, v % 2 ^ 64⟩ := by
  rw [setHeader, headerAt_setSize, headerAt_setState]

variable {x : Nat} (hx : x < a ∨ a + 16 ≤ x)
include hx

theorem setState_outside : setState m a st x = m x := writeLE_outside m (by omega)

theorem setSize_outside : setSize m a v x = m x := writeLE_outside m (by omega)

theorem setHeader_outside : setHeader m a st v x = m x := by
  rw [setHeader, setSize_outside _ hx, setState_outside _ _ hx]

end Headers

theorem headerAt_congr {m m' : Memory} {a : Nat} (hm : ∀ x, a ≤ x → x < a + 16 → m' x = m x) :
    headerAt m' a = headerAt m a := by
  have hread (b n : Nat) (hb : a ≤ b) (hn : b + n ≤ a + 16) : readLE m' b n = readLE m b n :=
    readLE_congr fun x hx hx' => hm x (Nat.le_trans hb hx) (Nat.lt_of_lt_of_le hx' hn)
  rw [headerAt, hread a 1 (by omega) (by omega), hread (a + 8) 8 (by omega) (by omega)]
  rfl

/-- What every header of the heap satisfies. -/
structure Header.Valid (b : Header) : Prop where
  state : ∃ st : BlockState, b.state = st.code
  size_dvd : 8 ∣ b.size
  size_ge : headerSize ≤ b.size

def Header.isFree (b : Header) : Bool := decide (b.state = BlockState.free.code)

def Header.isUsed (b : Header) : Bool := decide (b.state = BlockState.used.code)

def format : Format Header where
  header := headerAt
  size := Header.size
  width := headerSize
  header_congr := headerAt_congr
  Valid := Header.Valid
  busy b := b.state ≠ BlockState.free.code
  width_pos := Nat.zero_lt_succ _
  width_le := Header.Valid.size_ge

@[simp] theorem format_size (b : Header) : format.size b = b.size := rfl

@[simp] theorem format_width : format.width = 16 := rfl

@[simp] theorem format_header (m : Memory) (a : Nat) : format.header m a = headerAt m a := rfl

/-- The heap is tiled by the blocks `bs`, up to the program break once the first
call has set the bounds. -/
structure WellFormed (s : Heap) (bs : List Header) : Prop where
  region : Region format s.mem s.heapStart bs s.heapEnd
  end_eq : s.heapStart ≠ 0 → s.heapEnd = s.breaks.programBreak
  unused : s.heapStart = 0 → s.heapEnd = 0
  aligned : 8 ∣ s.breaks.programBreak
  break_pos : 0 < s.breaks.programBreak

def Heap.At (s : Heap) (bs : List Header) (a : Nat) (b : Header) : Prop := format.At s.heapStart bs a b

/-- Among the blocks that satisfy `P` none is lost, none is added, and their
headers and payloads are kept. -/
def Heap.Keeps (P : Nat → Header → Prop) (s : Heap) (bs : List Header) (s' : Heap) (bs' : List Header) : Prop :=
  format.Keeps P s.mem s.heapStart bs s'.mem s'.heapStart bs'

def busy (_ : Nat) (b : Header) : Prop := format.busy b

namespace WellFormed

variable {s : Heap} {bs xs : List Header} {a : Nat} {b b' : Header} {m' : Memory}

theorem end_lt (h : WellFormed s bs) : s.heapEnd < 3141632 := by
  by_cases hs : s.heapStart = 0
  · rw [h.unused hs]
    exact Nat.zero_lt_succ _
  · rw [h.end_eq hs]
    exact s.breaks.lt_limit

theorem end_dvd (h : WellFormed s bs) : 8 ∣ s.heapEnd := by
  by_cases hs : s.heapStart = 0
  · rw [h.unused hs]
    exact Nat.dvd_zero 8
  · rw [h.end_eq hs]
    exact h.aligned

theorem header (h : WellFormed s bs) (hb : s.At bs a b) : headerAt s.mem a = b := h.region.tiles.header hb

theorem bounds (h : WellFormed s bs) (hb : s.At bs a b) : s.heapStart ≤ a ∧ a + b.size ≤ s.heapEnd :=
  h.region.bounds hb

theorem size_ge (h : WellFormed s bs) (hb : s.At bs a b) : 16 ≤ b.size := h.region.width_le hb

theorem address_dvd (h : WellFormed s bs) (hb : s.At bs a b) : 8 ∣ a :=
  h.region.address_dvd Header.Valid.size_dvd h.end_dvd hb

theorem withMem (h : WellFormed s bs) (hr : Region format m' s.heapStart xs s.heapEnd) :
    WellFormed { s with mem := m' } xs :=
  ⟨hr, h.end_eq, h.unused, h.aligned, h.break_pos⟩

theorem blockOf_payload (h : WellFormed s bs) (hb : s.At bs a b) : blockOf (a + 16) = a := by
  have hbd := h.bounds hb
  have hlt := h.end_lt
  simp only [blockOf, headerSize]
  omega

theorem setState (h : WellFormed s bs) (hb : s.At bs a b) (st : BlockState) :
    ∃ bs', WellFormed { s with mem := RustMalloc.setState s.mem a st } bs' ∧
      format.At s.heapStart bs' a { b with state := st.code } ∧
      s.Keeps (fun a' _ => a' ≠ a) bs { s with mem := RustMalloc.setState s.mem a st } bs' := by
  have hv := h.region.valid b hb.mem
  have hheader : format.header (RustMalloc.setState s.mem a st) a = { b with state := st.code } := by
    rw [format_header, headerAt_setState, h.header hb]
  obtain ⟨bs', hregion, hat, hkeeps⟩ := h.region.setHeader hb hheader rfl ⟨⟨st, rfl⟩, hv.size_dvd, hv.size_ge⟩
    fun x hx => setState_outside _ _ hx
  exact ⟨bs', h.withMem hregion, hat, hkeeps⟩

theorem blocks_nil (h : WellFormed s bs) (hs : s.heapStart = 0) : bs = [] := by
  have hend := h.region.tiles.end_eq
  rw [hs, h.unused hs] at hend
  cases bs with
  | nil => rfl
  | cons b bs =>
      have hb := h.region.positive b List.mem_cons_self
      rw [total_cons] at hend
      omega

end WellFormed

section Bounds

variable {s : Heap} {bs : List Header}

theorem heapBounds_eq (hs : s.heapStart ≠ 0) : heapBounds s = s := if_neg hs

theorem heapBounds_first (hs : s.heapStart = 0) :
    heapBounds s = { s with heapStart := s.breaks.programBreak, heapEnd := s.breaks.programBreak } := by
  simp [heapBounds, hs, sbrk, sbrk_zero]

@[simp] theorem heapBounds_mem (s : Heap) : (heapBounds s).mem = s.mem := by
  by_cases hs : s.heapStart = 0
  · rw [heapBounds_first hs]
  · rw [heapBounds_eq hs]

@[simp] theorem heapBounds_breaks (s : Heap) : (heapBounds s).breaks = s.breaks := by
  by_cases hs : s.heapStart = 0
  · rw [heapBounds_first hs]
  · rw [heapBounds_eq hs]

theorem WellFormed.started (h : WellFormed s bs) : (heapBounds s).heapStart ≠ 0 := by
  by_cases hs : s.heapStart = 0
  · rw [heapBounds_first hs]
    exact Nat.ne_of_gt h.break_pos
  · rwa [heapBounds_eq hs]

theorem WellFormed.heapBounds (h : WellFormed s bs) : WellFormed (heapBounds s) bs := by
  by_cases hs : s.heapStart = 0
  · obtain rfl := h.blocks_nil hs
    rw [heapBounds_first hs]
    exact ⟨⟨rfl, h.region.valid⟩, fun _ => rfl, fun h0 => absurd h0 (Nat.ne_of_gt h.break_pos), h.aligned,
      h.break_pos⟩
  · rwa [heapBounds_eq hs]

theorem heapBounds_at (h : WellFormed s bs) (a : Nat) (b : Header) : (heapBounds s).At bs a b ↔ s.At bs a b := by
  by_cases hs : s.heapStart = 0
  · rw [h.blocks_nil hs]
    exact Iff.rfl
  · rw [heapBounds_eq hs]

theorem heapBounds_keeps (h : WellFormed s bs) (P : Nat → Header → Prop) : s.Keeps P bs (heapBounds s) bs := by
  intro a b _
  rw [heapBounds_mem]
  exact ⟨(heapBounds_at h a b).symm, fun _ _ _ _ => rfl⟩

end Bounds

end WeensyOS.RustMalloc
