import WeensyOS.Kernel.PageTable

namespace WeensyOS.Kernel

open ByteMemory ProgramBreak

variable {m m' : Memory} {pt va a t t' i j k n pa : Nat} {pe v : PageEntry} {perm : BitVec 32}

section Entries

theorem pageIndex_lt (addr level : Nat) : pageIndex addr level < 512 := Nat.mod_lt _ (by decide)

/-- The two memories agree on a page. -/
def SamePage (m m' : Memory) (t : Nat) : Prop := ∀ x, t ≤ x → x < t + 4096 → m' x = m x

theorem entry_congr (h : SamePage m m' t) (hi : i < 512) : entry m' t i = entry m t i := by
  apply congrArg (BitVec.ofNat 64)
  exact readLE_congr fun x hx hx' => h x (by omega) (by omega)

theorem entry_setEntry_self (m : Memory) (t i : Nat) (v : PageEntry) : entry (setEntry m t i v) t i = v := by
  have hlt : v.toNat < 256 ^ 8 := v.isLt
  rw [entry, setEntry, readLE_writeLE_self, Nat.mod_eq_of_lt hlt, BitVec.ofNat_toNat, BitVec.setWidth_eq]

theorem entry_setEntry_ne (h : i ≠ j) : entry (setEntry m t i v) t j = entry m t j := by
  rw [entry, setEntry, readLE_writeLE_disjoint _ (by omega)]
  rfl

theorem setEntry_outside (m : Memory) (v : PageEntry) (hi : i < 512) {x : Nat} (hx : x < t ∨ t + 4096 ≤ x) :
    setEntry m t i v x = m x :=
  writeLE_outside m (by omega)

theorem samePage_setEntry (ht : 4096 ∣ t) (ht' : 4096 ∣ t') (hne : t ≠ t') (hi : i < 512) :
    SamePage m (setEntry m t i v) t' := by
  intro x hx hx'
  refine setEntry_outside m v hi ?_
  omega

theorem pteAddr_dvd (pe : PageEntry) : 4096 ∣ pteAddr pe := by
  rw [pteAddr_eq]
  exact Nat.dvd_mul_left _ _

theorem tableAt_dvd (hpt : 4096 ∣ pt) (m : Memory) (va i : Nat) : 4096 ∣ tableAt m pt va i := by
  cases i with
  | zero => exact hpt
  | succ i => exact pteAddr_dvd _

end Entries

section Paths

theorem Reaches.succ : Reaches m pt va (i + 1) ↔ Reaches m pt va i ∧ levelEntry m pt va i &&& pteP ≠ 0 := by
  constructor
  · intro h
    exact ⟨h.mono (Nat.le_succ i), h i (Nat.lt_succ_self i)⟩
  · rintro ⟨h, hi⟩ j hj
    rcases Nat.lt_succ_iff_lt_or_eq.mp hj with hj | rfl
    · exact h j hj
    · exact hi

theorem reaches_zero (m : Memory) (pt va : Nat) : Reaches m pt va 0 := fun _ hj => absurd hj (Nat.not_lt_zero _)

theorem walk_congr (h : ∀ j < k, Reaches m pt va j → entry m' (tableAt m pt va j) (pageIndex va j) = levelEntry m pt va j) :
    (Reaches m' pt va k ↔ Reaches m pt va k) ∧ (Reaches m pt va k → tableAt m' pt va k = tableAt m pt va k) := by
  induction k with
  | zero => exact ⟨⟨fun _ => reaches_zero m pt va, fun _ => reaches_zero m' pt va⟩, fun _ => rfl⟩
  | succ k ih =>
      obtain ⟨hreach, htable⟩ := ih fun j hj => h j (Nat.lt_succ_of_lt hj)
      have hentry (hk : Reaches m pt va k) : levelEntry m' pt va k = levelEntry m pt va k := by
        rw [levelEntry, htable hk]
        exact h k (Nat.lt_succ_self k) hk
      constructor
      · rw [Reaches.succ, Reaches.succ, hreach]
        exact and_congr_right fun hk => by rw [hentry hk]
      · intro hk
        rw [tableAt_succ, tableAt_succ, hentry (Reaches.succ.mp hk).1]

theorem lookup_congr (h : ∀ j < 4, Reaches m pt va j → entry m' (tableAt m pt va j) (pageIndex va j) = levelEntry m pt va j) :
    virtualMemoryLookup m' pt va = virtualMemoryLookup m pt va := by
  obtain ⟨hreach, htable⟩ := walk_congr h
  by_cases hr : Reaches m pt va 4
  · have hentry (i : Nat) (hi : i < 4) : levelEntry m' pt va i = levelEntry m pt va i := by
      have hri := hr.mono (Nat.le_of_lt hi)
      rw [levelEntry, (walk_congr fun j hj => h j (Nat.lt_trans hj hi)).2 hri]
      exact h i hi hri
    have hseen : seen m' pt va 4 = seen m pt va 4 := by
      simp only [seen, hentry 0 (by decide), hentry 1 (by decide), hentry 2 (by decide), hentry 3 (by decide)]
    rw [lookup_present (hreach.mpr hr), lookup_present hr, hseen, htable hr]
  · rw [lookup_absent fun h' => hr (hreach.mp h'), lookup_absent hr]

theorem path_congr (h : ∀ j < k, Reaches m pt va j → SamePage m m' (tableAt m pt va j)) :
    (Reaches m' pt va k ↔ Reaches m pt va k) ∧ (Reaches m pt va k → tableAt m' pt va k = tableAt m pt va k) :=
  walk_congr fun j hj hr => entry_congr (h j hj hr) (pageIndex_lt va j)

theorem levelEntry_congr (h : ∀ j ≤ k, Reaches m pt va j → SamePage m m' (tableAt m pt va j)) (hk : Reaches m pt va k) :
    levelEntry m' pt va k = levelEntry m pt va k := by
  rw [levelEntry, (path_congr fun j hj => h j (Nat.le_of_lt hj)).2 hk]
  exact entry_congr (h k (Nat.le_refl k) hk) (pageIndex_lt _ _)

end Paths

/-- The last-level entry for a page, when the table for it is there. -/
def leafEntry (m : Memory) (pagetable va : Nat) : Option PageEntry :=
  if Reaches m pagetable va 3 then some (levelEntry m pagetable va 3) else none

/-- What `virtual_memory_lookup` makes of a last-level entry below entries that allow everything. -/
def mappingOf (va : Nat) : Option PageEntry → VaMapping
  | none => .unmapped
  | some pe =>
      if pe &&& pteP = 0 then .unmapped
      else ⟨pageNumber pe.toNat, pteAddr pe + pageOffset va, (pteFlags pe).setWidth 32⟩

/-- The table for the addresses below `V` has the shape of a tree: its upper entries
point to physical memory, and every 2 MB region has a last-level table of its own,
which is no upper table. -/
structure Shape (m : Memory) (pagetable V : Nat) : Prop where
  aligned : 4096 ∣ pagetable
  physical : ∀ va < V, ∀ i < 3, Reaches m pagetable va (i + 1) → tableAt m pagetable va (i + 1) < memsizePhysical
  distinct : ∀ va < V, ∀ va' < V, Reaches m pagetable va 3 → Reaches m pagetable va' 3 →
    tableAt m pagetable va 3 = tableAt m pagetable va' 3 → va / 2 ^ 21 = va' / 2 ^ 21
  leaf : ∀ va < V, ∀ va' < V, ∀ i < 3, Reaches m pagetable va 3 → Reaches m pagetable va' i →
    tableAt m pagetable va 3 ≠ tableAt m pagetable va' i

/-- The upper entries for the addresses below `V` have the bits of `perm` that `lookup_l4pagetable` asserts. -/
def Allows (m : Memory) (pagetable V : Nat) (perm : BitVec 32) : Prop :=
  ∀ va < V, ∀ i < 3, Reaches m pagetable va (i + 1) →
    (permBits perm &&& pteW ≠ 0 → levelEntry m pagetable va i &&& pteW ≠ 0) ∧
      (permBits perm &&& pteU ≠ 0 → levelEntry m pagetable va i &&& pteU ≠ 0)

/-- A tree whose upper entries allow everything. -/
structure Tree (m : Memory) (pagetable V : Nat) : Prop extends Shape m pagetable V where
  upper : ∀ va < V, ∀ i < 3, Reaches m pagetable va (i + 1) →
    levelEntry m pagetable va i &&& pteW ≠ 0 ∧ levelEntry m pagetable va i &&& pteU ≠ 0

theorem Tree.allows {V : Nat} (T : Tree m pt V) (perm : BitVec 32) : Allows m pt V perm := by
  intro va hva i hi hr
  obtain ⟨hw, hu⟩ := T.upper va hva i hi hr
  exact ⟨fun _ => hw, fun _ => hu⟩

theorem Shape.mono {V V' : Nat} (S : Shape m pt V) (h : V' ≤ V) : Shape m pt V' where
  aligned := S.aligned
  physical va hva := S.physical va (Nat.lt_of_lt_of_le hva h)
  distinct va hva va' hva' := S.distinct va (Nat.lt_of_lt_of_le hva h) va' (Nat.lt_of_lt_of_le hva' h)
  leaf va hva va' hva' := S.leaf va (Nat.lt_of_lt_of_le hva h) va' (Nat.lt_of_lt_of_le hva' h)

theorem allows_zero (m : Memory) (pt V : Nat) : Allows m pt V 0 :=
  fun _ _ _ _ _ => ⟨fun h => absurd rfl h, fun h => absurd rfl h⟩

theorem masked_clear {above : PageEntry} (hw : above &&& pteW ≠ 0) (hu : above &&& pteU ≠ 0) :
    masked above pe &&& (pteW ||| pteU) = 0 := by
  rw [ne_eq, and_pteW, Bool.not_eq_false] at hw
  rw [ne_eq, and_pteU, Bool.not_eq_false] at hu
  apply BitVec.eq_of_getLsbD_eq
  intro i hi
  have hbits : ∀ i < 64, (pteW ||| pteU).getLsbD i = true → i = 1 ∨ i = 2 := by decide
  have hzero : (0 : PageEntry).getLsbD i = false := BitVec.getLsbD_zero
  rw [BitVec.getLsbD_and, getLsbD_masked _ _ hi, hzero]
  cases hbit : (pteW ||| pteU).getLsbD i with
  | false => exact Bool.and_false _
  | true =>
      rcases hbits i hi hbit with rfl | rfl
      · simp [hw]
      · simp [hu]

theorem masked_of_clear {above : PageEntry} (h : above &&& (pteW ||| pteU) = 0) : masked above pe = pe := by
  rw [masked, h]
  exact BitVec.and_allOnes

namespace Tree

variable {V : Nat} (T : Tree m pt V)
include T

theorem seen_leaf (hva : va < V) (h : Reaches m pt va 3) : seen m pt va 4 = levelEntry m pt va 3 := by
  have hupper := T.upper va hva
  have hw : (pteW ||| pteU ||| pteP) &&& pteW ≠ 0 := by decide
  have hu : (pteW ||| pteU ||| pteP) &&& pteU ≠ 0 := by decide
  have h1 : seen m pt va 1 &&& (pteW ||| pteU) = 0 := masked_clear hw hu
  have h2 : seen m pt va 2 = levelEntry m pt va 1 := masked_of_clear h1
  have h3 : seen m pt va 3 &&& (pteW ||| pteU) = 0 := by
    obtain ⟨hw, hu⟩ := hupper 1 (by decide) (h.mono (by decide))
    rw [seen, h2]
    exact masked_clear hw hu
  exact masked_of_clear h3

theorem lookup (hva : va < V) : virtualMemoryLookup m pt va = mappingOf va (leafEntry m pt va) := by
  by_cases h3 : Reaches m pt va 3
  · have hleaf : leafEntry m pt va = some (levelEntry m pt va 3) := if_pos h3
    by_cases h4 : levelEntry m pt va 3 &&& pteP = 0
    · rw [lookup_absent fun h => (Reaches.succ.mp h).2 h4, hleaf, mappingOf, if_pos h4]
    · rw [lookup_present (Reaches.succ.mpr ⟨h3, h4⟩), T.seen_leaf hva h3, hleaf, mappingOf, if_neg h4]
      rfl
  · have hleaf : leafEntry m pt va = none := if_neg h3
    rw [lookup_absent fun h => h3 (h.mono (by decide)), hleaf, mappingOf]

end Tree

/-- The upper tables for the addresses below `V` are the same pages of memory. -/
def SameUpper (m m' : Memory) (pagetable V : Nat) : Prop :=
  ∀ va < V, ∀ i < 3, Reaches m pagetable va i → SamePage m m' (tableAt m pagetable va i)

section SameUpper

variable {m'' : Memory} {V : Nat} (h : SameUpper m m' pt V)
include h

theorem SameUpper.path (hva : va < V) (hk : k ≤ 3) :
    (Reaches m' pt va k ↔ Reaches m pt va k) ∧ (Reaches m pt va k → tableAt m' pt va k = tableAt m pt va k) :=
  path_congr fun j hj => h va hva j (Nat.lt_of_lt_of_le hj hk)

theorem SameUpper.trans (h' : SameUpper m' m'' pt V) : SameUpper m m'' pt V := by
  intro va hva i hi hr x hx hx'
  obtain ⟨hreach, htable⟩ := h.path hva (Nat.le_of_lt hi)
  have h'' := h' va hva i hi (hreach.mpr hr) x
  rw [htable hr] at h''
  exact (h'' hx hx').trans (h va hva i hi hr x hx hx')

theorem SameUpper.levelEntry (hva : va < V) (hi : i < 3) (hr : Reaches m pt va i) :
    Kernel.levelEntry m' pt va i = Kernel.levelEntry m pt va i :=
  levelEntry_congr (fun j hj => h va hva j (Nat.lt_of_le_of_lt hj hi)) hr

theorem Shape.congr (S : Shape m pt V) : Shape m' pt V where
  aligned := S.aligned
  physical := by
    intro va hva i hi hr
    obtain ⟨hreach, htable⟩ := h.path hva (Nat.succ_le_of_lt hi)
    rw [htable (hreach.mp hr)]
    exact S.physical va hva i hi (hreach.mp hr)
  distinct := by
    intro va hva va' hva' hr hr' he
    obtain ⟨hreach, htable⟩ := h.path hva (Nat.le_refl 3)
    obtain ⟨hreach', htable'⟩ := h.path hva' (Nat.le_refl 3)
    rw [htable (hreach.mp hr), htable' (hreach'.mp hr')] at he
    exact S.distinct va hva va' hva' (hreach.mp hr) (hreach'.mp hr') he
  leaf := by
    intro va hva va' hva' i hi hr hr'
    obtain ⟨hreach, htable⟩ := h.path hva (Nat.le_refl 3)
    obtain ⟨hreach', htable'⟩ := h.path hva' (Nat.le_of_lt hi)
    rw [htable (hreach.mp hr), htable' (hreach'.mp hr')]
    exact S.leaf va hva va' hva' i hi (hreach.mp hr) (hreach'.mp hr')

theorem Allows.congr {perm : BitVec 32} (A : Allows m pt V perm) : Allows m' pt V perm := by
  intro va hva i hi hr
  have hr' := (h.path hva (Nat.succ_le_of_lt hi)).1.mp hr
  rw [h.levelEntry hva hi (hr'.mono (Nat.le_succ i))]
  exact A va hva i hi hr'

theorem Tree.congr (T : Tree m pt V) : Tree m' pt V where
  toShape := Shape.congr h T.toShape
  upper := by
    intro va hva i hi hr
    have hr' := (h.path hva (Nat.succ_le_of_lt hi)).1.mp hr
    rw [h.levelEntry hva hi (hr'.mono (Nat.le_succ i))]
    exact T.upper va hva i hi hr'

end SameUpper

theorem SameUpper.refl (m : Memory) (pagetable V : Nat) : SameUpper m m pagetable V := fun _ _ _ _ _ _ _ _ => rfl

/-- The last-level table for an address, or null. -/
def leafTable (m : Memory) (pagetable va : Nat) : Nat :=
  if Reaches m pagetable va 3 then tableAt m pagetable va 3 else 0

theorem pageIndex_leaf (va : Nat) : pageIndex va 3 = va / 4096 % 512 := by
  simp only [pageIndex]
  rfl

theorem pageIndex_region (h : a / 2 ^ 21 = va / 2 ^ 21) (hi : i < 3) : pageIndex a i = pageIndex va i := by
  have hi' : i = 0 ∨ i = 1 ∨ i = 2 := by omega
  rcases hi' with rfl | rfl | rfl <;> simp only [pageIndex] <;> omega

theorem tableAt_region (h : a / 2 ^ 21 = va / 2 ^ 21) (m : Memory) (pt : Nat) (hk : k ≤ 3) :
    tableAt m pt a k = tableAt m pt va k := by
  induction k with
  | zero => rfl
  | succ k ih => rw [tableAt, tableAt, ih (Nat.le_of_succ_le hk), pageIndex_region h hk]

theorem levelEntry_region (h : a / 2 ^ 21 = va / 2 ^ 21) (m : Memory) (pt : Nat) (hi : i < 3) :
    levelEntry m pt a i = levelEntry m pt va i := by
  rw [levelEntry, levelEntry, tableAt_region h m pt (Nat.le_of_lt hi), pageIndex_region h hi]

theorem reaches_region (h : a / 2 ^ 21 = va / 2 ^ 21) (m : Memory) (pt : Nat) :
    Reaches m pt a 3 ↔ Reaches m pt va 3 := by
  have hentry (j : Nat) (hj : j < 3) := levelEntry_region h m pt hj
  constructor
  · intro hr j hj
    rw [← hentry j hj]
    exact hr j hj
  · intro hr j hj
    rw [hentry j hj]
    exact hr j hj

theorem same_page_iff : a / 4096 = va / 4096 ↔ a / 2 ^ 21 = va / 2 ^ 21 ∧ pageIndex a 3 = pageIndex va 3 := by
  rw [pageIndex_leaf, pageIndex_leaf]
  omega

namespace Shape

variable {V : Nat} (S : Shape m pt V)
include S

theorem sameUpper_write (hva : va < V) (hr : Reaches m pt va 3) (hi : i < 512) :
    SameUpper m (setEntry m (tableAt m pt va 3) i v) pt V :=
  fun a ha j hj hra => samePage_setEntry (tableAt_dvd S.aligned m va 3) (tableAt_dvd S.aligned m a j)
    (S.leaf va hva a ha j hj hr hra) hi

theorem leafEntry_write (hva : va < V) (hr : Reaches m pt va 3) (ha : a < V) :
    leafEntry (setEntry m (tableAt m pt va 3) (pageIndex va 3) v) pt a =
      if a / 4096 = va / 4096 then some v else leafEntry m pt a := by
  obtain ⟨hreach, htable⟩ := (S.sameUpper_write hva hr (pageIndex_lt va 3) (v := v)).path ha (Nat.le_refl 3)
  by_cases hra : Reaches m pt a 3
  · have hleaf : leafEntry (setEntry m (tableAt m pt va 3) (pageIndex va 3) v) pt a =
        some (entry (setEntry m (tableAt m pt va 3) (pageIndex va 3) v) (tableAt m pt a 3) (pageIndex a 3)) := by
      rw [leafEntry, if_pos (hreach.mpr hra), levelEntry, htable hra]
    rw [hleaf]
    by_cases htab : tableAt m pt a 3 = tableAt m pt va 3
    · have hregion := S.distinct a ha va hva hra hr htab
      rw [htab]
      by_cases hindex : pageIndex a 3 = pageIndex va 3
      · rw [if_pos (same_page_iff.mpr ⟨hregion, hindex⟩), hindex, entry_setEntry_self]
      · rw [if_neg fun he => hindex (same_page_iff.mp he).2, entry_setEntry_ne (Ne.symm hindex), leafEntry, if_pos hra,
          levelEntry, htab]
    · have hne : ¬a / 4096 = va / 4096 :=
        fun he => htab (tableAt_region (same_page_iff.mp he).1 m pt (Nat.le_refl 3))
      rw [if_neg hne, leafEntry, if_pos hra, levelEntry]
      exact congrArg some (entry_congr (samePage_setEntry (tableAt_dvd S.aligned m va 3) (tableAt_dvd S.aligned m a 3)
        (Ne.symm htab) (pageIndex_lt va 3)) (pageIndex_lt a 3))
  · have hne : ¬a / 4096 = va / 4096 := fun he => hra ((reaches_region (same_page_iff.mp he).1 m pt).mpr hr)
    rw [leafEntry, if_neg fun h => hra (hreach.mp h), if_neg hne, leafEntry, if_neg hra]

/-- One level of `lookup_l4pagetable`; its assertions fail only when the entry does not allow `perm`. -/
theorem lookupL4Levels_cons (perm : BitVec 32) (hva : va < V) (is : List Nat) (hi : i < 3) (hr : Reaches m pt va i) :
    lookupL4Levels m va perm (i :: is) (tableAt m pt va i) =
        (if levelEntry m pt va i &&& pteP = 0 then some 0 else lookupL4Levels m va perm is (tableAt m pt va (i + 1))) ∨
      (lookupL4Levels m va perm (i :: is) (tableAt m pt va i) = none ∧ ¬Allows m pt V perm) := by
  by_cases hp : levelEntry m pt va i &&& pteP = 0
  · rw [if_pos hp]
    exact .inl (if_pos hp)
  · have hr' : Reaches m pt va (i + 1) := Reaches.succ.mpr ⟨hr, hp⟩
    have hlt := S.physical va hva i hi hr'
    have hallows (A : Allows m pt V perm) := A va hva i hi hr'
    rw [if_neg hp]
    rw [tableAt_succ] at hlt
    simp only [levelEntry] at hp hlt hallows
    simp only [lookupL4Levels, if_neg hp, if_neg (Nat.not_le.mpr hlt), tableAt]
    split
    next hw => exact .inr ⟨rfl, fun A => (hallows A).1 hw.1 hw.2⟩
    next =>
      split
      next hu => exact .inr ⟨rfl, fun A => (hallows A).2 hu.1 hu.2⟩
      next => exact .inl rfl

theorem lookupL4pagetable (perm : BitVec 32) (hva : va < V) : lookupL4pagetable m pt va perm = some (leafTable m pt va) ∨
    (lookupL4pagetable m pt va perm = none ∧ ¬Allows m pt V perm) := by
  have hnone (i : Nat) (hi : i < 3) (hp : levelEntry m pt va i &&& pteP = 0) : leafTable m pt va = 0 :=
    if_neg fun h => h i hi hp
  have hr0 := reaches_zero m pt va
  have hrun : Kernel.lookupL4pagetable m pt va perm = lookupL4Levels m va perm [0, 1, 2] (tableAt m pt va 0) := rfl
  rw [hrun]
  rcases S.lookupL4Levels_cons perm hva [1, 2] (by decide) hr0 with hstep | hfail
  case inr => exact .inr hfail
  rw [hstep]
  by_cases h0 : levelEntry m pt va 0 &&& pteP = 0
  · rw [if_pos h0, hnone 0 (by decide) h0]
    exact .inl rfl
  have hr1 : Reaches m pt va 1 := Reaches.succ.mpr ⟨hr0, h0⟩
  rw [if_neg h0]
  rcases S.lookupL4Levels_cons perm hva [2] (by decide) hr1 with hstep | hfail
  case inr => exact .inr hfail
  rw [hstep]
  by_cases h1 : levelEntry m pt va 1 &&& pteP = 0
  · rw [if_pos h1, hnone 1 (by decide) h1]
    exact .inl rfl
  have hr2 : Reaches m pt va 2 := Reaches.succ.mpr ⟨hr1, h1⟩
  rw [if_neg h1]
  rcases S.lookupL4Levels_cons perm hva [] (by decide) hr2 with hstep | hfail
  case inr => exact .inr hfail
  rw [hstep]
  by_cases h2 : levelEntry m pt va 2 &&& pteP = 0
  · rw [if_pos h2, hnone 2 (by decide) h2]
    exact .inl rfl
  have hr3 : Reaches m pt va 3 := Reaches.succ.mpr ⟨hr2, h2⟩
  rw [if_neg h2, lookupL4Levels, leafTable, if_pos hr3]
  exact .inl rfl

end Shape

/-- The entry that `virtual_memory_map` writes for one page. -/
def leafValue (pa : Nat) (perm : BitVec 32) : PageEntry :=
  if permBits perm &&& pteP ≠ 0 then BitVec.ofNat 64 pa ||| permBits perm else permBits perm

/-- `last_index123` and `l4pagetable` are those of an earlier address. -/
def Cached (m : Memory) (pagetable V : Nat) (lastIndex123 : Int) (l4pagetable : Nat) : Prop :=
  lastIndex123 = -1 ∨ ∃ a < V, lastIndex123 = asInt (a / 2 ^ 21) ∧ l4pagetable = leafTable m pagetable a

theorem asInt_eq_bmod (n : Nat) : asInt n = (n : Int).bmod (2 ^ 32) := by
  rw [asInt, BitVec.toInt_ofNat']

theorem asInt_eq (hn : n < 2 ^ 31) : asInt n = n := by
  rw [asInt_eq_bmod, Int.bmod_def]
  omega

theorem leafTable_region (h : a / 2 ^ 21 = va / 2 ^ 21) (m : Memory) (pt : Nat) : leafTable m pt a = leafTable m pt va := by
  rw [leafTable, leafTable, tableAt_region h m pt (Nat.le_refl 3)]
  exact if_congr (reaches_region h m pt) rfl rfl

theorem leafTable_cases (m : Memory) (pt va : Nat) :
    leafTable m pt va = 0 ∨ (Reaches m pt va 3 ∧ leafTable m pt va = tableAt m pt va 3) := by
  by_cases h : Reaches m pt va 3
  · exact .inr ⟨h, if_pos h⟩
  · exact .inl (if_neg h)

theorem SameUpper.leafTable {V : Nat} (h : SameUpper m m' pt V) (hva : va < V) :
    Kernel.leafTable m' pt va = Kernel.leafTable m pt va := by
  obtain ⟨hreach, htable⟩ := h.path hva (Nat.le_refl 3)
  by_cases hr : Reaches m pt va 3
  · rw [Kernel.leafTable, if_pos (hreach.mpr hr), Kernel.leafTable, if_pos hr, htable hr]
  · rw [Kernel.leafTable, if_neg fun h => hr (hreach.mp h), Kernel.leafTable, if_neg hr]

theorem Cached.congr {V : Nat} {last : Int} {l4 : Nat} (hc : Cached m pt V last l4) (h : SameUpper m m' pt V) :
    Cached m' pt V last l4 := by
  rcases hc with hc | ⟨a, ha, hl, ht⟩
  · exact .inl hc
  · exact .inr ⟨a, ha, hl, ht.trans (h.leafTable ha).symm⟩

namespace Shape

variable {V : Nat} {last : Int} {l4 : Nat} (S : Shape m pt V)
include S

/-- The cache of the last-level table makes no difference. -/
theorem cached_table (perm : BitVec 32) (hV : V ≤ 2 ^ 48) (hva : va < V) (hc : Cached m pt V last l4) :
    (if asInt (va / 2 ^ 21) ≠ last then Kernel.lookupL4pagetable m pt va perm else some l4) = some (leafTable m pt va) ∨
      ((if asInt (va / 2 ^ 21) ≠ last then Kernel.lookupL4pagetable m pt va perm else some l4) = none ∧
        ¬Allows m pt V perm) := by
  split
  next => exact S.lookupL4pagetable perm hva
  next heq =>
    rw [ne_eq, Decidable.not_not] at heq
    rcases hc with rfl | ⟨a, ha, hlast, rfl⟩
    · rw [asInt_eq (by omega)] at heq
      omega
    · rw [hlast, asInt_eq (by omega), asInt_eq (by omega)] at heq
      rw [leafTable_region (by omega : a / 2 ^ 21 = va / 2 ^ 21)]
      exact .inl rfl

theorem mapPages_succ (n pa : Nat) (perm : BitVec 32) (hV : V ≤ 2 ^ 48) (hva : va < V) (hc : Cached m pt V last l4) :
    (mapPages pt perm (n + 1) m va pa last l4 =
      if leafTable m pt va ≠ 0 then
        mapPages pt perm n (setEntry m (leafTable m pt va) (pageIndex va 3) (leafValue pa perm)) ((va + pageSize) % 2 ^ 64)
          ((pa + pageSize) % 2 ^ 64) (asInt (va / 2 ^ 21)) (leafTable m pt va)
      else if permBits perm &&& pteP ≠ 0 then some (-1, m)
      else mapPages pt perm n m ((va + pageSize) % 2 ^ 64) ((pa + pageSize) % 2 ^ 64) (asInt (va / 2 ^ 21))
        (leafTable m pt va)) ∨
      (mapPages pt perm (n + 1) m va pa last l4 = none ∧ ¬Allows m pt V perm) := by
  have hshift : 2 ^ (12 + 9) = 2 ^ 21 := rfl
  rw [mapPages]
  simp only [hshift]
  rcases S.cached_table perm hV hva hc with htable | ⟨hfail, hA⟩
  · left
    simp only [htable, Option.bind_some, leafValue]
    by_cases hl : leafTable m pt va = 0 <;> by_cases hp : permBits perm &&& pteP = 0 <;>
      simp only [ne_eq, hl, hp, not_true_eq_false, not_false_eq_true, and_self, and_false, false_and, if_true, if_false]
  · right
    rw [hfail]
    exact ⟨rfl, hA⟩

end Shape

/-- What a `virtual_memory_map` of `n` pages that returns `r` does: it writes into
the last-level tables of its range only, and when it succeeds, their entries map the range. -/
structure Mapped (m m' : Memory) (pagetable V va n pa : Nat) (perm : BitVec 32) (r : Int) : Prop where
  ret : r = 0 ∨ r = -1
  upper : SameUpper m m' pagetable V
  outside : ∀ x, (∀ a, va ≤ a → a < va + 4096 * n → Reaches m pagetable a 3 →
    x < tableAt m pagetable a 3 ∨ tableAt m pagetable a 3 + 4096 ≤ x) → m' x = m x
  present : r = 0 → permBits perm &&& pteP ≠ 0 → ∀ a, va ≤ a → a < va + 4096 * n → leafTable m pagetable a ≠ 0
  leaf : r = 0 → ∀ a < V, leafEntry m' pagetable a =
    if (va ≤ a ∧ a < va + 4096 * n) ∧ leafTable m pagetable a ≠ 0 then some (leafValue (pa + (a / 4096 * 4096 - va)) perm)
    else leafEntry m pagetable a

theorem leafValue_absent (hp : permBits perm &&& pteP = 0) (pa k : Nat) : leafValue pa perm = leafValue k perm := by
  simp only [leafValue, hp, ne_eq, not_true_eq_false, if_false]

section MapPages

variable {V : Nat}

theorem Mapped.zero (m : Memory) (pt V va pa : Nat) (perm : BitVec 32) : Mapped m m pt V va 0 pa perm 0 where
  ret := .inl rfl
  upper := SameUpper.refl m pt V
  outside _ _ := rfl
  present _ _ _ ha ha' := absurd ha' (Nat.not_lt.mpr ha)
  leaf _ _ _ := (if_neg fun h => absurd h.1.2 (Nat.not_lt.mpr h.1.1)).symm

theorem leafValue_rest (hpa : permBits perm &&& pteP ≠ 0 → pa + 4096 * (n + 1) ≤ memsizePhysical)
    (hlo : va + 4096 ≤ a) (hhi : a < va + 4096 + 4096 * n) (hva : va % 4096 = 0) :
    leafValue ((pa + 4096) % 2 ^ 64 + (a / 4096 * 4096 - (va + 4096))) perm =
      leafValue (pa + (a / 4096 * 4096 - va)) perm := by
  by_cases hp : permBits perm &&& pteP = 0
  · exact leafValue_absent hp _ _
  · have hle := hpa hp
    have hsize : memsizePhysical = 2097152 := rfl
    have hpa' : (pa + 4096) % 2 ^ 64 + (a / 4096 * 4096 - (va + 4096)) = pa + (a / 4096 * 4096 - va) := by omega
    rw [hpa']

theorem Mapped.write {r : Int} (S : Shape m pt V) (hva : va % 4096 = 0) (hlt : va < V) (hr : Reaches m pt va 3)
    (hl : tableAt m pt va 3 ≠ 0) (hpa : permBits perm &&& pteP ≠ 0 → pa + 4096 * (n + 1) ≤ memsizePhysical)
    (hV : va + 4096 * (n + 1) ≤ V)
    (h : Mapped (setEntry m (tableAt m pt va 3) (pageIndex va 3) (leafValue pa perm)) m' pt V (va + 4096) n
      ((pa + 4096) % 2 ^ 64) perm r) : Mapped m m' pt V va (n + 1) pa perm r := by
  have hsame : SameUpper m (setEntry m (tableAt m pt va 3) (pageIndex va 3) (leafValue pa perm)) pt V :=
    S.sameUpper_write hlt hr (pageIndex_lt va 3)
  have hfirst (a : Nat) (ha : va ≤ a) (ha' : a < va + 4096) : leafTable m pt a = tableAt m pt va 3 := by
    rw [leafTable_region (same_page_iff.mp (by omega : a / 4096 = va / 4096)).1, leafTable, if_pos hr]
  refine ⟨h.ret, hsame.trans h.upper, fun x hx => ?_, fun h0 hp a ha ha' => ?_, fun h0 a ha => ?_⟩
  · have hout := hx va (Nat.le_refl _) (by omega) hr
    refine (h.outside x fun a ha ha' hra => ?_).trans (setEntry_outside m _ (pageIndex_lt va 3) hout)
    obtain ⟨hreach, htable⟩ := hsame.path (by omega : a < V) (Nat.le_refl 3)
    rw [htable (hreach.mp hra)]
    exact hx a (by omega) (by omega) (hreach.mp hra)
  · by_cases hpage : a < va + 4096
    · rwa [hfirst a ha hpage]
    · have haV : a < V := by omega
      have hrest := h.present h0 hp a (Nat.le_of_not_lt hpage) (by omega)
      rwa [hsame.leafTable haV] at hrest
  · rw [h.leaf h0 a ha, hsame.leafTable ha, S.leafEntry_write hlt hr ha]
    by_cases hpage : a / 4096 = va / 4096
    · have hvalue : pa + (a / 4096 * 4096 - va) = pa := by omega
      have hout : ¬((va + 4096 ≤ a ∧ a < va + 4096 + 4096 * n) ∧ leafTable m pt a ≠ 0) := by omega
      have hin : (va ≤ a ∧ a < va + 4096 * (n + 1)) ∧ leafTable m pt a ≠ 0 := by
        refine ⟨by omega, ?_⟩
        rwa [hfirst a (by omega) (by omega)]
      rw [if_neg hout, if_pos hpage, if_pos hin, hvalue]
    · rw [if_neg hpage]
      by_cases hrest : va + 4096 ≤ a ∧ a < va + 4096 + 4096 * n
      · refine if_congr ?_ ?_ rfl
        · exact and_congr_left fun _ => by omega
        · rw [leafValue_rest hpa hrest.1 hrest.2 hva]
      · rw [if_neg fun hc => hrest hc.1, if_neg fun hc => hrest (by omega)]

theorem Mapped.skip {r : Int} (hva : va % 4096 = 0) (hl : leafTable m pt va = 0) (hp : permBits perm &&& pteP = 0)
    (h : Mapped m m' pt V (va + 4096) n ((pa + 4096) % 2 ^ 64) perm r) : Mapped m m' pt V va (n + 1) pa perm r := by
  have hfirst (a : Nat) (ha : va ≤ a) (ha' : a < va + 4096) : leafTable m pt a = 0 := by
    rw [leafTable_region (same_page_iff.mp (by omega : a / 4096 = va / 4096)).1, hl]
  refine ⟨h.ret, h.upper, fun x hx => h.outside x fun a ha ha' => hx a (by omega) (by omega),
    fun _ hp' => absurd hp hp', fun h0 a ha => ?_⟩
  rw [h.leaf h0 a ha]
  by_cases hrest : va + 4096 ≤ a ∧ a < va + 4096 + 4096 * n
  · refine if_congr ?_ ?_ rfl
    · exact and_congr_left fun _ => by omega
    · rw [leafValue_absent hp _ (pa + (a / 4096 * 4096 - va))]
  · rw [if_neg fun hc => hrest hc.1, if_neg fun hc => hc.2 (hfirst a hc.1.1 (by omega))]

theorem mapPages_mapped {last : Int} {l4 : Nat} (S : Shape m pt V) (hV : V ≤ 2 ^ 48) (hva : va % 4096 = 0)
    (hend : va + 4096 * n ≤ V) (hpa : permBits perm &&& pteP ≠ 0 → pa + 4096 * n ≤ memsizePhysical)
    (hc : Cached m pt V last l4) :
    (∃ r m', mapPages pt perm n m va pa last l4 = some (r, m') ∧ Mapped m m' pt V va n pa perm r) ∨
      (mapPages pt perm n m va pa last l4 = none ∧ ¬Allows m pt V perm) := by
  induction n generalizing m va pa last l4 with
  | zero => exact .inl ⟨0, m, rfl, Mapped.zero m pt V va pa perm⟩
  | succ n ih =>
      have hlt : va < V := by omega
      have hnext : (va + pageSize) % 2 ^ 64 = va + 4096 := by
        simp only [pageSize]
        omega
      have hpa' : permBits perm &&& pteP ≠ 0 → (pa + pageSize) % 2 ^ 64 + 4096 * n ≤ memsizePhysical := by
        intro hp
        have hle := hpa hp
        simp only [pageSize, memsizePhysical] at *
        omega
      have hcache : Cached m pt V (asInt (va / 2 ^ 21)) (leafTable m pt va) := .inr ⟨va, hlt, rfl, rfl⟩
      have hva' : (va + 4096) % 4096 = 0 := by omega
      have hend' : va + 4096 + 4096 * n ≤ V := by omega
      rcases S.mapPages_succ n pa perm hV hlt hc with hstep | hfail
      case inr => exact .inr hfail
      rw [hstep, hnext]
      by_cases hl : leafTable m pt va = 0
      · rw [if_neg (not_not_intro hl)]
        by_cases hp : permBits perm &&& pteP = 0
        · rw [if_neg (not_not_intro hp)]
          rcases ih S hva' hend' hpa' hcache with ⟨r, m', hrun, h⟩ | hfail
          · exact .inl ⟨r, m', hrun, h.skip hva hl hp⟩
          · exact .inr hfail
        · rw [if_pos hp]
          exact .inl ⟨-1, m, rfl, .inr rfl, SameUpper.refl m pt V, fun _ _ => rfl, (fun h0 => by cases h0),
            fun h0 => by cases h0⟩
      · obtain ⟨hr, htable⟩ := (leafTable_cases m pt va).resolve_left hl
        rw [if_pos hl, htable]
        rw [htable] at hl hcache
        have hsame : SameUpper m (setEntry m (tableAt m pt va 3) (pageIndex va 3) (leafValue pa perm)) pt V :=
          S.sameUpper_write hlt hr (pageIndex_lt va 3)
        rcases ih (Shape.congr hsame S) hva' hend' hpa' (hcache.congr hsame) with ⟨r, m', hrun, h⟩ | ⟨hfail, hA⟩
        · exact .inl ⟨r, m', hrun, h.write S hva hlt hr hl hpa hend⟩
        · exact .inr ⟨hfail, fun A => hA (Allows.congr hsame A)⟩

end MapPages

end WeensyOS.Kernel
