import WeensyOS.Kernel.Permissions
import WeensyOS.Kernel.VirtualStores

namespace WeensyOS.Kernel

open ByteMemory ProgramBreak

/-- `sizeof(vamapping)` -/
def vamappingSize : Nat := 24

/-- The object in memory: `pn`, `pa` and `perm` at the offsets 0, 8 and 16. The bytes between them are `pad`. -/
def VaMapping.bytes (vam : VaMapping) (pad : Nat → UInt8) : List UInt8 :=
  (List.range vamappingSize).map fun i =>
    if i < 4 then UInt8.ofNat ((BitVec.ofInt 32 vam.pn).toNat / 256 ^ i)
    else if i < 8 then pad i
    else if i < 16 then UInt8.ofNat (vam.pa / 256 ^ (i - 8))
    else if i < 20 then UInt8.ofNat (vam.perm.toNat / 256 ^ (i - 16))
    else pad i

/-- The offset is one of a field. -/
def VaMapping.IsField (i : Nat) : Prop := i < 4 ∨ 8 ≤ i ∧ i < 20

instance (i : Nat) : Decidable (VaMapping.IsField i) := inferInstanceAs (Decidable (_ ∨ _))

/-- The checks of `syscall_mapping`, with `reg_rdi` and `reg_rsi`. -/
def MayMap (m : Memory) (pagetable mappingPtr ptr : Nat) : Prop :=
  permBits (virtualMemoryLookup m pagetable mappingPtr).perm &&& (pteW ||| pteU) = pteW ||| pteU ∧
    let endaddr := (mappingPtr + vamappingSize - 1) % 2 ^ 64
    (pageNumber endaddr ≠ pageNumber ptr →
      permBits (virtualMemoryLookup m pagetable endaddr).perm &&& (pteW ||| pteP) = pteW ||| pteP)

instance (m : Memory) (pagetable mappingPtr ptr : Nat) : Decidable (MayMap m pagetable mappingPtr ptr) :=
  inferInstanceAs (Decidable (_ ∧ _))

/-- `syscall_mapping` of both kernels. -/
def syscallMapping (m : Memory) (pagetable mappingPtr ptr : Nat) (pad : Nat → UInt8) : Memory :=
  let map := virtualMemoryLookup m pagetable mappingPtr
  if MayMap m pagetable mappingPtr ptr then
    let ptrLookup := virtualMemoryLookup m pagetable ptr
    storeBytes m map.pa (ptrLookup.bytes pad)
  else m

section Pages

variable {m m' : Memory} {pt a b i k : Nat}

theorem pageIndex_page (h : a / 4096 = b / 4096) (i : Nat) : pageIndex a i = pageIndex b i := by
  rw [pageIndex, pageIndex, Nat.pow_add, ← Nat.div_div_eq_div_mul, ← Nat.div_div_eq_div_mul]
  have hpage : (2 : Nat) ^ 12 = 4096 := rfl
  rw [hpage, h]

theorem tableAt_page (h : a / 4096 = b / 4096) (hk : k ≤ 4) : tableAt m pt a k = tableAt m pt b k := by
  induction k with
  | zero => rfl
  | succ k ih => rw [tableAt, tableAt, ih (Nat.le_of_lt hk), pageIndex_page h k]

theorem target_page (h : a / 4096 = b / 4096) : target m pt a = tableAt m pt b 4 + pageOffset a := by
  rw [target, tableAt_page h (Nat.le_refl 4)]

theorem tableAt_of_entries (h : ∀ i < 4, pteAddr (entry m' (tableAt m pt a i) (pageIndex a i)) = pteAddr (levelEntry m pt a i))
    (hk : k ≤ 4) : tableAt m' pt a k = tableAt m pt a k := by
  induction k with
  | zero => rfl
  | succ k ih => rw [tableAt_succ, tableAt_succ, levelEntry, ih (Nat.le_of_lt hk), h k hk]

theorem reaches_of_entries (h : ∀ i < 4, pteAddr (entry m' (tableAt m pt a i) (pageIndex a i)) = pteAddr (levelEntry m pt a i))
    (hp : ∀ i < 4, entry m' (tableAt m pt a i) (pageIndex a i) &&& pteP = 0 ↔ levelEntry m pt a i &&& pteP = 0)
    (hr : Reaches m pt a 4) : Reaches m' pt a 4 := by
  intro i hi
  rw [levelEntry, tableAt_of_entries h (Nat.le_of_lt hi), ne_eq, hp i hi]
  exact hr i hi

end Pages

/-- The `i`-th address of the caller's buffer. -/
def bufferAt (mappingPtr i : Nat) : Nat := (mappingPtr + i) % 2 ^ 64

/-- All levels let user code write to the address. -/
def UserWritable (m : Memory) (pagetable a : Nat) : Prop :=
  ∀ i < 4, levelEntry m pagetable a i &&& pteP ≠ 0 ∧ levelEntry m pagetable a i &&& pteW ≠ 0 ∧
    levelEntry m pagetable a i &&& pteU ≠ 0

instance (m : Memory) (pagetable a : Nat) : Decidable (UserWritable m pagetable a) :=
  inferInstanceAs (Decidable (∀ i < 4, _))

/-- From `m` to `m'` nothing is written, or the bytes `bs` to a buffer that the caller may write to, where they can be
read. -/
def WritesBuffer (m m' : Memory) (pagetable mappingPtr : Nat) (bs : List UInt8) : Prop :=
  m' = m ∨ (∀ i < vamappingSize, UserWritable m pagetable (bufferAt mappingPtr i)) ∧
    (∀ x, m' x ≠ m x → ∃ i < vamappingSize, x = target m pagetable (bufferAt mappingPtr i)) ∧
      ∀ i, VaMapping.IsField i → Reaches m' pagetable (bufferAt mappingPtr i) 4 ∧
        bs[i]? = some (m' (target m' pagetable (bufferAt mappingPtr i)))

/-- The buffer's second page follows its first one in physical memory as well; or it is on one page. -/
def Contiguous (m : Memory) (pagetable mappingPtr : Nat) : Prop :=
  target m pagetable (bufferAt mappingPtr (vamappingSize - 1)) = target m pagetable mappingPtr + (vamappingSize - 1)

instance (m : Memory) (pagetable mappingPtr : Nat) : Decidable (Contiguous m pagetable mappingPtr) :=
  inferInstanceAs (Decidable (_ = _))

/-- The bytes of the second page are by chance both there and behind the first page. -/
def Chance (m : Memory) (pagetable mappingPtr : Nat) (bs : List UInt8) : Prop :=
  ∀ i < vamappingSize, 4096 ≤ pageOffset mappingPtr + i → bs[i]? = some (m (target m pagetable mappingPtr + i)) ∧
    (VaMapping.IsField i → bs[i]? = some (m (target m pagetable (bufferAt mappingPtr i))))

/-- The memory with the bytes at the physical address of the buffer. -/
def overlaid (m : Memory) (pagetable mappingPtr : Nat) (bs : List UInt8) : Memory :=
  storeBytes m (target m pagetable mappingPtr) bs

/-- The bytes leave the present bit and the address of every entry that the buffer's addresses are translated with. -/
def Stable (m : Memory) (pagetable mappingPtr : Nat) (bs : List UInt8) : Prop :=
  ∀ i < vamappingSize, ∀ j < 4,
    let a := bufferAt mappingPtr i
    let patched := entry (overlaid m pagetable mappingPtr bs) (tableAt m pagetable a j) (pageIndex a j)
    (patched &&& pteP = 0 ↔ levelEntry m pagetable a j &&& pteP = 0) ∧ pteAddr patched = pteAddr (levelEntry m pagetable a j)

instance (m : Memory) (pagetable mappingPtr : Nat) (bs : List UInt8) : Decidable (Stable m pagetable mappingPtr bs) :=
  inferInstanceAs (Decidable (∀ i < vamappingSize, ∀ j < 4, _ ∧ _))

/-- The bytes of the second page are behind the first page already; and what the buffer is translated to with the entries that
the bytes make holds the bytes. -/
def Lucky (m : Memory) (pagetable mappingPtr : Nat) (bs : List UInt8) : Prop :=
  (Contiguous m pagetable mappingPtr ∨ ∀ i < vamappingSize, 4096 ≤ pageOffset mappingPtr + i →
    bs[i]? = some (m (target m pagetable mappingPtr + i))) ∧
  ∀ i, VaMapping.IsField i →
    let m' := overlaid m pagetable mappingPtr bs
    Reaches m' pagetable (bufferAt mappingPtr i) 4 ∧ bs[i]? = some (m' (target m' pagetable (bufferAt mappingPtr i)))

/-- When `syscall_mapping` only writes where the caller may. -/
def MapsRight (m : Memory) (pagetable mappingPtr ptr : Nat) (bs : List UInt8) : Prop :=
  ¬MayMap m pagetable mappingPtr ptr ∨
    (∀ i < vamappingSize, bs[i]? = some (m (target m pagetable mappingPtr + i))) ∨
      (∀ i < vamappingSize, UserWritable m pagetable (bufferAt mappingPtr i)) ∧
        if Stable m pagetable mappingPtr bs then Contiguous m pagetable mappingPtr ∨ Chance m pagetable mappingPtr bs
        else Lucky m pagetable mappingPtr bs

section Buffer

variable {m m' : Memory} {pt mp ptr i k : Nat} {bs : List UInt8} {pad : Nat → UInt8}

theorem VaMapping.length_bytes (vam : VaMapping) (pad : Nat → UInt8) : (vam.bytes pad).length = vamappingSize := by
  rw [VaMapping.bytes, List.length_map, List.length_range]

theorem VaMapping.IsField.lt (h : VaMapping.IsField i) : i < vamappingSize := by
  have hsize : vamappingSize = 24 := rfl
  rcases h with h | ⟨-, h⟩ <;> omega

theorem bufferAt_first (hmp : mp < 2 ^ 64) (hi : pageOffset mp + i < 4096) :
    bufferAt mp i / 4096 = mp / 4096 ∧ pageOffset (bufferAt mp i) = pageOffset mp + i := by
  have hpage : pageSize = 4096 := rfl
  rw [pageOffset, hpage] at hi ⊢
  rw [pageOffset, hpage, bufferAt]
  omega

theorem bufferAt_second (hi : i < vamappingSize) (hnext : 4096 ≤ pageOffset mp + i) :
    bufferAt mp i / 4096 = bufferAt mp (vamappingSize - 1) / 4096 ∧ pageOffset (bufferAt mp i) = pageOffset mp + i - 4096 := by
  have hpage : pageSize = 4096 := rfl
  have hsize : vamappingSize = 24 := rfl
  rw [pageOffset, hpage] at hnext ⊢
  rw [pageOffset, hpage, bufferAt, bufferAt]
  omega

theorem target_first (hmp : mp < 2 ^ 64) (hi : pageOffset mp + i < 4096) : target m pt (bufferAt mp i) = target m pt mp + i := by
  obtain ⟨hpage, hoffset⟩ := bufferAt_first hmp hi
  rw [target_page hpage, hoffset, target, Nat.add_assoc]

theorem target_second (hi : i < vamappingSize) (hnext : 4096 ≤ pageOffset mp + i) :
    target m pt (bufferAt mp i) = tableAt m pt (bufferAt mp (vamappingSize - 1)) 4 + (pageOffset mp + i - 4096) := by
  obtain ⟨hpage, hoffset⟩ := bufferAt_second hi hnext
  rw [target_page hpage, hoffset]

theorem contiguous_iff (hnext : 4096 ≤ pageOffset mp + (vamappingSize - 1)) :
    Contiguous m pt mp ↔ tableAt m pt (bufferAt mp (vamappingSize - 1)) 4 = tableAt m pt mp 4 + 4096 := by
  rw [Contiguous, target_second (by decide) hnext, target]
  omega

theorem Contiguous.target (hmp : mp < 2 ^ 64) (h : Contiguous m pt mp) (hi : i < vamappingSize) :
    Kernel.target m pt (bufferAt mp i) = Kernel.target m pt mp + i := by
  have hsize : vamappingSize = 24 := rfl
  by_cases hfirst : pageOffset mp + i < 4096
  · exact target_first hmp hfirst
  · rw [contiguous_iff (by omega)] at h
    rw [target_second hi (by omega), h, Kernel.target]
    omega

theorem target_apart (h : ¬Contiguous m pt mp) (hi : i < vamappingSize) (hnext : 4096 ≤ pageOffset mp + i)
    (hk : k < vamappingSize) : target m pt (bufferAt mp i) ≠ target m pt mp + k := by
  have hsize : vamappingSize = 24 := rfl
  have hoffset : pageOffset mp < 4096 := Nat.mod_lt _ (by decide)
  obtain ⟨f, hf⟩ : 4096 ∣ tableAt m pt mp 4 := pteAddr_dvd _
  obtain ⟨g, hg⟩ : 4096 ∣ tableAt m pt (bufferAt mp (vamappingSize - 1)) 4 := pteAddr_dvd _
  rw [contiguous_iff (by omega), hf, hg] at h
  rw [target_second hi hnext, target, hf, hg]
  omega

theorem syscallMapping_pa (h : MayMap m pt mp ptr) :
    syscallMapping m pt mp ptr pad = storeBytes m (target m pt mp) ((virtualMemoryLookup m pt ptr).bytes pad) := by
  have hmapped : Reaches m pt mp 4 := by
    by_contra habsent
    have hperm := h.1
    rw [lookup_absent habsent] at hperm
    exact absurd hperm (by decide)
  have hpa : (virtualMemoryLookup m pt mp).pa = target m pt mp := by
    rw [lookup_present hmapped]
    rfl
  simp only [syscallMapping, if_pos h, hpa]

theorem storeBytes_same (hlen : bs.length = vamappingSize) (a : Nat) :
    storeBytes m a bs = m ↔ ∀ i < vamappingSize, bs[i]? = some (m (a + i)) := by
  constructor
  · intro hsame i hi
    rw [← hlen] at hi
    rw [List.getElem?_eq_getElem hi, ← storeBytes_inside m hi, hsame]
  · intro hthere
    funext x
    by_cases hx : x < a ∨ a + bs.length ≤ x
    · exact storeBytes_outside m hx
    · obtain ⟨i, rfl⟩ := Nat.exists_eq_add_of_le (by omega : a ≤ x)
      have hi : i < bs.length := by omega
      have hbyte := hthere i (by omega)
      rw [List.getElem?_eq_getElem hi] at hbyte
      rw [storeBytes_inside m hi]
      exact Option.some.inj hbyte

theorem Stable.target (h : Stable m pt mp bs) (hi : i < vamappingSize) :
    (Reaches m pt (bufferAt mp i) 4 → Reaches (overlaid m pt mp bs) pt (bufferAt mp i) 4) ∧
      Kernel.target (overlaid m pt mp bs) pt (bufferAt mp i) = Kernel.target m pt (bufferAt mp i) := by
  have haddr := fun j hj => (h i hi j hj).2
  exact ⟨reaches_of_entries haddr fun j hj => (h i hi j hj).1,
    congrArg (· + pageOffset (bufferAt mp i)) (tableAt_of_entries haddr (Nat.le_refl 4))⟩

theorem UserWritable.reaches {a : Nat} (h : UserWritable m pt a) : Reaches m pt a 4 := fun i hi => (h i hi).1

theorem overlaid_inside (hlen : bs.length = vamappingSize) (hi : i < vamappingSize) :
    bs[i]? = some (overlaid m pt mp bs (target m pt mp + i)) := by
  have hi' : i < bs.length := by rwa [hlen]
  rw [overlaid, storeBytes_inside m hi', List.getElem?_eq_getElem hi']

/-- Where the second page of the buffer is elsewhere, its bytes stay. -/
theorem overlaid_second (hlen : bs.length = vamappingSize) (hapart : ¬Contiguous m pt mp) (hi : i < vamappingSize)
    (hsecond : 4096 ≤ pageOffset mp + i) :
    overlaid m pt mp bs (target m pt (bufferAt mp i)) = m (target m pt (bufferAt mp i)) := by
  apply storeBytes_outside m
  by_contra hin
  obtain ⟨k, hk⟩ := Nat.exists_eq_add_of_le (by omega : target m pt mp ≤ target m pt (bufferAt mp i))
  exact target_apart hapart hi hsecond (by omega) hk

/-- The bytes that change are those of the buffer. -/
theorem changed_iff (hmp : mp < 2 ^ 64) (hlen : bs.length = vamappingSize) :
    (∀ x, overlaid m pt mp bs x ≠ m x → ∃ i < vamappingSize, x = target m pt (bufferAt mp i)) ↔
      Contiguous m pt mp ∨ ∀ i < vamappingSize, 4096 ≤ pageOffset mp + i → bs[i]? = some (m (target m pt mp + i)) := by
  constructor
  · intro hchanged
    by_cases hcontiguous : Contiguous m pt mp
    · exact .inl hcontiguous
    refine .inr fun i hi hsecond => ?_
    rw [overlaid_inside hlen hi, Option.some.injEq]
    by_contra hdiff
    obtain ⟨j, hj, htarget⟩ := hchanged (target m pt mp + i) hdiff
    by_cases hfirst : pageOffset mp + j < 4096
    · rw [target_first hmp hfirst] at htarget
      omega
    · exact target_apart hcontiguous hj (Nat.le_of_not_lt hfirst) hi htarget.symm
  · intro hplace x hx
    have hin : ¬(x < target m pt mp ∨ target m pt mp + bs.length ≤ x) := fun hout => hx (storeBytes_outside m hout)
    obtain ⟨i, rfl⟩ := Nat.exists_eq_add_of_le (by omega : target m pt mp ≤ x)
    have hi : i < vamappingSize := by omega
    by_cases hfirst : pageOffset mp + i < 4096
    · exact ⟨i, hi, (target_first hmp hfirst).symm⟩
    · rcases hplace with hcontiguous | hbehind
      · exact ⟨i, hi, (hcontiguous.target hmp hi).symm⟩
      · have hbyte := hbehind i hi (Nat.le_of_not_lt hfirst)
        rw [overlaid_inside hlen hi, Option.some.injEq] at hbyte
        exact absurd hbyte hx

/-- With the same translation as before, the buffer holds the bytes where it is contiguous, or by chance. -/
theorem lucky_of_stable (hmp : mp < 2 ^ 64) (hlen : bs.length = vamappingSize)
    (hwritable : ∀ i < vamappingSize, UserWritable m pt (bufferAt mp i)) (h : Stable m pt mp bs) :
    Lucky m pt mp bs ↔ Contiguous m pt mp ∨ Chance m pt mp bs := by
  by_cases hcontiguous : Contiguous m pt mp
  · refine iff_of_true ⟨.inl hcontiguous, fun i hfield => ?_⟩ (.inl hcontiguous)
    obtain ⟨hreach, htarget⟩ := h.target hfield.lt
    refine ⟨hreach (hwritable i hfield.lt).reaches, ?_⟩
    rw [htarget, hcontiguous.target hmp hfield.lt]
    exact overlaid_inside hlen hfield.lt
  rw [Lucky, or_iff_right hcontiguous, or_iff_right hcontiguous]
  constructor
  · rintro ⟨hbehind, hread⟩ i hi hsecond
    refine ⟨hbehind i hi hsecond, fun hfield => ?_⟩
    obtain ⟨-, hbyte⟩ := hread i hfield
    rwa [(h.target hi).2, overlaid_second hlen hcontiguous hi hsecond] at hbyte
  · intro hchance
    refine ⟨fun i hi hsecond => (hchance i hi hsecond).1, fun i hfield => ?_⟩
    have hi := hfield.lt
    obtain ⟨hreach, htarget⟩ := h.target hi
    refine ⟨hreach (hwritable i hi).reaches, ?_⟩
    rw [htarget]
    by_cases hfirst : pageOffset mp + i < 4096
    · rw [target_first hmp hfirst]
      exact overlaid_inside hlen hi
    · rw [overlaid_second hlen hcontiguous hi (Nat.le_of_not_lt hfirst)]
      exact (hchance i hi (Nat.le_of_not_lt hfirst)).2 hfield

end Buffer

/-- `syscall_mapping` writes where the caller may exactly if its checks stop it, if the bytes are there already, or if the buffer
is writable and contiguous and is translated as before, or the bytes come out right by chance. -/
theorem mapping_call (m : Memory) (pagetable mappingPtr ptr : Nat) (pad : Nat → UInt8) (hptr : mappingPtr < 2 ^ 64) :
    WritesBuffer m (syscallMapping m pagetable mappingPtr ptr pad) pagetable mappingPtr
        ((virtualMemoryLookup m pagetable ptr).bytes pad) ↔
      MapsRight m pagetable mappingPtr ptr ((virtualMemoryLookup m pagetable ptr).bytes pad) := by
  have hlen := VaMapping.length_bytes (virtualMemoryLookup m pagetable ptr) pad
  by_cases hmay : MayMap m pagetable mappingPtr ptr
  case neg => exact iff_of_true (.inl (if_neg hmay)) (.inl hmay)
  rw [syscallMapping_pa hmay, MapsRight, or_iff_right (not_not.mpr hmay)]
  generalize (virtualMemoryLookup m pagetable ptr).bytes pad = bs at hlen ⊢
  refine or_congr (storeBytes_same hlen _) (and_congr_right fun hwritable => ?_)
  by_cases hstable : Stable m pagetable mappingPtr bs
  · rw [if_pos hstable, ← lucky_of_stable hptr hlen hwritable hstable]
    exact and_congr_left' (changed_iff hptr hlen)
  · rw [if_neg hstable]
    exact and_congr_left' (changed_iff hptr hlen)

/-- A buffer inside of a page of the caller. -/
theorem mapping_call_inside : WritesBuffer (oneEntryTable 7 7 7 7)
    (syscallMapping (oneEntryTable 7 7 7 7) 0x1000 0x10 0x20 fun _ => 0) 0x1000 0x10
      ((virtualMemoryLookup (oneEntryTable 7 7 7 7) 0x1000 0x20).bytes fun _ => 0) :=
  (mapping_call _ 0x1000 0x10 0x20 (fun _ => 0) (by decide)).mpr
    (.inr (.inr ⟨by decide +kernel, by rw [if_pos (by decide +kernel)]; exact .inl (by decide +kernel)⟩))

/-- The buffer ends on a page that is not mapped, which is not checked because `ptr` is on that page as well. -/
theorem mapping_call_outside : ¬∀ (m : Memory) (pagetable mappingPtr ptr : Nat) (pad : Nat → UInt8), mappingPtr < 2 ^ 64 →
    ptr < 2 ^ 64 → WritesBuffer m (syscallMapping m pagetable mappingPtr ptr pad) pagetable mappingPtr
      ((virtualMemoryLookup m pagetable ptr).bytes pad) := by
  intro hclaim
  rcases hclaim (oneEntryTable 7 7 7 7) 0x1000 0xFF0 0x1000 (fun _ => 0) (by decide) (by decide) with hsame | ⟨hwritable, -⟩
  · have hbyte : syscallMapping (oneEntryTable 7 7 7 7) 0x1000 0xFF0 0x1000 (fun _ => 0) 0x5FF0 = 0xFF := by decide +kernel
    rw [hsame] at hbyte
    exact absurd hbyte (by decide +kernel)
  · exact absurd (hwritable 16 (by decide)) (by decide +kernel)

end WeensyOS.Kernel
