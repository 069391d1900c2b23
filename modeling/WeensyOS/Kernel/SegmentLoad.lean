import WeensyOS.Kernel.SegmentPages

namespace WeensyOS.Kernel

open ByteMemory LibC Loop ProgramBreak

variable {s s' : Machine} {p va a pn i k endMem : Nat} {page : NewPage} {used : List NewPage} {m m' : Memory}
  {supply rest : List (Option NewPage)} {map : MapFunction} {perm : Nat → BitVec 32} {byte : Nat → NewPage → Nat → UInt8}

section Leaf

theorem leafEntry_eq_some {pt : Nat} {v : PageEntry} (h : leafEntry m pt a = some v) :
    Reaches m pt a 3 ∧ levelEntry m pt a 3 = v := by
  rw [leafEntry] at h
  split at h
  case isTrue hr => exact ⟨hr, Option.some.inj h⟩
  case isFalse => cases h

/-- Flags that map a page. -/
structure PagePerm (perm : BitVec 32) : Prop where
  present : permBits perm &&& pteP ≠ 0
  range : 0 ≤ perm.toInt ∧ perm.toInt < 0x1000

instance (perm : BitVec 32) : Decidable (PagePerm perm) :=
  decidable_of_iff (permBits perm &&& pteP ≠ 0 ∧ 0 ≤ perm.toInt ∧ perm.toInt < 0x1000)
    ⟨fun h => ⟨h.1, h.2⟩, fun h => ⟨h.present, h.range⟩⟩

theorem PagePerm.lookup {perm : BitVec 32} (h : PagePerm perm) (hpn : pn < npages) (va : Nat) :
    mappingOf va (some (leafValue (pn * pageSize) perm)) = ⟨pn, pn * pageSize + pageOffset va, perm⟩ := by
  have hpage : pageSize = 4096 := rfl
  have hsize : npages = 512 := rfl
  have hoffset : pageOffset va < 4096 := Nat.mod_lt _ (by decide)
  have hnumber : (pn * pageSize + pageOffset va) / 2 ^ 12 = pn := by
    rw [hpage]
    omega
  have hlt : pn * pageSize < 2 ^ 64 := by
    rw [hpage]
    omega
  have haligned : pn * pageSize % 4096 = 0 := Nat.mul_mod_left pn pageSize
  rw [mappingOf_leafValue h.present haligned hlt h.range, pageNumber, hnumber, asInt_eq (by omega)]

theorem PagePerm.leaf {perm : BitVec 32} (h : PagePerm perm) (hpn : pn < npages) :
    leafValue (pn * pageSize) perm &&& pteP ≠ 0 ∧ pteAddr (leafValue (pn * pageSize) perm) = pn * pageSize := by
  have hlookup := h.lookup hpn 0
  rw [mappingOf] at hlookup
  split at hlookup
  case isTrue =>
    have hpn' := congrArg VaMapping.pn hlookup
    have hneg : (-1 : Int) = pn := hpn'
    omega
  case isFalse hpresent =>
    have hpa := congrArg VaMapping.pa hlookup
    exact ⟨hpresent, Nat.add_right_cancel hpa⟩

end Leaf

section Supply

variable (R : Ready s p (used.map some ++ supply))
include R

theorem Ready.lt_npages (hpage : page ∈ used) : page.number < npages :=
  (R.free page (List.mem_append_left _ (List.mem_map_of_mem hpage))).2.1

/-- The same page of memory is not used twice. -/
theorem Ready.index_eq {page' : NewPage} (hi : used[i]? = some page) (hk : used[k]? = some page')
    (he : page.number = page'.number) : i = k := by
  have hnodup := (List.nodup_append.mp R.split).1
  obtain ⟨hlt, -⟩ := List.getElem?_eq_some_iff.mp hi
  apply (List.getElem?_inj (by rwa [List.length_map]) hnodup).mp
  rw [List.getElem?_map, List.getElem?_map, hi, hk, Option.map_some, Option.map_some, he]

end Supply

section Targets

variable (R : Ready s p (used.map some ++ supply)) (h : Placed s s' p va used perm byte) (hva : va % pageSize = 0)
  (hp : ∀ i, PagePerm (perm i))
include R h hva hp

theorem Placed.target (ha : va ≤ a) (ha' : a < va + pageSize * used.length) :
    ∃ page, used[(a - va) / pageSize]? = some page ∧ Reaches s'.mem (s.processes p).pPagetable a 4 ∧
      Kernel.target s'.mem (s.processes p).pPagetable a = page.number * pageSize + (a - va) % pageSize := by
  have hpage : pageSize = 4096 := rfl
  have hlt : (a - va) / pageSize < used.length := by
    rw [hpage] at ha' ⊢
    omega
  have hget : used[(a - va) / pageSize]? = some used[(a - va) / pageSize] := List.getElem?_eq_getElem hlt
  have hsame : a / 4096 = (va + pageSize * ((a - va) / pageSize)) / 4096 := by
    rw [hpage] at hva ⊢
    omega
  have hleaf := h.new _ _ hget
  rw [← leafEntry_page hsame] at hleaf
  obtain ⟨hr, hentry⟩ := leafEntry_eq_some hleaf
  obtain ⟨hpresent, haddr⟩ := (hp ((a - va) / pageSize)).leaf (R.lt_npages (List.getElem_mem hlt))
  refine ⟨_, hget, Reaches.succ.mpr ⟨hr, by rwa [hentry]⟩, ?_⟩
  have hoffset : pageOffset a = (a - va) % pageSize := by
    rw [pageOffset, hpage]
    rw [hpage] at hva
    omega
  rw [Kernel.target, tableAt_succ, hentry, haddr, hoffset]

theorem Placed.target_inj {b : Nat} (ha : va ≤ a) (ha' : a < va + pageSize * used.length) (hb : va ≤ b)
    (hb' : b < va + pageSize * used.length)
    (he : Kernel.target s'.mem (s.processes p).pPagetable a = Kernel.target s'.mem (s.processes p).pPagetable b) : a = b := by
  have hpage : pageSize = 4096 := rfl
  obtain ⟨page, hget, -, htarget⟩ := h.target R hva hp ha ha'
  obtain ⟨page', hget', -, htarget'⟩ := h.target R hva hp hb hb'
  rw [htarget, htarget', hpage] at he
  have hindex := R.index_eq hget hget' (by omega)
  rw [hpage] at hindex
  omega

theorem Placed.storable {n : Nat} (ha : va ≤ a) (hn : a + n ≤ va + pageSize * used.length)
    (hV : va + pageSize * used.length ≤ memsizeVirtual) :
    Storable s'.mem (s.processes p).pPagetable memsizeVirtual a n := by
  have hpage : pageSize = 4096 := rfl
  refine ⟨Nat.le_trans hn hV, fun i hi => ?_, fun i hi t ht => ?_, fun i hi j hj he => ?_⟩
  · obtain ⟨-, -, hr, -⟩ := h.target R hva hp (a := a + i) (by omega) (by omega)
    exact hr
  · obtain ⟨page, hget, -, htarget⟩ := h.target R hva hp (a := a + i) (by omega) (by omega)
    obtain ⟨q, rfl⟩ := ht.dvd R.tree.aligned
    have hno := R.not_table_of_mem (List.mem_of_getElem? hget)
    have hne : q ≠ page.number := by
      rintro rfl
      rw [hpage, Nat.mul_comm] at hno
      exact hno (h.upper.tableAt_iff.mp ht)
    rw [htarget, hpage]
    omega
  · have hij := h.target_inj R hva hp (by omega) (by omega) (by omega) (by omega) he
    exact Nat.add_left_cancel hij

end Targets

/-- The byte at `x`, where `b` has been, after the bytes `bs` have been stored from `a` on. -/
def stored (a : Nat) (bs : List UInt8) (x : Nat) (b : UInt8) : UInt8 := if a ≤ x then bs[x - a]?.getD b else b

theorem Placed.store {bs : List UInt8} (R : Ready s p (used.map some ++ supply)) (h : Placed s s' p va used perm byte)
    (hva : va % pageSize = 0) (hp : ∀ i, PagePerm (perm i)) (ha : va ≤ a)
    (hn : a + bs.length ≤ va + pageSize * used.length) (hV : va + pageSize * used.length ≤ memsizeVirtual)
    (hrun : storeVirtual (s.processes p).pPagetable a bs s'.mem = some m) :
    Placed s { s' with mem := m } p va used perm fun i page o => stored a bs (va + pageSize * i + o) (byte i page o) := by
  have hpage : pageSize = 4096 := rfl
  obtain ⟨hsame, hin, hout⟩ := storeVirtual_spec (h.storable R hva hp ha hn hV) hrun
  refine ⟨h.processes, h.upper.trans hsame.upper, h.table, ?_, ?_, ?_, ?_, h.info, h.taken⟩
  · intro i page hi
    obtain ⟨hlt, -⟩ := List.getElem?_eq_some_iff.mp hi
    have hbelow : va + pageSize * i < memsizeVirtual := by
      rw [hpage] at hV ⊢
      omega
    exact (hsame.leafEntry hbelow).trans (h.new i page hi)
  · exact fun b hb hb' => (hsame.leafEntry hb).trans (h.old b hb hb')
  · intro i page hi o ho
    obtain ⟨hlt, -⟩ := List.getElem?_eq_some_iff.mp hi
    have hx : va + pageSize * i + o < va + pageSize * used.length := by
      rw [hpage] at ho ⊢
      omega
    have hx' : va ≤ va + pageSize * i + o := by omega
    have htarget : Kernel.target s'.mem (s.processes p).pPagetable (va + pageSize * i + o) = page.number * pageSize + o := by
      obtain ⟨page', hi', -, ht⟩ := h.target R hva hp hx' hx
      have hdiv : (va + pageSize * i + o - va) / pageSize = i := by
        rw [hpage] at ho ⊢
        omega
      have hmod : (va + pageSize * i + o - va) % pageSize = o := by
        rw [hpage] at ho ⊢
        omega
      rw [hdiv, hi] at hi'
      rw [ht, hmod, Option.some.inj hi']
    have hold := h.contents i page hi o ho
    rw [← htarget] at hold ⊢
    have hwhere (j : Nat) (hj : j < bs.length)
        (he : Kernel.target s'.mem (s.processes p).pPagetable (va + pageSize * i + o) =
          Kernel.target s'.mem (s.processes p).pPagetable (a + j)) : va + pageSize * i + o = a + j :=
      h.target_inj R hva hp hx' hx (by omega) (by omega) he
    rw [stored]
    split
    case isTrue hle =>
      cases hb : bs[va + pageSize * i + o - a]? with
      | some b =>
          have hstored := hin _ b hb
          rwa [Nat.add_sub_cancel' hle] at hstored
      | none =>
          rw [Option.getD_none, ← hold]
          apply hout
          intro j hj he
          have hlen := List.getElem?_eq_none_iff.mp hb
          have hxj := hwhere j hj he
          omega
    case isFalse hle =>
      rw [← hold]
      apply hout
      intro j hj he
      exact hle (by rw [hwhere j hj he]; exact Nat.le_add_right a j)
  · intro pn hpn hno x hx hx'
    rw [← h.bytes pn hpn hno x hx hx']
    apply hout
    intro j hj he
    obtain ⟨page, hget, -, htarget⟩ := h.target R hva hp (a := a + j) (by omega) (by omega)
    have hne := hpn page (List.mem_of_getElem? hget)
    rw [he, htarget, hpage] at hx hx'
    omega

section Protect

variable {c c' : Memory × Nat}

theorem Placed.congr {perm' : Nat → BitVec 32} {byte' : Nat → NewPage → Nat → UInt8}
    (h : Placed s s' p va used perm byte) (hperm : ∀ i < used.length, perm' i = perm i)
    (hbyte : ∀ i page, used[i]? = some page → ∀ o < pageSize, byte' i page o = byte i page o) :
    Placed s s' p va used perm' byte' := by
  refine { h with new := fun i page hi => ?_, contents := fun i page hi o ho => ?_ }
  · rw [hperm i (List.getElem?_eq_some_iff.mp hi).1]
    exact h.new i page hi
  · rw [hbyte i page hi o ho]
    exact h.contents i page hi o ho

theorem Placed.reenter {v : BitVec 32} (R : Ready s p (used.map some ++ supply)) (h : Placed s s' p va used perm byte)
    (hva : va % pageSize = 0) (hV : va + pageSize * used.length ≤ memsizeVirtual) (hk : used[k]? = some page)
    (hm : m = setEntry s'.mem (tableAt s'.mem (s.processes p).pPagetable (va + pageSize * k) 3)
      (pageIndex (va + pageSize * k) 3) (leafValue (page.number * pageSize) v)) :
    Placed s { s' with mem := m } p va used (Function.update perm k v) byte := by
  have hpage : pageSize = 4096 := rfl
  obtain ⟨hklt, -⟩ := List.getElem?_eq_some_iff.mp hk
  obtain ⟨hr, -⟩ := leafEntry_eq_some (h.new k page hk)
  have S : Shape s'.mem (s.processes p).pPagetable memsizeVirtual := Shape.congr h.upper R.tree.toShape
  have hlt : va + pageSize * k < memsizeVirtual := by
    rw [hpage] at hV ⊢
    omega
  have hleaf (b : Nat) (hb : b < memsizeVirtual) : leafEntry m (s.processes p).pPagetable b =
      if b / 4096 = (va + pageSize * k) / 4096 then some (leafValue (page.number * pageSize) v)
      else leafEntry s'.mem (s.processes p).pPagetable b := by
    rw [hm, S.leafEntry_write hlt hr hb]
  have hkept (pn : Nat) (hno : ¬TableAt s.mem (s.processes p).pPagetable memsizeVirtual (pn * pageSize)) :
      SamePage s'.mem m (pn * pageSize) := by
    rw [hm]
    exact samePage_leafWrite S.aligned (Dvd.intro_left pn rfl) hlt hr fun ht => hno (h.upper.tableAt_iff.mp ht)
  refine ⟨h.processes, ?_, h.table, ?_, ?_, ?_, ?_, h.info, h.taken⟩
  · refine h.upper.trans ?_
    rw [hm]
    exact S.sameUpper_write hlt hr (pageIndex_lt _ 3)
  · intro i page' hi
    obtain ⟨hilt, -⟩ := List.getElem?_eq_some_iff.mp hi
    have hbelow : va + pageSize * i < memsizeVirtual := by
      rw [hpage] at hV ⊢
      omega
    by_cases hik : i = k
    · subst hik
      rw [hk] at hi
      obtain rfl := Option.some.inj hi
      rw [Function.update_self, hleaf _ hbelow, if_pos rfl]
    · have hother : (va + pageSize * i) / 4096 ≠ (va + pageSize * k) / 4096 := by
        rw [hpage] at hva ⊢
        omega
      rw [Function.update_of_ne hik, hleaf _ hbelow, if_neg hother]
      exact h.new i page' hi
  · intro b hb hout
    have hother : b / 4096 ≠ (va + pageSize * k) / 4096 := by
      rw [hpage] at hva hout ⊢
      omega
    rw [hleaf b hb, if_neg hother]
    exact h.old b hb hout
  · intro i page' hi o ho
    exact (hkept page'.number (R.not_table_of_mem (List.mem_of_getElem? hi)) _ (Nat.le_add_right _ _)
      (Nat.add_lt_add_left ho _)).trans (h.contents i page' hi o ho)
  · intro pn hpn hno x hx hx'
    exact (hkept pn hno x hx hx').trans (h.bytes pn hpn hno x hx hx')

theorem protectStep_spec (hmap : MapsPages map) (R : Ready s p (used.map some ++ supply))
    (h : Placed s s' p va used perm byte) (hva : va % pageSize = 0) (hp : ∀ i, PagePerm (perm i))
    (hV : va + pageSize * used.length ≤ memsizeVirtual) (hk : k < used.length)
    (hstep : protectStep map (s.processes p).pPagetable (s'.mem, va + pageSize * k) = some c) :
    c.2 = va + pageSize * (k + 1) ∧ Placed s { s' with mem := c.1 } p va used (Function.update perm k 5) byte := by
  have hpage : pageSize = 4096 := rfl
  have hsize : memsizeVirtual = 3145728 := rfl
  have hget : used[k]? = some used[k] := List.getElem?_eq_getElem hk
  have hpn := R.lt_npages (List.getElem_mem hk)
  have hlt : va + pageSize * k < memsizeVirtual := by
    rw [hpage] at hV ⊢
    omega
  have hoffset : pageOffset (va + pageSize * k) = 0 := by
    rw [pageOffset, hpage]
    rw [hpage] at hva
    omega
  have hlookup : (virtualMemoryLookup s'.mem (s.processes p).pPagetable (va + pageSize * k)).pa =
      used[k].number * pageSize := by
    rw [(Tree.congr h.upper R.tree).lookup hlt, h.new k _ hget, (hp k).lookup hpn, hoffset, Nat.add_zero]
  obtain ⟨⟨r, mem⟩, hrun, rfl⟩ := Option.map_eq_some_iff.mp hstep
  rw [hmap _ _ _ _ _ (by omega), hlookup] at hrun
  have hargs : MapArgs (s.processes p).pPagetable (va + pageSize * k) (used[k].number * pageSize) pageSize 5 := by
    by_contra hn
    rw [virtualMemoryMap, if_neg hn] at hrun
    cases hrun
  have S : Shape s'.mem (s.processes p).pPagetable memsizeVirtual := Shape.congr h.upper R.tree.toShape
  have hl := h.table k hk
  rw [← h.upper.leafTable hlt] at hl
  obtain ⟨-, ht⟩ := (leafTable_cases s'.mem (s.processes p).pPagetable (va + pageSize * k)).resolve_left hl
  rcases virtualMemoryMap_page S (by decide) hlt hargs with heq | ⟨hnone, -⟩
  · rw [if_pos hl, ht] at heq
    cases heq.symm.trans hrun
    have hnext : (va + pageSize * k + pageSize) % 2 ^ 64 = va + pageSize * (k + 1) := by
      rw [Nat.mul_succ, ← Nat.add_assoc]
      exact Nat.mod_eq_of_lt (by omega)
    exact ⟨hnext, h.reenter R hva hV hget rfl⟩
  · cases hnone.symm.trans hrun

theorem protectPages_spec (hmap : MapsPages map) (R : Ready s p (used.map some ++ supply))
    (h : Placed s s' p va used (fun _ => 7) byte) (hva : va % pageSize = 0)
    (hV : va + pageSize * used.length ≤ memsizeVirtual) (hbelow : ∀ i < used.length, va + pageSize * i < endMem)
    (hend : endMem ≤ va + pageSize * used.length)
    (hrun : protectPages map (s.processes p).pPagetable va endMem s'.mem = some m) :
    Placed s { s' with mem := m } p va used (fun _ => 5) byte := by
  have hpage : pageSize = 4096 := rfl
  obtain ⟨c, hloop, rfl⟩ := Option.map_eq_some_iff.mp hrun
  let I (c : Memory × Nat) : Prop := ∃ k, c.2 = va + pageSize * k ∧
    Placed s { s' with mem := c.1 } p va used (fun i => if i < k then 5 else 7) byte
  have hstart : I (s'.mem, va) := ⟨0, rfl, h⟩
  obtain ⟨⟨k, hk, hplaced⟩, hdone⟩ := cwhile_keeps _ _ I (fun c c' ⟨k, hk, hplaced⟩ hlt hstep => by
    have hklt : k < used.length := by
      rw [hk, hpage] at hlt
      rw [hpage] at hend
      omega
    have hc : c = (c.1, va + pageSize * k) := Prod.ext rfl hk
    rw [hc] at hstep
    obtain ⟨hnext, hplaced'⟩ := protectStep_spec hmap R hplaced hva (fun i => by split <;> decide) hV hklt hstep
    refine ⟨k + 1, hnext, hplaced'.congr (fun i _ => ?_) fun _ _ _ _ _ => rfl⟩
    by_cases hik : i = k
    · rw [hik, Function.update_self, if_pos (Nat.lt_succ_self k)]
    · have hiff : i < k + 1 ↔ i < k := by omega
      rw [Function.update_of_ne hik]
      simp only [hiff]) hstart hloop
  refine hplaced.congr (fun i hi => (if_pos ?_).symm) fun _ _ _ _ _ => rfl
  have hlt := hbelow i hi
  rw [hk] at hdone
  rw [hpage] at hlt hdone
  omega

end Protect

/-- The flags that the pages of the segment get. -/
def segmentPerm (ph : ElfProgram) : BitVec 32 := if ph.pFlags &&& elfPflagWrite = 0 then 5 else 7

/-- The byte that the segment leaves at the address `x` of one of its pages, where `b` has been. -/
def segmentByte (image : Nat → UInt8) (ph : ElfProgram) (x : Nat) (b : UInt8) : UInt8 :=
  if x < ph.pVa + ph.pFilesz then image (ph.pOffset + (x - roundDown ph.pVa pageSize))
  else if x < ph.pVa + ph.pMemsz then 0 else b

/-- The segment has been put on the pages `used`, which are all that it needs. -/
structure SegmentLoaded (image : Nat → UInt8) (ph : ElfProgram) (s s' : Machine) (p : Nat) (used : List NewPage) : Prop
    extends Placed s s' p (roundDown ph.pVa pageSize) used (fun _ => segmentPerm ph)
      fun i page o => segmentByte image ph (roundDown ph.pVa pageSize + pageSize * i + o) (page.contents o) where
  cover : ∀ i, i < used.length ↔ roundDown ph.pVa pageSize + pageSize * i < ph.pVa + ph.pMemsz

section Segment

variable {image : Nat → UInt8} {ph : ElfProgram} {b : UInt8} {x : Nat}

theorem stored_segment (hsize : ph.pFilesz ≤ ph.pMemsz) (hx : roundDown ph.pVa pageSize ≤ x) :
    stored (ph.pVa + ph.pFilesz) (List.replicate (ph.pMemsz - ph.pFilesz) 0) x
      (stored (roundDown ph.pVa pageSize)
        ((List.range (ph.pVa + ph.pFilesz - roundDown ph.pVa pageSize)).map fun i => image (ph.pOffset + i)) x b) =
      segmentByte image ph x b := by
  have hround := roundDown_le ph.pVa pageSize
  rw [stored, segmentByte]
  by_cases hfile : x < ph.pVa + ph.pFilesz
  · have hlt : x - roundDown ph.pVa pageSize < ph.pVa + ph.pFilesz - roundDown ph.pVa pageSize := by omega
    rw [if_neg (Nat.not_le.mpr hfile), if_pos hfile, stored, if_pos hx, List.getElem?_map, List.getElem?_range hlt]
    rfl
  · have hlen : ph.pVa + ph.pFilesz - roundDown ph.pVa pageSize ≤ x - roundDown ph.pVa pageSize := by omega
    rw [if_pos (Nat.le_of_not_lt hfile), if_neg hfile, List.getElem?_replicate]
    by_cases hmem : x < ph.pVa + ph.pMemsz
    · rw [if_pos (by omega), if_pos hmem]
      rfl
    · rw [if_neg (by omega), if_neg hmem, Option.getD_none, stored, if_pos hx, List.getElem?_eq_none]
      · rfl
      · rwa [List.length_map, List.length_range]

theorem roundDown_mod (a : Nat) : roundDown a pageSize % pageSize = 0 := by
  have hpage : pageSize = 4096 := rfl
  rw [roundDown, hpage]
  omega

theorem programLoadSegmentWith_spec {k : Symbols} {r : Int} (hmap : MapsPages map) (R : Ready s p supply)
    (hsize : ph.pFilesz ≤ ph.pMemsz) (hend : ph.pVa + ph.pMemsz ≤ memsizeVirtual)
    (hrun : programLoadSegmentWith map k image p ph s supply = some (r, s', rest)) :
    r = -1 ∨ r = 0 ∧ ∃ used, supply = used.map some ++ rest ∧ SegmentLoaded image ph s s' p used := by
  have hpage : pageSize = 4096 := rfl
  have hV : memsizeVirtual = 3145728 := rfl
  have hround := roundDown_le ph.pVa pageSize
  have hva := roundDown_mod ph.pVa
  have hfile64 : (ph.pVa + ph.pFilesz) % 2 ^ 64 = ph.pVa + ph.pFilesz := Nat.mod_eq_of_lt (by omega)
  have hmem64 : (ph.pVa + ph.pMemsz) % 2 ^ 64 = ph.pVa + ph.pMemsz := Nat.mod_eq_of_lt (by omega)
  have hfileLen : (ph.pVa + ph.pFilesz + 2 ^ 64 - roundDown ph.pVa pageSize) % 2 ^ 64 =
      ph.pVa + ph.pFilesz - roundDown ph.pVa pageSize := by omega
  have hzeroLen : (ph.pVa + ph.pMemsz + 2 ^ 64 - (ph.pVa + ph.pFilesz)) % 2 ^ 64 = ph.pMemsz - ph.pFilesz := by omega
  simp only [programLoadSegmentWith, hfile64, hmem64, hfileLen, hzeroLen] at hrun
  obtain ⟨c, hloop, hrun⟩ := Option.bind_eq_some_iff.mp hrun
  rcases allocatePages_spec hmap R hva hend hloop with hfail | ⟨used, hused, hall⟩
  · rw [if_pos (by omega)] at hrun
    cases hrun
    exact .inl rfl
  have hsupply := hused.supply_eq
  have hbelow := hused.below
  have R' := R
  rw [hsupply] at R'
  have hlen : roundDown ph.pVa pageSize + pageSize * used.length ≤ memsizeVirtual := by
    rcases Nat.eq_zero_or_pos used.length with hzero | hpos
    · rw [hzero, Nat.mul_zero]
      omega
    · have hlast := hbelow (used.length - 1) (Nat.sub_lt hpos Nat.one_pos)
      rw [hpage] at hva hlast ⊢
      omega
  have hret : ¬c.ret < 0 := by rw [hused.ret]; decide
  rw [if_neg hret] at hrun
  split at hrun
  case isFalse => cases hrun
  obtain ⟨m₁, hcopy, hrun⟩ := Option.bind_eq_some_iff.mp hrun
  obtain ⟨m₂, hclear, hrun⟩ := Option.bind_eq_some_iff.mp hrun
  split at hrun
  case isFalse => cases hrun
  obtain ⟨m₃, hprotect, hrun⟩ := Option.bind_eq_some_iff.mp hrun
  cases hrun
  have hcopied := hused.placed.store R' hva (fun _ => by decide) (Nat.le_refl _)
    (by rw [List.length_map, List.length_range]; omega) hlen hcopy
  have hcleared := hcopied.store R' hva (fun _ => by decide) (Nat.le_trans hround (Nat.le_add_right _ _))
    (by rw [List.length_replicate]; omega) hlen hclear
  refine .inr ⟨rfl, used, hsupply, ?_⟩
  have hdone : Placed s { c.machine with mem := m₃ } p (roundDown ph.pVa pageSize) used (fun _ => segmentPerm ph)
      fun i page o => segmentByte image ph (roundDown ph.pVa pageSize + pageSize * i + o) (page.contents o) := by
    have hfilled := hcleared.congr (fun _ _ => rfl) fun i page _ o _ =>
      (stored_segment hsize (Nat.le_trans (Nat.le_add_right _ _) (Nat.le_add_right _ _))).symm
    rw [segmentPerm]
    split at hprotect
    case isTrue hro =>
      rw [if_pos hro]
      have hprotected := protectPages_spec hmap R' hfilled hva hlen hbelow hall hprotect
      exact hprotected
    case isFalse hrw =>
      rw [if_neg hrw]
      cases hprotect
      exact hfilled
  refine { hdone with cover := fun i => ⟨hbelow i, fun hi => ?_⟩ }
  rw [hpage] at hi hall
  omega

end Segment

end WeensyOS.Kernel
