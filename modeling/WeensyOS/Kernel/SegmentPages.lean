import WeensyOS.Kernel.VirtualStores

namespace WeensyOS.Kernel

open ByteMemory LibC Loop ProgramBreak

variable {s s' s₁ : Machine} {p va a pn i endMem : Nat} {page : NewPage} {used : List NewPage}
  {supply rest : List (Option NewPage)} {map : MapFunction} {perm : Nat → BitVec 32} {byte : Nat → NewPage → Nat → UInt8}

/-- The table of the process is a tree whose pages are in use, and `palloc` is going to hand out other
pages, each of them once. -/
structure Ready (s : Machine) (p : Nat) (supply : List (Option NewPage)) : Prop where
  tree : Tree s.mem (s.processes p).pPagetable memsizeVirtual
  inUse : ∀ pn, TableAt s.mem (s.processes p).pPagetable memsizeVirtual (pn * pageSize) → (s.pageinfo pn).refcount ≠ 0
  free : ∀ page, some page ∈ supply → page.Free s
  distinct : (supply.reduceOption.map NewPage.number).Nodup

theorem Ready.not_table (R : Ready s p supply) (hpage : some page ∈ supply) :
    ¬TableAt s.mem (s.processes p).pPagetable memsizeVirtual (page.number * pageSize) :=
  fun ht => R.inUse page.number ht (R.free page hpage).2.2

/-- The pages `used` have been mapped from `va` on. The flags of the `i`-th of them are `perm i`, and `byte i`
says what it holds. -/
structure Placed (s s' : Machine) (p va : Nat) (used : List NewPage) (perm : Nat → BitVec 32)
    (byte : Nat → NewPage → Nat → UInt8) : Prop where
  processes : s'.processes = s.processes
  upper : SameUpper s.mem s'.mem (s.processes p).pPagetable memsizeVirtual
  table : ∀ i < used.length, leafTable s.mem (s.processes p).pPagetable (va + pageSize * i) ≠ 0
  new : ∀ i page, used[i]? = some page →
    leafEntry s'.mem (s.processes p).pPagetable (va + pageSize * i) = some (leafValue (page.number * pageSize) (perm i))
  old : ∀ a < memsizeVirtual, a < va ∨ va + pageSize * used.length ≤ a →
    leafEntry s'.mem (s.processes p).pPagetable a = leafEntry s.mem (s.processes p).pPagetable a
  contents : ∀ i page, used[i]? = some page → ∀ o < pageSize, s'.mem (page.number * pageSize + o) = byte i page o
  bytes : ∀ pn, (∀ page ∈ used, pn ≠ page.number) →
    ¬TableAt s.mem (s.processes p).pPagetable memsizeVirtual (pn * pageSize) → SamePage s.mem s'.mem (pn * pageSize)
  info : ∀ pn, (∀ page ∈ used, pn ≠ page.number) → s'.pageinfo pn = s.pageinfo pn
  taken : ∀ page ∈ used, s'.pageinfo page.number = ⟨p, 1⟩

/-- The pages are as `palloc` has returned them, for the process to write to. -/
abbrev Allocated (s s' : Machine) (p va : Nat) (used : List NewPage) : Prop :=
  Placed s s' p va used (fun _ => 7) fun _ => NewPage.contents

theorem Allocated.nil (s : Machine) (p va : Nat) : Allocated s s p va [] where
  processes := rfl
  upper := SameUpper.refl _ _ _
  table _ h := absurd h (Nat.not_lt_zero _)
  new _ page h := absurd h (Option.some_ne_none page).symm
  old _ _ _ := rfl
  contents _ page h := absurd h (Option.some_ne_none page).symm
  bytes _ _ _ _ _ _ := rfl
  info _ _ := rfl
  taken _ h := absurd h List.not_mem_nil

section Palloc

theorem palloc_mem_of_ne {x : Nat} (h : x / pageSize ≠ page.number) : (s.palloc page p).mem x = s.mem x := if_neg h

theorem palloc_mem_page {o : Nat} (ho : o < pageSize) :
    (s.palloc page p).mem (page.number * pageSize + o) = page.contents o := by
  have hpage : pageSize = 4096 := rfl
  have hdiv : (page.number * pageSize + o) / pageSize = page.number := by
    rw [hpage] at ho ⊢
    omega
  have hmod : (page.number * pageSize + o) % pageSize = o := by
    rw [hpage] at ho ⊢
    omega
  exact (if_pos hdiv).trans (by rw [hmod])

theorem palloc_sameTables {pt V : Nat} (hpt : 4096 ∣ pt) (h : ¬TableAt s.mem pt V (page.number * pageSize)) :
    SameTables s.mem (s.palloc page p).mem pt V := by
  refine sameTables_of_outside fun t ht x hx hx' => palloc_mem_of_ne fun hdiv => h ?_
  obtain ⟨q, rfl⟩ := ht.dvd hpt
  have hpage : pageSize = 4096 := rfl
  have hq : q = page.number := by
    rw [hpage] at hdiv
    omega
  rwa [← hq, hpage, Nat.mul_comm]

theorem palloc_samePage (h : pn ≠ page.number) : SamePage s.mem (s.palloc page p).mem (pn * pageSize) := by
  intro x hx hx'
  apply palloc_mem_of_ne
  have hpage : pageSize = 4096 := rfl
  rw [hpage] at hx hx' ⊢
  omega

end Palloc

section Placed

variable (R : Ready s p (used.map some ++ supply))
include R

theorem Ready.split : (used.map NewPage.number ++ supply.reduceOption.map NewPage.number).Nodup := by
  have hd := R.distinct
  have hfilter (pages : List (Option NewPage)) : pages.reduceOption = pages.filterMap id := rfl
  rwa [hfilter, List.filterMap_append, List.filterMap_map, Function.id_comp, List.filterMap_some, ← hfilter,
    List.map_append] at hd

theorem Ready.ne_of_mem {page' : NewPage} (hpage : page ∈ used) (hnext : some page' ∈ supply) :
    page'.number ≠ page.number := by
  intro he
  have hd := (List.nodup_append.mp R.split).2.2 page.number (List.mem_map_of_mem hpage) page'.number
    (List.mem_map_of_mem (List.mem_filterMap.mpr ⟨some page', hnext, rfl⟩))
  exact hd he.symm

theorem Ready.not_table_of_mem (hpage : page ∈ used) :
    ¬TableAt s.mem (s.processes p).pPagetable memsizeVirtual (page.number * pageSize) :=
  R.not_table (List.mem_append_left _ (List.mem_map_of_mem hpage))

variable (h : Placed s s' p va used perm byte)
include h

theorem Placed.ready : Ready s' p supply where
  tree := by
    rw [h.processes]
    exact Tree.congr h.upper R.tree
  inUse pn ht := by
    rw [h.processes, h.upper.tableAt_iff] at ht
    by_cases hmem : ∃ page ∈ used, pn = page.number
    · obtain ⟨page, hpage, rfl⟩ := hmem
      exact absurd ht (R.not_table_of_mem hpage)
    · rw [h.info pn fun page hpage he => hmem ⟨page, hpage, he⟩]
      exact R.inUse pn ht
  free page hpage := by
    have hfree := R.free page (List.mem_append_right _ hpage)
    have hinfo := h.info page.number fun page' hpage' => R.ne_of_mem hpage' hpage
    exact ⟨hfree.1, hfree.2.1, by rw [hinfo]; exact hfree.2.2⟩
  distinct := (List.nodup_append.mp R.split).2.1

end Placed

section Entered

variable {m : Memory} {pt V : Nat} {v : PageEntry}

/-- An entry of a last-level table is on no page that holds no table. -/
theorem samePage_leafWrite {t : Nat} (hpt : 4096 ∣ pt) (ht : 4096 ∣ t) (ha : a < V) (hr : Reaches m pt a 3)
    (hno : ¬TableAt m pt V t) : SamePage m (setEntry m (tableAt m pt a 3) (pageIndex a 3) v) t :=
  samePage_setEntry (tableAt_dvd hpt m a 3) ht (fun he => hno ⟨a, ha, 3, by decide, hr, he⟩) (pageIndex_lt a 3)

theorem Allocated.snoc (R : Ready s p (used.map some ++ some page :: rest)) (h : Allocated s s₁ p va used)
    (hva : va % pageSize = 0) (hlt : va + pageSize * used.length < memsizeVirtual)
    (hl : leafTable (s₁.palloc page p).mem (s.processes p).pPagetable (va + pageSize * used.length) ≠ 0) :
    Allocated s ((s₁.palloc page p).mapPage p (va + pageSize * used.length) page.number) p va (used ++ [page]) := by
  have hpage : pageSize = 4096 := rfl
  have R₁ := h.ready R
  have hproc : (s₁.processes p).pPagetable = (s.processes p).pPagetable := by rw [h.processes]
  have hproc' : ((s₁.palloc page p).processes p).pPagetable = (s.processes p).pPagetable := hproc
  have hfresh := R₁.not_table List.mem_cons_self
  rw [hproc] at hfresh
  have hpt := R.tree.aligned
  have hsame : SameTables s₁.mem (s₁.palloc page p).mem (s.processes p).pPagetable memsizeVirtual :=
    palloc_sameTables hpt hfresh
  have S : Shape (s₁.palloc page p).mem (s.processes p).pPagetable memsizeVirtual :=
    Shape.congr (h.upper.trans hsame.upper) R.tree.toShape
  have htable (t : Nat) : TableAt (s₁.palloc page p).mem (s.processes p).pPagetable memsizeVirtual t ↔
      TableAt s.mem (s.processes p).pPagetable memsizeVirtual t :=
    hsame.tableAt_iff.trans h.upper.tableAt_iff
  obtain ⟨hr, -⟩ := (leafTable_cases (s₁.palloc page p).mem (s.processes p).pPagetable
    (va + pageSize * used.length)).resolve_left hl
  have hleaf (a : Nat) (ha : a < memsizeVirtual) :
      leafEntry ((s₁.palloc page p).mapPage p (va + pageSize * used.length) page.number).mem (s.processes p).pPagetable a =
        if a / 4096 = (va + pageSize * used.length) / 4096 then some (leafValue (page.number * pageSize) heapPerm)
        else leafEntry s₁.mem (s.processes p).pPagetable a := by
    rw [Machine.mapPage, hproc', S.leafEntry_write hlt hr ha, hsame.leafEntry ha]
  have hkept (pn : Nat) (hno : ¬TableAt s.mem (s.processes p).pPagetable memsizeVirtual (pn * pageSize)) :
      SamePage (s₁.palloc page p).mem ((s₁.palloc page p).mapPage p (va + pageSize * used.length) page.number).mem
        (pn * pageSize) := by
    rw [Machine.mapPage, hproc']
    exact samePage_leafWrite hpt (Dvd.intro_left pn rfl) hlt hr fun ht => hno ((htable _).mp ht)
  refine ⟨h.processes, ?_, ?_, ?_, ?_, ?_, ?_, ?_, ?_⟩
  · refine h.upper.trans (hsame.upper.trans ?_)
    rw [Machine.mapPage, hproc']
    exact S.sameUpper_write hlt hr (pageIndex_lt _ 3)
  · intro i hi
    rw [List.length_append, List.length_singleton] at hi
    rcases Nat.lt_succ_iff_lt_or_eq.mp hi with hi | rfl
    · exact h.table i hi
    · rwa [(h.upper.trans hsame.upper).leafTable hlt] at hl
  · intro i page' hi
    rw [List.getElem?_append] at hi
    split at hi
    case isTrue hlast =>
      have hbefore : va + pageSize * i < va + pageSize * used.length :=
        Nat.add_lt_add_left (Nat.mul_lt_mul_of_pos_left hlast (by decide)) va
      have hother : (va + pageSize * i) / 4096 ≠ (va + pageSize * used.length) / 4096 := by
        rw [hpage] at hva ⊢
        omega
      rw [hleaf _ (Nat.lt_trans hbefore hlt), if_neg hother]
      exact h.new i page' hi
    case isFalse hlast =>
      obtain ⟨hi', rfl⟩ := List.getElem?_eq_some_iff.mp hi
      have hone : i - used.length < 1 := hi'
      have hlen : i = used.length := by omega
      subst hlen
      rw [hleaf _ hlt, if_pos rfl]
      simp only [Nat.sub_self, List.getElem_cons_zero]
      rfl
  · intro a ha hout
    rw [List.length_append, List.length_singleton, Nat.mul_succ] at hout
    have hother : a / 4096 ≠ (va + pageSize * used.length) / 4096 := by
      rw [hpage] at hva hout ⊢
      omega
    have hout' : a < va ∨ va + pageSize * used.length ≤ a := by omega
    rw [hleaf a ha, if_neg hother]
    exact h.old a ha hout'
  · intro i page' hi o ho
    rw [List.getElem?_append] at hi
    split at hi
    case isTrue =>
      have hused := List.mem_of_getElem? hi
      have hne : page'.number ≠ page.number := (R.ne_of_mem hused List.mem_cons_self).symm
      rw [hkept page'.number (R.not_table_of_mem hused) _ (Nat.le_add_right _ _) (Nat.add_lt_add_left ho _),
        palloc_samePage hne _ (Nat.le_add_right _ _) (Nat.add_lt_add_left ho _)]
      exact h.contents i page' hi o ho
    case isFalse =>
      obtain rfl := List.mem_singleton.mp (List.mem_of_getElem? hi)
      rw [hkept page'.number (fun ht => hfresh (h.upper.tableAt_iff.mpr ht)) _ (Nat.le_add_right _ _)
        (Nat.add_lt_add_left ho _)]
      exact palloc_mem_page ho
  · intro pn hpn hno x hx hx'
    have hne : pn ≠ page.number := hpn page (List.mem_append_right _ (List.mem_singleton.mpr rfl))
    rw [hkept pn hno x hx hx', palloc_samePage hne x hx hx']
    exact h.bytes pn (fun page' hmem => hpn page' (List.mem_append_left _ hmem)) hno x hx hx'
  · intro pn hpn
    have hne : pn ≠ page.number := hpn page (List.mem_append_right _ (List.mem_singleton.mpr rfl))
    exact (Function.update_of_ne hne _ _).trans (h.info pn fun page' hmem => hpn page' (List.mem_append_left _ hmem))
  · intro page' hmem
    rcases List.mem_append.mp hmem with hused | hlast
    · exact (Function.update_of_ne (R.ne_of_mem hused List.mem_cons_self).symm _ _).trans (h.taken page' hused)
    · obtain rfl := List.mem_singleton.mp hlast
      exact Function.update_self _ _ _

end Entered

/-- Both kernels map one page in the same way. -/
def MapsPages (map : MapFunction) : Prop :=
  ∀ m pt va pa perm, va + 4096 ≤ 2 ^ 52 → map m pt va pa pageSize perm = virtualMemoryMap m pt va pa pageSize perm

section Allocate

variable {c c' : Allocation}

theorem supply_cons (h : supply.head?.join = some page) : supply = some page :: supply.tail := by
  cases supply with
  | nil => cases h
  | cons new rest =>
      cases new with
      | none => cases h
      | some page' =>
          obtain rfl : page' = page := Option.some.inj h
          rfl

theorem allocateStep_cases (hmap : MapsPages map) (R : Ready c.machine p c.supply) (ha : c.addr < memsizeVirtual)
    (hstep : allocateStep map p c = some c') :
    c'.ret = -1 ∨ ∃ page, c.supply = some page :: c'.supply ∧
      leafTable (c.machine.palloc page p).mem (c.machine.processes p).pPagetable c.addr ≠ 0 ∧
        c' = ⟨(c.machine.palloc page p).mapPage p c.addr page.number, c'.supply, c.addr + pageSize, 0⟩ := by
  have hpage : pageSize = 4096 := rfl
  have hV : memsizeVirtual = 3145728 := rfl
  rw [allocateStep] at hstep
  split at hstep
  case h_1 => exact .inl (by rw [← Option.some.inj hstep])
  case h_2 page hhead =>
  have hsupply := supply_cons hhead
  have hfirst : some page ∈ c.supply := by
    rw [hsupply]
    exact List.mem_cons_self
  have hfresh := R.not_table hfirst
  obtain ⟨⟨r, mem⟩, hrun, rfl⟩ := Option.map_eq_some_iff.mp hstep
  have hproc : ((c.machine.palloc page p).processes p).pPagetable = (c.machine.processes p).pPagetable := rfl
  rw [hmap _ _ _ _ _ (by omega), hproc] at hrun
  have hargs : MapArgs (c.machine.processes p).pPagetable c.addr (page.number * pageSize) pageSize 7 := by
    by_contra hn
    rw [virtualMemoryMap, if_neg hn] at hrun
    cases hrun
  have S : Shape (c.machine.palloc page p).mem (c.machine.processes p).pPagetable memsizeVirtual :=
    Shape.congr (palloc_sameTables R.tree.aligned hfresh).upper R.tree.toShape
  have hperm : permBits 7 &&& pteP ≠ 0 := by decide
  rcases virtualMemoryMap_page S (by decide) ha hargs with heq | ⟨hnone, -⟩
  · have heq' := heq.symm.trans hrun
    by_cases hzero : leafTable (c.machine.palloc page p).mem (c.machine.processes p).pPagetable c.addr = 0
    · rw [if_neg (not_not_intro hzero), if_pos hperm] at heq'
      cases heq'
      exact .inl rfl
    · obtain ⟨-, ht⟩ :=
        (leafTable_cases (c.machine.palloc page p).mem (c.machine.processes p).pPagetable c.addr).resolve_left hzero
      rw [if_pos hzero, ht] at heq'
      cases heq'
      refine .inr ⟨page, hsupply, hzero, ?_⟩
      have hnext : (c.addr + pageSize) % 2 ^ 64 = c.addr + pageSize := Nat.mod_eq_of_lt (by omega)
      simp only [hnext]
      rfl
  · cases hnone.symm.trans hrun

/-- The loop has not been left early, and the pages that it has entered are the first of the supply. -/
structure Allocating (s : Machine) (p va endMem : Nat) (supply : List (Option NewPage)) (used : List NewPage)
    (c : Allocation) : Prop where
  supply_eq : supply = used.map some ++ c.supply
  placed : Allocated s c.machine p va used
  addr : c.addr = va + pageSize * used.length
  below : ∀ i < used.length, va + pageSize * i < endMem
  ret : c.ret = 0

theorem allocateStep_allocating (hmap : MapsPages map) (R : Ready s p supply) (hva : va % pageSize = 0)
    (hend : endMem ≤ memsizeVirtual) (h : Allocating s p va endMem supply used c) (haddr : c.addr < endMem)
    (hstep : allocateStep map p c = some c') :
    c'.ret = -1 ∨ ∃ page, Allocating s p va endMem supply (used ++ [page]) c' := by
  have R₁ := R
  rw [h.supply_eq] at R₁
  have hproc : (c.machine.processes p).pPagetable = (s.processes p).pPagetable := by rw [h.placed.processes]
  rcases allocateStep_cases hmap (h.placed.ready R₁) (Nat.lt_of_lt_of_le haddr hend) hstep with
    hfail | ⟨page, hsupply, hl, hc'⟩
  · exact .inl hfail
  · rw [hsupply] at R₁
    rw [hproc, h.addr] at hl
    have hplaced := Allocated.snoc R₁ h.placed hva (by rw [← h.addr]; exact Nat.lt_of_lt_of_le haddr hend) hl
    refine .inr ⟨page, ⟨?_, ?_, ?_, ?_, ?_⟩⟩
    · rw [h.supply_eq, hsupply, List.map_append, List.map_singleton, List.append_assoc, List.singleton_append]
    · rw [hc', h.addr]
      exact hplaced
    · rw [hc', h.addr, List.length_append, List.length_singleton, Nat.mul_succ, Nat.add_assoc]
    · intro i hi
      rw [List.length_append, List.length_singleton] at hi
      rcases Nat.lt_succ_iff_lt_or_eq.mp hi with hlt | rfl
      · exact h.below i hlt
      · rw [← h.addr]
        exact haddr
    · rw [hc']

theorem allocatePages_spec (hmap : MapsPages map) (R : Ready s p supply) (hva : va % pageSize = 0)
    (hend : endMem ≤ memsizeVirtual) (hrun : allocatePages map p endMem ⟨s, supply, va, 0⟩ = some c) :
    c.ret = -1 ∨ ∃ used, Allocating s p va endMem supply used c ∧ endMem ≤ va + pageSize * used.length := by
  have hstart : Allocating s p va endMem supply [] ⟨s, supply, va, 0⟩ :=
    ⟨rfl, Allocated.nil s p va, rfl, fun _ hi => absurd hi (Nat.not_lt_zero _), rfl⟩
  obtain ⟨hI, hcond⟩ := cwhile_keeps _ _ (fun c => c.ret = -1 ∨ ∃ used, Allocating s p va endMem supply used c)
    (fun c c' hI hc hstep => by
      rcases hI with hfail | ⟨used, h⟩
      · rw [hfail] at hc
        exact absurd hc.1 (by decide)
      · exact (allocateStep_allocating hmap R hva hend h hc.2 hstep).imp id fun ⟨page, h'⟩ => ⟨_, h'⟩)
    (.inr ⟨[], hstart⟩) hrun
  refine hI.imp id fun ⟨used, h⟩ => ⟨used, h, ?_⟩
  have hdone := fun hlt => hcond ⟨h.ret, hlt⟩
  rw [← h.addr]
  exact Nat.le_of_not_lt hdone

end Allocate

end WeensyOS.Kernel
