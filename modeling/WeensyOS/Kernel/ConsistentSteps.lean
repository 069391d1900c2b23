import WeensyOS.Kernel.TableCache
import WeensyOS.Kernel.TableWalks

namespace WeensyOS.Kernel

open ByteMemory LibC ProgramBreak

variable {L : KernelLayout} {s s' : Machine} {p q r t va a pn : Nat} {path : List Nat} {owner : Int} {v : PageEntry}

/-- What a change of the machine leaves alone: the upper tables of the roots that are left, the pages that the
tables are on, and what the kernel's part of every address space is mapped to. -/
structure Stays (L : KernelLayout) (s s' : Machine) : Prop where
  live : ∀ q, Live s' q → Live s q
  pagetable : ∀ q, Live s' q → (s'.processes q).pPagetable = (s.processes q).pPagetable
  originalBreak : ∀ q, Live s' q → (s'.processes q).originalBreak = (s.processes q).originalBreak
  breaks : ∀ q < nproc, Live s' q → (s'.processes q).originalBreak ≤ (s'.processes q).programBreak ∧
    (s'.processes q).programBreak < memsizeVirtual - pageSize
  same : ∀ r owner, Root L s' r owner → ∀ path t, path.length < 3 → Visits s.mem r path t → SamePage s.mem s'.mem t
  info : ∀ owner t, TableOf L s' owner t → s'.pageinfo (pageNumber t).toNat = s.pageinfo (pageNumber t).toNat
  identity : ∀ r owner, Root L s' r owner → ∀ a < procStartAddr, virtualMemoryLookup s'.mem r a = virtualMemoryLookup s.mem r a
  owners : ∀ pn < npages, 0 < (s'.pageinfo pn).refcount → 0 ≤ (s'.pageinfo pn).owner →
    (s'.pageinfo pn).owner < nproc ∧ Live s' (s'.pageinfo pn).owner.toNat
  apart : ∀ q < nproc, Live s' q → ∀ a, (s.processes q).originalBreak ≤ a → a < memsizeVirtual → ∀ owner t,
    TableOf L s' owner t → (virtualMemoryLookup s'.mem (s.processes q).pPagetable a).pn ≠ pageNumber t

section Stays

theorem Stays.root (hs : Stays L s s') (hr : Root L s' r owner) : Root L s r owner := by
  rcases hr with hkernel | ⟨q, hq, hlive, rfl, rfl⟩
  · exact .inl hkernel
  · exact .inr ⟨q, hq, hs.live q hlive, hs.pagetable q hlive, rfl⟩

theorem Stays.visits (hs : Stays L s s') (hr : Root L s' r owner) (hlen : path.length ≤ 3) (hv : Visits s'.mem r path t) :
    Visits s.mem r path t :=
  visits_congr (hs.same r owner hr) hlen hv

theorem Stays.table (hs : Stays L s s') (ht : TableOf L s' owner t) : TableOf L s owner t := by
  obtain ⟨r, path, hr, hlen, hv⟩ := ht
  exact ⟨r, path, hs.root hr, hlen, hs.visits hr hlen hv⟩

theorem checkIdentity_congr {m m' : Memory} {writable : Bool} (h : virtualMemoryLookup m' r a = virtualMemoryLookup m r a) :
    checkIdentity m' r a writable = checkIdentity m r a writable := by
  rw [checkIdentity, checkIdentity, h]

/-- The kernel's image and its stack lie below the memory of the processes. -/
theorem Stays.identityMapped (hs : Stays L s s') (hr : Root L s' r owner) (h : IdentityMapped L s.mem r) :
    IdentityMapped L s'.mem r where
  aligned := h.aligned
  image k hk := by
    have hend := L.end_le
    have hbelow : kernelStartAddr + pageSize * k < procStartAddr := by
      have hsize : pageSize = 4096 := rfl
      rw [hsize] at hk ⊢
      omega
    rw [checkIdentity_congr (hs.identity r owner hr _ hbelow)]
    exact h.image k hk
  stack := by
    rw [checkIdentity_congr (hs.identity r owner hr (kernelStackTop - pageSize) (by decide))]
    exact h.stack

theorem TableOk.congr {refcount : Int} (h : TableOk s owner refcount t)
    (hinfo : s'.pageinfo (pageNumber t).toNat = s.pageinfo (pageNumber t).toNat) : TableOk s' owner refcount t where
  nonneg := h.nonneg
  lt := h.lt
  owner := by rw [hinfo, h.owner]
  refcount := by rw [hinfo, h.refcount]

theorem Stays.tablesOwned (hs : Stays L s s') (h : Consistent L s) (hr : Root L s' r owner) : TablesOwned s' r owner 1 where
  top := (h.tableOk (hs.root hr).table).congr (hs.info owner r hr.table)
  below path t hv _ hlen := by
    have ht := hr.visits hlen hv
    exact (h.tableOk (hs.table ht)).congr (hs.info owner t ht)

theorem Stays.consistent (hs : Stays L s s') (h : Consistent L s) : Consistent L s' := by
  have hready (p : Nat) (hp : p < nproc) (hlive : Live s' p) : HeapReady L s' p := by
    have hold := h.ready p hp (hs.live p hlive)
    have hpt := hs.pagetable p hlive
    have hob := hs.originalBreak p hlive
    obtain ⟨hle, hlt⟩ := hs.breaks p hp hlive
    refine ⟨by rw [hpt]; exact hold.own, by rw [hob]; exact hold.aligned, by rw [hob]; exact hold.start, hle, hlt, ?_⟩
    intro a hle ha owner t ht
    rw [hob] at hle
    rw [hpt]
    exact hs.apart p hp hlive a hle ha owner t ht
  have hkernel : Root L s' L.kernelPagetable poKernel := .inl ⟨rfl, rfl⟩
  refine ⟨⟨?_, ?_, ?_, ?_, ?_, hs.owners⟩, hready, ?_⟩
  · by_contra hlive
    exact hs.live 0 hlive h.checked.zero
  · exact hs.identityMapped hkernel h.checked.kernelMapped
  · rw [kernelUsers_eq_zero fun p hp hlive => (hready p hp hlive).own]
    exact hs.tablesOwned h hkernel
  · intro p hp hlive _
    have hr := Root.process (L := L) hp hlive
    exact hs.identityMapped hr (h.identity (hs.root hr))
  · intro p hp hlive _
    exact hs.tablesOwned h (Root.process hp hlive)
  · intro p hp hlive path path' t hlen hlen' hv hv'
    have hr := Root.process (L := L) hp hlive
    have hold := hs.visits hr hlen hv
    have hold' := hs.visits hr hlen' hv'
    rw [hs.pagetable p hlive] at hold hold'
    exact h.once p hp (hs.live p hlive) path path' t hlen hlen' hold hold'

end Stays

/-- The roots are those of before, where no process is new and none has another table. -/
theorem Root.of_processes (hproc : ∀ q, Live s' q → Live s q ∧ (s'.processes q).pPagetable = (s.processes q).pPagetable)
    (hr : Root L s' r owner) : Root L s r owner := by
  rcases hr with hkernel | ⟨q, hq, hlive, rfl, rfl⟩
  · exact .inl hkernel
  · exact .inr ⟨q, hq, (hproc q hlive).1, (hproc q hlive).2, rfl⟩

theorem TableOf.of_roots (hroot : ∀ r owner, Root L s' r owner → Root L s r owner) (hmem : s'.mem = s.mem)
    (ht : TableOf L s' owner t) : TableOf L s owner t := by
  obtain ⟨r, path, hr, hlen, hv⟩ := ht
  rw [hmem] at hv
  exact ⟨r, path, hroot r owner hr, hlen, hv⟩

section Steps

variable (h : Consistent L s)
include h

theorem Consistent.setBreak {newBreak : Nat} (hle : (s.processes p).originalBreak ≤ newBreak)
    (hlt : newBreak < memsizeVirtual - pageSize) : Consistent L (s.setBreak p newBreak) := by
  have hproc (q : Nat) : ((s.setBreak p newBreak).processes q).pState = (s.processes q).pState ∧
      ((s.setBreak p newBreak).processes q).pPagetable = (s.processes q).pPagetable ∧
        ((s.setBreak p newBreak).processes q).originalBreak = (s.processes q).originalBreak := by
    by_cases hq : q = p
    · subst hq
      simp [Machine.setBreak]
    · simp [Machine.setBreak, hq]
  have hlive (q : Nat) : Live (s.setBreak p newBreak) q ↔ Live s q := by rw [Live, Live, (hproc q).1]
  have hroot (r : Nat) (owner : Int) (hr : Root L (s.setBreak p newBreak) r owner) : Root L s r owner :=
    hr.of_processes fun q hl => ⟨(hlive q).mp hl, (hproc q).2.1⟩
  have htable {owner : Int} {t : Nat} (ht : TableOf L (s.setBreak p newBreak) owner t) : TableOf L s owner t :=
    ht.of_roots hroot rfl
  refine Stays.consistent ⟨fun q hl => (hlive q).mp hl, fun q _ => (hproc q).2.1, fun q _ => (hproc q).2.2, fun q hq hl => ?_,
    fun _ _ _ _ _ _ _ _ _ _ => rfl, fun _ _ _ => rfl, fun _ _ _ _ _ => rfl, fun pn hpn hrc howner => ?_,
    fun q hq hl a hle ha owner t ht => ?_⟩ h
  · by_cases hqp : q = p
    · subst hqp
      simpa [Machine.setBreak] using ⟨hle, hlt⟩
    · have hold := h.ready q hq ((hlive q).mp hl)
      simpa [Machine.setBreak, hqp] using ⟨hold.le, hold.lt⟩
  · obtain ⟨hlt', hl⟩ := h.checked.owners pn hpn hrc howner
    exact ⟨hlt', (hlive _).mpr hl⟩
  · exact (h.ready q hq ((hlive q).mp hl)).apart a hle ha owner t (htable ht)

/-- A process that dies takes its tables with it. -/
theorem Consistent.exit : Consistent L (s.exit p) := by
  have hne (q : Nat) (hl : Live (s.exit p) q) : q ≠ p := by
    rintro rfl
    exact exit_free s q hl
  have hproc (q : Nat) (hl : Live (s.exit p) q) : (s.exit p).processes q = s.processes q := exit_processes s p q (hne q hl)
  have hlive (q : Nat) (hl : Live (s.exit p) q) : Live s q := by
    rw [Live, hproc q hl] at hl
    exact hl
  have hroot (r : Nat) (owner : Int) (hr : Root L (s.exit p) r owner) : Root L s r owner :=
    hr.of_processes fun q hl => ⟨hlive q hl, by rw [hproc q hl]⟩
  have htable {owner : Int} {t : Nat} (ht : TableOf L (s.exit p) owner t) : TableOf L s owner t := ht.of_roots hroot rfl
  have howner {owner : Int} {t : Nat} (ht : TableOf L (s.exit p) owner t) : owner ≠ p := by
    obtain ⟨r, path, ⟨-, howner⟩ | ⟨q, -, hl, -, howner⟩, -, -⟩ := ht
    · have hkernel : poKernel = -2 := rfl
      omega
    · have hqp := hne q hl
      omega
  refine Stays.consistent ⟨hlive, fun q hl => by rw [hproc q hl], fun q hl => by rw [hproc q hl], fun q hq hl => ?_,
    fun _ _ _ _ _ _ _ _ _ _ => rfl, fun owner t ht => ?_, fun _ _ _ _ _ => rfl, fun pn hpn hrc hle => ?_,
    fun q hq hl a hle ha owner t ht => ?_⟩ h
  · rw [hproc q hl]
    have hold := h.ready q hq (hlive q hl)
    exact ⟨hold.le, hold.lt⟩
  · refine exit_pageinfo s p _ ?_
    rw [(h.tableOk (htable ht)).owner]
    exact howner ht
  · by_cases hown : (s.pageinfo pn).owner = p
    · have hfreed : (s.exit p).pageinfo pn = ⟨poFree, 0⟩ := if_pos hown
      rw [hfreed] at hrc
      exact absurd hrc (Int.lt_irrefl 0)
    · rw [exit_pageinfo s p pn hown] at hrc hle ⊢
      obtain ⟨hlt, hl⟩ := h.checked.owners pn hpn hrc hle
      refine ⟨hlt, ?_⟩
      rw [Live, exit_processes s p _ (by omega)]
      exact hl
  · exact (h.ready q hq (hlive q hl)).apart a hle ha owner t (htable ht)

theorem Consistent.not_free {page : NewPage} (hfree : page.Free s) (ht : TableOf L s owner t) : pageNumber t ≠ page.number := by
  intro heq
  have hrc := (h.tableOk ht).refcount
  rw [heq, Int.toNat_natCast, hfree.2.2] at hrc
  cases hrc

theorem Consistent.palloc_same {page : NewPage} (hfree : page.Free s) (ht : TableOf L s owner t) :
    SamePage s.mem (s.palloc page p).mem t := by
  intro x hx hx'
  have hpage : pageSize = 4096 := rfl
  refine if_neg fun heq => h.not_free hfree ht ?_
  obtain ⟨k, rfl⟩ := h.table_dvd ht
  have hk : 4096 * k / 2 ^ 12 = page.number := by
    rw [hpage] at heq
    omega
  have hnpages : npages = 512 := rfl
  have hlt := hfree.2.1
  rw [pageNumber, hk]
  exact asInt_eq (by omega)

theorem Consistent.palloc {page : NewPage} (hp : p < nproc) (hlive : Live s p) (hfree : page.Free s) :
    Consistent L (s.palloc page p) ∧ ∀ owner t, TableOf L (s.palloc page p) owner t → pageNumber t ≠ page.number := by
  have hroot (r : Nat) (owner : Int) (hr : Root L (s.palloc page p) r owner) : Root L s r owner := hr
  have hsame (r : Nat) (owner : Int) (hr : Root L s r owner) (path : List Nat) (t : Nat) (hlen : path.length < 3)
      (hv : Visits s.mem r path t) : SamePage s.mem (s.palloc page p).mem t :=
    h.palloc_same hfree (hr.visits (Nat.le_of_lt hlen) hv)
  have htable {owner : Int} {t : Nat} (ht : TableOf L (s.palloc page p) owner t) : TableOf L s owner t := by
    obtain ⟨r, path, hr, hlen, hv⟩ := ht
    exact ⟨r, path, hr, hlen, visits_congr (hsame r owner hr) hlen hv⟩
  have hlookup {r : Nat} {owner : Int} (hr : Root L s r owner) (a : Nat) :
      virtualMemoryLookup (s.palloc page p).mem r a = virtualMemoryLookup s.mem r a :=
    lookup_congr fun j hj hreach =>
      entry_congr (h.palloc_same hfree (hr.reaches (Nat.le_of_lt_succ hj) hreach)) (pageIndex_lt a j)
  have hinfo (pn : Nat) (hne : pn ≠ page.number) : (s.palloc page p).pageinfo pn = s.pageinfo pn :=
    Function.update_of_ne hne _ _
  have hstays : Stays L s (s.palloc page p) := by
    refine ⟨fun _ hl => hl, fun _ _ => rfl, fun _ _ => rfl, fun q hq hl => ⟨(h.ready q hq hl).le, (h.ready q hq hl).lt⟩,
      hsame, fun owner t ht => ?_, fun r owner hr a _ => hlookup hr a, fun pn hpn hrc howner => ?_,
      fun q hq hl a hle ha owner t ht => ?_⟩
    · refine hinfo _ fun heq => h.not_free hfree (htable ht) ?_
      rw [← heq, Int.toNat_of_nonneg (h.tableOk (htable ht)).nonneg]
    · by_cases heq : pn = page.number
      · subst heq
        have hnew : (s.palloc page p).pageinfo page.number = ⟨p, 1⟩ := Function.update_self _ _ _
        rw [hnew]
        exact ⟨Int.ofNat_lt.mpr hp, hlive⟩
      · rw [hinfo pn heq] at hrc howner ⊢
        exact h.checked.owners pn hpn hrc howner
    · rw [hlookup (Root.process hq hl)]
      exact (h.ready q hq hl).apart a hle ha owner t (htable ht)
  exact ⟨hstays.consistent h, fun owner t ht => h.not_free hfree (htable ht)⟩

/-- The two assignments of `sbrk` to a page that holds no table. -/
theorem Consistent.freePage (hpn : ∀ owner t, TableOf L s owner t → pageNumber t ≠ pn) :
    Consistent L ((s.setOwner pn poFree).setRefcount pn 0) := by
  have hinfo (q : Nat) : ((s.setOwner pn poFree).setRefcount pn 0).pageinfo q =
      if q = pn then ⟨poFree, 0⟩ else s.pageinfo q := unmapOne_pageinfo s 0 0 pn q
  suffices hstays : Stays L s ((s.setOwner pn poFree).setRefcount pn 0) from hstays.consistent h
  refine ⟨fun _ hl => hl, fun _ _ => rfl, fun _ _ => rfl, fun q hq hl => ⟨(h.ready q hq hl).le, (h.ready q hq hl).lt⟩,
    fun _ _ _ _ _ _ _ _ _ _ => rfl, fun owner t ht => ?_, fun _ _ _ _ _ => rfl, fun q hq hrc howner => ?_,
    fun q hq hl a hle ha owner t ht => ?_⟩
  · have ht' : TableOf L s owner t := ht
    rw [hinfo, if_neg fun heq => hpn owner t ht' ?_]
    rw [← heq, Int.toNat_of_nonneg (h.tableOk ht').nonneg]
  · rw [hinfo] at hrc howner ⊢
    by_cases heq : q = pn
    · rw [if_pos heq] at hrc
      exact absurd hrc (Int.lt_irrefl 0)
    · rw [if_neg heq] at hrc howner ⊢
      exact h.checked.owners q hq hrc howner
  · exact (h.ready q hq hl).apart a hle ha owner t ht

end Steps

section LeafWrite

/-- A last-level entry in the heap of `p`. -/
structure HeapEntry (s : Machine) (p va : Nat) : Prop where
  proc : p < nproc
  live : Live s p
  le : (s.processes p).originalBreak ≤ va
  lt : va < memsizeVirtual
  reaches : Reaches s.mem (s.processes p).pPagetable va 3

/-- The machine after a write of `v` to the last-level entry for `va`. -/
def Machine.writeLeaf (s : Machine) (p va : Nat) (v : PageEntry) : Machine :=
  { s with mem := setEntry s.mem (tableAt s.mem (s.processes p).pPagetable va 3) (pageIndex va 3) v }

theorem HeapEntry.visits (he : HeapEntry s p va) : Visits s.mem (s.processes p).pPagetable (indices va 3)
    (tableAt s.mem (s.processes p).pPagetable va 3) :=
  reaches_visits he.reaches

variable (h : Consistent L s) (he : HeapEntry s p va)
include h he

theorem HeapEntry.table_dvd : 4096 ∣ tableAt s.mem (s.processes p).pPagetable va 3 :=
  h.table_dvd ((Root.process he.proc he.live).reaches (Nat.le_refl 3) he.reaches)

theorem HeapEntry.same_path (hr : Root L s r owner) (hlen : path.length ≤ 3)
    (hv : Visits s.mem r path (tableAt s.mem (s.processes p).pPagetable va 3)) :
    owner = p ∧ r = (s.processes p).pPagetable ∧ path = indices va 3 :=
  h.same_path he.proc he.live hr hlen hv (Nat.le_of_eq (indices_length va 3)) he.visits

theorem HeapEntry.samePage (hr : Root L s r owner) (hlen : path.length < 3) (hv : Visits s.mem r path t) :
    SamePage s.mem (s.writeLeaf p va v).mem t := by
  refine samePage_setEntry (he.table_dvd h) (h.table_dvd (hr.visits (Nat.le_of_lt hlen) hv)) ?_ (pageIndex_lt va 3)
  rintro rfl
  obtain ⟨-, -, rfl⟩ := he.same_path h hr (Nat.le_of_lt hlen) hv
  rw [indices_length] at hlen
  exact Nat.lt_irrefl 3 hlen

theorem HeapEntry.lookup (hr : Root L s r owner) (ha : a < 2 ^ 48) (hne : owner = p → a / 4096 ≠ va / 4096) :
    virtualMemoryLookup (s.writeLeaf p va v).mem r a = virtualMemoryLookup s.mem r a := by
  refine lookup_congr fun j hj hreach => ?_
  have hvisits := reaches_visits hreach
  have hlen : (indices a j).length ≤ 3 := by
    rw [indices_length]
    exact Nat.le_of_lt_succ hj
  by_cases heq : tableAt s.mem r a j = tableAt s.mem (s.processes p).pPagetable va 3
  · rw [heq] at hvisits
    obtain ⟨howner, hpt, hpath⟩ := he.same_path h hr hlen hvisits
    have hj3 : j = 3 := by
      have hlength := congrArg List.length hpath
      rwa [indices_length, indices_length] at hlength
    subst hj3
    have hV : memsizeVirtual = 3145728 := rfl
    have hva : va < 2 ^ 48 := Nat.lt_trans he.lt (by decide)
    have hindex : pageIndex va 3 ≠ pageIndex a 3 := fun hindex => hne howner (page_of_indices ha hva hpath hindex.symm)
    rw [levelEntry, heq]
    exact entry_setEntry_ne hindex
  · exact entry_congr (samePage_setEntry (he.table_dvd h) (h.table_dvd (hr.reaches (Nat.le_of_lt_succ hj) hreach))
      (Ne.symm heq) (pageIndex_lt va 3)) (pageIndex_lt a j)

theorem HeapEntry.lookup_pn (ha : a / 4096 = va / 4096) :
    (virtualMemoryLookup (s.writeLeaf p va v).mem (s.processes p).pPagetable a).pn = -1 ∨
      v &&& pteP ≠ 0 ∧ (virtualMemoryLookup (s.writeLeaf p va v).mem (s.processes p).pPagetable a).pn =
        asInt (pteAddr v / pageSize) := by
  have hroot := Root.process (L := L) he.proc he.live
  obtain ⟨hregion, hindex⟩ := same_page_iff.mp ha
  have hwalk : (Reaches (s.writeLeaf p va v).mem (s.processes p).pPagetable va 3 ↔
        Reaches s.mem (s.processes p).pPagetable va 3) ∧
      (Reaches s.mem (s.processes p).pPagetable va 3 →
        tableAt (s.writeLeaf p va v).mem (s.processes p).pPagetable va 3 = tableAt s.mem (s.processes p).pPagetable va 3) :=
    path_congr fun j hj hreach => he.samePage h hroot (by rwa [indices_length]) (reaches_visits hreach)
  have hentry : levelEntry (s.writeLeaf p va v).mem (s.processes p).pPagetable a 3 = v := by
    rw [levelEntry, tableAt_region hregion _ _ (Nat.le_refl 3), hwalk.2 he.reaches, hindex]
    exact entry_setEntry_self s.mem _ _ v
  rw [Kernel.lookup_pn]
  by_cases hr : Reaches (s.writeLeaf p va v).mem (s.processes p).pPagetable a 4
  · right
    have hpresent := (Reaches.succ.mp hr).2
    rw [hentry] at hpresent
    refine ⟨hpresent, ?_⟩
    rw [mappedPage_eq_some.mpr ⟨hr, rfl⟩, tableAt_succ, hentry]
    rfl
  · left
    rw [mappedPage_eq_none.mpr hr]
    rfl

theorem Consistent.writeLeaf (hv : v &&& pteP ≠ 0 → ∀ owner t, TableOf L s owner t → asInt (pteAddr v / pageSize) ≠ pageNumber t) :
    Consistent L (s.writeLeaf p va v) := by
  have hready := h.ready p he.proc he.live
  have hpage : pageSize = 4096 := rfl
  have hstart : procStartAddr = 0x100000 := rfl
  have hV : memsizeVirtual = 3145728 := rfl
  have hle := he.le
  have hge := hready.start
  have htable {owner : Int} {t : Nat} (ht : TableOf L (s.writeLeaf p va v) owner t) : TableOf L s owner t := by
    obtain ⟨r, path, hr, hlen, hvisits⟩ := ht
    exact ⟨r, path, hr, hlen, visits_congr (fun path t hlen hv => he.samePage h hr hlen hv) hlen hvisits⟩
  suffices hstays : Stays L s (s.writeLeaf p va v) from hstays.consistent h
  refine ⟨fun _ hl => hl, fun _ _ => rfl, fun _ _ => rfl, fun q hq hl => ⟨(h.ready q hq hl).le, (h.ready q hq hl).lt⟩,
    fun r owner hr path t hlen hvisits => he.samePage h hr hlen hvisits, fun _ _ _ => rfl, fun r owner hr a ha => ?_,
    h.checked.owners, fun q hq hl a hle ha owner t ht => ?_⟩
  · rw [hstart] at ha hge
    exact he.lookup h hr (by omega) fun _ => by omega
  · by_cases hsame : (q : Int) = p ∧ a / 4096 = va / 4096
    · obtain ⟨hqp, hsame⟩ := hsame
      obtain rfl : q = p := by omega
      rcases he.lookup_pn h hsame with hnone | ⟨hpresent, hsome⟩
      · rw [hnone]
        have hnonneg := (h.tableOk (htable ht)).nonneg
        omega
      · rw [hsome]
        exact hv hpresent owner t (htable ht)
    · rw [hV] at ha
      rw [he.lookup h (Root.process hq hl) (by omega) fun hqp hpages => hsame ⟨hqp, hpages⟩]
      exact (h.ready q hq hl).apart a hle (by omega) owner t (htable ht)

end LeafWrite

end WeensyOS.Kernel
