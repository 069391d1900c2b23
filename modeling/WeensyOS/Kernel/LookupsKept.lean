import WeensyOS.Kernel.ConsistentRuns

namespace WeensyOS.Kernel

open ByteMemory LibC ProgramBreak

variable {L : KernelLayout} {s s' t : Machine} {p r a : Nat} {owner : Int} {path : List Nat}

/-- No page table is new, and none leads elsewhere, but for the heap of `p`. -/
structure LookupsKept (L : KernelLayout) (s s' : Machine) (p : Nat) : Prop where
  root : ∀ r owner, Root L s' r owner → Root L s r owner
  table : ∀ owner t, TableOf L s' owner t → TableOf L s owner t
  originalBreak : Live s' p → Live s p ∧ (s'.processes p).originalBreak = (s.processes p).originalBreak
  lookup : ∀ r owner, Root L s' r owner → ∀ a < 2 ^ 48,
    (owner = p → a < (s'.processes p).originalBreak ∨ memsizeVirtual ≤ a) →
      virtualMemoryLookup s'.mem r a = virtualMemoryLookup s.mem r a

section Kept

theorem Root.live (h : Root L s r p) : Live s p := by
  rcases h with ⟨-, howner⟩ | ⟨q, -, hlive, -, howner⟩
  · have hkernel : poKernel = -2 := rfl
    omega
  · obtain rfl : p = q := by omega
    exact hlive

theorem LookupsKept.trans (h : LookupsKept L s t p) (h' : LookupsKept L t s' p) : LookupsKept L s s' p where
  root r owner hr := h.root r owner (h'.root r owner hr)
  table owner t ht := h.table owner t (h'.table owner t ht)
  originalBreak hlive := by
    obtain ⟨hlive', hob⟩ := h'.originalBreak hlive
    obtain ⟨hlive'', hob'⟩ := h.originalBreak hlive'
    exact ⟨hlive'', hob.trans hob'⟩
  lookup r owner hr a ha hout := by
    refine (h'.lookup r owner hr a ha hout).trans (h.lookup r owner (h'.root r owner hr) a ha fun howner => ?_)
    subst howner
    rw [← (h'.originalBreak hr.live).2]
    exact hout rfl

/-- The processes that are left have the tables that they had. -/
theorem LookupsKept.of_mem (hmem : s'.mem = s.mem)
    (hproc : ∀ q, Live s' q → Live s q ∧ (s'.processes q).pPagetable = (s.processes q).pPagetable)
    (hob : Live s' p → (s'.processes p).originalBreak = (s.processes p).originalBreak) : LookupsKept L s s' p where
  root r owner hr := hr.of_processes hproc
  table owner t ht := ht.of_roots (fun r owner hr => hr.of_processes hproc) hmem
  originalBreak hlive := ⟨(hproc p hlive).1, hob hlive⟩
  lookup r owner _ a _ _ := by rw [hmem]

theorem LookupsKept.exit (s : Machine) (p : Nat) : LookupsKept L s (s.exit p) p := by
  refine .of_mem rfl (fun q hlive => ?_) fun hlive => absurd hlive (exit_free s p)
  have hne : q ≠ p := by
    rintro rfl
    exact exit_free s q hlive
  rw [Live, exit_processes s p q hne] at hlive
  exact ⟨hlive, by rw [exit_processes s p q hne]⟩

/-- The tables are the same pages of memory. -/
theorem LookupsKept.of_tables {m : Memory} (hsame : ∀ owner t, TableOf L s owner t → SamePage s.mem m t) :
    LookupsKept L s { s with mem := m } p where
  root _ _ hr := hr
  table owner t ht := by
    obtain ⟨r, path, hr, hlen, hv⟩ := ht
    have hr' : Root L s r owner := hr
    exact ⟨r, path, hr', hlen, visits_congr (fun path t hlen' hv' => hsame owner t (hr'.visits (Nat.le_of_lt hlen') hv')) hlen hv⟩
  originalBreak hlive := ⟨hlive, rfl⟩
  lookup r owner hr a _ _ := by
    have hr' : Root L s r owner := hr
    exact lookup_congr fun j hj hreach =>
      entry_congr (hsame owner _ (hr'.reaches (Nat.le_of_lt_succ hj) hreach)) (pageIndex_lt a j)

variable (h : Consistent L s)
include h

theorem Consistent.lookups_palloc {page : NewPage} (hfree : page.Free s) : LookupsKept L s (s.palloc page p) p where
  root _ _ hr := hr
  table owner t ht := by
    obtain ⟨r, path, hr, hlen, hv⟩ := ht
    have hr' : Root L s r owner := hr
    exact ⟨r, path, hr', hlen,
      visits_congr (fun path t hlen' hv' => h.palloc_same hfree (hr'.visits (Nat.le_of_lt hlen') hv')) hlen hv⟩
  originalBreak hlive := ⟨hlive, rfl⟩
  lookup r owner hr a _ _ := by
    have hr' : Root L s r owner := hr
    exact lookup_congr fun j hj hreach =>
      entry_congr (h.palloc_same hfree (hr'.reaches (Nat.le_of_lt_succ hj) hreach)) (pageIndex_lt a j)

/-- A change of memory outside of all page tables. -/
theorem Consistent.of_tables {m : Memory} (hsame : ∀ owner t, TableOf L s owner t → SamePage s.mem m t) :
    Consistent L { s with mem := m } := by
  have hkept : LookupsKept L s { s with mem := m } nproc := .of_tables hsame
  have hroot (r : Nat) (owner : Int) (hr : Root L { s with mem := m } r owner) : Root L s r owner := hr
  have hlookup (r : Nat) (owner : Int) (hr : Root L { s with mem := m } r owner) (a : Nat) :
      virtualMemoryLookup m r a = virtualMemoryLookup s.mem r a :=
    lookup_congr fun j hj hreach =>
      entry_congr (hsame owner _ ((hroot r owner hr).reaches (Nat.le_of_lt_succ hj) hreach)) (pageIndex_lt a j)
  suffices hstays : Stays L s { s with mem := m } from hstays.consistent h
  refine ⟨fun _ hl => hl, fun _ _ => rfl, fun _ _ => rfl, fun q hq hl => ⟨(h.ready q hq hl).le, (h.ready q hq hl).lt⟩,
    fun r owner hr path t hlen hv => hsame owner t ((hroot r owner hr).visits (Nat.le_of_lt hlen) hv), fun _ _ _ => rfl,
    fun r owner hr a _ => hlookup r owner hr a, h.checked.owners, fun q hq hl a hle ha owner t ht => ?_⟩
  rw [hlookup _ _ (Root.process hq hl)]
  exact (h.ready q hq hl).apart a hle ha owner t (hkept.table owner t ht)

end Kept

section Leaves

variable (h : Consistent L s) (hp : p < nproc) (hlive : Live s p)
  (hmem : ∀ x, (∀ va, (s.processes p).originalBreak ≤ va → va < memsizeVirtual → Reaches s.mem (s.processes p).pPagetable va 3 →
    x < tableAt s.mem (s.processes p).pPagetable va 3 + 8 * pageIndex va 3 ∨
      tableAt s.mem (s.processes p).pPagetable va 3 + 8 * pageIndex va 3 + 8 ≤ x) → s'.mem x = s.mem x)
include h hp hlive hmem

theorem leaves_samePage (hr : Root L s r owner) (hlen : path.length < 3) {t : Nat} (hv : Visits s.mem r path t) :
    SamePage s.mem s'.mem t := by
  intro x hx hx'
  refine hmem x fun va hle hlt hreach => ?_
  have he : HeapEntry s p va := ⟨hp, hlive, hle, hlt, hreach⟩
  have hindex := pageIndex_lt va 3
  obtain ⟨i, hi⟩ := he.table_dvd h
  obtain ⟨j, hj⟩ := h.table_dvd (hr.visits (Nat.le_of_lt hlen) hv)
  have hne : tableAt s.mem (s.processes p).pPagetable va 3 ≠ t := by
    rintro rfl
    obtain ⟨-, -, rfl⟩ := he.same_path h hr (Nat.le_of_lt hlen) hv
    rw [indices_length] at hlen
    exact Nat.lt_irrefl 3 hlen
  omega

theorem leaves_lookup (hr : Root L s r owner) (ha : a < 2 ^ 48)
    (hout : owner = p → a < (s.processes p).originalBreak ∨ memsizeVirtual ≤ a) :
    virtualMemoryLookup s'.mem r a = virtualMemoryLookup s.mem r a := by
  refine lookup_congr fun j hj hreach => ?_
  have hvisits := reaches_visits hreach
  have hlen : (indices a j).length ≤ 3 := by
    rw [indices_length]
    exact Nat.le_of_lt_succ hj
  have haligned := (h.ready p hp hlive).aligned
  refine congrArg (BitVec.ofNat 64) (readLE_congr fun x hx hx' => hmem x fun va hle hlt hreach' => ?_)
  have he : HeapEntry s p va := ⟨hp, hlive, hle, hlt, hreach'⟩
  have hindex := pageIndex_lt va 3
  have hindex' := pageIndex_lt a j
  obtain ⟨i, hi⟩ := he.table_dvd h
  obtain ⟨k, hk⟩ := h.table_dvd (hr.reaches (Nat.le_of_lt_succ hj) hreach)
  by_cases heq : tableAt s.mem r a j = tableAt s.mem (s.processes p).pPagetable va 3
  · rw [heq] at hvisits
    obtain ⟨howner, hpt, hpath⟩ := he.same_path h hr hlen hvisits
    have hj3 : j = 3 := by
      have hlength := congrArg List.length hpath
      rwa [indices_length, indices_length] at hlength
    subst hj3
    have hV : memsizeVirtual = 3145728 := rfl
    have hpage : pageSize = 4096 := rfl
    have hne : pageIndex va 3 ≠ pageIndex a 3 := by
      intro hsame
      have hpages := page_of_indices ha (by omega) hpath hsame.symm
      have hrange := hout howner
      rw [hpage] at haligned
      omega
    omega
  · omega

theorem Consistent.lookups_leaves (hproc : ∀ q, Live s' q → Live s q ∧ (s'.processes q).pPagetable = (s.processes q).pPagetable)
    (hob : Live s' p → (s'.processes p).originalBreak = (s.processes p).originalBreak) : LookupsKept L s s' p where
  root r owner hr := hr.of_processes hproc
  table owner t ht := by
    obtain ⟨r, path, hr, hlen, hv⟩ := ht
    have hr' := hr.of_processes hproc
    exact ⟨r, path, hr', hlen, visits_congr (fun path t hlen' hv' => leaves_samePage h hp hlive hmem hr' hlen' hv') hlen hv⟩
  originalBreak hl := ⟨hlive, hob hl⟩
  lookup r owner hr a ha hout := by
    refine leaves_lookup h hp hlive hmem (hr.of_processes hproc) ha fun howner => ?_
    subst howner
    rw [← hob hr.live]
    exact hout rfl

end Leaves

section Steps

variable (h : Consistent L s) (hp : p < nproc) (hlive : Live s p)
include h hp hlive

theorem Moved.lookupsKept {newBreak : Nat} (hm : Moved s s' p newBreak) (hle : (s.processes p).originalBreak ≤ newBreak)
    (hlt : newBreak < memsizeVirtual - pageSize) : LookupsKept L s s' p := by
  have hold := (h.ready p hp hlive).lt
  have hsame (q : Nat) : (s'.processes q).pState = (s.processes q).pState ∧
      (s'.processes q).pPagetable = (s.processes q).pPagetable ∧
        (s'.processes q).originalBreak = (s.processes q).originalBreak := by
    rw [hm.processes]
    by_cases hq : q = p
    · subst hq
      simp
    · simp [hq]
  refine h.lookups_leaves hp hlive (fun x hx => hm.mem x fun a hup hpage => ?_) (fun q hl => ⟨?_, (hsame q).2.1⟩)
    fun _ => (hsame p).2.2
  · obtain ⟨hge, hlt'⟩ := hup.range hold hlt
    exact hx a (by omega) (by omega) (reaches_of_mapped hpage)
  · rwa [Live, (hsame q).1] at hl

theorem Consistent.lookups_mapPage {va pn : Nat} (hle : (s.processes p).originalBreak ≤ va) (hlt : va < memsizeVirtual)
    (hreach : Reaches s.mem (s.processes p).pPagetable va 3) : LookupsKept L s (s.mapPage p va pn) p :=
  h.lookups_leaves hp hlive (fun _ hx => writeLE_outside s.mem (hx va hle hlt hreach)) (fun _ hl => ⟨hl, rfl⟩) fun _ => rfl

theorem Consistent.lookups_brk {rdi rax : Nat} (hok : ProcOk s p) (h0 : SystemPage s 0) (hrdi : rdi < 2 ^ 64)
    (hrun : Kernel.sysBrk s p rdi = some (s', rax)) : LookupsKept L s s' p := by
  rcases sysBrk_cases hok h0 hrdi hrun with rfl | ⟨hle, hlt, hmoved⟩
  · exact .of_mem rfl (fun _ hl => ⟨hl, rfl⟩) fun _ => rfl
  · exact hmoved.lookupsKept h hp hlive hle hlt

theorem Consistent.lookups_fault {addr : Nat} {missing : Bool} {page : Option NewPage} (hok : ProcOk s p)
    (hfree : ∀ new ∈ page, new.Free s) (hrun : Kernel.pageFault s p addr missing page = some s') : LookupsKept L s s' p := by
  rcases pageFault_cases hok hfree hrun with rfl | ⟨new, rfl, rfl | ⟨hle, hlt, hreach, rfl⟩⟩
  · exact .exit s p
  · exact (h.lookups_palloc (hfree new rfl)).trans (.exit _ p)
  · have hgot := (h.palloc hp hlive (hfree new rfl)).1
    obtain ⟨hva, hva'⟩ := roundDown_heap (h.ready p hp hlive).aligned hle (Nat.lt_trans hlt (h.ready p hp hlive).lt)
    exact (h.lookups_palloc (hfree new rfl)).trans (hgot.lookups_mapPage hp hlive hva hva' hreach)

end Steps

end WeensyOS.Kernel
