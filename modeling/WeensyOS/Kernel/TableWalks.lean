import WeensyOS.Kernel.Consistency
import WeensyOS.Kernel.Ownership

namespace WeensyOS.Kernel

open ByteMemory LibC ProgramBreak

variable {L : KernelLayout} {s s' : Machine} {m m' : Memory} {p q pt r t t' va a i k n : Nat} {path path' : List Nat}
  {owner owner' : Int} {v : PageEntry}

section Walks

/-- The indices of the entries on the way to level `i`. -/
def indices (va i : Nat) : List Nat := (List.range i).map (pageIndex va)

theorem indices_length (va i : Nat) : (indices va i).length = i := by rw [indices, List.length_map, List.length_range]

theorem Visits.snoc (h : Visits m pt path t) (hi : i < 512) (hne : entry m t i ≠ 0) :
    Visits m pt (path ++ [i]) (pteAddr (entry m t i)) := by
  induction h with
  | nil => exact .cons hi hne (.nil _)
  | cons hj hentry _ ih => exact .cons hj hentry (ih hne)

theorem reaches_visits (h : Reaches m pt va i) : Visits m pt (indices va i) (tableAt m pt va i) := by
  induction i with
  | zero => exact .nil pt
  | succ i ih =>
      obtain ⟨hr, hp⟩ := Reaches.succ.mp h
      rw [indices, List.range_succ, List.map_append, tableAt_succ]
      apply (ih hr).snoc (pageIndex_lt va i)
      intro hzero
      apply hp
      rw [levelEntry, hzero]
      rfl

theorem visits_congr (h : ∀ path t, path.length < n → Visits m pt path t → SamePage m m' t) (hlen : path.length ≤ n)
    (hv : Visits m' pt path t) : Visits m pt path t := by
  induction hv generalizing n with
  | nil pt => exact .nil pt
  | @cons pt i t path hi hne _ ih =>
      obtain ⟨n, rfl⟩ := Nat.exists_eq_succ_of_ne_zero (Nat.ne_of_gt (Nat.lt_of_lt_of_le (Nat.succ_pos path.length) hlen))
      have hentry : entry m' pt i = entry m pt i := entry_congr (h [] pt (Nat.succ_pos n) (.nil pt)) hi
      rw [hentry] at hne ih
      refine .cons hi hne (ih (fun path t hpath ht => ?_) (Nat.le_of_succ_le_succ hlen))
      exact h (i :: path) t (Nat.succ_lt_succ hpath) (.cons hi hne ht)

theorem page_of_indices (ha : a < 2 ^ 48) (hva : va < 2 ^ 48) (h : indices a 3 = indices va 3)
    (hindex : pageIndex a 3 = pageIndex va 3) : a / 4096 = va / 4096 := by
  have hat (i : Nat) (hi : i < 3) : pageIndex a i = pageIndex va i := by
    have hget := congrArg (fun is => is[i]?) h
    simpa [indices, hi] using hget
  have h0 := hat 0 (by decide)
  have h1 := hat 1 (by decide)
  have h2 := hat 2 (by decide)
  simp only [pageIndex] at h0 h1 h2 hindex
  omega

end Walks

/-- A table that a check starts from, with the owner that it asks for. -/
def Root (L : KernelLayout) (s : Machine) (r : Nat) (owner : Int) : Prop :=
  (r = L.kernelPagetable ∧ owner = poKernel) ∨ ∃ q < nproc, Live s q ∧ r = (s.processes q).pPagetable ∧ owner = q

/-- A page-table page. -/
def TableOf (L : KernelLayout) (s : Machine) (owner : Int) (t : Nat) : Prop :=
  ∃ r path, Root L s r owner ∧ path.length ≤ 3 ∧ Visits s.mem r path t

/-- Every page-table page of the table is reached by one path only. -/
def VisitedOnce (m : Memory) (pt : Nat) : Prop :=
  ∀ path path' t, path.length ≤ 3 → path'.length ≤ 3 → Visits m pt path t → Visits m pt path' t → path = path'

/-- The process has a table of its own and a heap, and no page-table page is mapped in the heap. -/
structure HeapReady (L : KernelLayout) (s : Machine) (p : Nat) : Prop where
  own : (s.processes p).pPagetable ≠ L.kernelPagetable
  aligned : (s.processes p).originalBreak % pageSize = 0
  start : procStartAddr ≤ (s.processes p).originalBreak
  le : (s.processes p).originalBreak ≤ (s.processes p).programBreak
  lt : (s.processes p).programBreak < memsizeVirtual - pageSize
  apart : ∀ a, (s.processes p).originalBreak ≤ a → a < memsizeVirtual → ∀ owner t, TableOf L s owner t →
    (virtualMemoryLookup s.mem (s.processes p).pPagetable a).pn ≠ pageNumber t

/-- The assertions of `check_virtual_memory`, and what keeps the heap apart from the page tables. -/
structure Consistent (L : KernelLayout) (s : Machine) : Prop where
  checked : Checked L s
  ready : ∀ p < nproc, Live s p → HeapReady L s p
  once : ∀ p < nproc, Live s p → VisitedOnce s.mem (s.processes p).pPagetable

section Consistent

theorem Root.table (h : Root L s r owner) : TableOf L s owner r := ⟨r, [], h, Nat.zero_le 3, .nil r⟩

theorem Root.visits (h : Root L s r owner) (hlen : path.length ≤ 3) (hv : Visits s.mem r path t) : TableOf L s owner t :=
  ⟨r, path, h, hlen, hv⟩

theorem Root.reaches (h : Root L s r owner) (hi : i ≤ 3) (hr : Reaches s.mem r a i) : TableOf L s owner (tableAt s.mem r a i) :=
  h.visits (by rw [indices_length]; exact hi) (reaches_visits hr)

theorem Root.process (hp : p < nproc) (hlive : Live s p) : Root L s (s.processes p).pPagetable p :=
  .inr ⟨p, hp, hlive, rfl, rfl⟩

/-- The table of a process is the only root that asks for the process as owner. -/
theorem Root.eq_process (h : Root L s r p) : r = (s.processes p).pPagetable := by
  rcases h with ⟨-, howner⟩ | ⟨q, -, -, hr, howner⟩
  · have hkernel : poKernel = -2 := rfl
    omega
  · obtain rfl : p = q := by omega
    exact hr

theorem kernelUsers_eq_zero (hown : ∀ q < nproc, Live s q → (s.processes q).pPagetable ≠ L.kernelPagetable) :
    kernelUsers L s = 0 := by
  rw [kernelUsers, List.countP_eq_zero]
  intro q hq hboth
  rw [Bool.and_eq_true, decide_eq_true_eq, decide_eq_true_eq] at hboth
  exact hown q (List.mem_range.mp hq) hboth.1 hboth.2

theorem Checked.tablesOwned (h : Checked L s) (hown : ∀ q < nproc, Live s q → (s.processes q).pPagetable ≠ L.kernelPagetable)
    (hr : Root L s r owner) : TablesOwned s r owner 1 := by
  rcases hr with ⟨rfl, rfl⟩ | ⟨q, hq, hlive, rfl, rfl⟩
  · have howned := h.kernelOwned
    rwa [kernelUsers_eq_zero hown] at howned
  · exact h.owned q hq hlive (hown q hq hlive)

/-- A page-table page is in use once, by its owner. -/
theorem Checked.tableOk (h : Checked L s) (hown : ∀ q < nproc, Live s q → (s.processes q).pPagetable ≠ L.kernelPagetable)
    (ht : TableOf L s owner t) : TableOk s owner 1 t := by
  obtain ⟨r, path, hr, hlen, hv⟩ := ht
  have howned := h.tablesOwned hown hr
  by_cases hne : path = []
  · subst hne
    cases hv
    exact howned.top
  · exact howned.below path t hv hne hlen

variable (h : Consistent L s)
include h

theorem Consistent.own (q : Nat) (hq : q < nproc) (hlive : Live s q) : (s.processes q).pPagetable ≠ L.kernelPagetable :=
  (h.ready q hq hlive).own

theorem Consistent.identity (hr : Root L s r owner) : IdentityMapped L s.mem r := by
  rcases hr with ⟨rfl, -⟩ | ⟨q, hq, hlive, rfl, -⟩
  · exact h.checked.kernelMapped
  · exact h.checked.mapped q hq hlive (h.own q hq hlive)

theorem Consistent.tableOk (ht : TableOf L s owner t) : TableOk s owner 1 t := h.checked.tableOk h.own ht

theorem Consistent.table_dvd (ht : TableOf L s owner t) : 4096 ∣ t := by
  obtain ⟨r, path, hr, -, hv⟩ := ht
  have hroot : 4096 ∣ r := by
    have haligned := (h.identity hr).aligned
    rw [← haligned]
    exact pteAddr_dvd _
  clear hr
  induction hv with
  | nil => exact hroot
  | cons _ _ _ ih => exact ih (pteAddr_dvd _)

theorem Consistent.owner_eq (ht : TableOf L s owner t) (ht' : TableOf L s owner' t) : owner = owner' :=
  (h.tableOk ht).owner.symm.trans (h.tableOk ht').owner

/-- What is mapped at the address is seen by the process alone, and the same path leads to it. -/
theorem Consistent.same_path (hp : p < nproc) (hlive : Live s p) (hr : Root L s r owner) (hlen : path.length ≤ 3)
    (hv : Visits s.mem r path t) (hlen' : path'.length ≤ 3) (hv' : Visits s.mem (s.processes p).pPagetable path' t) :
    owner = p ∧ r = (s.processes p).pPagetable ∧ path = path' := by
  have howner := h.owner_eq (hr.visits hlen hv) ((Root.process hp hlive).visits hlen' hv')
  subst howner
  have hroot := hr.eq_process
  rw [hroot] at hv
  exact ⟨rfl, hroot, h.once p hp hlive path path' t hlen hlen' hv hv'⟩

end Consistent

end WeensyOS.Kernel
