import WeensyOS.Kernel.Ownership

namespace WeensyOS.Kernel

open ByteMemory LibC ProgramBreak

variable {s s' : Machine} {p a b pn newBreak oldBreak : Nat}

section Tables

theorem ProcOk.tableAt_ne_zero (hok : ProcOk s p) (h0 : SystemPage s 0) {i : Nat} (ha : a < memsizeVirtual) (hi : i < 4)
    (hr : Reaches s.mem (s.processes p).pPagetable a i) : tableAt s.mem (s.processes p).pPagetable a i ≠ 0 := by
  intro hzero
  exact (hok.tables 0 ⟨a, ha, i, hi, hr, hzero.trans (Nat.zero_mul _).symm⟩).not_system h0

theorem ProcOk.heapTables (hok : ProcOk s p) (h0 : SystemPage s 0) : HeapTables s p where
  shape := hok.shape
  nonnull a _ hlt hsome :=
    hok.tableAt_ne_zero h0 (Nat.lt_of_lt_of_le hlt (Nat.sub_le _ _)) (by decide) (reaches_of_mapped hsome)
  physical a hle hlt pn hpn := (hok.heap a pn ⟨hle, hlt, hpn⟩).lt

theorem ProcOk.entry_outside (hok : ProcOk s p) {x : Nat} (hno : ¬IsTable s p pn) (ha : a < memsizeVirtual)
    (hr : Reaches s.mem (s.processes p).pPagetable a 3) (hx : pn * pageSize ≤ x) (hx' : x < pn * pageSize + 4096) :
    x < tableAt s.mem (s.processes p).pPagetable a 3 + 8 * pageIndex a 3 ∨
      tableAt s.mem (s.processes p).pPagetable a 3 + 8 * pageIndex a 3 + 8 ≤ x := by
  obtain ⟨t, ht, htable⟩ := hok.table ha (by decide : 3 < 4) hr
  have hne : pn ≠ t := by
    rintro rfl
    exact hno htable
  have hindex := pageIndex_lt a 3
  have hpage : pageSize = 4096 := rfl
  rw [ht]
  rw [hpage] at hx hx' ⊢
  omega

end Tables

section Moved

theorem GivenUp.range (h : GivenUp oldBreak newBreak a) (hold : oldBreak < memsizeVirtual - pageSize)
    (hnew : newBreak < memsizeVirtual - pageSize) : newBreak ≤ a ∧ a < memsizeVirtual - pageSize := by
  obtain ⟨ha, ha'⟩ := h
  rw [limit_eq] at *
  rw [roundUp_page (by omega)] at ha ha'
  omega

theorem GivenUp.page (hold : oldBreak < memsizeVirtual - pageSize) (hnew : newBreak < memsizeVirtual - pageSize)
    (hpage : a / 4096 = b / 4096) (h : GivenUp oldBreak newBreak a) : GivenUp oldBreak newBreak b := by
  obtain ⟨ha, ha'⟩ := h
  rw [limit_eq] at hold hnew
  rw [roundUp_page (by omega)] at ha ha'
  rw [GivenUp, roundUp_page (by omega), roundUp_page (by omega)]
  omega

theorem Moved.page (h : Moved s s' p newBreak) (ha : a < memsizeVirtual) :
    mappedPage s'.mem (s.processes p).pPagetable a =
      if GivenUp (s.processes p).programBreak newBreak a then none else mappedPage s.mem (s.processes p).pPagetable a := by
  rw [mappedPage, h.leaf a ha]
  by_cases hup : GivenUp (s.processes p).programBreak newBreak a
  · rw [if_pos hup]
    by_cases hsome : mappedPage s.mem (s.processes p).pPagetable a = none
    · rw [if_neg fun hc => hc.2 hsome]
      exact hsome
    · rw [if_pos ⟨hup, hsome⟩]
      rfl
  · rw [if_neg hup, if_neg fun hc => hup hc.1]
    rfl

theorem Moved.proc (h : Moved s s' p newBreak) : s'.processes p = { s.processes p with programBreak := newBreak } := by
  rw [h.processes, Function.update_self]

theorem Moved.isTable (h : Moved s s' p newBreak) (ht : IsTable s' p pn) : IsTable s p pn := by
  obtain ⟨a, ha, i, hi, hr, htable⟩ := ht
  rw [h.proc] at hr htable
  obtain ⟨hreach, hsame⟩ := h.upper.path ha (Nat.le_of_lt_succ hi)
  exact ⟨a, ha, i, hi, hreach.mp hr, (hsame (hreach.mp hr)).symm.trans htable⟩

theorem leaf_level {m : Memory} {pt : Nat} (hpage : mappedPage m pt a ≠ none) :
    leafEntry m pt a = some (levelEntry m pt a 3) := if_pos (reaches_of_mapped hpage)

theorem Moved.levelEntry (h : Moved s s' p newBreak) (ha : a < memsizeVirtual)
    (hup : ¬GivenUp (s.processes p).programBreak newBreak a) (hpage : mappedPage s.mem (s.processes p).pPagetable a ≠ none) :
    Kernel.levelEntry s'.mem (s.processes p).pPagetable a 3 = Kernel.levelEntry s.mem (s.processes p).pPagetable a 3 := by
  have hpage' := h.page ha
  rw [if_neg hup] at hpage'
  have hleaf := h.leaf a ha
  rw [if_neg fun hc => hup hc.1, leaf_level (by rwa [hpage']), leaf_level hpage] at hleaf
  exact Option.some.inj hleaf

theorem Moved.userMaps (h : Moved s s' p newBreak) (hu : UserMaps s' p a pn) :
    UserMaps s p a pn ∧ ¬GivenUp (s.processes p).programBreak newBreak a := by
  obtain ⟨ha, hpage, huser⟩ := hu
  rw [h.proc] at hpage huser
  have hpage' := hpage
  rw [h.page ha] at hpage'
  by_cases hup : GivenUp (s.processes p).programBreak newBreak a
  · rw [if_pos hup] at hpage'
    cases hpage'
  · rw [if_neg hup] at hpage'
    refine ⟨⟨ha, hpage', huser.imp_right fun hor => hor.imp_right fun hu => ?_⟩, hup⟩
    rwa [h.levelEntry ha hup (by rw [hpage']; exact Option.some_ne_none pn)] at hu

theorem ProcOk.heapPage_of_givenUp (hok : ProcOk s p) (ho : (s.processes p).originalBreak ≤ newBreak)
    (hl : newBreak < memsizeVirtual - pageSize) (hup : GivenUp (s.processes p).programBreak newBreak a)
    (hpage : mappedPage s.mem (s.processes p).pPagetable a = some pn) : HeapPage s p a pn := by
  obtain ⟨hle, hlt⟩ := hup.range hok.lt hl
  exact hok.heap a pn ⟨Nat.le_trans ho hle, hlt, hpage⟩

theorem ProcOk.moved_kept (hok : ProcOk s p) (ho : (s.processes p).originalBreak ≤ newBreak)
    (hl : newBreak < memsizeVirtual - pageSize) (h : Moved s s' p newBreak)
    (hno : ∀ a, GivenUp (s.processes p).programBreak newBreak a → ¬HeapPage s p a pn) : s'.pageinfo pn = s.pageinfo pn :=
  h.kept pn fun a hup hpage => hno a hup (hok.heapPage_of_givenUp ho hl hup hpage)

theorem ProcOk.moved_user (hok : ProcOk s p) (ho : (s.processes p).originalBreak ≤ newBreak)
    (hl : newBreak < memsizeVirtual - pageSize) (h : Moved s s' p newBreak) (hu : UserMaps s p a pn)
    (hup : ¬GivenUp (s.processes p).programBreak newBreak a) : s'.pageinfo pn = s.pageinfo pn :=
  hok.moved_kept ho hl h fun _ hup' hp => hup (hup'.page hok.lt hl (hp.once a hu).symm)

theorem moved_ok (hok : ProcOk s p) (ho : (s.processes p).originalBreak ≤ newBreak)
    (hl : newBreak < memsizeVirtual - pageSize) (h : Moved s s' p newBreak) : ProcOk s' p where
  aligned := by rw [h.proc]; exact hok.aligned
  le := by rw [h.proc]; exact ho
  lt := by rw [h.proc]; exact hl
  shape := by rw [h.proc]; exact Shape.congr h.upper hok.shape
  tables pn ht := by
    have ht' := h.isTable ht
    exact (hok.tables pn ht').congr (hok.moved_kept ho hl h fun a _ hp => hp.noTable ht')
  user a pn hu := by
    obtain ⟨hu', hup⟩ := h.userMaps hu
    have hinfo := hok.moved_user ho hl h hu' hup
    exact (hok.user a pn hu').imp (fun hk => hk.congr hinfo) fun hs => hs.congr hinfo
  heap a pn hm := by
    obtain ⟨hu', hup⟩ := h.userMaps hm.userMaps
    have hle := hm.le
    rw [h.proc] at hle
    have hp := hok.heap a pn ⟨hle, hm.lt, hu'.page⟩
    have hbelow := hp.below
    refine ⟨?_, hp.lt, ?_, fun ht => hp.noTable (h.isTable ht), fun a' hu => hp.once a' (h.userMaps hu).1⟩
    · rw [h.proc]
      exact Nat.lt_of_not_le fun hge => hup ⟨hge, hbelow⟩
    · rw [hok.moved_user ho hl h hu' hup, hp.info]

theorem moved_stepped (hok : ProcOk s p) (ho : (s.processes p).originalBreak ≤ newBreak)
    (hl : newBreak < memsizeVirtual - pageSize) (h : Moved s s' p newBreak) : Stepped s s' p where
  others q hq :=
    { proc := by rw [h.processes, Function.update_of_ne hq]
      info := fun pn hk => hok.moved_kept ho hl h fun a _ hp => hq (hk.inj hp.keeps)
      bytes := fun pn hk x hx hx' => h.mem x fun a hup hsome =>
        hok.entry_outside (fun ht => hq (hk.inj (hok.tables pn ht))) (Nat.lt_of_lt_of_le (hup.range hok.lt hl).2 (Nat.sub_le _ _)) (reaches_of_mapped hsome) hx hx' }
  system pn hs := hok.moved_kept ho hl h fun a _ hp => hp.keeps.not_system hs
  self _ := moved_ok hok ho hl h

/-- A successful `brk` has moved the break; otherwise nothing has happened. -/
theorem sysBrk_cases {rdi r : Nat} (hok : ProcOk s p) (h0 : SystemPage s 0) (hrdi : rdi < 2 ^ 64)
    (h : sysBrk s p rdi = some (s', r)) :
    s' = s ∨ (s.processes p).originalBreak ≤ rdi ∧ rdi < memsizeVirtual - pageSize ∧ Moved s s' p rdi := by
  by_cases hin : (s.processes p).originalBreak ≤ rdi ∧ rdi < memsizeVirtual - pageSize
  · obtain ⟨t, hrun, hmoved⟩ := sysBrk_moved (hok.heapTables h0) hok.lt hin.1 hin.2
    rw [hrun] at h
    cases h
    exact .inr ⟨hin.1, hin.2, hmoved⟩
  · rw [sysBrk_fail hrdi (by omega)] at h
    cases h
    exact .inl rfl

theorem Moved.owners (h : Moved s s' p newBreak) (pn : Nat) : s'.pageinfo pn = s.pageinfo pn ∨ (s'.pageinfo pn).owner = poFree := by
  by_cases hup : ∃ a, GivenUp (s.processes p).programBreak newBreak a ∧ mappedPage s.mem (s.processes p).pPagetable a = some pn
  · obtain ⟨a, hup, hpage⟩ := hup
    exact .inr (by rw [h.freed a hup pn hpage])
  · exact .inl (h.kept pn fun a hup' hpage => hup ⟨a, hup', hpage⟩)

end Moved

section MapPage

/-- A page of physical memory that `p` has, but nowhere in its tables. -/
structure Fresh (s : Machine) (p pn : Nat) : Prop where
  lt : pn < npages
  info : s.pageinfo pn = ⟨p, 1⟩
  noTable : ¬IsTable s p pn
  unmapped : ∀ a, ¬UserMaps s p a pn

theorem palloc_fresh {page : NewPage} (hok : ProcOk s p) (hfree : page.Free s) :
    Fresh (s.palloc page p) p page.number where
  lt := hfree.2.1
  info := Function.update_self _ _ _
  noTable ht := hfree.not_keeps (hok.tables _ (((palloc_untouched hfree p p).tables hok).isTable hok ht))
  unmapped a hu := by
    rcases hok.user a _ (((palloc_untouched hfree p p).tables hok).userMaps hok hu) with hk | hs
    · exact hfree.not_keeps hk
    · exact hfree.not_system hs

/-- The page is entered in the last-level table of `p`. -/
def Machine.mapPage (s : Machine) (p va pn : Nat) : Machine where
  mem := setEntry s.mem (tableAt s.mem (s.processes p).pPagetable va 3) (pageIndex va 3)
    (leafValue (pn * pageSize) heapPerm)
  pageinfo := s.pageinfo
  processes := s.processes

theorem leafValue_heap (hpn : pn < npages) : (leafValue (pn * pageSize) heapPerm).toNat = pn * 4096 + 7 := by
  have hsize : npages = 512 := rfl
  have hpage : pageSize = 4096 := rfl
  rw [hpage, leafValue_toNat (by decide) (by omega) (by omega) (by decide)]
  rfl

theorem leafValue_heap_present (hpn : pn < npages) : leafValue (pn * pageSize) heapPerm &&& pteP ≠ 0 := by
  have hnat := leafValue_heap hpn
  intro h0
  have hmod : (leafValue (pn * pageSize) heapPerm &&& pteP).toNat = (leafValue (pn * pageSize) heapPerm).toNat % 2 := by
    rw [BitVec.toNat_and]
    exact Nat.and_two_pow_sub_one_eq_mod _ 1
  rw [h0, hnat] at hmod
  have hzero : (0 : PageEntry).toNat = 0 := rfl
  omega

theorem leafValue_heap_open (hpn : pn < npages) : leafValue (pn * pageSize) heapPerm &&& pteW ≠ 0 ∧
    leafValue (pn * pageSize) heapPerm &&& pteU ≠ 0 := by
  have hsize : npages = 512 := rfl
  have hpage : pageSize = 4096 := rfl
  have hbit (i : Nat) (hi : i < 12) : (leafValue (pn * pageSize) heapPerm).getLsbD i = (7 : PageEntry).getLsbD i := by
    have hmod : (leafValue (pn * pageSize) heapPerm).toNat % 2 ^ 12 = (7 : PageEntry).toNat % 2 ^ 12 := by
      have hseven : (7 : PageEntry).toNat = 7 := rfl
      rw [leafValue_heap hpn, hseven]
      omega
    have htest := congrArg (fun x => x.testBit i) hmod
    simpa only [Nat.testBit_mod_two_pow, hi, decide_true, Bool.true_and, BitVec.testBit_toNat] using htest
  constructor
  · rw [ne_eq, and_pteW, hbit 1 (by decide)]
    decide
  · rw [ne_eq, and_pteU, hbit 2 (by decide)]
    decide

theorem leafValue_heap_addr (hpn : pn < npages) : pteAddr (leafValue (pn * pageSize) heapPerm) / pageSize = pn := by
  have hpage : pageSize = 4096 := rfl
  rw [pteAddr_eq, leafValue_heap hpn, hpage]
  omega

variable {va : Nat} (hok : ProcOk s p) (hva : va < memsizeVirtual) (hr : Reaches s.mem (s.processes p).pPagetable va 3)
include hok hva hr

theorem mapPage_upper : SameUpper s.mem (s.mapPage p va pn).mem (s.processes p).pPagetable memsizeVirtual :=
  hok.shape.sameUpper_write hva hr (pageIndex_lt va 3)

theorem mapPage_page (hpn : pn < npages) (ha : a < memsizeVirtual) :
    mappedPage (s.mapPage p va pn).mem (s.processes p).pPagetable a =
      if a / 4096 = va / 4096 then some pn else mappedPage s.mem (s.processes p).pPagetable a := by
  refine (hok.shape.mappedPage_write hva hr ha).trans ?_
  rw [if_neg (leafValue_heap_present hpn), leafValue_heap_addr hpn]

theorem mapPage_isTable (ht : IsTable (s.mapPage p va b) p pn) : IsTable s p pn := by
  obtain ⟨a, ha, i, hi, hr', htable⟩ := ht
  have hupper : SameUpper s.mem (s.mapPage p va b).mem (s.processes p).pPagetable memsizeVirtual := mapPage_upper hok hva hr
  obtain ⟨hreach, hsame⟩ := hupper.path ha (Nat.le_of_lt_succ hi)
  exact ⟨a, ha, i, hi, hreach.mp hr', (hsame (hreach.mp hr')).symm.trans htable⟩

theorem mapPage_levelEntry (hpage : mappedPage (s.mapPage p va pn).mem (s.processes p).pPagetable a ≠ none)
    (ha : a < memsizeVirtual) :
    (a / 4096 = va / 4096 → levelEntry (s.mapPage p va pn).mem (s.processes p).pPagetable a 3 =
        leafValue (pn * pageSize) heapPerm) ∧
      (a / 4096 ≠ va / 4096 → levelEntry (s.mapPage p va pn).mem (s.processes p).pPagetable a 3 =
        levelEntry s.mem (s.processes p).pPagetable a 3) := by
  have hleaf : leafEntry (s.mapPage p va pn).mem (s.processes p).pPagetable a =
      if a / 4096 = va / 4096 then some (leafValue (pn * pageSize) heapPerm)
      else leafEntry s.mem (s.processes p).pPagetable a := hok.shape.leafEntry_write hva hr ha
  rw [leaf_level hpage] at hleaf
  constructor
  · intro hsame
    rw [if_pos hsame] at hleaf
    exact Option.some.inj hleaf
  · intro hne
    have hreach : Reaches s.mem (s.processes p).pPagetable a 3 :=
      ((mapPage_upper hok hva hr).path ha (Nat.le_refl 3)).1.mp (reaches_of_mapped hpage)
    rw [if_neg hne, leafEntry, if_pos hreach] at hleaf
    exact Option.some.inj hleaf

theorem mapPage_userMaps (hpn : pn < npages) (hu : UserMaps (s.mapPage p va pn) p a b) :
    (a / 4096 = va / 4096 ∧ b = pn) ∨ (a / 4096 ≠ va / 4096 ∧ UserMaps s p a b) := by
  obtain ⟨ha, hpage, huser⟩ := hu
  have hpage' := hpage
  have hproc : (s.mapPage p va pn).processes p = s.processes p := rfl
  rw [hproc, mapPage_page hok hva hr hpn ha] at hpage'
  by_cases hsame : a / 4096 = va / 4096
  · rw [if_pos hsame] at hpage'
    exact .inl ⟨hsame, (Option.some.inj hpage').symm⟩
  · rw [if_neg hsame] at hpage'
    refine .inr ⟨hsame, ha, hpage', huser.imp_right fun hor => hor.imp_right fun hu => ?_⟩
    rw [hproc] at hpage
    rwa [hproc, (mapPage_levelEntry hok hva hr (by rw [hpage]; exact Option.some_ne_none b) ha).2 hsame] at hu

theorem mapPage_stepped (hf : Fresh s p pn) (hbelow : va < (s.processes p).programBreak) :
    Stepped s (s.mapPage p va pn) p where
  others q hq :=
    { proc := rfl
      info := fun _ _ => rfl
      bytes := fun t hk x hx hx' => writeLE_outside s.mem
        (hok.entry_outside (fun ht => hq (hk.inj (hok.tables t ht))) hva hr hx hx') }
  system _ _ := rfl
  self _ :=
    { aligned := hok.aligned
      le := hok.le
      lt := hok.lt
      shape := Shape.congr (mapPage_upper hok hva hr) hok.shape
      tables := fun t ht => (hok.tables t (mapPage_isTable hok hva hr ht)).congr rfl
      user := by
        intro a t hu
        rcases mapPage_userMaps hok hva hr hf.lt hu with ⟨-, rfl⟩ | ⟨-, hu'⟩
        · exact .inl ⟨hf.lt, congrArg PageInfo.owner hf.info, le_of_eq (congrArg PageInfo.refcount hf.info).symm⟩
        · exact (hok.user a t hu').imp (fun hk => hk.congr rfl) fun hs => hs.congr rfl
      heap := by
        intro a t hm
        rcases mapPage_userMaps hok hva hr hf.lt hm.userMaps with ⟨hsame, rfl⟩ | ⟨hne, hu⟩
        · refine ⟨?_, hf.lt, hf.info, fun ht => hf.noTable (mapPage_isTable hok hva hr ht), fun a' hu' => ?_⟩
          · have hlt := hok.lt
            have hproc : (s.mapPage p va t).processes p = s.processes p := rfl
            rw [limit_eq] at hlt
            rw [hproc, roundUp_page (by omega)]
            omega
          · rcases mapPage_userMaps hok hva hr hf.lt hu' with ⟨hsame', -⟩ | ⟨-, hu''⟩
            · exact hsame'.trans hsame.symm
            · exact absurd hu'' (hf.unmapped a')
        · have hp := hok.heap a t ⟨hm.le, hm.lt, hu.page⟩
          refine ⟨hp.below, hp.lt, hp.info, fun ht => hp.noTable (mapPage_isTable hok hva hr ht), fun a' hu' => ?_⟩
          rcases mapPage_userMaps hok hva hr hf.lt hu' with ⟨-, rfl⟩ | ⟨-, hu''⟩
          · exact absurd hu (hf.unmapped a)
          · exact hp.once a' hu'' }

end MapPage

section PageFault

theorem pageFault_cases {addr : Nat} {missing : Bool} {page : Option NewPage} (hok : ProcOk s p)
    (hfree : ∀ new ∈ page, new.Free s) (h : pageFault s p addr missing page = some s') :
    s' = s.exit p ∨ ∃ new, page = some new ∧ (s' = (s.palloc new p).exit p ∨
      ((s.processes p).originalBreak ≤ addr ∧ addr < (s.processes p).programBreak ∧
        Reaches (s.palloc new p).mem (s.processes p).pPagetable (roundDown addr pageSize) 3 ∧
          s' = (s.palloc new p).mapPage p (roundDown addr pageSize) new.number)) := by
  rw [pageFault] at h
  split at h
  case isFalse => exact .inl (Option.some.inj h).symm
  case isTrue hheap =>
  obtain ⟨-, hle, hlt⟩ := hheap
  cases page with
  | none => exact .inl (Option.some.inj h).symm
  | some new =>
      refine .inr ⟨new, rfl, ?_⟩
      have hfree' := hfree new rfl
      have hok' : ProcOk (s.palloc new p) p :=
        hok.kept ((palloc_untouched hfree' p p).tables hok) fun _ => palloc_system hfree' p
      have hpage : pageSize = 4096 := rfl
      have hlimit := hok.lt
      have hV : memsizeVirtual = 3145728 := rfl
      rw [limit_eq] at hlimit
      obtain ⟨⟨r, mem⟩, hmap, hs'⟩ := Option.map_eq_some_iff.mp h
      have hva : roundDown addr pageSize < memsizeVirtual := by
        have hround := roundDown_le addr pageSize
        omega
      have hargs : MapArgs (s.processes p).pPagetable (roundDown addr pageSize) (new.number * pageSize) pageSize heapPerm := by
        by_contra hn
        rw [virtualMemoryMap, if_neg hn] at hmap
        cases hmap
      rcases virtualMemoryMap_page hok'.shape (by decide) hva hargs with heq | ⟨hnone, -⟩
      · have hperm : permBits heapPerm &&& pteP ≠ 0 := by decide
        have heq' := heq.symm.trans hmap
        rcases leafTable_cases (s.palloc new p).mem (s.processes p).pPagetable (roundDown addr pageSize) with h0 | ⟨hr, ht⟩
        · have hproc : ((s.palloc new p).processes p).pPagetable = (s.processes p).pPagetable := rfl
          rw [hproc, h0, if_neg (not_not_intro rfl), if_pos hperm] at heq'
          cases heq'
          exact .inl hs'.symm
        · by_cases hzero : leafTable (s.palloc new p).mem (s.processes p).pPagetable (roundDown addr pageSize) = 0
          · have hproc : ((s.palloc new p).processes p).pPagetable = (s.processes p).pPagetable := rfl
            rw [hproc, hzero, if_neg (not_not_intro rfl), if_pos hperm] at heq'
            cases heq'
            exact .inl hs'.symm
          · have hproc : ((s.palloc new p).processes p).pPagetable = (s.processes p).pPagetable := rfl
            rw [hproc, if_pos hzero, ht] at heq'
            cases heq'
            exact .inr ⟨hle, hlt, hr, hs'.symm⟩
      · exact absurd (hnone.symm.trans hmap) (by simp)

theorem mapArgs_heap {pt addr : Nat} (hpt : 4096 ∣ pt) (haddr : addr < memsizeVirtual) (hpn : pn < npages) :
    MapArgs pt (roundDown addr pageSize) (pn * pageSize) pageSize heapPerm := by
  have hsize : npages = 512 := rfl
  have hpage : pageSize = 4096 := rfl
  have hphys : memsizePhysical = 2097152 := rfl
  have hV : memsizeVirtual = 3145728 := rfl
  refine ⟨?_, rfl, .inl ?_, fun _ => ?_, fun _ => ?_, by decide, Nat.mod_eq_zero_of_dvd hpt⟩
  · rw [roundDown, hpage]
    omega
  · rw [roundDown, hpage]
    omega
  · exact Nat.mul_mod_left _ _
  · rw [hpage, hphys]
    omega

theorem mapPage_heap {addr : Nat} {page : NewPage} (hok : ProcOk s p) (h0 : SystemPage s 0) (hfree : page.Free s)
    (hallows : Allows s.mem (s.processes p).pPagetable memsizeVirtual heapPerm)
    (hfull : Reaches s.mem (s.processes p).pPagetable (roundDown addr pageSize) 3) (hlt : addr < (s.processes p).programBreak) :
    virtualMemoryMap (s.palloc page p).mem (s.processes p).pPagetable (roundDown addr pageSize) (page.number * pageSize) pageSize
      heapPerm = some (0, ((s.palloc page p).mapPage p (roundDown addr pageSize) page.number).mem) := by
  have hkept := (palloc_untouched hfree p p).tables hok
  have hok' : ProcOk (s.palloc page p) p := hok.kept hkept fun _ => palloc_system hfree p
  have hlimit := hok.lt
  have hround := roundDown_le addr pageSize
  have hV : memsizeVirtual = 3145728 := rfl
  rw [limit_eq] at hlimit
  have hva : roundDown addr pageSize < memsizeVirtual := by omega
  have hr : Reaches (s.palloc page p).mem (s.processes p).pPagetable (roundDown addr pageSize) 3 :=
    (hkept.path hok hva (by decide)).1.mpr hfull
  have hne : tableAt (s.palloc page p).mem (s.processes p).pPagetable (roundDown addr pageSize) 3 ≠ 0 := by
    rw [(hkept.path hok hva (by decide)).2 hfull]
    exact hok.tableAt_ne_zero h0 hva (by decide) hfull
  have htable : leafTable (s.palloc page p).mem (s.processes p).pPagetable (roundDown addr pageSize) =
      tableAt (s.palloc page p).mem (s.processes p).pPagetable (roundDown addr pageSize) 3 := if_pos hr
  have haddr : addr < memsizeVirtual := by omega
  have hargs := mapArgs_heap hok.shape.aligned haddr hfree.2.1
  have hmap := (virtualMemoryMap_page hok'.shape (by decide) hva hargs).resolve_right fun hfail =>
    hfail.2 (Allows.congr (hkept.sameUpper hok) hallows)
  have hproc : ((s.palloc page p).processes p).pPagetable = (s.processes p).pPagetable := rfl
  rw [hproc, htable, if_pos hne] at hmap
  exact hmap

theorem pageFault_heap {addr : Nat} {page : NewPage} (hok : ProcOk s p) (h0 : SystemPage s 0) (hfree : page.Free s)
    (hallows : Allows s.mem (s.processes p).pPagetable memsizeVirtual heapPerm)
    (hfull : Reaches s.mem (s.processes p).pPagetable (roundDown addr pageSize) 3)
    (hle : (s.processes p).originalBreak ≤ addr) (hlt : addr < (s.processes p).programBreak) :
    pageFault s p addr true (some page) = some ((s.palloc page p).mapPage p (roundDown addr pageSize) page.number) := by
  rw [pageFault, if_pos ⟨rfl, hle, hlt⟩]
  simp only [mapPage_heap hok h0 hfree hallows hfull hlt, Option.map_some]
  rfl

theorem pageFault_owners {addr : Nat} {missing : Bool} {page : Option NewPage} (hok : ProcOk s p)
    (hfree : ∀ new ∈ page, new.Free s) (h : pageFault s p addr missing page = some s') (pn : Nat) :
    s'.pageinfo pn = s.pageinfo pn ∨ (s'.pageinfo pn).owner = poFree ∨ (s'.pageinfo pn).owner = p := by
  have hpalloc (new : NewPage) : (s.palloc new p).pageinfo pn = s.pageinfo pn ∨ ((s.palloc new p).pageinfo pn).owner = p := by
    by_cases heq : pn = new.number
    · subst heq
      have hnew : (s.palloc new p).pageinfo new.number = ⟨p, 1⟩ := Function.update_self _ _ _
      exact .inr (by rw [hnew])
    · exact .inl (Function.update_of_ne heq _ _)
  rcases pageFault_cases hok hfree h with rfl | ⟨new, rfl, rfl | ⟨-, -, -, rfl⟩⟩
  · exact (exit_owners s p pn).imp_right .inl
  · rcases exit_owners (s.palloc new p) p pn with hsame | hfree
    · rw [hsame]
      exact (hpalloc new).imp_right .inr
    · exact .inr (.inl hfree)
  · exact (hpalloc new).imp_right .inr

theorem pageFault_stepped {addr : Nat} {missing : Bool} {page : Option NewPage} (hok : ProcOk s p)
    (hfree : ∀ new ∈ page, new.Free s) (h : pageFault s p addr missing page = some s') : Stepped s s' p := by
  rcases pageFault_cases hok hfree h with rfl | ⟨new, rfl, rfl | ⟨hle, hlt, hr, rfl⟩⟩
  · exact exit_stepped s p
  · exact (palloc_stepped hok (hfree new rfl)).trans (exit_stepped _ p)
  · have hfree' := hfree new rfl
    have hok' : ProcOk (s.palloc new p) p :=
      hok.kept ((palloc_untouched hfree' p p).tables hok) fun _ => palloc_system hfree' p
    have hlimit := hok.lt
    have hround := roundDown_le addr pageSize
    have hV : memsizeVirtual = 3145728 := rfl
    rw [limit_eq] at hlimit
    exact (palloc_stepped hok hfree').trans
      (mapPage_stepped hok' (by omega) hr (palloc_fresh hok hfree') (Nat.lt_of_le_of_lt hround hlt))

end PageFault

end WeensyOS.Kernel
