import WeensyOS.Lib.BlockHeap
import WeensyOS.Lib.Loop
import Mathlib.Data.List.SplitBy
import Mathlib.Data.List.TakeWhile

namespace BlockHeap

open ByteMemory Loop Tiling Tiling.Layout

section Runs

variable {K : Type*} (free : K → Bool)

/-- A run of blocks, given by their kinds and sizes, as one block. -/
def sumRun : List (K × Nat) → Option (K × Nat)
  | [] => none
  | b :: bs => some (b.1, b.2 + (bs.map Prod.snd).sum)

/-- Every maximal run of free blocks becomes one block; the other blocks stay. -/
def mergeRuns (bs : List (K × Nat)) : List (K × Nat) :=
  (bs.splitBy fun b c => free b.1 && free c.1).filterMap sumRun

/-- The first piece of a list that is cut into its maximal runs of elements with `p`. -/
theorem splitBy_cons {α : Type*} (p : α → Bool) (a : α) (l : List α) :
    (a :: l).splitBy (fun x y => p x && p y) =
      if p a then (a :: l.takeWhile p) :: (l.dropWhile p).splitBy (fun x y => p x && p y)
      else [a] :: l.splitBy (fun x y => p x && p y) := by
  by_cases ha : p a = true
  · have hrun (x : α) (hx : x ∈ a :: l.takeWhile p) : p x = true := by
      rcases List.mem_cons.mp hx with rfl | hx
      · exact ha
      · exact List.mem_takeWhile_imp hx
    have hchain : (a :: l.takeWhile p).IsChain fun x y => (p x && p y) = true := by
      apply List.Pairwise.isChain
      apply List.pairwise_of_forall_mem_list
      intro x hx y hy
      simp [hrun x hx, hrun y hy]
    have hlist : a :: l = (a :: l.takeWhile p) ++ l.dropWhile p := by
      rw [List.cons_append, List.takeWhile_append_dropWhile]
    rw [if_pos ha, hlist, List.splitBy_append, List.splitBy_of_isChain (List.cons_ne_nil _ _) hchain,
      List.singleton_append]
    intro x _ y hy
    cases hd : l.dropWhile p with
    | nil =>
        rw [hd] at hy
        cases hy
    | cons c cs =>
        have hc : ¬p c = true := by
          have hget := List.dropWhile_get_zero_not p l (by rw [hd]; exact Nat.succ_pos _)
          simpa [hd] using hget
        rw [hd, List.head?_cons, Option.mem_some_iff] at hy
        subst hy
        simp [hc]
  · rw [if_neg ha, ← List.singleton_append, List.splitBy_append]
    · rw [List.splitBy_of_isChain (List.cons_ne_nil _ _) (List.isChain_singleton a), List.singleton_append]
    · intro x hx y _
      simp only [List.getLast?_singleton, Option.mem_some_iff] at hx
      subst hx
      simp [ha]

end Runs

/-- The free blocks of a format, and how one of them grows over its neighbours. -/
structure Merging {B : Type*} (F : Format B) where
  free : B → Bool
  withSize : B → Nat → B
  not_busy : ∀ {b}, free b = true → ¬F.busy b
  size_withSize : ∀ b n, F.size (withSize b n) = n
  free_withSize : ∀ b n, free (withSize b n) = free b
  withSize_self : ∀ b, withSize b (F.size b) = b
  valid_withSize : ∀ {b bs}, free b = true → F.Valid b → (∀ c ∈ bs, F.Valid c) →
    F.Valid (withSize b (F.size b + F.total bs))

namespace Merging

variable {B : Type*} {F : Format B} (M : Merging F) {m m₀ m' : Memory} {s e cur : Nat} {b : B} {bs xs ys : List B}

/-- The size that the free block `b` has after it has taken in the free blocks at
the head of `ys`. -/
def grown (b : B) (ys : List B) : Nat := F.size b + F.total (ys.takeWhile M.free)

/-- The block list in which every run of free blocks has become one block. -/
def coalesce : List B → List B
  | [] => []
  | b :: bs =>
      if M.free b then M.withSize b (M.grown b bs) :: coalesce (bs.dropWhile M.free)
      else b :: coalesce bs
termination_by bs => bs.length
decreasing_by
  · exact Nat.lt_succ_of_le (List.dropWhile_suffix _).length_le
  · exact Nat.lt_succ_self _

@[simp] theorem coalesce_nil : M.coalesce [] = [] := by rw [coalesce]

theorem coalesce_free (hfree : M.free b = true) (ys : List B) :
    M.coalesce (b :: ys) = M.withSize b (M.grown b ys) :: M.coalesce (ys.dropWhile M.free) := by
  rw [coalesce, if_pos hfree]

theorem coalesce_busy (hfree : ¬M.free b = true) (ys : List B) :
    M.coalesce (b :: ys) = b :: M.coalesce ys := by
  rw [coalesce, if_neg hfree]

theorem total_split (ys : List B) :
    F.total ys = F.total (ys.takeWhile M.free) + F.total (ys.dropWhile M.free) := by
  rw [← total_append, List.takeWhile_append_dropWhile]

theorem coalesce_total (bs : List B) : F.total (M.coalesce bs) = F.total bs := by
  induction bs using coalesce.induct M with
  | case1 => rw [coalesce_nil]
  | case2 b bs hfree ih =>
      rw [M.coalesce_free hfree, total_cons, total_cons, M.size_withSize, ih, M.total_split bs, grown, Nat.add_assoc]
  | case3 b bs hfree ih => rw [M.coalesce_busy hfree, total_cons, total_cons, ih]

/-- The kinds and sizes of the coalesced blocks depend on those of the given blocks only. -/
theorem coalesce_shape {K : Type*} {free : K → Bool} {kind : B → K} (hfree : ∀ b, free (kind b) = M.free b)
    (hkind : ∀ b n, kind (M.withSize b n) = kind b) (bs : List B) :
    (M.coalesce bs).map (fun b => (kind b, F.size b)) = mergeRuns free (bs.map fun b => (kind b, F.size b)) := by
  have hp : (fun p : K × Nat => free p.1) ∘ (fun b => (kind b, F.size b)) = M.free := by
    funext b
    exact hfree b
  have hsizes (l : List B) : ((l.map fun b => (kind b, F.size b)).map Prod.snd).sum = F.total l := by
    rw [List.map_map]
    rfl
  induction bs using coalesce.induct M with
  | case1 =>
      rw [coalesce_nil]
      rfl
  | case2 b bs hb ih =>
      rw [M.coalesce_free hb, List.map_cons, ih, List.map_cons, mergeRuns, mergeRuns,
        splitBy_cons fun p : K × Nat => free p.1, if_pos (by rw [hfree]; exact hb), List.takeWhile_map,
        List.dropWhile_map, hp, List.filterMap_cons, sumRun, hsizes, hkind, M.size_withSize, grown]
  | case3 b bs hb ih =>
      rw [M.coalesce_busy hb, List.map_cons, ih, List.map_cons, mergeRuns, mergeRuns,
        splitBy_cons fun p : K × Nat => free p.1, if_neg (by rw [hfree]; exact hb), List.filterMap_cons, sumRun]
      rfl

/-- No two neighbours are both free. -/
def Separated (bs : List B) : Prop := bs.IsChain fun b c => ¬(M.free b = true ∧ M.free c = true)

theorem coalesce_separated (bs : List B) : M.Separated (M.coalesce bs) := by
  induction bs using coalesce.induct M with
  | case1 =>
      rw [coalesce_nil]
      exact List.IsChain.nil
  | case2 b bs hfree ih =>
      rw [M.coalesce_free hfree]
      apply List.isChain_cons.mpr
      constructor
      · intro c hc hboth
        cases hd : bs.dropWhile M.free with
        | nil =>
            rw [hd, coalesce_nil] at hc
            cases hc
        | cons d ds =>
            have hnot : ¬M.free d = true := by
              have hget := List.dropWhile_get_zero_not M.free bs (by rw [hd]; exact Nat.succ_pos _)
              simpa [hd] using hget
            rw [hd, M.coalesce_busy hnot, List.head?_cons, Option.mem_some_iff] at hc
            subst hc
            exact hnot hboth.2
      · exact ih
  | case3 b bs hfree ih =>
      rw [M.coalesce_busy hfree]
      exact List.isChain_cons.mpr ⟨fun c _ hboth => hfree hboth.1, ih⟩

theorem takeWhile_of_separated (h : M.Separated (b :: bs)) (hfree : M.free b = true) :
    bs.takeWhile M.free = [] := by
  cases bs with
  | nil => rfl
  | cons c cs =>
      apply List.takeWhile_cons_of_neg
      intro hc
      exact (List.isChain_cons_cons.mp h).1 ⟨hfree, hc⟩

theorem coalesce_all_free (hne : bs ≠ []) (h : ∀ b ∈ bs, M.free b = true) :
    ∃ b, M.coalesce bs = [b] ∧ M.free b = true ∧ F.size b = F.total bs := by
  cases bs with
  | nil => exact absurd rfl hne
  | cons b bs =>
      have hb := h b List.mem_cons_self
      have hdrop : bs.dropWhile M.free = [] :=
        List.dropWhile_eq_nil_iff.mpr fun c hc => h c (List.mem_cons_of_mem _ hc)
      have htake : bs.takeWhile M.free = bs :=
        List.takeWhile_eq_self_iff.mpr fun c hc => h c (List.mem_cons_of_mem _ hc)
      refine ⟨M.withSize b (M.grown b bs), ?_, by rwa [M.free_withSize], ?_⟩
      · rw [M.coalesce_free hb, hdrop, coalesce_nil]
      · rw [M.size_withSize, grown, htake, total_cons]

/-- A round at a block `b`, with the blocks `ys` after it: a busy block is passed
over, and a free one takes in the free blocks that follow. -/
inductive Round (m : Memory) (cur : Nat) (b : B) (ys : List B) : Memory × Nat → Prop
  | pass (hbusy : ¬M.free b = true) : Round m cur b ys (m, cur + F.size b)
  | merge (hfree : M.free b = true) (m' : Memory) (hheader : F.header m' cur = M.withSize b (M.grown b ys))
      (hout : ∀ x, x < cur ∨ cur + F.width ≤ x → m' x = m x) : Round m cur b ys (m', cur + M.grown b ys)

/-- Growing a free block over the free blocks that follow it. -/
theorem absorb (h : Region F m s (xs ++ b :: ys) e) (hfree : M.free b = true)
    (hheader : F.header m' (s + F.total xs) = M.withSize b (M.grown b ys))
    (hout : ∀ x, x < s + F.total xs ∨ s + F.total xs + F.width ≤ x → m' x = m x) :
    Region F m' s (xs ++ M.withSize b (M.grown b ys) :: ys.dropWhile M.free) e ∧
      F.Keeps (fun _ b => F.busy b) m s (xs ++ b :: ys) m' s
        (xs ++ M.withSize b (M.grown b ys) :: ys.dropWhile M.free) := by
  have hlist : xs ++ b :: ys = xs ++ ((b :: ys.takeWhile M.free) ++ ys.dropWhile M.free) := by
    rw [List.cons_append, List.takeWhile_append_dropWhile]
  have hwidth := F.width_le (h.valid b (by simp))
  have htotal : F.total [M.withSize b (M.grown b ys)] = F.total (b :: ys.takeWhile M.free) := by
    simp [M.size_withSize, grown]
  have hout' (x : Nat) (hx : x < s + F.total xs ∨ s + F.total xs + F.total (b :: ys.takeWhile M.free) ≤ x) :
      m' x = m x := by
    simp only [total_cons] at hx
    exact hout x (by omega)
  have hvalid : F.Valid (M.withSize b (M.grown b ys)) := by
    refine M.valid_withSize hfree (h.valid b (by simp)) fun c hc => h.valid c ?_
    have hmem := (List.takeWhile_prefix M.free).subset hc
    simp [hmem]
  have htaken (c : B) (hc : c ∈ b :: ys.takeWhile M.free) : ¬F.busy c := by
    rcases List.mem_cons.mp hc with rfl | hc
    · exact M.not_busy hfree
    · exact M.not_busy (List.mem_takeWhile_imp hc)
  have hmade : ¬F.busy (M.withSize b (M.grown b ys)) := M.not_busy (by rwa [M.free_withSize])
  rw [hlist] at h ⊢
  constructor
  · refine h.rewrite (b :: ys.takeWhile M.free) htotal ⟨hheader, ?_⟩ hout' fun c hc => ?_
    · rw [← htotal]
      simp [Tiles]
    · rwa [List.mem_singleton.mp hc]
  · refine Keeps.replace (b :: ys.takeWhile M.free) htotal hout' (fun a c hc => htaken c hc.mem) fun a c hc => ?_
    rwa [List.mem_singleton.mp hc.mem]

/-- Before a round at `cur`: the blocks before `cur` are done. -/
def Coalescing (m₀ : Memory) (s : Nat) (bs : List B) (e : Nat) (c : Memory × Nat) : Prop :=
  ∃ xs ys, c.2 = s + F.total xs ∧ Region F c.1 s (xs ++ ys) e ∧
    F.Keeps (fun _ b => F.busy b) m₀ s bs c.1 s (xs ++ ys) ∧ M.coalesce bs = xs ++ M.coalesce ys

theorem Coalescing.round {c : Memory × Nat} (h : Region F m s (xs ++ b :: ys) e)
    (hkeeps : F.Keeps (fun _ b => F.busy b) m₀ s bs m s (xs ++ b :: ys))
    (hco : M.coalesce bs = xs ++ M.coalesce (b :: ys)) (hr : M.Round m (s + F.total xs) b ys c) :
    M.Coalescing m₀ s bs e c ∧ s + F.total xs < c.2 := by
  have hpos := h.positive b (by simp)
  cases hr with
  | pass hbusy =>
      refine ⟨⟨xs ++ [b], ys, by simp [Nat.add_assoc], ?_, ?_, ?_⟩, by simp only; omega⟩
      · rwa [List.append_assoc]
      · rwa [List.append_assoc]
      · rw [hco, M.coalesce_busy hbusy, List.append_assoc]
        rfl
  | merge hfree m' hheader hout =>
      obtain ⟨hregion, hkeeps'⟩ := M.absorb h hfree hheader hout
      refine ⟨⟨xs ++ [M.withSize b (M.grown b ys)], ys.dropWhile M.free, ?_, ?_, ?_, ?_⟩, ?_⟩
      · simp [M.size_withSize, Nat.add_assoc]
      · rw [List.append_assoc]
        exact hregion
      · rw [List.append_assoc]
        exact hkeeps.trans hkeeps'
      · rw [hco, M.coalesce_free hfree, List.append_assoc]
        rfl
      · simp only [grown]
        omega

/-- A loop over the heap whose body makes such rounds coalesces it. -/
theorem coalesce_spec (h : Region F m s bs e) (he : e < 2 ^ 64) (body : Memory × Nat → Option (Memory × Nat))
    (hbody : ∀ m xs b ys, Region F m s (xs ++ b :: ys) e →
      ∃ r, body (m, s + F.total xs) = some r ∧ M.Round m (s + F.total xs) b ys r) :
    ∃ r, cwhile (fun c : Memory × Nat => c.2 < e) body (m, s) = some r ∧ Region F r.1 s (M.coalesce bs) e ∧
      F.Keeps (fun _ b => F.busy b) m s bs r.1 s (M.coalesce bs) := by
  obtain ⟨r, hrun, ⟨xs, ys, hcur, hregion, hkeeps, hco⟩, hend⟩ := cwhile_rule
    (fun c : Memory × Nat => c.2 < e) body (M.Coalescing m s bs e) (fun c => e - c.2)
    (by
      rintro ⟨m₁, cur⟩ ⟨xs, ys, rfl, hregion, hkeeps, hco⟩ hlt
      cases ys with
      | nil =>
          have hsum := hregion.tiles.end_eq
          simp only [List.append_nil] at hsum hlt
          omega
      | cons b ys =>
          obtain ⟨r, hr, hround⟩ := hbody m₁ xs b ys hregion
          obtain ⟨hc, hmore⟩ := Coalescing.round M hregion hkeeps hco hround
          simp only at hlt
          exact ⟨r, hr, hc, by simp only; omega⟩)
    (s := (m, s)) ⟨[], bs, rfl, h, Keeps.refl, rfl⟩ (by simp only; omega)
  have hys : ys = [] := by
    cases ys with
    | nil => rfl
    | cons b ys =>
        have hsum := hregion.tiles.end_eq
        have hpos := hregion.positive b (by simp)
        simp only [total_append, total_cons] at hsum
        omega
  subst hys
  have hdone : M.coalesce bs = xs ++ [] := by
    rw [hco, coalesce_nil]
  exact ⟨r, hrun, by rwa [hdone], by rwa [hdone]⟩

end Merging

/-- A loop whose body passes over every block changes nothing. -/
theorem Region.idle_spec {B : Type*} {F : Format B} {m : Memory} {s e : Nat} {bs : List B} (h : Region F m s bs e) (he : e < 2 ^ 64) (body : Memory × Nat → Option (Memory × Nat))
    (hbody : ∀ xs b ys, bs = xs ++ b :: ys → body (m, s + F.total xs) = some (m, s + F.total xs + F.size b)) :
    cwhile (fun c : Memory × Nat => c.2 < e) body (m, s) = some (m, e) := by
  obtain ⟨⟨m', cur⟩, hrun, ⟨xs, ys, rfl, hm, hcur⟩, hend⟩ := cwhile_rule
    (fun c : Memory × Nat => c.2 < e) body
    (fun c => ∃ xs ys, bs = xs ++ ys ∧ c.1 = m ∧ c.2 = s + F.total xs) (fun c => e - c.2)
    (by
      rintro ⟨m₁, cur⟩ ⟨xs, ys, rfl, rfl, rfl⟩ hlt
      have hsum := h.tiles.end_eq
      cases ys with
      | nil =>
          simp only [List.append_nil] at hsum hlt
          omega
      | cons b ys =>
          have hpos := h.positive b (by simp)
          simp only at hlt
          refine ⟨_, hbody xs b ys rfl, ⟨xs ++ [b], ys, by simp, rfl, ?_⟩, ?_⟩
          · simp [Nat.add_assoc]
          · simp only
            omega)
    (s := (m, s)) ⟨[], bs, rfl, rfl, rfl⟩ (by simp only; omega)
  have hsum := h.tiles.end_eq
  simp only at hm hcur hend
  have hys : ys = [] := by
    cases ys with
    | nil => rfl
    | cons b ys =>
        have hpos := h.positive b (by simp)
        simp only [total_append, total_cons] at hsum
        omega
  rw [hys, List.append_nil] at hsum
  rw [hrun, hm, hcur, hsum]

end BlockHeap
