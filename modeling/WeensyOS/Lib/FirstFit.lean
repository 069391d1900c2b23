import WeensyOS.Lib.ByteMemory
import Mathlib.Algebra.BigOperators.Group.List.Basic

namespace FirstFit

variable (need spare : Nat)

/-- First fit on the sizes of the free blocks: the sizes before the block that
serves a request for `need`, the size that is taken of it, and the sizes that
follow. A rest of less than `spare` is taken along. -/
def serve : List Nat → Option (List Nat × Nat × List Nat)
  | [] => none
  | size :: sizes =>
      if need ≤ size then
        some (if size < need + spare then ([], size, sizes) else ([], need, (size - need) :: sizes))
      else (serve sizes).map fun r => (size :: r.1, r.2)

/-- The free sizes after `k` requests, as far as they can be served. -/
def carve : Nat → List Nat → List Nat
  | 0, sizes => sizes
  | k + 1, sizes =>
      match serve need spare sizes with
      | none => sizes
      | some (before, _, after) => carve k (before ++ after)

/-- The free sizes once `k` requests have been served and released again. -/
def shred : Nat → List Nat → List Nat
  | 0, sizes => sizes
  | k + 1, sizes =>
      match serve need spare sizes with
      | none => sizes
      | some (before, taken, after) => before ++ taken :: shred k after

/-- The number of requests that the free blocks can serve. -/
def slots (sizes : List Nat) : Nat := (sizes.map fun size => size / need).sum

variable {need spare} {sizes before after xs ys : List Nat} {taken size k : Nat}

@[simp] theorem slots_nil : slots need [] = 0 := rfl

@[simp] theorem slots_cons : slots need (size :: sizes) = size / need + slots need sizes := rfl

@[simp] theorem slots_append : slots need (xs ++ ys) = slots need xs + slots need ys := by
  simp [slots]

theorem slots_eq_zero (h : ∀ size ∈ sizes, size < need) : slots need sizes = 0 := by
  induction sizes with
  | nil => rfl
  | cons size sizes ih =>
      rw [slots_cons, Nat.div_eq_of_lt (h size List.mem_cons_self),
        ih fun c hc => h c (List.mem_cons_of_mem _ hc)]

theorem serve_none (h : serve need spare sizes = none) : ∀ size ∈ sizes, size < need := by
  induction sizes with
  | nil => simp
  | cons size sizes ih =>
      rw [serve] at h
      split at h
      next => cases h
      next hlt =>
        rw [Option.map_eq_none_iff] at h
        intro c hc
        rcases List.mem_cons.mp hc with rfl | hc
        · exact Nat.lt_of_not_le hlt
        · exact ih h c hc

theorem serve_eq_none (spare : Nat) (h : ∀ size ∈ sizes, size < need) : serve need spare sizes = none := by
  induction sizes with
  | nil => rfl
  | cons size sizes ih =>
      rw [serve, if_neg (Nat.not_le_of_lt (h size List.mem_cons_self)),
        ih fun c hc => h c (List.mem_cons_of_mem _ hc)]
      rfl

theorem serve_append (h : ∀ size ∈ xs, size < need) :
    serve need spare (xs ++ ys) = (serve need spare ys).map fun r => (xs ++ r.1, r.2) := by
  induction xs with
  | nil => simp
  | cons size xs ih =>
      rw [List.cons_append, serve, if_neg (Nat.not_le_of_lt (h size List.mem_cons_self)),
        ih fun c hc => h c (List.mem_cons_of_mem _ hc), Option.map_map]
      rfl

/-- What `serve` has found. -/
inductive Served (need spare : Nat) : List Nat → List Nat → Nat → List Nat → Prop
  | whole (before after : List Nat) (size : Nat) (hbefore : ∀ c ∈ before, c < need) (hle : need ≤ size)
      (hlt : size < need + spare) : Served need spare (before ++ size :: after) before size after
  | split (before after : List Nat) (size : Nat) (hbefore : ∀ c ∈ before, c < need) (hle : need + spare ≤ size) :
      Served need spare (before ++ size :: after) before need ((size - need) :: after)

theorem serve_some (h : serve need spare sizes = some (before, taken, after)) :
    Served need spare sizes before taken after := by
  induction sizes generalizing before with
  | nil => cases h
  | cons size sizes ih =>
      rw [serve] at h
      by_cases hle : need ≤ size
      · rw [if_pos hle, Option.some.injEq] at h
        split at h
        next hlt =>
          cases h
          exact .whole [] after taken (by simp) hle hlt
        next hge =>
          cases h
          exact .split [] sizes size (by simp) (Nat.le_of_not_lt hge)
      · rw [if_neg hle, Option.map_eq_some_iff] at h
        obtain ⟨⟨before', rest⟩, hserve, heq⟩ := h
        cases heq
        have hcons (c : Nat) (hbefore : ∀ c ∈ before', c < need) (hc : c ∈ size :: before') : c < need := by
          rcases List.mem_cons.mp hc with rfl | hc
          · exact Nat.lt_of_not_le hle
          · exact hbefore c hc
        cases ih hserve with
        | whole _ _ _ hbefore hle' hlt => exact .whole (size :: before') after taken (fun c hc => hcons c hbefore hc) hle' hlt
        | split _ after size' hbefore hle' => exact .split (size :: before') after size' (fun c hc => hcons c hbefore hc) hle'

theorem Served.before_lt (h : Served need spare sizes before taken after) : ∀ c ∈ before, c < need := by
  cases h <;> assumption

theorem Served.sum_eq (h : Served need spare sizes before taken after) :
    sizes.sum = before.sum + taken + after.sum := by
  cases h with
  | whole => simp [Nat.add_assoc]
  | split _ _ _ _ hle =>
      simp only [List.sum_append, List.sum_cons]
      omega

theorem Served.slots_eq (h : Served need spare sizes before taken after) (hneed : 0 < need) (hspare : spare ≤ need) :
    slots need sizes = slots need after + 1 ∧ slots need before = 0 := by
  have hzero := slots_eq_zero h.before_lt
  cases h with
  | whole _ _ _ _ hle hlt =>
      have hone : taken / need = 1 := Nat.div_eq_of_lt_le (by omega) (by omega)
      rw [slots_append, slots_cons, hzero, hone]
      omega
  | split _ after size _ hle =>
      have hdiv : (size - need) / need + 1 = size / need := by
        rw [← Nat.add_div_right _ hneed, Nat.sub_add_cancel (by omega)]
      rw [slots_append, slots_cons, slots_cons, hzero]
      omega

theorem slots_carve (hneed : 0 < need) (hspare : spare ≤ need) {j : Nat} (h : k + j ≤ slots need sizes) :
    j ≤ slots need (carve need spare k sizes) := by
  induction k generalizing sizes with
  | zero => exact Nat.zero_add j ▸ h
  | succ k ih =>
      cases hserve : serve need spare sizes with
      | none =>
          have hzero := slots_eq_zero (serve_none hserve)
          omega
      | some r =>
          obtain ⟨before, taken, after⟩ := r
          have hslots := (serve_some hserve).slots_eq hneed hspare
          rw [carve, hserve]
          apply ih
          rw [slots_append]
          omega

theorem shred_none (h : serve need spare sizes = none) : shred need spare k sizes = sizes := by
  cases k with
  | zero => rfl
  | succ k => rw [shred, h]

theorem shred_sum : (shred need spare k sizes).sum = sizes.sum := by
  induction k generalizing sizes with
  | zero => rfl
  | succ k ih =>
      rw [shred]
      split
      next => rfl
      next before taken after hserve =>
        rw [(serve_some hserve).sum_eq, List.sum_append, List.sum_cons, ih, Nat.add_assoc]

theorem shred_le {M : Nat} (h : ∀ size ∈ sizes, size ≤ M) : ∀ size ∈ shred need spare k sizes, size ≤ M := by
  induction k generalizing sizes with
  | zero => exact h
  | succ k ih =>
      rw [shred]
      split
      next => exact h
      next before taken after hserve =>
        intro c hc
        rw [List.mem_append, List.mem_cons] at hc
        cases serve_some hserve with
        | whole _ _ _ _ hle hlt =>
            rcases hc with hc | rfl | hc
            · exact h c (by simp [hc])
            · exact h c (by simp)
            · exact ih (fun c hc => h c (by simp [hc])) c hc
        | split _ after size _ hle =>
            have hsize := h size (by simp)
            rcases hc with hc | rfl | hc
            · exact h c (by simp [hc])
            · omega
            · refine ih (fun c hc => ?_) c hc
              rcases List.mem_cons.mp hc with rfl | hc
              · omega
              · exact h c (by simp [hc])

theorem shred_whole (h : ∀ size ∈ sizes, size < need + spare) : shred need spare k sizes = sizes := by
  induction k generalizing sizes with
  | zero => rfl
  | succ k ih =>
      rw [shred]
      split
      next => rfl
      next before taken after hserve =>
        cases serve_some hserve with
        | whole => rw [ih fun c hc => h c (by simp [hc])]
        | split _ after size _ hle => exact absurd (h size (by simp)) (by omega)

theorem split_after (before : List Nat) {M c : Nat} (hM : M ∉ before) :
    before ++ c :: after = xs ++ M :: ys ↔
      xs = before ∧ c = M ∧ after = ys ∨ ∃ zs, xs = before ++ c :: zs ∧ after = zs ++ M :: ys := by
  constructor
  · intro h
    rcases List.append_eq_append_iff.mp h with ⟨zs, rfl, htail⟩ | ⟨zs, rfl, htail⟩
    · cases zs with
      | nil =>
          rw [List.nil_append, List.cons.injEq] at htail
          exact .inl ⟨by simp, htail⟩
      | cons z zs =>
          rw [List.cons_append, List.cons.injEq] at htail
          exact .inr ⟨zs, by rw [htail.1], htail.2⟩
    · cases zs with
      | nil =>
          rw [List.nil_append, List.cons.injEq] at htail
          exact .inl ⟨by simp, htail.1.symm, htail.2.symm⟩
      | cons z zs =>
          rw [List.cons_append, List.cons.injEq] at htail
          exact absurd (by simp [htail.1]) hM
  · rintro (⟨rfl, rfl, rfl⟩ | ⟨zs, rfl, rfl⟩)
    · rfl
    · simp

/-- A block that can be split survives `k` requests and their release if and only if
the blocks before it serve all of them. -/
theorem mem_shred_of_ge {M : Nat} (hneed : 0 < need) (hspare : spare ≤ need) (hpos : 0 < spare) (hge : need + spare ≤ M)
    (hM : ∀ size ∈ sizes, size ≤ M) :
    M ∈ shred need spare k sizes ↔ ∃ xs ys, sizes = xs ++ M :: ys ∧ k ≤ slots need xs := by
  induction k generalizing sizes with
  | zero =>
      rw [shred, List.mem_iff_append]
      simp
  | succ k ih =>
      rw [shred]
      cases hserve : serve need spare sizes with
      | none =>
          have hsmall := serve_none hserve
          constructor
          · intro hmem
            exact absurd (hsmall M hmem) (by omega)
          · rintro ⟨xs, ys, rfl, -⟩
            exact absurd (hsmall M (by simp)) (by omega)
      | some r =>
          obtain ⟨before, taken, after⟩ := r
          have hserved := serve_some hserve
          obtain ⟨hslots, hzero⟩ := hserved.slots_eq hneed hspare
          have hbefore : M ∉ before := fun hmem => absurd (hserved.before_lt M hmem) (by omega)
          simp only [List.mem_append, List.mem_cons, hbefore, false_or]
          cases hserved with
          | whole _ _ _ _ hle hlt =>
              rw [ih fun c hc => hM c (by simp [hc])]
              constructor
              · rintro (rfl | ⟨xs, ys, rfl, hk⟩)
                · omega
                · refine ⟨before ++ taken :: xs, ys, by simp, ?_⟩
                  simp only [slots_append, slots_cons, hzero] at hslots ⊢
                  omega
              · rintro ⟨xs, ys, hsplit, hk⟩
                rcases (split_after before hbefore).mp hsplit with ⟨rfl, rfl, -⟩ | ⟨zs, rfl, rfl⟩
                · omega
                · refine .inr ⟨zs, ys, rfl, ?_⟩
                  simp only [slots_append, slots_cons, hzero] at hslots hk
                  omega
          | split _ after size _ hle =>
              have hsize := hM size (by simp)
              rw [ih fun c hc => by
                rcases List.mem_cons.mp hc with rfl | hc
                · omega
                · exact hM c (by simp [hc])]
              constructor
              · rintro (rfl | ⟨xs, ys, hsplit, hk⟩)
                · omega
                · rcases (split_after [] (by simp)).mp hsplit with ⟨rfl, heq, -⟩ | ⟨zs, rfl, rfl⟩
                  · omega
                  · refine ⟨before ++ size :: zs, ys, by simp, ?_⟩
                    simp only [slots_append, slots_cons, hzero, List.nil_append] at hslots hk ⊢
                    omega
              · rintro ⟨xs, ys, hsplit, hk⟩
                rcases (split_after before hbefore).mp hsplit with ⟨rfl, rfl, -⟩ | ⟨zs, rfl, rfl⟩
                · omega
                · refine .inr ⟨(size - need) :: zs, ys, by simp, ?_⟩
                  simp only [slots_append, slots_cons, hzero] at hslots hk ⊢
                  omega

/-- A largest block survives `k` requests and their release if and only if there is one
that is too small to be split or has blocks before it that serve all of them. -/
theorem mem_shred {M : Nat} (hneed : 0 < need) (hspare : spare ≤ need) (hpos : 0 < spare) (hM : ∀ size ∈ sizes, size ≤ M) :
    M ∈ shred need spare k sizes ↔
      ∃ xs ys, sizes = xs ++ M :: ys ∧ (k ≤ slots need xs ∨ M < need + spare) := by
  by_cases hge : need + spare ≤ M
  · rw [mem_shred_of_ge hneed hspare hpos hge hM]
    have hlt : ¬M < need + spare := by omega
    simp only [hlt, or_false]
  · rw [shred_whole fun c hc => Nat.lt_of_le_of_lt (hM c hc) (by omega), List.mem_iff_append]
    have hlt : M < need + spare := by omega
    simp only [hlt, or_true, and_true]

/-- A request on the sizes `sizes`: it is served, or the sizes grow by a block of its own. -/
inductive Requested (need spare : Nat) : List Nat → List Nat → Nat → List Nat → Nat → Prop
  | served {sizes before after : List Nat} {taken : Nat} (h : serve need spare sizes = some (before, taken, after)) :
      Requested need spare sizes before taken after 0
  | grown {sizes : List Nat} (h : serve need spare sizes = none) : Requested need spare sizes sizes need [] 1

section Requests

variable {zs rest : List Nat} {c d g g' : Nat} (hneed : 0 < need) (hspare : spare ≤ need)
include hneed hspare

theorem Requested.once (h : Requested need spare sizes xs c rest g) (hrest : serve need spare rest = none) :
    xs ++ c :: rest = shred need spare 2 sizes ++ List.replicate g need ∧ g + slots need sizes = 1 := by
  cases h with
  | served hserve =>
      have hslots := (serve_some hserve).slots_eq hneed hspare
      have hzero := slots_eq_zero (serve_none hrest)
      rw [shred, hserve]
      simp only [shred_none hrest, List.replicate_zero, List.append_nil, true_and]
      omega
  | grown hserve => simp [shred_none hserve, slots_eq_zero (serve_none hserve)]

/-- A request takes one of the places that the free blocks have. -/
theorem Requested.stock (h : Requested need spare sizes xs c rest g) (hk : k + 1 ≤ slots need sizes) :
    g = 0 ∧ k ≤ slots need (xs ++ rest) := by
  cases h with
  | served hserve =>
      have hslots := (serve_some hserve).slots_eq hneed hspare
      rw [slots_append]
      exact ⟨rfl, by omega⟩
  | grown hserve =>
      have hzero := slots_eq_zero (serve_none hserve)
      omega

theorem Requested.twice (h : Requested need spare sizes xs c ys g) (h' : Requested need spare ys zs d rest g') :
    carve need spare 2 sizes = xs ++ (zs ++ rest) ∧
      xs ++ c :: (zs ++ d :: rest) = shred need spare 2 sizes ++ List.replicate (g + g') need ∧
      g + g' = 2 - slots need sizes := by
  cases h with
  | served hserve =>
      have hserved := serve_some hserve
      have hslots := hserved.slots_eq hneed hspare
      have hbefore : serve need spare (xs ++ ys) = (serve need spare ys).map fun r => (xs ++ r.1, r.2) :=
        serve_append hserved.before_lt
      cases h' with
      | served hserve' =>
          rw [hserve', Option.map_some] at hbefore
          have hslots' := (serve_some hserve').slots_eq hneed hspare
          simp only [carve, shred, hserve, hserve', hbefore, List.append_assoc, Nat.add_zero,
            List.replicate_zero, List.append_nil, true_and]
          omega
      | grown hserve' =>
          rw [hserve', Option.map_none] at hbefore
          have hzero := slots_eq_zero (serve_none hserve')
          simp only [carve, shred, hserve, hserve', hbefore, List.append_nil, List.append_assoc, List.cons_append,
            Nat.zero_add, List.replicate_one, true_and]
          omega
  | grown hserve =>
      have hzero := slots_eq_zero (serve_none hserve)
      cases h' with
      | served hserve' => cases hserve'
      | grown _ =>
          simp only [carve, shred, hserve, List.append_nil, List.nil_append, hzero, true_and]
          simp [List.replicate_succ]

end Requests

/-- The largest of the sizes, or zero. -/
def largest (sizes : List Nat) : Nat := sizes.foldl max 0

theorem foldl_max (sizes : List Nat) (m : Nat) : sizes.foldl max m = max m (largest sizes) := by
  induction sizes generalizing m with
  | nil => simp [largest]
  | cons size sizes ih =>
      have hcons : largest (size :: sizes) = max (max 0 size) (largest sizes) := ih _
      rw [List.foldl_cons, ih, hcons, Nat.zero_max, Nat.max_assoc]

theorem le_largest (h : size ∈ sizes) : size ≤ largest sizes := by
  induction sizes with
  | nil => cases h
  | cons c sizes ih =>
      rw [largest, List.foldl_cons, foldl_max]
      rcases List.mem_cons.mp h with rfl | h
      · omega
      · have hle := ih h
        omega

theorem largest_mem (h : sizes ≠ []) : largest sizes ∈ sizes := by
  induction sizes with
  | nil => exact absurd rfl h
  | cons size sizes ih =>
      rw [largest, List.foldl_cons, foldl_max, Nat.zero_max]
      by_cases hnil : sizes = []
      · subst hnil
        simp [largest]
      · rcases Nat.le_total size (largest sizes) with hle | hle
        · rw [Nat.max_eq_right hle]
          exact List.mem_cons_of_mem _ (ih hnil)
        · rw [Nat.max_eq_left hle]
          exact List.mem_cons_self

theorem largest_eq {M : Nat} (hmem : M ∈ sizes) (hle : ∀ size ∈ sizes, size ≤ M) : largest sizes = M :=
  Nat.le_antisymm (hle _ (largest_mem (List.ne_nil_of_mem hmem))) (le_largest hmem)

theorem largest_le_sum (sizes : List Nat) : largest sizes ≤ sizes.sum := by
  induction sizes with
  | nil => exact Nat.le_refl _
  | cons size sizes ih =>
      rw [largest, List.foldl_cons, foldl_max, List.sum_cons]
      omega

theorem shred_nil (h : shred need spare k sizes = []) : sizes = [] := by
  cases k with
  | zero => exact h
  | succ k =>
      rw [shred] at h
      split at h
      next => exact h
      next => simp at h

/-- Sum and largest size tell a list from what `k` released requests have left of it, unless no request
has added a block and some largest block has not been split. -/
theorem shred_totals_iff {g : Nat} (hneed : 0 < need) (hspare : spare ≤ need) (hpos : 0 < spare) :
    sizes.sum = (shred need spare k sizes ++ List.replicate g need).sum ∧
        largest sizes = largest (shred need spare k sizes ++ List.replicate g need) ↔
      g = 0 ∧ (sizes = [] ∨ ∃ xs size ys, sizes = xs ++ size :: ys ∧ (∀ c ∈ sizes, c ≤ size) ∧
        (k ≤ slots need xs ∨ size < need + spare)) := by
  have hle : ∀ c ∈ shred need spare k sizes, c ≤ largest sizes := shred_le fun c hc => le_largest hc
  have hmem := mem_shred (k := k) hneed hspare hpos fun c (hc : c ∈ sizes) => le_largest hc
  rw [List.sum_append, shred_sum, List.sum_replicate_nat]
  constructor
  · rintro ⟨hsum, hlargest⟩
    have hg : g = 0 := by
      by_contra hg
      have hlt := Nat.mul_pos (Nat.pos_of_ne_zero hg) hneed
      omega
    refine ⟨hg, ?_⟩
    by_cases hnil : sizes = []
    · exact .inl hnil
    · rw [hg, List.replicate_zero, List.append_nil] at hlargest
      have hin : largest sizes ∈ shred need spare k sizes := by
        rw [hlargest]
        exact largest_mem fun h => hnil (shred_nil h)
      obtain ⟨xs, ys, hsplit, hcases⟩ := hmem.mp hin
      exact .inr ⟨xs, largest sizes, ys, hsplit, fun c hc => le_largest hc, hcases⟩
  · rintro ⟨rfl, hnil | ⟨xs, size, ys, hsplit, hmax, hcases⟩⟩
    · subst hnil
      have hserve : serve need spare [] = none := rfl
      rw [shred_none hserve]
      simp
    · have hsize : largest sizes = size := largest_eq (by rw [hsplit]; simp) hmax
      rw [hsize] at hmem hle
      rw [List.replicate_zero, List.append_nil, hsize, largest_eq (hmem.mpr ⟨xs, ys, hsplit, hcases⟩) hle]
      simp

end FirstFit
