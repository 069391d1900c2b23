import WeensyOS.Lib.BlockHeap

namespace BlockHeap

open ByteMemory Tiling Tiling.Layout WordArray

variable {B : Type*} (F : Format B) (used : B → Bool)

/-- The blocks with `used`, with their addresses. -/
def listed (s : Nat) (bs : List B) : List (Nat × B) := (F.located s bs).filter fun p => used p.2

variable {F used} {m m' : Memory} {s s' e e' a n : Nat} {b : B} {bs bs' xs ys : List B}

theorem mem_listed : (a, b) ∈ listed F used s bs ↔ F.At s bs a b ∧ used b = true := by
  simp only [listed, List.mem_filter, mem_located]

theorem listed_append (s : Nat) (xs : List B) (b : B) :
    listed F used s (xs ++ [b]) = listed F used s xs ++ if used b then [(s + F.total xs, b)] else [] := by
  rw [listed, located_append, List.filter_append]
  split
  next hused => rw [located, List.filter_cons_of_pos (by simpa using hused)]; rfl
  next hused => rw [located, List.filter_cons_of_neg (by simpa using hused)]; rfl

theorem listed_length_lt (hused : used b = true) :
    (listed F used s xs).length < (listed F used s (xs ++ b :: ys)).length := by
  rw [listed, listed, located_append, List.filter_append, List.length_append, located,
    List.filter_cons_of_pos (by simpa using hused), List.length_cons]
  omega

theorem listed_eq (h : Region F m s bs e) (h' : Region F m' s' bs' e')
    (hk : F.Keeps (fun _ b => used b = true) m s bs m' s' bs') : listed F used s bs = listed F used s' bs' :=
  located_filter_eq h.positive h'.positive _ fun a b hused => (hk a b hused).1

theorem Region.count_le (h : Region F m s bs e) : F.width * (listed F used s bs).length ≤ e := by
  have hlen : (listed F used s bs).length ≤ bs.length := by
    rw [← located_length (L := F.toLayout) s bs]
    exact List.length_filter_le _ _
  have htotal (bs : List B) (hv : ∀ b ∈ bs, F.Valid b) : F.width * bs.length ≤ F.total bs := by
    induction bs with
    | nil => exact Nat.le_refl _
    | cons b bs ih =>
        have hb := F.width_le (hv b List.mem_cons_self)
        have hbs := ih fun c hc => hv c (List.mem_cons_of_mem _ hc)
        rw [List.length_cons, Nat.mul_succ, total_cons]
        omega
  calc F.width * (listed F used s bs).length ≤ F.width * bs.length := Nat.mul_le_mul_left _ hlen
    _ ≤ F.total bs := htotal bs h.valid
    _ ≤ e := by rw [h.tiles.end_eq]; exact Nat.le_add_left _ _

/-- Counting the used blocks on the way. -/
theorem foldl_count (used : B → Bool) (l : List (Nat × B)) (k : Nat) :
    l.foldl (fun k p => if used p.2 then k + 1 else k) k = k + (l.filter fun p => used p.2).length := by
  induction l generalizing k with
  | nil => rfl
  | cons p l ih =>
      by_cases hp : used p.2 = true
      · rw [List.foldl_cons, ih, if_pos hp, List.filter_cons_of_pos (by simpa using hp), List.length_cons]
        omega
      · rw [List.foldl_cons, ih, if_neg hp, List.filter_cons_of_neg (by simpa using hp)]

variable (F used) (entry : Nat × B → Nat × Nat)

/-- Before a round at `cur` of the loop that writes the entries of the used
blocks to two arrays: those of the blocks `xs` before `cur` are stored. -/
structure Filling (m₀ : Memory) (s sizes ptrs n : Nat) (xs : List B) (m : Memory) (index cur : Nat) : Prop where
  cur_eq : cur = s + F.total xs
  index_eq : index = (listed F used s xs).length
  changed : ChangedAt [sizes, ptrs] 0 n m₀ m
  stored : slice m sizes ptrs 0 index = (listed F used s xs).map entry

variable {F used entry} {m₀ : Memory} {sizes ptrs index cur : Nat}

theorem Filling.start : Filling F used entry m₀ s sizes ptrs n [] m₀ 0 s :=
  ⟨rfl, rfl, ChangedAt.refl, slice_empty _ _ _ (Nat.le_refl _)⟩

section Round

variable (hc : Filling F used entry m₀ s sizes ptrs n xs m index cur) (h : Region F m₀ s (xs ++ b :: ys) e)
include hc

include h in
theorem Filling.header (ho : OffHeaders F s (xs ++ b :: ys) [sizes, ptrs] n) : F.header m cur = b := by
  rw [hc.cur_eq]
  exact ho.header h hc.changed (at_append.mpr (.inr (.inl ⟨rfl, rfl⟩)))

theorem Filling.index_lt (hn : (listed F used s (xs ++ b :: ys)).length = n) (hused : used b = true) : index < n := by
  rw [hc.index_eq, ← hn]
  exact listed_length_lt hused

theorem Filling.pass (hused : ¬used b = true) :
    Filling F used entry m₀ s sizes ptrs n (xs ++ [b]) m index (cur + F.size b) := by
  have hsame : listed F used s (xs ++ [b]) = listed F used s xs := by
    rw [listed_append, if_neg hused, List.append_nil]
  refine ⟨?_, by rw [hsame]; exact hc.index_eq, hc.changed, by rw [hsame]; exact hc.stored⟩
  simp [hc.cur_eq, Nat.add_assoc]

theorem Filling.store (hd : Apart n sizes ptrs) (hlt : index < n) (hused : used b = true) {v w : Nat}
    (hentry : entry (cur, b) = (v, w)) (hv : v < 2 ^ 64) (hw : w < 2 ^ 64) :
    Filling F used entry m₀ s sizes ptrs n (xs ++ [b]) (setPair m sizes ptrs index v w) (index + 1)
      (cur + F.size b) where
  cur_eq := by simp [hc.cur_eq, Nat.add_assoc]
  index_eq := by simp [listed_append, hused, hc.index_eq]
  changed := hc.changed.trans (setPair_changed.mono (List.Subset.refl _) (Nat.zero_le _) hlt)
  stored := by
    rw [slice_setPair hd hlt (Nat.zero_le _) hv hw, hc.stored, listed_append, if_pos hused, List.map_append,
      ← hc.cur_eq, ← hentry]
    rfl

end Round

/-- Once `n` entries are stored there are no more. -/
theorem Filling.full (hc : Filling F used entry m₀ s sizes ptrs n xs m n cur)
    (hn : (listed F used s (xs ++ ys)).length = n) :
    slice m sizes ptrs 0 n = (listed F used s (xs ++ ys)).map entry := by
  have hsplit : listed F used s (xs ++ ys) = listed F used s xs ++ listed F used (s + F.total xs) ys := by
    rw [listed, located_append, List.filter_append]
    rfl
  rw [hsplit, List.length_append, ← hc.index_eq] at hn
  rw [hc.stored, hsplit, List.eq_nil_of_length_eq_zero (by omega : (listed F used (s + F.total xs) ys).length = 0),
    List.append_nil]

end BlockHeap
