import Mathlib.Data.List.Basic

namespace RoundRobin

/-- The slots that a search upwards from `i`, around a table of `n`, tries before slot `q`. -/
def ahead (n i q : Nat) : Nat := (q + n - i - 1) % n

/-- Slot `j` is the first one after `i`, in the order of the search, that is ready. -/
def Picks (n : Nat) (ready : Nat → Prop) (i j : Nat) : Prop :=
  ready j ∧ ∃ d, j = (i + 1 + d) % n ∧ ∀ e, e < d → ¬ready ((i + 1 + e) % n)

variable {n i j q d : Nat} {ready : Nat → Prop}

theorem ahead_lt (hn : 0 < n) : ahead n i q < n := Nat.mod_lt _ hn

theorem reach (hi : i < n) (hq : q < n) : (i + 1 + ahead n i q) % n = q := by
  rw [ahead, Nat.add_mod_mod]
  have hsum : i + 1 + (q + n - i - 1) = q + n := by omega
  rw [hsum, Nat.add_mod_right, Nat.mod_eq_of_lt hq]

theorem ahead_of_reach (hi : i < n) (hd : d < n) : ahead n i ((i + 1 + d) % n) = d := by
  rw [ahead]
  rcases Nat.lt_or_ge (i + 1 + d) n with hlt | hge
  · rw [Nat.mod_eq_of_lt hlt]
    have hsum : i + 1 + d + n - i - 1 = d + n := by omega
    rw [hsum, Nat.add_mod_right, Nat.mod_eq_of_lt hd]
  · rw [Nat.mod_eq_sub_mod hge, Nat.mod_eq_of_lt (by omega : i + 1 + d - n < n)]
    have hsum : i + 1 + d - n + n - i - 1 = d := by omega
    rw [hsum, Nat.mod_eq_of_lt hd]

theorem Picks.lt (h : Picks n ready i j) (hn : 0 < n) : j < n := by
  obtain ⟨-, d, rfl, -⟩ := h
  exact Nat.mod_lt _ hn

theorem Picks.unique (h : Picks n ready i j) (h' : Picks n ready i q) : j = q := by
  obtain ⟨hj, d, rfl, hd⟩ := h
  obtain ⟨hq, e, rfl, he⟩ := h'
  rcases Nat.lt_trichotomy d e with hlt | rfl | hlt
  · exact absurd hj (he d hlt)
  · rfl
  · exact absurd hq (hd e hlt)

/-- A slot that is ready and passed over comes closer. -/
theorem Picks.closer (h : Picks n ready i j) (hi : i < n) (hq : q < n) (hready : ready q) (hne : j ≠ q) :
    ahead n j q < ahead n i q := by
  obtain ⟨-, d, rfl, hskip⟩ := h
  have hreach := reach hi hq
  have hle : d ≤ ahead n i q := by
    by_contra hlt
    apply hskip (ahead n i q) (Nat.lt_of_not_le hlt)
    rwa [hreach]
  have hlt : d < ahead n i q := by
    apply Nat.lt_of_le_of_ne hle
    rintro rfl
    exact hne hreach
  have han : ahead n i q < n := ahead_lt (by omega)
  have hj : (i + 1 + d) % n < n := Nat.mod_lt _ (by omega)
  have hrest : ((i + 1 + d) % n + 1 + (ahead n i q - d - 1)) % n = q := by
    rw [Nat.add_assoc, Nat.mod_add_mod]
    have hsum : i + 1 + d + (1 + (ahead n i q - d - 1)) = i + 1 + ahead n i q := by omega
    rw [hsum, hreach]
  have hahead := ahead_of_reach hj (d := ahead n i q - d - 1) (by omega)
  rw [hrest] at hahead
  omega

/-- Decisions made while slot `q` stays ready, with the slot the next search starts from:
each starts where the last one ended, and what else is ready may change. -/
inductive Rounds (n q : Nat) : Nat → List Nat → Nat → Prop
  | nil (i : Nat) : Rounds n q i [] i
  | snoc {i j k : Nat} {picked : List Nat} {ready : Nat → Prop} (h : Rounds n q i picked j)
      (hready : ready q) (hpick : Picks n ready j k) : Rounds n q i (picked ++ [k]) k

theorem Rounds.lt {picked : List Nat} (h : Rounds n q i picked j) (hi : i < n) : j < n := by
  induction h with
  | nil => exact hi
  | snoc _ _ hpick _ =>
      obtain ⟨-, d, rfl, -⟩ := hpick
      exact Nat.mod_lt _ (by omega)

/-- As long as `q` is not picked, every decision brings it closer. -/
theorem Rounds.suffix {picked : List Nat} (h : Rounds n q i picked j) (hi : i < n) (hq : q < n)
    {front w : List Nat} (hw : picked = front ++ w) (hnot : q ∉ w) : w.length + ahead n j q < n := by
  induction h generalizing front w with
  | nil =>
      obtain ⟨-, rfl⟩ := List.append_eq_nil_iff.mp hw.symm
      simpa using ahead_lt (by omega)
  | @snoc j k picked ready h hready hpick ih =>
      rcases List.eq_nil_or_concat w with rfl | ⟨w', x, rfl⟩
      · simpa using ahead_lt (by omega)
      · rw [List.concat_eq_append, ← List.append_assoc] at hw
        obtain ⟨hfront, hx⟩ := List.append_inj' hw rfl
        obtain rfl : k = x := List.singleton_inj.mp hx
        rw [List.concat_eq_append, List.mem_append, not_or, List.mem_singleton] at hnot
        have hshort := ih hfront hnot.1
        have hcloser := hpick.closer (h.lt hi) hq hready (Ne.symm hnot.2)
        rw [List.length_concat]
        omega

/-- Among any `n` decisions in a row there is one that picks `q`. -/
theorem Rounds.mem {picked : List Nat} (h : Rounds n q i picked j) (hi : i < n) (hq : q < n)
    {front w back : List Nat} (hw : picked = front ++ w ++ back) (hlen : n ≤ w.length) : q ∈ w := by
  induction h generalizing back with
  | nil =>
      rw [List.nil_eq, List.append_eq_nil_iff, List.append_eq_nil_iff] at hw
      rw [hw.1.2, List.length_nil] at hlen
      omega
  | @snoc j k picked ready h hready hpick ih =>
      rcases List.eq_nil_or_concat back with rfl | ⟨back', x, rfl⟩
      · by_contra hnot
        rw [List.append_nil] at hw
        have hshort := (h.snoc hready hpick).suffix hi hq hw hnot
        omega
      · rw [List.concat_eq_append, ← List.append_assoc] at hw
        exact ih (List.append_inj' hw rfl).1

end RoundRobin
