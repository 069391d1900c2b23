import WeensyOS.Lib.Loop
import WeensyOS.Lib.Tiling
import Mathlib.Data.List.TakeWhile

namespace Tiling.Layout

open ByteMemory Loop

variable {B : Type*} (L : Layout B)

def next (m : Memory) (cur : Nat) : Nat := (cur + L.size (L.header m cur)) % 2 ^ 64

/-- The loop that walks from header to header while `q` holds of the headers,
with an accumulator. -/
def walk {α : Type*} (f : α → Nat → B → α) (q : B → Prop) [DecidablePred q] (m : Memory) (last : Nat) :
    α × Nat → Option (α × Nat) :=
  cwhile (fun c => c.2 < last ∧ q (L.header m c.2)) (fun c => some (f c.1 c.2 (L.header m c.2), L.next m c.2))

/-- A walk without an accumulator. -/
def scan (q : B → Prop) [DecidablePred q] (m : Memory) (last : Nat) : Nat → Option Nat :=
  cwhile (fun cur => cur < last ∧ q (L.header m cur)) (fun cur => some (L.next m cur))

/-- A walk over the whole heap. -/
def visit {α : Type*} (f : α → Nat → B → α) (m : Memory) (last : Nat) : α × Nat → Option (α × Nat) :=
  cwhile (fun c => c.2 < last) (fun c => some (f c.1 c.2 (L.header m c.2), L.next m c.2))

/-- The blocks of a walk with their addresses. -/
def located : Nat → List B → List (Nat × B)
  | _, [] => []
  | s, b :: bs => (s, b) :: located (s + L.size b) bs

variable {L} {m : Memory} {s a e fuel : Nat} {b : B} {bs : List B}

theorem mem_located : (a, b) ∈ L.located s bs ↔ L.At s bs a b := by
  induction bs generalizing s with
  | nil => simp [located]
  | cons c bs ih => simp [located, ih, At]

theorem located_append (s : Nat) (xs ys : List B) :
    L.located s (xs ++ ys) = L.located s xs ++ L.located (s + L.total xs) ys := by
  induction xs generalizing s with
  | nil => rfl
  | cons c xs ih => simp [located, ih, Nat.add_assoc]

@[simp] theorem located_length (s : Nat) (bs : List B) : (L.located s bs).length = bs.length := by
  induction bs generalizing s with
  | nil => rfl
  | cons c bs ih => simp [located, ih]

@[simp] theorem located_map_snd (s : Nat) (bs : List B) : (L.located s bs).map Prod.snd = bs := by
  induction bs generalizing s with
  | nil => rfl
  | cons c bs ih => simp [located, ih]

theorem located_pairwise (hpos : ∀ b ∈ bs, 0 < L.size b) :
    (L.located s bs).Pairwise (fun p q => p.1 < q.1) := by
  induction bs generalizing s with
  | nil => exact .nil
  | cons c bs ih =>
      refine List.pairwise_cons.mpr ⟨fun q hq => ?_, ih fun b hb => hpos b (List.mem_cons_of_mem _ hb)⟩
      have hbd := (mem_located.mp hq).bounds
      have hc := hpos c List.mem_cons_self
      simp only
      omega

/-- Two walks that have the same blocks among those with `f` meet them in the
same order. -/
theorem located_filter_eq {s' : Nat} {bs' : List B} (hpos : ∀ b ∈ bs, 0 < L.size b)
    (hpos' : ∀ b ∈ bs', 0 < L.size b) (f : Nat × B → Bool)
    (h : ∀ a b, f (a, b) = true → (L.At s bs a b ↔ L.At s' bs' a b)) :
    (L.located s bs).filter f = (L.located s' bs').filter f := by
  have hlt := (located_pairwise (s := s) hpos).filter f
  have hlt' := (located_pairwise (s := s') hpos').filter f
  have hnodup {l : List (Nat × B)} (hl : l.Pairwise (fun p q => p.1 < q.1)) : l.Nodup :=
    hl.imp fun hpq he => by
      rw [he] at hpq
      exact Nat.lt_irrefl _ hpq
  refine List.Perm.eq_of_pairwise ?_ hlt hlt'
    ((List.perm_ext_iff_of_nodup (hnodup hlt) (hnodup hlt')).mpr fun p => ?_)
  · intro p q _ _ hpq hqp
    exact absurd (Nat.lt_trans hpq hqp) (Nat.lt_irrefl _)
  · obtain ⟨a, b⟩ := p
    simp only [List.mem_filter, mem_located]
    exact ⟨fun hab => ⟨(h a b hab.2).mp hab.1, hab.2⟩, fun hab => ⟨(h a b hab.2).mpr hab.1, hab.2⟩⟩

theorem length_le_total (hpos : ∀ b ∈ bs, 0 < L.size b) : bs.length ≤ L.total bs := by
  induction bs with
  | nil => exact Nat.le_refl _
  | cons c bs ih =>
      have hc := hpos c List.mem_cons_self
      have hbs := ih fun b hb => hpos b (List.mem_cons_of_mem _ hb)
      simp only [List.length_cons, total_cons]
      omega

theorem Tiles.next_eq (h : L.Tiles m s (b :: bs) e) (he : e < 2 ^ 64) : L.next m s = s + L.size b := by
  have hend := h.end_eq
  rw [total_cons] at hend
  rw [next, h.1, Nat.mod_eq_of_lt (by omega)]

theorem Tiles.lt_end (h : L.Tiles m s (b :: bs) e) (hb : 0 < L.size b) : s < e := by
  have hend := h.end_eq
  rw [total_cons] at hend
  omega

section Loops

variable (hpos : ∀ b ∈ bs, 0 < L.size b) (he : e < 2 ^ 64)
include hpos he

theorem Tiles.length_le (h : L.Tiles m s bs e) : bs.length ≤ 2 ^ 64 := by
  have hend := h.end_eq
  have hlen := length_le_total hpos
  omega

theorem Tiles.walk_eq {α : Type*} (f : α → Nat → B → α) (q : B → Prop) [DecidablePred q] (acc : α)
    (h : L.Tiles m s bs e) :
    L.walk f q m e (acc, s) = some ((L.located s (bs.takeWhile fun b => q b)).foldl (fun acc p => f acc p.1 p.2) acc,
      s + L.total (bs.takeWhile fun b => q b)) := by
  have hrun (fuel : Nat) (hfuel : bs.length ≤ fuel) :
      whileM (fun c : α × Nat => c.2 < e ∧ q (L.header m c.2))
        (fun c => some (f c.1 c.2 (L.header m c.2), L.next m c.2)) fuel (acc, s) =
        some ((L.located s (bs.takeWhile fun b => q b)).foldl (fun acc p => f acc p.1 p.2) acc,
          s + L.total (bs.takeWhile fun b => q b)) := by
    induction bs generalizing s fuel acc with
    | nil =>
        have hse : s = e := h
        rw [whileM_done _ _ (by simp only; omega)]
        rfl
    | cons b bs ih =>
        by_cases hq : q b
        · cases fuel with
          | zero => simp at hfuel
          | succ fuel =>
              have hlt := h.lt_end (hpos b List.mem_cons_self)
              rw [whileM_next (fun c : α × Nat => c.2 < e ∧ q (L.header m c.2)) _ ⟨hlt, by rwa [h.1]⟩,
                Option.bind_some, h.next_eq he, ih (fun c hc => hpos c (List.mem_cons_of_mem _ hc))
                  (f acc s (L.header m s)) h.2 fuel (by simpa using hfuel), h.1]
              simp [hq, located, Nat.add_assoc]
        · rw [whileM_done _ _ (by rw [h.1]; exact fun hc => hq hc.2)]
          simp [hq, located]
  exact hrun _ (h.length_le hpos he)

theorem Tiles.scan_eq (q : B → Prop) [DecidablePred q] (h : L.Tiles m s bs e) :
    L.scan q m e s = some (s + L.total (bs.takeWhile (fun b => q b))) := by
  have hwalk := h.walk_eq hpos he (fun u _ _ => u) q ()
  have hmap := whileM_map (fun c : Unit × Nat => c.2 < e ∧ q (L.header m c.2)) (fun c => some (c.1, L.next m c.2))
    (fun cur => cur < e ∧ q (L.header m cur)) (fun cur => some (L.next m cur)) Prod.snd (fun _ => Iff.rfl)
    (fun _ _ => rfl) (2 ^ 64) ((), s)
  exact hmap.trans (congrArg (Option.map Prod.snd) hwalk)

theorem Tiles.visit_eq {α : Type*} (f : α → Nat → B → α) (acc : α) (h : L.Tiles m s bs e) :
    L.visit f m e (acc, s) = some ((L.located s bs).foldl (fun acc p => f acc p.1 p.2) acc, e) := by
  have hwalk := h.walk_eq hpos he f (fun _ => True) acc
  have hmap := whileM_map (fun c : α × Nat => c.2 < e ∧ True)
    (fun c => some (f c.1 c.2 (L.header m c.2), L.next m c.2)) (fun c => c.2 < e)
    (fun c => some (f c.1 c.2 (L.header m c.2), L.next m c.2)) id (fun _ => ⟨fun hc => ⟨hc, trivial⟩, And.left⟩)
    (fun _ _ => rfl) (2 ^ 64) (acc, s)
  have hall : bs.takeWhile (fun _ => decide True) = bs := List.takeWhile_eq_self_iff.mpr fun _ _ => rfl
  simp only [hall, ← h.end_eq] at hwalk
  exact hmap.trans (congrArg (Option.map id) hwalk)

end Loops

theorem scan_cases (q : B → Prop) [DecidablePred q] (bs : List B) :
    (∀ b ∈ bs, q b) ∧ bs.takeWhile (fun b => q b) = bs ∨
      ∃ xs b ys, bs = xs ++ b :: ys ∧ bs.takeWhile (fun b => q b) = xs ∧ (∀ c ∈ xs, q c) ∧ ¬q b := by
  induction bs with
  | nil => exact .inl ⟨by simp, rfl⟩
  | cons c bs ih =>
      by_cases hq : q c
      · rcases ih with ⟨hall, htake⟩ | ⟨xs, b, ys, rfl, htake, hxs, hb⟩
        · exact .inl ⟨by simpa [hq] using hall, by simp [hq, htake]⟩
        · exact .inr ⟨c :: xs, b, ys, rfl, by simp [hq, htake], by simpa [hq] using hxs, hb⟩
      · exact .inr ⟨[], c, bs, rfl, by simp [hq], by simp, hq⟩

end Tiling.Layout
