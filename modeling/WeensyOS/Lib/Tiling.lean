import WeensyOS.Lib.ByteMemory
import Mathlib.Algebra.BigOperators.Group.List.Basic

namespace Tiling

open ByteMemory

/-- A block format: a header of `width` bytes that is read from memory and
gives the size of the whole block. -/
structure Layout (B : Type*) where
  header : Memory → Nat → B
  size : B → Nat
  width : Nat
  header_congr : ∀ {m m' : Memory} {a : Nat},
    (∀ x, a ≤ x → x < a + width → m' x = m x) → header m' a = header m a

namespace Layout

variable {B : Type*} (L : Layout B)

def total (bs : List B) : Nat := (bs.map L.size).sum

@[simp] theorem total_nil : L.total [] = 0 := rfl

@[simp] theorem total_cons (b : B) (bs : List B) : L.total (b :: bs) = L.size b + L.total bs := rfl

@[simp] theorem total_append (xs ys : List B) : L.total (xs ++ ys) = L.total xs + L.total ys := by
  simp [total]

/-- Block `b` starts at `a` when the blocks are laid end to end from `s`. -/
def At : Nat → List B → Nat → B → Prop
  | _, [], _, _ => False
  | s, c :: bs, a, b => (a = s ∧ b = c) ∨ At (s + L.size c) bs a b

/-- Walking header to header from `a` meets exactly the blocks `bs` and ends at `e`. -/
def Tiles (m : Memory) : Nat → List B → Nat → Prop
  | a, [], e => a = e
  | a, b :: bs, e => L.header m a = b ∧ Tiles m (a + L.size b) bs e

variable {L} {m m' : Memory} {s a a' e : Nat} {b b' : B} {bs xs ys mid mid' : List B}

@[simp] theorem at_nil : L.At s [] a b ↔ False := Iff.rfl

@[simp] theorem at_cons {c : B} :
    L.At s (c :: bs) a b ↔ (a = s ∧ b = c) ∨ L.At (s + L.size c) bs a b := Iff.rfl

@[simp] theorem at_append :
    L.At s (xs ++ ys) a b ↔ L.At s xs a b ∨ L.At (s + L.total xs) ys a b := by
  induction xs generalizing s with
  | nil => simp
  | cons c xs ih => simp [ih, or_assoc, Nat.add_assoc]

theorem At.mem (h : L.At s bs a b) : b ∈ bs := by
  induction bs generalizing s with
  | nil => exact h.elim
  | cons c bs ih =>
      rcases h with ⟨-, rfl⟩ | h
      · exact List.mem_cons_self
      · exact List.mem_cons_of_mem _ (ih h)

theorem At.bounds (h : L.At s bs a b) : s ≤ a ∧ a + L.size b ≤ s + L.total bs := by
  induction bs generalizing s with
  | nil => exact h.elim
  | cons c bs ih =>
      rcases h with ⟨rfl, rfl⟩ | h
      · simp
      · have hb := ih h
        simp only [total_cons]
        omega

theorem At.split (h : L.At s bs a b) : ∃ xs ys, bs = xs ++ b :: ys ∧ a = s + L.total xs := by
  induction bs generalizing s with
  | nil => exact h.elim
  | cons c bs ih =>
      rcases h with ⟨rfl, rfl⟩ | h
      · exact ⟨[], bs, rfl, by simp⟩
      · obtain ⟨xs, ys, rfl, rfl⟩ := ih h
        exact ⟨c :: xs, ys, rfl, by simp [Nat.add_assoc]⟩

/-- Two blocks of a tiling are the same block or do not overlap. -/
theorem At.disjoint (h : L.At s bs a b) (h' : L.At s bs a' b') :
    (a = a' ∧ b = b') ∨ a + L.size b ≤ a' ∨ a' + L.size b' ≤ a := by
  induction bs generalizing s with
  | nil => exact h.elim
  | cons c bs ih =>
      rcases h with ⟨rfl, rfl⟩ | h
      · rcases h' with ⟨rfl, rfl⟩ | h'
        · exact .inl ⟨rfl, rfl⟩
        · exact .inr (.inl h'.bounds.1)
      · rcases h' with ⟨rfl, rfl⟩ | h'
        · exact .inr (.inr h.bounds.1)
        · exact ih h h'

theorem At.unique (h : L.At s bs a b) (h' : L.At s bs a b') (hb : 0 < L.size b)
    (hb' : 0 < L.size b') : b = b' := by
  rcases h.disjoint h' with h | h | h
  · exact h.2
  · omega
  · omega

/-- Replacing a run of blocks by one of the same total size moves no other block. -/
theorem At.replace (hsize : L.total mid' = L.total mid) (h : L.At s (xs ++ (mid ++ ys)) a b) :
    L.At (s + L.total xs) mid a b ∨ L.At s (xs ++ (mid' ++ ys)) a b := by
  simp only [at_append, hsize] at h ⊢
  tauto

theorem Tiles.end_eq (h : L.Tiles m s bs e) : e = s + L.total bs := by
  induction bs generalizing s with
  | nil => exact (Eq.symm h)
  | cons c bs ih =>
      rw [ih h.2, total_cons, Nat.add_assoc]

theorem tiles_append :
    L.Tiles m s (xs ++ ys) e ↔ L.Tiles m s xs (s + L.total xs) ∧ L.Tiles m (s + L.total xs) ys e := by
  induction xs generalizing s with
  | nil => simp [Tiles]
  | cons c xs ih => simp [Tiles, ih, and_assoc, Nat.add_assoc]

theorem Tiles.header (h : L.Tiles m s bs e) (hb : L.At s bs a b) : L.header m a = b := by
  induction bs generalizing s with
  | nil => exact hb.elim
  | cons c bs ih =>
      rcases hb with ⟨rfl, rfl⟩ | hb
      · exact h.1
      · exact ih h.2 hb

theorem Tiles.frame (h : L.Tiles m s bs e)
    (hm : ∀ a b, L.At s bs a b → ∀ x, a ≤ x → x < a + L.width → m' x = m x) :
    L.Tiles m' s bs e := by
  induction bs generalizing s with
  | nil => exact h
  | cons c bs ih =>
      refine ⟨?_, ih h.2 fun a b hb => hm a b (.inr hb)⟩
      rw [L.header_congr (hm s c (.inl ⟨rfl, rfl⟩)), h.1]

theorem Tiles.unique (h : L.Tiles m s bs e) (h' : L.Tiles m s xs e)
    (hbs : ∀ b ∈ bs, 0 < L.size b) (hxs : ∀ b ∈ xs, 0 < L.size b) : bs = xs := by
  induction bs generalizing s xs with
  | nil =>
      cases xs with
      | nil => rfl
      | cons c xs =>
          have he := h'.end_eq
          have hc := hxs c List.mem_cons_self
          rw [total_cons, ← show s = e from h] at he
          omega
  | cons b bs ih =>
      cases xs with
      | nil =>
          have he := h.end_eq
          have hc := hbs b List.mem_cons_self
          rw [total_cons, ← show s = e from h'] at he
          omega
      | cons c xs =>
          obtain rfl : b = c := h.1.symm.trans h'.1
          rw [ih h.2 h'.2 (fun x hx => hbs x (List.mem_cons_of_mem _ hx))
            (fun x hx => hxs x (List.mem_cons_of_mem _ hx))]

/-- The two walks have the same blocks among those that satisfy `P`, with the
same payloads. -/
def Keeps (P : Nat → B → Prop) (m : Memory) (s : Nat) (bs : List B) (m' : Memory) (s' : Nat) (bs' : List B) :
    Prop :=
  ∀ a b, P a b → (L.At s bs a b ↔ L.At s' bs' a b) ∧
    (L.At s bs a b → ∀ x, a + L.width ≤ x → x < a + L.size b → m' x = m x)

variable {P Q : Nat → B → Prop} {m'' : Memory} {s' s'' : Nat} {bs' bs'' : List B}

theorem Keeps.refl : L.Keeps P m s bs m s bs := fun _ _ _ => ⟨Iff.rfl, fun _ _ _ _ => rfl⟩

theorem Keeps.trans (h : L.Keeps P m s bs m' s' bs') (h' : L.Keeps P m' s' bs' m'' s'' bs'') :
    L.Keeps P m s bs m'' s'' bs'' := by
  intro a b hP
  obtain ⟨hiff, hx⟩ := h a b hP
  obtain ⟨hiff', hx'⟩ := h' a b hP
  exact ⟨hiff.trans hiff', fun hb x hlo hhi => (hx' (hiff.mp hb) x hlo hhi).trans (hx hb x hlo hhi)⟩

theorem Keeps.mono (h : L.Keeps P m s bs m' s' bs') (hPQ : ∀ a b, Q a b → P a b) :
    L.Keeps Q m s bs m' s' bs' :=
  fun a b hQ => h a b (hPQ a b hQ)

/-- Addresses `R` at which neither walk has a block with `P` need no attention. -/
theorem Keeps.widen {R : Nat → Prop} (h : L.Keeps (fun a b => P a b ∧ ¬R a) m s bs m' s' bs')
    (hold : ∀ a b, R a → P a b → ¬L.At s bs a b) (hnew : ∀ a b, R a → P a b → ¬L.At s' bs' a b) :
    L.Keeps P m s bs m' s' bs' := by
  intro a b hP
  by_cases hR : R a
  · exact ⟨⟨fun hb => absurd hb (hold a b hR hP), fun hb => absurd hb (hnew a b hR hP)⟩,
      fun hb => absurd hb (hold a b hR hP)⟩
  · exact h a b ⟨hP, hR⟩

theorem Keeps.nil (s s' : Nat) : L.Keeps P m s [] m' s' [] := fun _ _ _ => ⟨Iff.rfl, fun h => h.elim⟩

/-- Rewriting a run of blocks, none of which has to be kept, as another run of
the same total size. -/
theorem Tiles.replace (mid : List B) (h : L.Tiles m s (xs ++ (mid ++ ys)) e) (hsize : L.total mid' = L.total mid)
    (hmid : L.Tiles m' (s + L.total xs) mid' (s + L.total xs + L.total mid))
    (hout : ∀ x, x < s + L.total xs ∨ s + L.total xs + L.total mid ≤ x → m' x = m x)
    (hwidth : ∀ b ∈ xs ++ (mid ++ ys), L.width ≤ L.size b) :
    L.Tiles m' s (xs ++ (mid' ++ ys)) e := by
  rw [tiles_append, tiles_append] at h
  obtain ⟨hxs, _, hys⟩ := h
  have hxs' : L.Tiles m' s xs (s + L.total xs) := by
    refine hxs.frame fun a b hb x _ hx => ?_
    have hw := hwidth b (List.mem_append_left _ hb.mem)
    have hbd := hb.bounds
    exact hout x (.inl (by omega))
  have hys' : L.Tiles m' (s + L.total xs + L.total mid) ys e := by
    refine hys.frame fun a b hb x hx _ => ?_
    have hbd := hb.bounds
    exact hout x (.inr (by omega))
  rw [tiles_append, tiles_append, hsize]
  exact ⟨hxs', hmid, hys'⟩

theorem Keeps.replace (mid : List B) (hsize : L.total mid' = L.total mid)
    (hout : ∀ x, x < s + L.total xs ∨ s + L.total xs + L.total mid ≤ x → m' x = m x)
    (hP : ∀ a b, L.At (s + L.total xs) mid a b → ¬P a b)
    (hP' : ∀ a b, L.At (s + L.total xs) mid' a b → ¬P a b) :
    L.Keeps P m s (xs ++ (mid ++ ys)) m' s (xs ++ (mid' ++ ys)) := by
  intro a b hPb
  refine ⟨⟨fun hb => ?_, fun hb => ?_⟩, fun hb x hlo hhi => ?_⟩
  · exact (hb.replace hsize).resolve_left fun hm => hP a b hm hPb
  · exact (hb.replace hsize.symm).resolve_left fun hm => hP' a b hm hPb
  · simp only [at_append] at hb
    rcases hb with hb | hb | hb
    · have hbd := hb.bounds
      exact hout x (.inl (by omega))
    · exact (hP a b hb hPb).elim
    · have hbd := hb.bounds
      exact hout x (.inr (by omega))

end Layout

end Tiling
