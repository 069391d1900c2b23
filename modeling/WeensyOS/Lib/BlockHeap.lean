import WeensyOS.Lib.Allocator
import WeensyOS.Lib.Walk
import WeensyOS.Lib.WordArray

namespace BlockHeap

open ByteMemory Tiling Tiling.Layout Allocator WordArray

/-- A block format with the headers that may occur and the blocks that are in use. -/
structure Format (B : Type*) extends Layout B where
  Valid : B → Prop
  busy : B → Prop
  width_pos : 0 < width
  width_le : ∀ {b}, Valid b → width ≤ size b

/-- The memory from `s` to `e` is a sequence of valid blocks. -/
structure Region {B : Type*} (F : Format B) (m : Memory) (s : Nat) (bs : List B) (e : Nat) : Prop where
  tiles : F.Tiles m s bs e
  valid : ∀ b ∈ bs, F.Valid b

namespace Region

variable {B : Type*} {F : Format B} {m m' : Memory} {s e a n : Nat} {b b' : B} {bs xs ys mid' : List B}

theorem positive (h : Region F m s bs e) : ∀ b ∈ bs, 0 < F.size b :=
  fun b hb => Nat.lt_of_lt_of_le F.width_pos (F.width_le (h.valid b hb))

theorem bounds (h : Region F m s bs e) (hb : F.At s bs a b) : s ≤ a ∧ a + F.size b ≤ e := by
  have hbd := At.bounds hb
  rw [← h.tiles.end_eq] at hbd
  exact hbd

theorem width_le (h : Region F m s bs e) (hb : F.At s bs a b) : F.width ≤ F.size b := F.width_le (h.valid b hb.mem)

theorem unique (h : Region F m s bs e) (hb : F.At s bs a b) (hb' : F.At s bs a b') : b = b' :=
  At.unique hb hb' (h.positive b hb.mem) (h.positive b' hb'.mem)

theorem blocks_unique (h : Region F m s bs e) (h' : Region F m s xs e) : bs = xs :=
  h.tiles.unique h'.tiles h.positive h'.positive

theorem total_dvd {k : Nat} (hk : ∀ {b}, F.Valid b → k ∣ F.size b) (hv : ∀ b ∈ bs, F.Valid b) : k ∣ F.total bs := by
  induction bs with
  | nil => exact Nat.dvd_zero k
  | cons b bs ih =>
      rw [total_cons]
      exact Nat.dvd_add (hk (hv b List.mem_cons_self)) (ih fun c hc => hv c (List.mem_cons_of_mem _ hc))

/-- Blocks of a region with an aligned end are aligned. -/
theorem address_dvd {k : Nat} (h : Region F m s bs e) (hk : ∀ {b}, F.Valid b → k ∣ F.size b) (he : k ∣ e)
    (hb : F.At s bs a b) : k ∣ a := by
  obtain ⟨xs, ys, rfl, rfl⟩ := At.split hb
  have hxs : k ∣ F.total xs := total_dvd hk fun c hc => h.valid c (List.mem_append_left _ hc)
  have hstart : k ∣ s := by
    rw [h.tiles.end_eq] at he
    exact (Nat.dvd_add_left (total_dvd hk h.valid)).mp he
  exact Nat.dvd_add hstart hxs

/-- A walk over a region ends, at one of its blocks or at its end. -/
theorem scan_ends (h : Region F m s bs e) (he : e < 2 ^ 64) (q : B → Prop) [DecidablePred q] :
    ∃ cur, F.scan q m e s = some cur ∧ (cur = e ∨ ∃ b, F.At s bs cur b) := by
  refine ⟨_, h.tiles.scan_eq h.positive he q, ?_⟩
  rcases scan_cases q bs with ⟨-, htake⟩ | ⟨xs, b, ys, rfl, htake, -⟩
  · rw [htake]
    exact .inl h.tiles.end_eq.symm
  · rw [htake]
    exact .inr ⟨b, at_append.mpr (.inr (.inl ⟨rfl, rfl⟩))⟩

theorem rewrite (mid : List B) (h : Region F m s (xs ++ (mid ++ ys)) e) (hsize : F.total mid' = F.total mid)
    (hmid : F.Tiles m' (s + F.total xs) mid' (s + F.total xs + F.total mid))
    (hout : ∀ x, x < s + F.total xs ∨ s + F.total xs + F.total mid ≤ x → m' x = m x)
    (hvalid : ∀ b ∈ mid', F.Valid b) : Region F m' s (xs ++ (mid' ++ ys)) e where
  tiles := h.tiles.replace mid hsize hmid hout fun b hb => F.width_le (h.valid b hb)
  valid := by
    intro b hb
    simp only [List.mem_append] at hb
    rcases hb with hb | hb | hb
    · exact h.valid b (List.mem_append_left _ hb)
    · exact hvalid b hb
    · exact h.valid b (List.mem_append_right _ (List.mem_append_right _ hb))

theorem replaceHeader (h : Region F m s (xs ++ b :: ys) e) (hheader : F.header m' (s + F.total xs) = b')
    (hsize : F.size b' = F.size b) (hvalid : F.Valid b')
    (hout : ∀ x, x < s + F.total xs ∨ s + F.total xs + F.width ≤ x → m' x = m x) :
    Region F m' s (xs ++ b' :: ys) e ∧
      F.Keeps (fun a _ => a ≠ s + F.total xs) m s (xs ++ b :: ys) m' s (xs ++ b' :: ys) := by
  have hat : F.At s (xs ++ b :: ys) (s + F.total xs) b := at_append.mpr (.inr (.inl ⟨rfl, rfl⟩))
  have hle := h.width_le hat
  have htotal : F.total [b'] = F.total [b] := by simp [hsize]
  have hout' (x : Nat) (hx : x < s + F.total xs ∨ s + F.total xs + F.total [b] ≤ x) : m' x = m x := by
    simp only [total_cons, total_nil] at hx
    exact hout x (by omega)
  have hmoved (c : B) (a' : Nat) (c' : B) (hc : F.At (s + F.total xs) [c] a' c') : ¬a' ≠ s + F.total xs := by
    rcases hc with ⟨rfl, -⟩ | hc
    · exact fun hne => hne rfl
    · exact hc.elim
  refine ⟨?_, Keeps.replace [b] htotal hout' (hmoved b) (hmoved b')⟩
  refine h.rewrite [b] htotal ⟨hheader, ?_⟩ hout' fun c hc => ?_
  · simp [Tiles, hsize]
  · rwa [List.mem_singleton.mp hc]

theorem setHeader (h : Region F m s bs e) (hb : F.At s bs a b) (hheader : F.header m' a = b')
    (hsize : F.size b' = F.size b) (hvalid : F.Valid b') (hout : ∀ x, x < a ∨ a + F.width ≤ x → m' x = m x) :
    ∃ bs', Region F m' s bs' e ∧ F.At s bs' a b' ∧ F.Keeps (fun a' _ => a' ≠ a) m s bs m' s bs' := by
  obtain ⟨xs, ys, rfl, rfl⟩ := At.split hb
  obtain ⟨hregion, hkeeps⟩ := h.replaceHeader hheader hsize hvalid hout
  exact ⟨xs ++ b' :: ys, hregion, at_append.mpr (.inr (.inl ⟨rfl, rfl⟩)), hkeeps⟩

theorem append (h : Region F m s bs e) (hheader : F.header m' e = b) (hvalid : F.Valid b)
    (hout : ∀ x, x < e → m' x = m x) :
    Region F m' s (bs ++ [b]) (e + F.size b) ∧ F.Keeps (fun a _ => a ≠ e) m s bs m' s (bs ++ [b]) := by
  refine ⟨⟨?_, ?_⟩, fun a c hne => ⟨⟨fun hc => at_append.mpr (.inl hc), fun hc => ?_⟩, fun hc x _ hx => hout x ?_⟩⟩
  · rw [tiles_append, ← h.tiles.end_eq]
    refine ⟨h.tiles.frame fun a c hc x _ hx => hout x ?_, hheader, rfl⟩
    have hbd := h.bounds hc
    have hwidth := h.width_le hc
    omega
  · intro c hc
    rcases List.mem_append.mp hc with hc | hc
    · exact h.valid c hc
    · rwa [List.mem_singleton.mp hc]
  · rcases at_append.mp hc with hc | ⟨rfl, -⟩ | hc
    · exact hc
    · exact absurd h.tiles.end_eq.symm hne
    · exact hc.elim
  · have hbd := h.bounds hc
    omega

theorem writePayloads (h : Region F m s bs e) (written : List Nat)
    (hm : ∀ x, (∀ a ∈ written, ∀ b, F.At s bs a b → x < a + F.width ∨ a + F.size b ≤ x) → m' x = m x) :
    Region F m' s bs e ∧ F.Keeps (fun a _ => a ∉ written) m s bs m' s bs := by
  refine ⟨⟨h.tiles.frame fun a' b' hb' x hx hx' => hm x fun a _ b hb => ?_, h.valid⟩,
    fun a' b' hout => ⟨Iff.rfl, fun hb' x hx hx' => hm x fun a ha b hb => ?_⟩⟩
  · have hle := h.width_le hb'
    rcases At.disjoint hb' hb with ⟨rfl, -⟩ | hd | hd
    · exact .inl hx'
    · exact .inl (by omega)
    · exact .inr (by omega)
  · rcases At.disjoint hb' hb with ⟨rfl, -⟩ | hd | hd
    · exact absurd ha hout
    · exact .inl (by omega)
    · exact .inr (by omega)

theorem writePayload (h : Region F m s bs e) (hb : F.At s bs a b)
    (hm : ∀ x, x < a + F.width ∨ a + F.size b ≤ x → m' x = m x) :
    Region F m' s bs e ∧ F.Keeps (fun a' _ => a' ≠ a) m s bs m' s bs := by
  obtain ⟨hregion, hkeeps⟩ := h.writePayloads [a] fun x hx => hm x (hx a (by simp) b hb)
  exact ⟨hregion, hkeeps.mono fun a' _ hne => by simpa using hne⟩

end Region

section Arrays

variable {B : Type*} {F : Format B} {m m' : Memory} {s s' e a a₁ a₂ n : Nat} {b b₁ b₂ : B} {bs bs' : List B}
  {P : Nat → B → Prop}

/-- A block in use whose payload has room for an array of `n` words. -/
structure ArrayBlock (F : Format B) (s : Nat) (bs : List B) (n a : Nat) (b : B) : Prop where
  at_block : F.At s bs a b
  busy : F.busy b
  room : 8 * n + F.width ≤ F.size b

theorem ArrayBlock.apart (h₁ : ArrayBlock F s bs n a₁ b₁) (h₂ : ArrayBlock F s bs n a₂ b₂) (hne : a₁ ≠ a₂) :
    WordArray.Apart n (a₁ + F.width) (a₂ + F.width) := by
  have hroom₁ := h₁.room
  have hroom₂ := h₂.room
  rcases At.disjoint h₁.at_block h₂.at_block with hd | hd | hd
  · exact absurd hd.1 hne
  · exact .inl (by omega)
  · exact .inr (by omega)

theorem ArrayBlock.mono (h : ArrayBlock F s bs n a b) (hk : F.Keeps P m s bs m' s' bs') (hP : P a b) :
    ArrayBlock F s' bs' n a b :=
  ⟨(hk a b hP).1.mp h.at_block, h.busy, h.room⟩

theorem ArrayBlock.word_eq (h : ArrayBlock F s bs n a b) (hk : F.Keeps P m s bs m' s' bs') (hP : P a b) {i : Nat}
    (hi : i < n) : word m' (a + F.width) i = word m (a + F.width) i := by
  have hroom := h.room
  exact readLE_congr fun x hx hx' => (hk a b hP).2 h.at_block x (by omega) (by omega)

theorem Region.writeArrays (h : Region F m s bs e) (blocks : List (Nat × B))
    (hblocks : ∀ p ∈ blocks, ArrayBlock F s bs n p.1 p.2)
    (hm : ChangedAt (blocks.map fun p => p.1 + F.width) 0 n m m') :
    Region F m' s bs e ∧ F.Keeps (fun a _ => a ∉ blocks.map Prod.fst) m s bs m' s bs := by
  refine h.writePayloads _ fun x hx => hm x fun base hbase => ?_
  obtain ⟨p, hp, rfl⟩ := List.mem_map.mp hbase
  have hb := hblocks p hp
  have hroom := hb.room
  have hout := hx p.1 (List.mem_map_of_mem hp) p.2 hb.at_block
  omega

/-- The arrays do not meet any header. -/
def OffHeaders (F : Format B) (s : Nat) (bs : List B) (arrays : List Nat) (n : Nat) : Prop :=
  ∀ a b, F.At s bs a b → ∀ x, a ≤ x → x < a + F.width → ∀ base ∈ arrays, x < base + 8 * 0 ∨ base + 8 * n ≤ x

theorem OffHeaders.header {arrays : List Nat} (h : Region F m s bs e) (ho : OffHeaders F s bs arrays n)
    (hm : ChangedAt arrays 0 n m m') (hb : F.At s bs a b) : F.header m' a = b := by
  rw [F.header_congr fun x hx hx' => hm x (ho a b hb x hx hx')]
  exact h.tiles.header hb

theorem offHeaders (h : Region F m s bs e) (h₁ : ArrayBlock F s bs n a₁ b₁) (h₂ : ArrayBlock F s bs n a₂ b₂) :
    OffHeaders F s bs [a₁ + F.width, a₂ + F.width] n := by
  intro a b hb x hx hx' base hbase
  have hle := h.width_le hb
  have hoff {a' : Nat} {b' : B} (h' : ArrayBlock F s bs n a' b') :
      x < a' + F.width + 8 * 0 ∨ a' + F.width + 8 * n ≤ x := by
    have hroom := h'.room
    rcases At.disjoint hb h'.at_block with ⟨rfl, -⟩ | hd | hd
    · exact .inl hx'
    · exact .inl (by omega)
    · exact .inr (by omega)
  rcases List.mem_pair.mp hbase with rfl | rfl
  · exact hoff h₁
  · exact hoff h₂

end Arrays

/-- The result `p` of an allocation: null, or the payload of a block with `new`
at whose address no block was in use. -/
def Fresh {B : Type*} (F : Format B) (new : B → Prop) (s : Nat) (bs : List B) (p s' : Nat) (bs' : List B) : Prop :=
  p = 0 ∨ ∃ a b, p = a + F.width ∧ F.At s' bs' a b ∧ new b ∧ ∀ c, F.At s bs a c → ¬F.busy c

section Fresh

variable {B : Type*} {F : Format B} {m m₁ m₂ : Memory} {s s₁ s₂ a p q : Nat} {b : B} {bs bs₁ bs₂ : List B}
  {new : B → Prop}

theorem Fresh.busy_ne (h : Fresh F new s bs p s₁ bs₁) (hb : F.At s bs a b) (hbusy : F.busy b) : a + F.width ≠ p := by
  rcases h with rfl | ⟨a', b', rfl, -, -, hfresh⟩
  · have hpos := F.width_pos
    omega
  · intro he
    obtain rfl : a = a' := by omega
    exact hfresh b hb hbusy

theorem Fresh.pair (hnew : ∀ b, new b → F.busy b)
    (hk₁ : F.Keeps (fun a b => F.busy b ∧ a + F.width ≠ p) m s bs m₁ s₁ bs₁)
    (hk₂ : F.Keeps (fun a b => F.busy b ∧ a + F.width ≠ q) m₁ s₁ bs₁ m₂ s₂ bs₂)
    (hp : Fresh F new s bs p s₁ bs₁) (hq : Fresh F new s₁ bs₁ q s₂ bs₂) :
    F.Keeps (fun a b => F.busy b ∧ a + F.width ≠ p ∧ a + F.width ≠ q) m s bs m₂ s₂ bs₂ ∧
      Fresh F new s bs p s₂ bs₂ ∧ Fresh F new s bs q s₂ bs₂ ∧ (p = q → p = 0) := by
  refine ⟨(hk₁.mono fun a b hP => ⟨hP.1, hP.2.1⟩).trans (hk₂.mono fun a b hP => ⟨hP.1, hP.2.2⟩), ?_, ?_, ?_⟩
  · rcases hp with hp | ⟨a, b, rfl, hat, hb, hfresh⟩
    · exact .inl hp
    · exact .inr ⟨a, b, rfl, (hk₂ a b ⟨hnew b hb, hq.busy_ne hat (hnew b hb)⟩).1.mp hat, hb, hfresh⟩
  · rcases hq with hq | ⟨a, b, rfl, hat, hb, hfresh⟩
    · exact .inl hq
    · refine .inr ⟨a, b, rfl, hat, hb, fun c hc hbusy => ?_⟩
      exact hfresh c ((hk₁ a c ⟨hbusy, hp.busy_ne hc hbusy⟩).1.mp hc) hbusy
  · rintro rfl
    rcases hp with hp | ⟨a, b, rfl, hat, hb, -⟩
    · exact hp
    · exact absurd rfl (hq.busy_ne hat (hnew b hb))

end Fresh

/-- An allocator whose heaps are regions of blocks. -/
structure Presentation {H I : Type*} (A : Interface H I) (B : Type*) where
  F : Format B
  start : H → Nat
  stop : H → Nat
  WF : H → List B → Prop
  region : ∀ {h bs}, WF h bs → Region F (A.mem h) (start h) bs (stop h)
  start_store : ∀ h x v, start (A.store x v h) = start h
  wf_store : ∀ {h bs x v}, WF h bs → Region F (Function.update (A.mem h) x v) (start h) bs (stop h) →
    WF (A.store x v h) bs
  /-- The allocations that a block can hold. -/
  holds : Alloc → B → Prop
  room : ∀ {l b}, holds l b → l.req + F.width ≤ F.size b
  busy : ∀ {l b}, holds l b → F.busy b

namespace Presentation

variable {H I B : Type*} {A : Interface H I} (R : Presentation A B)

def Owns (h : H) (l : Alloc) : Prop :=
  ∃ bs a b, R.WF h bs ∧ R.F.At (R.start h) bs a b ∧ l.ptr = a + R.F.width ∧ R.holds l b

abbrev Keeps (P : Nat → B → Prop) (h : H) (bs : List B) (h' : H) (bs' : List B) : Prop :=
  R.F.Keeps P (A.mem h) (R.start h) bs (A.mem h') (R.start h') bs'

abbrev Fresh (new : B → Prop) (h : H) (bs : List B) (p : Nat) (h' : H) (bs' : List B) : Prop :=
  BlockHeap.Fresh R.F new (R.start h) bs p (R.start h') bs'

variable {R} {h h' : H} {bs bs' : List B} {l l' : Alloc} {p n : Nat} {P : Nat → B → Prop} {new : B → Prop}

theorem Owns.block (hl : R.Owns h l) (hwf : R.WF h bs) :
    ∃ a b, R.F.At (R.start h) bs a b ∧ l.ptr = a + R.F.width ∧ R.holds l b := by
  obtain ⟨bs₁, a, b, hwf₁, hb⟩ := hl
  obtain rfl := (R.region hwf).blocks_unique (R.region hwf₁)
  exact ⟨a, b, hb⟩

theorem Owns.ptr_ne_zero (hl : R.Owns h l) : l.ptr ≠ 0 := by
  obtain ⟨-, a, b, -, -, hptr, -⟩ := hl
  have hpos := R.F.width_pos
  omega

theorem Owns.apart (hwf : R.WF h bs) (hl : R.Owns h l) (hl' : R.Owns h l') (hne : l.ptr ≠ l'.ptr) :
    l.ptr + l.req ≤ l'.ptr ∨ l'.ptr + l'.req ≤ l.ptr := by
  obtain ⟨a, b, hb, hptr, hholds⟩ := hl.block hwf
  obtain ⟨a', b', hb', hptr', hholds'⟩ := hl'.block hwf
  have hroom := R.room hholds
  have hroom' := R.room hholds'
  rcases At.disjoint hb hb' with hd | hd | hd
  · omega
  · omega
  · omega

theorem Owns.keep (hl : R.Owns h l) (hwf : R.WF h bs) (hwf' : R.WF h' bs') (hk : R.Keeps P h bs h' bs')
    (hP : ∀ a b, R.F.At (R.start h) bs a b → l.ptr = a + R.F.width → R.holds l b → P a b) :
    R.Owns h' l ∧ A.SameBytes l h h' := by
  obtain ⟨a, b, hb, hptr, hholds⟩ := hl.block hwf
  have hPab := hP a b hb hptr hholds
  have hroom := R.room hholds
  refine ⟨⟨bs', a, b, hwf', (hk a b hPab).1.mp hb, hptr, hholds⟩, fun i hi => ?_⟩
  exact (hk a b hPab).2 hb _ (by omega) (by omega)

theorem Owns.ptr_ne (hl : R.Owns h l) (hwf : R.WF h bs) (hfresh : R.Fresh new h bs p h' bs') : l.ptr ≠ p := by
  obtain ⟨a, b, hb, hptr, hholds⟩ := hl.block hwf
  rw [hptr]
  exact hfresh.busy_ne hb (R.busy hholds)

theorem store_owned {x : Nat} {v : UInt8} (hwf : R.WF h bs) (hl : R.Owns h l) (hx : l.ptr ≤ x)
    (hx' : x < l.ptr + l.req) :
    R.WF (A.store x v h) bs ∧ ∀ l', R.Owns h l' → R.Owns (A.store x v h) l' := by
  obtain ⟨a, b, hb, hptr, hholds⟩ := hl.block hwf
  have hroom := R.room hholds
  have hout (y : Nat) (hy : y < a + R.F.width ∨ a + R.F.size b ≤ y) :
      Function.update (A.mem h) x v y = A.mem h y := Function.update_of_ne (by omega) _ _
  have hwf' := R.wf_store hwf ((R.region hwf).writePayload hb hout).1
  refine ⟨hwf', fun l' hl' => ?_⟩
  obtain ⟨a', b', hb', hl'⟩ := hl'.block hwf
  exact ⟨bs, a', b', hwf', by rwa [R.start_store], hl'⟩

theorem meets_null {c : Call} (hwf : R.WF h bs) :
    A.Meets (fun h => ∃ bs, R.WF h bs) R.Owns c h (.pointer 0) h where
  wf := ⟨bs, hwf⟩
  made_owned := by simp [Interface.made]
  made_distinct := .nil
  kept := fun l hl _ => ⟨hl, fun _ _ => rfl⟩
  contents := by
    cases c <;> simp [Interface.Contents]

theorem meets_pointer {c : Call} (hwf : R.WF h bs) (hwf' : R.WF h' bs')
    (hk : R.Keeps (fun a b => P a b ∧ a + R.F.width ≠ p) h bs h' bs') (hfresh : R.Fresh new h bs p h' bs')
    (hc : c.request = some n) (hnew : ∀ b, new b → R.holds ⟨p, n, .user⟩ b)
    (hP : ∀ l a b, l.ptr = a + R.F.width → R.holds l b → released c (.pointer p : Reply I) l = false → P a b)
    (hcontents : A.Contents R.Owns c (.pointer p) h h') :
    A.Meets (fun h => ∃ bs, R.WF h bs) R.Owns c h (.pointer p) h' where
  wf := ⟨bs', hwf'⟩
  made_owned := by
    intro l hl
    rw [Interface.made, hc, Option.getD_some] at hl
    split at hl
    next => cases hl
    next hne =>
      obtain rfl := List.mem_singleton.mp hl
      obtain ⟨a, b, hptr, hb, hb', -⟩ := hfresh.resolve_left hne
      exact ⟨⟨bs', a, b, hwf', hb, hptr, hnew b hb'⟩, fun l' hl' => hl'.ptr_ne hwf hfresh⟩
  made_distinct := by
    rw [Interface.made]
    split
    next => exact .nil
    next => exact List.pairwise_singleton _ _
  kept := fun l hl hrel => hl.keep hwf hwf' hk fun a b hb hptr hholds =>
    ⟨hP l a b hptr hholds hrel, hfresh.busy_ne hb (R.busy hholds)⟩
  contents := hcontents

theorem meets_done {c : Call} (hwf : R.WF h bs) (hwf' : R.WF h' bs') (hk : R.Keeps P h bs h' bs')
    (hP : ∀ l a b, l.ptr = a + R.F.width → R.holds l b → released c (.done : Reply I) l = false → P a b) :
    A.Meets (fun h => ∃ bs, R.WF h bs) R.Owns c h .done h' where
  wf := ⟨bs', hwf'⟩
  made_owned := by simp [Interface.made]
  made_distinct := .nil
  kept := fun l hl hrel => hl.keep hwf hwf' hk fun a b _ hptr hholds => hP l a b hptr hholds hrel
  contents := by cases c <;> trivial

end Presentation

end BlockHeap
