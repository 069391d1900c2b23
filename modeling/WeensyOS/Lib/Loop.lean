import Mathlib.Tactic.Linarith

namespace Loop

variable {σ : Type*} (cond : σ → Prop) [DecidablePred cond] (body : σ → Option σ)

/-- `while (cond) body`, observed for `fuel` rounds. The result is `none` when
the loop is still running then, or when a body does not return. -/
def whileM : Nat → σ → Option σ
  | 0, s => if cond s then none else some s
  | fuel + 1, s => if cond s then (body s).bind (whileM fuel) else some s

theorem whileM_done {fuel : Nat} {s : σ} (h : ¬cond s) : whileM cond body fuel s = some s := by
  cases fuel <;> simp [whileM, h]

theorem whileM_next {fuel : Nat} {s : σ} (h : cond s) :
    whileM cond body (fuel + 1) s = (body s).bind (whileM cond body fuel) := by
  simp [whileM, h]

theorem whileM_map {τ : Type*} (cond' : τ → Prop) [DecidablePred cond'] (body' : τ → Option τ) (g : σ → τ)
    (hcond : ∀ s, cond' (g s) ↔ cond s) (hbody : ∀ s, cond s → body' (g s) = (body s).map g) (fuel : Nat) (s : σ) :
    whileM cond' body' fuel (g s) = (whileM cond body fuel s).map g := by
  induction fuel generalizing s with
  | zero =>
      by_cases hc : cond s
      · rw [whileM, if_pos ((hcond s).mpr hc), whileM, if_pos hc]
        rfl
      · rw [whileM_done _ _ fun h => hc ((hcond s).mp h), whileM_done _ _ hc]
        rfl
  | succ fuel ih =>
      by_cases hc : cond s
      · rw [whileM_next _ _ ((hcond s).mpr hc), whileM_next _ _ hc, hbody s hc]
        cases body s with
        | none => rfl
        | some t => exact ih t
      · rw [whileM_done _ _ fun h => hc ((hcond s).mp h), whileM_done _ _ hc]
        rfl

/-- Total correctness of a loop: the invariant `I` is kept and the variant `μ`
decreases, so that `μ s` rounds are enough. -/
theorem whileM_rule (I : σ → Prop) (μ : σ → Nat)
    (hstep : ∀ s, I s → cond s → ∃ s', body s = some s' ∧ I s' ∧ μ s' < μ s)
    {fuel : Nat} {s : σ} (hs : I s) (hfuel : μ s ≤ fuel) :
    ∃ s', whileM cond body fuel s = some s' ∧ I s' ∧ ¬cond s' := by
  induction fuel generalizing s with
  | zero =>
      by_cases hc : cond s
      · obtain ⟨s', _, _, hlt⟩ := hstep s hs hc
        omega
      · exact ⟨s, whileM_done cond body hc, hs, hc⟩
  | succ fuel ih =>
      by_cases hc : cond s
      · obtain ⟨s', hb, hI, hlt⟩ := hstep s hs hc
        obtain ⟨t, ht, hIt, hct⟩ := ih hI (by omega)
        exact ⟨t, by rw [whileM_next cond body hc, hb, Option.bind_some, ht], hIt, hct⟩
      · exact ⟨s, whileM_done cond body hc, hs, hc⟩

theorem bind_congr {τ : Type*} {x : Option σ} {f g : σ → Option τ} (h : ∀ t, x = some t → f t = g t) :
    x.bind f = x.bind g := by
  cases x with
  | none => rfl
  | some t => exact h t rfl

theorem whileM_keeps (I : σ → Prop) (hstep : ∀ s s', I s → cond s → body s = some s' → I s') {fuel : Nat}
    {s t : σ} (hs : I s) (ht : whileM cond body fuel s = some t) : I t ∧ ¬cond t := by
  induction fuel generalizing s with
  | zero =>
      by_cases hc : cond s
      · simp [whileM, hc] at ht
      · rw [whileM_done cond body hc, Option.some.injEq] at ht
        exact ht ▸ ⟨hs, hc⟩
  | succ fuel ih =>
      by_cases hc : cond s
      · rw [whileM_next cond body hc, Option.bind_eq_some_iff] at ht
        obtain ⟨s', hbody, ht⟩ := ht
        exact ih (hstep s s' hs hc hbody) ht
      · rw [whileM_done cond body hc, Option.some.injEq] at ht
        exact ht ▸ ⟨hs, hc⟩

theorem whileM_congr {body' : σ → Option σ} (I : σ → Prop)
    (hstep : ∀ s s', I s → cond s → body s = some s' → I s') (hbody : ∀ s, I s → cond s → body' s = body s)
    {fuel : Nat} {s : σ} (hs : I s) : whileM cond body' fuel s = whileM cond body fuel s := by
  induction fuel generalizing s with
  | zero => rfl
  | succ fuel ih =>
      by_cases hc : cond s
      · rw [whileM_next cond body hc, whileM_next cond body' hc, hbody s hs hc]
        exact bind_congr fun s' hs' => ih (hstep s s' hs hc hs')
      · rw [whileM_done cond body hc, whileM_done cond body' hc]

/-- A loop of a 64-bit program that is driven by one counter: when it
terminates, it does so within `2 ^ 64` rounds. -/
def cwhile (s : σ) : Option σ := whileM cond body (2 ^ 64) s

theorem cwhile_rule (I : σ → Prop) (μ : σ → Nat)
    (hstep : ∀ s, I s → cond s → ∃ s', body s = some s' ∧ I s' ∧ μ s' < μ s)
    {s : σ} (hs : I s) (hrounds : μ s ≤ 2 ^ 64) :
    ∃ s', cwhile cond body s = some s' ∧ I s' ∧ ¬cond s' :=
  whileM_rule cond body I μ hstep hs hrounds

theorem cwhile_keeps (I : σ → Prop) (hstep : ∀ s s', I s → cond s → body s = some s' → I s') {s t : σ}
    (hs : I s) (ht : cwhile cond body s = some t) : I t ∧ ¬cond t :=
  whileM_keeps cond body I hstep hs ht

theorem cwhile_congr {body' : σ → Option σ} (I : σ → Prop)
    (hstep : ∀ s s', I s → cond s → body s = some s' → I s') (hbody : ∀ s, I s → cond s → body' s = body s)
    {s : σ} (hs : I s) : cwhile cond body' s = cwhile cond body s :=
  whileM_congr cond body I hstep hbody hs

/-- A body that is checked, and never stopped where an invariant holds. -/
theorem cwhile_checked (body' : σ → Option σ) (body : σ → σ)
    (I : σ → Prop) (hstep : ∀ s, I s → cond s → body' s = some (body s) ∧ I (body s)) {s : σ} (hs : I s) :
    cwhile cond body' s = cwhile cond (fun s => some (body s)) s ∧
      ∀ t, cwhile cond (fun s => some (body s)) s = some t → I t := by
  have hkeeps (s s' : σ) (hs : I s) (hc : cond s) (hs' : some (body s) = some s') : I s' := by
    rw [Option.some.injEq] at hs'
    exact hs' ▸ (hstep s hs hc).2
  exact ⟨cwhile_congr cond _ I hkeeps (fun s hs hc => (hstep s hs hc).1) hs,
    fun t ht => (cwhile_keeps cond _ I hkeeps hs ht).1⟩

end Loop
