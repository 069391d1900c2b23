import WeensyOS.Kernel.Process
import WeensyOS.Lib.RoundRobin

namespace WeensyOS.Kernel

open RoundRobin

/-- What the scheduler reads of a process descriptor. -/
structure Slot where
  pPid : Int
  pState : ProcState

/-- `processes[]`, and the index in it of the process that `current` points to. -/
structure Scheduler where
  processes : Nat → Slot
  current : Nat

namespace Scheduler

/-- `run(p)`; `none` when its assertion fails. -/
def run (s : Scheduler) (p : Nat) : Option Scheduler :=
  if (s.processes p).pState = .runnable then some { s with current := p } else none

/-- The loop of `schedule`, observed for a number of rounds: `none` when it still spins then. -/
def search (s : Scheduler) : Nat → Int → Option Scheduler
  | 0, _ => none
  | rounds + 1, pid =>
      let pid := (pid + 1).tmod nproc
      if (s.processes pid.toNat).pState = .runnable then s.run pid.toNat else s.search rounds pid

/-- `schedule()`, the same in the two kernels. -/
def schedule (rounds : Nat) (s : Scheduler) : Option Scheduler :=
  s.search rounds (s.processes s.current).pPid

def Runnable (s : Scheduler) (q : Nat) : Prop := (s.processes q).pState = .runnable

/-- Each slot's `p_pid` is its index. -/
structure Numbered (s : Scheduler) : Prop where
  pid_eq : ∀ p, p < nproc → (s.processes p).pPid = p
  current_lt : s.current < nproc

variable {s t : Scheduler} {rounds q : Nat}

theorem tmod_succ (pid : Nat) : ((pid : Int) + 1).tmod nproc = ((pid + 1) % nproc : Nat) := by
  rw [Int.tmod_eq_emod_of_nonneg (by omega)]
  rfl

theorem search_picks {pid : Nat} (h : s.search rounds pid = some t) :
    ∃ j, t = { s with current := j } ∧ Picks nproc s.Runnable pid j := by
  induction rounds generalizing pid with
  | zero => cases h
  | succ rounds ih =>
      rw [search, tmod_succ] at h
      simp only [Int.toNat_natCast] at h
      by_cases hrun : (s.processes ((pid + 1) % nproc)).pState = .runnable
      · rw [if_pos hrun, run, if_pos hrun, Option.some.injEq] at h
        exact ⟨_, h.symm, hrun, 0, rfl, fun e he => absurd he (Nat.not_lt_zero e)⟩
      · rw [if_neg hrun] at h
        obtain ⟨j, rfl, hj, d, rfl, hskip⟩ := ih h
        refine ⟨_, rfl, hj, d + 1, ?_, ?_⟩
        · rw [Nat.add_assoc, Nat.mod_add_mod]
          congr 1
          omega
        · intro e he
          cases e with
          | zero => exact hrun
          | succ e =>
              have hnext := hskip e (Nat.lt_of_succ_lt_succ he)
              rw [Nat.add_assoc, Nat.mod_add_mod] at hnext
              rwa [Nat.add_comm e 1]

theorem search_runs {pid : Int} (h : s.search rounds pid = some t) : s.Runnable t.current := by
  induction rounds generalizing pid with
  | zero => cases h
  | succ rounds ih =>
      rw [search] at h
      by_cases hrun : (s.processes ((pid + 1).tmod nproc).toNat).pState = .runnable
      · simp only [if_pos hrun, run, Option.some.injEq] at h
        subst h
        exact hrun
      · exact ih ((if_neg hrun).symm.trans h)

/-- The search does not spin past a process that can run. -/
theorem search_finds {pid : Nat} (hq : s.Runnable q) (d : Nat) (hd : (pid + 1 + d) % nproc = q)
    (hrounds : d < rounds) : ∃ t, s.search rounds pid = some t := by
  induction rounds generalizing pid d with
  | zero => omega
  | succ rounds ih =>
      rw [search, tmod_succ]
      simp only [Int.toNat_natCast]
      by_cases hrun : (s.processes ((pid + 1) % nproc)).pState = .runnable
      · rw [if_pos hrun, run, if_pos hrun]
        exact ⟨_, rfl⟩
      · rw [if_neg hrun]
        cases d with
        | zero =>
            rw [Nat.add_zero] at hd
            exact absurd (hd ▸ hq) hrun
        | succ d =>
            apply ih d _ (Nat.lt_of_succ_lt_succ hrounds)
            rw [Nat.add_assoc, Nat.mod_add_mod, ← hd]
            congr 1
            omega

theorem schedule_picks (hs : s.Numbered) (h : schedule rounds s = some t) :
    ∃ j, t = { s with current := j } ∧ Picks nproc s.Runnable s.current j := by
  rw [schedule, hs.pid_eq s.current hs.current_lt] at h
  exact search_picks h

theorem schedule_finds (hs : s.Numbered) (hq : q < nproc) (hrun : s.Runnable q) :
    ∃ t, schedule nproc s = some t := by
  rw [schedule, hs.pid_eq s.current hs.current_lt]
  exact search_finds hrun _ (reach hs.current_lt hq) (ahead_lt (by decide))

/-- A part of a run of the kernel in which process `q` stays runnable: decisions of `schedule`,
and between them anything that keeps `current`. The list holds the processes that `schedule` ran. -/
inductive Trace (q : Nat) : Scheduler → List Nat → Scheduler → Prop
  | start {s : Scheduler} (hs : s.Numbered) (hq : s.Runnable q) : Trace q s [] s
  | change {s t t' : Scheduler} {ran : List Nat} (h : Trace q s ran t) (hcurrent : t'.current = t.current)
      (hs : t'.Numbered) (hq : t'.Runnable q) : Trace q s ran t'
  | decide {s t t' : Scheduler} {ran : List Nat} {rounds : Nat} (h : Trace q s ran t)
      (hschedule : schedule rounds t = some t') : Trace q s (ran ++ [t'.current]) t'

theorem Numbered.run_to (hs : s.Numbered) {j : Nat} (hj : j < nproc) : Numbered { s with current := j } :=
  ⟨hs.pid_eq, hj⟩

theorem Trace.toRounds {ran : List Nat} (h : Trace q s ran t) :
    t.Numbered ∧ t.Runnable q ∧ Rounds nproc q s.current ran t.current := by
  induction h with
  | start hs hq => exact ⟨hs, hq, .nil _⟩
  | change _ hcurrent hs hq ih =>
      rw [hcurrent]
      exact ⟨hs, hq, ih.2.2⟩
  | decide _ hschedule ih =>
      obtain ⟨hs, hq, hrounds⟩ := ih
      obtain ⟨j, rfl, hpick⟩ := schedule_picks hs hschedule
      have hnext := hrounds.snoc hq hpick
      exact ⟨hs.run_to (hpick.lt (by decide)), hq, hnext⟩

theorem Trace.first {ran : List Nat} (h : Trace q s ran t) : s.Numbered := by
  induction h with
  | start hs _ => exact hs
  | change _ _ _ _ ih => exact ih
  | decide _ _ ih => exact ih

/-- A runnable process is run by one of any `nproc` decisions in a row, every decision
runs a process that is runnable, and while there is one the search for it ends. -/
theorem round_robin (hq : q < nproc) :
    (∀ s ran t, Trace q s ran t → ∀ front w back, ran = front ++ w ++ back → w.length = nproc → q ∈ w) ∧
      (∀ rounds s t, schedule rounds s = some t → s.Runnable t.current) ∧
      ∀ s, s.Numbered → s.Runnable q → ∃ t, schedule nproc s = some t := by
  refine ⟨?_, ?_, ?_⟩
  · intro s ran t h front w back hw hlen
    exact h.toRounds.2.2.mem h.first.current_lt hq hw (Nat.le_of_eq hlen.symm)
  · intro rounds s t h
    exact search_runs h
  · intro s hs hrun
    exact schedule_finds hs hq hrun

/-- Processes 3 and 9 can run, and process 3 is running. -/
def twoRunnable : Scheduler where
  processes p := { pPid := p, pState := if p = 3 ∨ p = 9 then .runnable else .free }
  current := 3

theorem twoRunnable_numbered : twoRunnable.Numbered := ⟨fun _ _ => rfl, by decide⟩

theorem twoRunnable_trace (n : Nat) : Trace 3 twoRunnable (List.replicate n [9, 3]).flatten twoRunnable := by
  have hother : schedule nproc twoRunnable = some { twoRunnable with current := 9 } := rfl
  have hback : schedule nproc { twoRunnable with current := 9 } = some twoRunnable := rfl
  induction n with
  | zero => exact .start twoRunnable_numbered rfl
  | succ n ih =>
      have hround := (ih.decide hother).decide hback
      rw [List.append_assoc] at hround
      rw [List.replicate_succ', List.flatten_concat]
      exact hround

theorem twoRunnable_alternate : Trace 3 twoRunnable (List.replicate 8 [9, 3]).flatten twoRunnable ∧
    3 ∈ (List.replicate 8 [9, 3]).flatten ∧ ∃ t, schedule nproc twoRunnable = some t ∧ twoRunnable.Runnable t.current := by
  have hspec := round_robin (q := 3) (by decide)
  have htrace := twoRunnable_trace 8
  obtain ⟨t, ht⟩ := hspec.2.2 twoRunnable twoRunnable_numbered rfl
  exact ⟨htrace, hspec.1 _ _ _ htrace [] _ [] (by rw [List.nil_append, List.append_nil]) rfl, t, ht, hspec.2.1 _ _ _ ht⟩

end Scheduler

end WeensyOS.Kernel
