import G9OS.Smp.Tree

/-! # Charged ticks

`clockintr` first increments `ticks` and later walks the table. A process that is made in
between starts with the new value of `ticks` and is charged for the tick all the same,
so that it has more ticks on its account than have passed since its creation. Unless
`allocproc` takes a slot which the walk has still to come to, no process has.
-/

namespace G9OS.Smp

open Lib Kernel Sched

/-- The tick that is counted in `ticks` but not yet charged to slot `k`. -/
def ClockPc.due (k : Fin NPROC) : ClockPc → Nat
  | .idle => 0
  | .waking _ => 1
  | .charging n => if n ≤ k then 1 else 0

section
variable {C : Type}

/-- The slot that `allocproc` takes if CPU `c` goes on. -/
def taken (s : World C) (c : C) : Option (Fin NPROC) :=
  match s.cpu c with
  | .running p =>
      match s.pc p with
      | .forkScan k =>
          if h : k < NPROC then if (s.proc ⟨k, h⟩).state = .unused then some ⟨k, h⟩ else none
          else none
      | _ => none
  | _ => none

/-- `ticks` does not wrap around, and no process is made in a slot that the walk over the table
has still to come to. -/
def Punctual (s : World C) : Label C → Prop
  | .clock => s.clock = .idle → s.ticks + 1 < 2 ^ 32
  | .cpu c _ => ∀ k ∈ taken s c, s.clock.due k = 0
  | .device _ _ _ => True

instance (s : World C) (l : Label C) : Decidable (Punctual s l) :=
  match l with
  | .clock => inferInstanceAs (Decidable (_ → _))
  | .cpu _ _ => inferInstanceAs (Decidable (∀ k ∈ taken s _, s.clock.due k = 0))
  | .device _ _ _ => inferInstanceAs (Decidable True)

def Accounted (s : World C) : Prop :=
  ∀ k, (s.proc k).state ≠ .unused →
    (s.proc k).rtime + (s.proc k).stime + (s.proc k).ctime + s.clock.due k ≤ s.ticks

variable [DecidableEq C] {s t : World C} {c0 : C} {k p : Fin NPROC} {l : Label C} {v : Proc}

/-- What a section does to the times of a slot that it leaves in use. -/
theorem SlotMove.times (hm : SlotMove s l t k v) (hv : v.state ≠ .unused) :
    v.ctime = (s.proc k).ctime ∧ v.rtime = (s.proc k).rtime ∧ v.stime = (s.proc k).stime ∨
      (∃ c p, s.cpu c = .running p ∧ t = s.claim c p k) ∨
      s.clock = .charging k ∧ t.clock = .charging (k + 1) ∧ v = tickProc (s.proc k) := by
  cases hm with
  | claimed _ hc ht => exact .inr (.inl ⟨_, _, hc, ht⟩)
  | unclaimed | reaped => exact absurd rfl hv
  | woken =>
      left
      unfold wakeProc
      split <;> exact ⟨rfl, rfl, rfl⟩
  | @poked _ _ what =>
      left
      cases what <;> exact ⟨rfl, rfl, rfl⟩
  | charged hk hk' => exact .inr (.inr ⟨hk, hk', rfl⟩)
  | _ => exact .inl ⟨rfl, rfl, rfl⟩

/-- One turn of `update_time_stats` charges at most one tick. -/
theorem tickProc_times (q : Proc) : (tickProc q).ctime = q.ctime ∧
    (tickProc q).rtime + (tickProc q).stime ≤ q.rtime + q.stime + 1 := by
  have hmod : ∀ n : Nat, (n + 1) % 2 ^ 32 ≤ n + 1 := fun n => Nat.mod_le _ _
  have hr := hmod q.rtime
  have hs := hmod q.stime
  unfold tickProc
  split
  · refine ⟨rfl, ?_⟩
    show (q.rtime + 1) % 2 ^ 32 + q.stime ≤ _
    omega
  · refine ⟨rfl, ?_⟩
    show q.rtime + (q.stime + 1) % 2 ^ 32 ≤ _
    omega
  · exact ⟨rfl, by omega⟩

/-- A tick falls due when `ticks` counts it, and does not come back. -/
theorem Move.due (hm : Move c0 s l t)
    (hwrap : l = .clock → s.clock = .idle → s.ticks + 1 < 2 ^ 32) (k : Fin NPROC) :
    s.ticks ≤ t.ticks ∧ t.clock.due k + s.ticks ≤ s.clock.due k + t.ticks := by
  cases hm with
  | ticks hidle =>
      have hticks : (s.ticks + 1) % 2 ^ 32 = s.ticks + 1 := Nat.mod_eq_of_lt (hwrap rfl hidle)
      rw [hidle]
      show s.ticks ≤ (s.ticks + 1) % 2 ^ 32 ∧ 1 + s.ticks ≤ 0 + (s.ticks + 1) % 2 ^ 32
      omega
  | clockWakes hc | clockWoken hc =>
      rw [hc]
      exact ⟨le_rfl, le_rfl⟩
  | @charges j hc =>
      have hpast : (ClockPc.charging (j + 1)).due k ≤ (ClockPc.charging j).due k := by
        simp only [ClockPc.due]
        split <;> split <;> omega
      rw [hc]
      exact ⟨le_rfl, Nat.add_le_add_right hpast _⟩
  | charged => exact ⟨le_rfl, Nat.add_le_add_right (Nat.zero_le _) _⟩
  | proc _ _ hm => cases hm <;> exact ⟨le_rfl, le_rfl⟩
  | _ => exact ⟨le_rfl, le_rfl⟩

theorem Move.taken_claim (hm : Move c0 s l t) (hmade : t.made ≠ s.made) :
    ∃ c ch p k, l = .cpu c ch ∧ taken s c = some k ∧ t = s.claim c p k := by
  cases hm with
  | proc hc _ hm =>
      cases hm with
      | @claims k hpc _ hu =>
          refine ⟨_, _, _, k, rfl, ?_, rfl⟩
          simp [taken, hc, hpc, hu]
      | _ => exact absurd rfl hmade
  | _ => exact absurd rfl hmade

omit [DecidableEq C] in
theorem Accounted.claim (h : Accounted s) (c : C) (p np : Fin NPROC) (hdue : s.clock.due np = 0) :
    Accounted (s.claim c p np) := by
  intro k hk
  by_cases hkn : k = np
  · subst hkn
    simp [World.claim, claimed, hdue]
  · have hsame : (s.claim c p np).proc k = s.proc k := by simp [World.claim, hkn]
    rw [hsame] at hk ⊢
    exact h k hk

theorem Accounted.step (h : Accounted s) (hs : ∀ k, Seat s k) (hf : Forking s)
    (hm : Move c0 s l t) (hok : Punctual s l) : Accounted t := by
  by_cases hmade : t.made = s.made
  · intro k hk
    have hnew : ∀ c p, t ≠ s.claim c p k := by
      rintro c p rfl
      exact absurd hmade (by simp [World.claim])
    rcases (hm.slot k).in_use (hs k) hf hk with ⟨huse, -⟩ | ⟨c, p, ht⟩
    · have hold := h k huse
      obtain ⟨hle, hdue⟩ := hm.due (by rintro rfl; exact hok) k
      rcases (hm.slot k).times hk with ⟨h1, h2, h3⟩ | ⟨c, p, -, ht⟩ | ⟨hc, hc', hv⟩
      · omega
      · exact absurd ht (hnew c p)
      · have htimes := tickProc_times (s.proc k)
        have hpast : s.clock.due k = 1 := by simp [hc, ClockPc.due]
        have hdone : t.clock.due k = 0 := by simp [hc', ClockPc.due]
        rw [hv, hdone, htimes.1]
        omega
    · exact absurd ht (hnew c p)
  · obtain ⟨c, ch, p, k, rfl, hk, rfl⟩ := hm.taken_claim hmade
    exact h.claim c p k (hok k hk)

theorem accounted_of_reach (h : Reach (next c0) Punctual (· = World.boot C) s) : Accounted s := by
  induction h with
  | start hb =>
      rw [hb]
      intro k hk
      by_cases hk0 : k = 0
      · subst hk0
        exact le_rfl
      · simp [World.boot, hk0] at hk
  | step hr hok hn ih =>
      obtain ⟨hs, hf⟩ := placed_of_reach hr
      exact ih.step hs hf (next_move hn) hok

/-- As long as `ticks` does not wrap around and no process is made in a slot that the walk has still
to come to, no process is charged more ticks than have passed since its creation. -/
theorem reachable_times_bounded (h : Reach (next c0) Punctual (· = World.boot C) s) (k : Fin NPROC)
    (hk : (s.proc k).state ≠ .unused) :
    (s.proc k).ctime ≤ s.ticks ∧
      (s.proc k).rtime + (s.proc k).stime ≤ s.ticks - (s.proc k).ctime := by
  have hacc := accounted_of_reach h k hk
  omega

end

def clocks (n : Nat) : List (Label (Fin 2)) := List.replicate n .clock

/-- The first process makes a child, and the next tick is charged to the child. -/
theorem reachable_times_bounded_child : ∃ s : World (Fin 2),
    Reach (next 0) Punctual (· = World.boot (Fin 2)) s ∧ (s.proc 1).state = .runnable ∧
      (s.proc 1).stime = 1 ∧ (s.proc 1).rtime + (s.proc 1).stime ≤ s.ticks - (s.proc 1).ctime := by
  have hrun : (replay (guarded (next 0) Punctual) (World.boot (Fin 2))
      (goes 1 68 ++ [.cpu 1 (.call .fork)] ++ goes 1 5 ++ clocks 68)).any (fun s =>
        decide ((s.proc 1).state = .runnable ∧ (s.proc 1).stime = 1)) = true := by
    set_option maxRecDepth 100000 in decide +kernel
  obtain ⟨s, hs, hP⟩ := (Option.any_eq_true _ _).1 hrun
  obtain ⟨hst, hone⟩ := of_decide_eq_true hP
  have hr : Reach (next 0) Punctual (· = World.boot (Fin 2)) s :=
    replay_guarded_reach (.start rfl) hs
  exact ⟨s, hr, hst, hone, (reachable_times_bounded hr 1 (by simp [hst])).2⟩

/-- CPU 0 increments `ticks`. Before it comes to slot 1, CPU 1 forks a child into it, which is
`RUNNABLE` when CPU 0 charges it for a tick that was over at its creation. -/
theorem new_process_charged : ∃ s : World (Fin 2),
    Reach (next 0) Free (· = World.boot (Fin 2)) s ∧ (s.proc 1).state = .runnable ∧
      s.ticks = 1 ∧ (s.proc 1).ctime = 1 ∧
      ¬ (s.proc 1).rtime + (s.proc 1).stime ≤ s.ticks - (s.proc 1).ctime :=
  sampleWorld_exists
    (goes 1 68 ++ [.cpu 1 (.call .fork)] ++ clocks 1 ++ goes 1 5 ++ clocks 67)
    (fun s => (s.proc 1).state = .runnable ∧ s.ticks = 1 ∧ (s.proc 1).ctime = 1 ∧
      ¬ (s.proc 1).rtime + (s.proc 1).stime ≤ s.ticks - (s.proc 1).ctime)
    (by set_option maxRecDepth 100000 in decide +kernel)

end G9OS.Smp
