import G9OS.Kernel.WaitStat
import G9OS.Sched.OneCpu

/-! # Tick accounting on one CPU

`clockintr` wakes the processes that sleep on `&ticks` before `update_time_stats` looks at
the table. A process that the interrupt finds in `pause` is `RUNNABLE` by then and is
charged waiting time, although it was asleep. The counters that `wait_stat` reports are
compared here with a history of what each interrupt has found.
-/

namespace G9OS.Sched

open Lib Kernel

/-- The kernel, and of each process how many ticks have found it `RUNNING`, `RUNNABLE`, and
asleep in `pause`. -/
structure Watch where
  kernel : State
  ran : Fin NPROC → Nat
  waited : Fin NPROC → Nat
  paused : Fin NPROC → Nat

def Pausing (p : Proc) : Prop := p.state = .sleeping ∧ p.chan = .ticks

instance (p : Proc) : Decidable (Pausing p) := inferInstanceAs (Decidable (_ ∧ _))

/-- The ticks that have found a process in one of the states `P`, after one more step from `s`.
A slot that is free starts again. -/
def tally (P : Proc → Prop) [DecidablePred P] (s : State) (op : Op) (n : Fin NPROC → Nat)
    (i : Fin NPROC) : Nat :=
  if (s.proc i).state = .unused then 0
  else
    match op with
    | .clock _ => if P (s.proc i) then n i + 1 else n i
    | _ => n i

/-- What `kwait_stat` copies to `*wtime` and `*rtime`. -/
def waitStatReport (s : State) (p : Fin NPROC) : Option (Nat × Nat) :=
  (zombieChild s p).map fun pp => ((s.proc pp).stime, (s.proc pp).rtime)

section
variable [Link]

def Watch.next (w : Watch) (op : Op) : Option Watch :=
  (Kernel.next w.kernel op).map fun t =>
    { kernel := t
      ran := tally (fun p => p.state = .running) w.kernel op w.ran
      waited := tally (fun p => p.state = .runnable) w.kernel op w.waited
      paused := tally Pausing w.kernel op w.paused }

def Watch.Booted (w : Watch) : Prop :=
  Kernel.Booted w.kernel ∧ w.ran = (fun _ => 0) ∧ w.waited = (fun _ => 0) ∧ w.paused = fun _ => 0

def Watch.OneCpu (w : Watch) (op : Op) : Prop := Sched.OneCpu w.kernel op

instance (w : Watch) (op : Op) : Decidable (w.OneCpu op) :=
  inferInstanceAs (Decidable (Sched.OneCpu w.kernel op))

/-- Waiting time is charged for the ticks in `pause` as well. -/
def Watch.Exact (w : Watch) : Prop :=
  ∀ i, (w.kernel.proc i).state ≠ .unused →
    (w.kernel.proc i).rtime = w.ran i % 2 ^ 32 ∧
    (w.kernel.proc i).stime = (w.waited i + w.paused i) % 2 ^ 32

end

/-- What one tick charges: `RUNNING` and `RUNNABLE` processes, and those in `pause`. -/
theorem tick_times {q : Proc} {i : Fin NPROC} {me : Option (Fin NPROC)}
    (hme : some i = me → q.state = .running) :
    (tickProc (wakeProc me .ticks i q)).rtime =
        (if q.state = .running then (q.rtime + 1) % 2 ^ 32 else q.rtime) ∧
      (tickProc (wakeProc me .ticks i q)).stime =
        (if q.state = .runnable ∨ Pausing q then (q.stime + 1) % 2 ^ 32 else q.stime) := by
  unfold wakeProc
  split
  · rename_i hw
    have hp : Pausing q := ⟨hw.2.1, hw.2.2⟩
    simp [tickProc, hw.2.1, hp]
  · rename_i hw
    have hp : ¬ Pausing q := by
      intro hp
      refine hw ⟨fun hi => ?_, hp.1, hp.2⟩
      cases (hme hi).symm.trans hp.1
    unfold tickProc
    split <;> simp_all

section
variable {P : Proc → Prop} [DecidablePred P] {s : State} {op : Op} {n : Fin NPROC → Nat}
  {i : Fin NPROC}

theorem tally_clock {me : Option (Fin NPROC)} (hu : (s.proc i).state ≠ .unused) :
    tally P s (.clock me) n i = if P (s.proc i) then n i + 1 else n i := if_neg hu

theorem tally_other (hop : ∀ me, op ≠ .clock me) (hu : (s.proc i).state ≠ .unused) :
    tally P s op n i = n i := by
  unfold tally
  rw [if_neg hu]
  split
  · exact absurd rfl (hop _)
  · rfl

theorem tally_unused (hu : (s.proc i).state = .unused) : tally P s op n i = 0 := if_pos hu

end

section
variable [Link] {w v : Watch} {op : Op}

theorem Watch.next_some (h : w.next op = some v) : ∃ t, Kernel.next w.kernel op = some t ∧
    v = ⟨t, tally (fun p => p.state = .running) w.kernel op w.ran,
      tally (fun p => p.state = .runnable) w.kernel op w.waited,
      tally Pausing w.kernel op w.paused⟩ := by
  obtain ⟨t, ht, rfl⟩ := Option.map_eq_some_iff.1 h
  exact ⟨t, ht, rfl⟩

/-- A tick that interrupts the process that runs. -/
theorem Watch.Exact.clock (h : w.Exact) {me : Option (Fin NPROC)} (hme : Current w.kernel me)
    (hn : w.next (.clock me) = some v) : v.Exact := by
  obtain ⟨t, ht, rfl⟩ := Watch.next_some hn
  obtain ⟨-, ht⟩ := Kernel.next_some ht
  cases ht
  intro i hi
  have huse : (w.kernel.proc i).state ≠ .unused := by
    intro hu
    refine hi ((tickProc_state _).trans ?_)
    have hk : Kept True _ _ := wakeProc_kept me .ticks i (w.kernel.proc i)
    exact hk.unused hu
  obtain ⟨hr, hst⟩ := h i huse
  obtain ⟨htr, hts⟩ := @tick_times (w.kernel.proc i) i me
    fun hi => (hme i).1 hi.symm
  dsimp only
  rw [tally_clock huse, tally_clock huse, tally_clock huse]
  refine ⟨htr.trans ?_, hts.trans ?_⟩
  · split
    · rw [hr, Nat.mod_add_mod]
    · exact hr
  · -- a process in `pause` is not `RUNNABLE`, so at most one of the two counts goes up
    by_cases hrun : (w.kernel.proc i).state = .runnable
    · have hp : ¬ Pausing (w.kernel.proc i) := fun hp => by cases hrun.symm.trans hp.1
      rw [if_pos (.inl hrun), if_pos hrun, if_neg hp, hst, Nat.mod_add_mod]
      congr 1
      omega
    · by_cases hp : Pausing (w.kernel.proc i)
      · rw [if_pos (.inr hp), if_neg hrun, if_pos hp, hst, Nat.mod_add_mod]
        congr 1
      · rw [if_neg (not_or.2 ⟨hrun, hp⟩), if_neg hrun, if_neg hp]
        exact hst

theorem Watch.Exact.other (h : w.Exact) (hs : Tidy w.kernel)
    (hop : ∀ me, op ≠ .clock me) (hn : w.next op = some v) : v.Exact := by
  obtain ⟨t, ht, rfl⟩ := Watch.next_some hn
  obtain ⟨he, hrun⟩ := Kernel.next_some ht
  intro i hi
  have hturn := run_turn hs he hrun i
  dsimp only at hi ⊢
  generalize t.proc i = q at hturn hi
  by_cases huse : (w.kernel.proc i).state = .unused
  · rw [tally_unused huse, tally_unused huse, tally_unused huse]
    cases hturn with
    | kept hk => exact absurd (hk.unused huse) hi
    | claimed _ _ hr hst _ => exact ⟨hr, hst⟩
    | dispatched hr => cases huse.symm.trans hr
    | ticked => exact absurd rfl (hop _)
  · rw [tally_other hop huse, tally_other hop huse, tally_other hop huse]
    obtain ⟨hr, hst⟩ := h i huse
    cases hturn with
    | kept hk => exact ⟨hk.rtime.trans hr, hk.stime.trans hst⟩
    | claimed hu => exact absurd hu huse
    | dispatched => exact ⟨hr, hst⟩
    | ticked => exact absurd rfl (hop _)

theorem Watch.orderly {ok : Watch → Op → Prop} (h : Reach Watch.next ok Watch.Booted w) :
    Tidy w.kernel ∧ w.kernel.ShmOk := by
  induction h with
  | start hb => exact orderly_of_reach (.start hb.1 : Reach Kernel.next Free Kernel.Booted _)
  | step _ _ hn ih =>
      obtain ⟨t, ht, rfl⟩ := Watch.next_some hn
      have he := next_effect ih.1 ht
      exact ⟨he.tidy ih.1, he.shmOk ih.1 ih.2⟩

theorem exact_of_reach (h : Reach Watch.next Watch.OneCpu Watch.Booted w) : w.Exact := by
  induction h with
  | @start w hb =>
      intro i hi
      obtain ⟨p, hothers, -, hr, hst⟩ := booted_alone hb.1
      obtain ⟨-, h1, h2, h3⟩ := hb
      have hip : i = p := by
        by_contra hne
        rw [hothers i hne] at hi
        exact hi rfl
      rw [hip, hr, hst, h1, h2, h3]
      exact ⟨rfl, rfl⟩
  | @step w v op hreach hok hn ih =>
      obtain ⟨hs, -⟩ := Watch.orderly hreach
      by_cases hop : ∃ me, op = .clock me
      · obtain ⟨me, rfl⟩ := hop
        exact ih.clock hok hn
      · exact ih.other hs (fun me he => hop ⟨me, he⟩) hn

/-- The times that `wait_stat` reports are the ticks that have found the child `RUNNABLE` and
`RUNNING`, modulo 2³², if and only if the ticks that have found it in `pause` come to a multiple
of 2³². They are what a round of `kwait_stat` copies out. -/
theorem reachable_report_iff {p c : Fin NPROC} (h : Reach Watch.next Watch.OneCpu Watch.Booted w)
    (hc : zombieChild w.kernel p = some c) :
    (waitStatReport w.kernel p = some (w.waited c % 2 ^ 32, w.ran c % 2 ^ 32) ↔
      w.paused c % 2 ^ 32 = 0) ∧
    ∃ stime rtime, waitStatReport w.kernel p = some (stime, rtime) ∧
      ∀ a b status, kwaitStatRound p a b status w.kernel =
        (foundAll w.kernel p [(a, uintBytes stime), (b, uintBytes rtime),
          (status, intBytes (w.kernel.proc c).xstate)] c).map (afterPass w.kernel p) := by
  have hz := zombieChild_zombie hc
  obtain ⟨hr, hst⟩ := exact_of_reach h c (by rw [hz]; exact nofun)
  have hrep : waitStatReport w.kernel p =
      some ((w.kernel.proc c).stime, (w.kernel.proc c).rtime) := by
    rw [waitStatReport, hc, Option.map_some]
  refine ⟨?_, _, _, hrep, fun a b status => ?_⟩
  · rw [hrep, hr, hst, Option.some_inj, Prod.mk.injEq]
    omega
  · rw [kwaitStatRound_eq, hc]
    dsimp only
    rw [kwaitStatFound_eq]
    rfl

end

def sampleWatch (ops : List Op) : Option Watch :=
  letI := sampleLink
  (sampleRun []).bind fun s =>
    replay (guarded Watch.next Watch.OneCpu) ⟨s, fun _ => 0, fun _ => 0, fun _ => 0⟩ ops

theorem sampleWatch_exists (ops : List Op) (P : Watch → Prop) [DecidablePred P]
    (h : (sampleWatch ops).any (fun w => decide (P w)) = true) :
    ∃ w, Reach (@Watch.next sampleLink) Watch.OneCpu (@Watch.Booted sampleLink) w ∧ P w := by
  obtain ⟨w, hw, hP⟩ := (Option.any_eq_true _ _).1 h
  obtain ⟨s, hs, hr⟩ := Option.bind_eq_some_iff.1 hw
  obtain ⟨u, hb, he⟩ := Option.bind_eq_some_iff.1 hs
  cases he
  refine ⟨w, replay_guarded_reach (.start ⟨?_, rfl, rfl, rfl⟩) hr, of_decide_eq_true hP⟩
  exact ⟨_, _, _, sampleMem_bootMemory, toOption_some.1 hb⟩

/-- A parent waits for its child. One tick finds the child `RUNNING` and, after it has yielded, the
next one finds it `RUNNABLE`. -/
theorem reachable_report_iff_child : ∃ w,
    Reach (@Watch.next sampleLink) Watch.OneCpu (@Watch.Booted sampleLink) w ∧
      w.waited 1 = 1 ∧ w.ran 1 = 1 ∧ waitStatReport w.kernel 0 = some (1, 1) := by
  obtain ⟨w, hr, hz, hw, hrun, hp⟩ := sampleWatch_exists
    [.fork 0, .waitStat 0 0 0 0, .dispatch 1, .clock (some 1), .yield 1, .clock none, .dispatch 1,
      .exit 1 0, .dispatch 0]
    (fun w => zombieChild w.kernel 0 = some 1 ∧ w.waited 1 = 1 ∧ w.ran 1 = 1 ∧ w.paused 1 = 0)
    (by set_option maxRecDepth 100000 in decide +kernel)
  refine ⟨w, hr, hw, hrun, ?_⟩
  have hrep := (@reachable_report_iff sampleLink w 0 1 hr hz).1.2 (by rw [hp]; rfl)
  rw [hrep, hw, hrun]
  rfl

/-- A child that is asleep in `pause` when the only tick of its life comes in. The tick wakes it
and charges it waiting time. -/
theorem pause_charged : ∃ w,
    Reach (@Watch.next sampleLink) Watch.OneCpu (@Watch.Booted sampleLink) w ∧
      w.waited 1 = 0 ∧ w.ran 1 = 0 ∧ waitStatReport w.kernel 0 = some (1, 0) :=
  sampleWatch_exists
    [.fork 0, .waitStat 0 0 0 0, .dispatch 1, .sleep 1 .ticks, .clock none, .dispatch 1, .resume 1,
      .exit 1 0, .dispatch 0]
    (fun w => w.waited 1 = 0 ∧ w.ran 1 = 0 ∧ waitStatReport w.kernel 0 = some (1, 0))
    (by set_option maxRecDepth 100000 in decide +kernel)

end G9OS.Sched
