import G9OS.Kernel.Safety

/-! # One iteration of the scheduler

`scheduler` walks the process table twice: the first pass finds the smallest priority
value of the `RUNNABLE` processes, the second one runs the first `RUNNABLE` process that
has it. On one CPU nothing changes between the two passes, and they agree because no
process has a priority beyond 20.
-/

namespace G9OS.Sched

open Lib Kernel

/-- What the first pass makes of one slot. -/
def better (best : Int) (p : Proc) : Int :=
  if p.state = .runnable ∧ p.priority < best then p.priority else best

/-- What the second pass looks for. -/
def Matches (best : Int) (p : Proc) : Prop := p.state = .runnable ∧ p.priority = best

instance (best : Int) (p : Proc) : Decidable (Matches best p) := inferInstanceAs (Decidable (_ ∧ _))

/-- The first pass, with 21 for no process at all. -/
def bestPri (s : State) : Int :=
  (List.finRange NPROC).foldl (fun best i => better best (s.proc i)) 21

/-- The second pass. -/
def firstMatch (s : State) (best : Int) : Option (Fin NPROC) :=
  Fin.find? fun i => decide (Matches best (s.proc i))

/-- One iteration of `scheduler`: the process it switches to, or `none` for `wfi`. -/
def schedule (s : State) : Option (Fin NPROC) × State :=
  if bestPri s ≤ 20 then
    match firstMatch s (bestPri s) with
    | some p => (some p, s.modProc p fun q => { q with state := .running })
    | none => (none, s)
  else (none, s)

/-- Process `p` comes before `q`: a smaller priority value, or the same and a lower index. -/
def Before (s : State) (p q : Fin NPROC) : Prop :=
  (s.proc p).priority < (s.proc q).priority ∨ (s.proc p).priority = (s.proc q).priority ∧ p ≤ q

instance beforeDecidable (s : State) (p q : Fin NPROC) : Decidable (Before s p q) :=
  inferInstanceAs (Decidable (_ ∨ _ ∧ _))

def First (s : State) (p : Fin NPROC) : Prop :=
  (s.proc p).state = .runnable ∧ ∀ q, (s.proc q).state = .runnable → Before s p q

variable {s : State} {p q : Fin NPROC} {best : Int}

theorem better_le (best : Int) (p : Proc) : better best p ≤ best := by
  unfold better
  split
  · rename_i h
    exact h.2.le
  · exact le_rfl

theorem better_le_priority {p : Proc} (h : p.state = .runnable) : better best p ≤ p.priority := by
  unfold better
  split
  · exact le_rfl
  · rename_i hn
    exact not_lt.1 fun hlt => hn ⟨h, hlt⟩

theorem better_cases (best : Int) (p : Proc) :
    better best p = best ∨ Matches (better best p) p ∧ better best p < best := by
  by_cases h : p.state = .runnable ∧ p.priority < best
  · refine .inr ?_
    rw [better, if_pos h]
    exact ⟨⟨h.1, rfl⟩, h.2⟩
  · exact .inl (if_neg h)

theorem foldl_better (s : State) (l : List (Fin NPROC)) (best : Int) :
    l.foldl (fun best i => better best (s.proc i)) best ≤ best ∧
    (∀ i ∈ l, (s.proc i).state = .runnable →
      l.foldl (fun best i => better best (s.proc i)) best ≤ (s.proc i).priority) ∧
    (l.foldl (fun best i => better best (s.proc i)) best = best ∨
      ∃ i ∈ l, Matches (l.foldl (fun best i => better best (s.proc i)) best) (s.proc i)) := by
  induction l generalizing best with
  | nil => exact ⟨le_rfl, nofun, .inl rfl⟩
  | cons j l ih =>
      obtain ⟨hle, hall, hex⟩ := ih (better best (s.proc j))
      rw [List.foldl_cons]
      refine ⟨hle.trans (better_le _ _), fun i hi hrun => ?_, ?_⟩
      · rcases List.mem_cons.1 hi with rfl | hi
        · exact hle.trans (better_le_priority hrun)
        · exact hall i hi hrun
      · rcases hex with hex | ⟨i, hi, hm⟩
        · rw [hex]
          rcases better_cases best (s.proc j) with hb | hb
          · exact .inl hb
          · exact .inr ⟨j, List.mem_cons_self, hb.1⟩
        · exact .inr ⟨i, List.mem_cons_of_mem _ hi, hm⟩

theorem bestPri_le (h : (s.proc q).state = .runnable) : bestPri s ≤ (s.proc q).priority :=
  (foldl_better s _ 21).2.1 q (List.mem_finRange q) h

theorem bestPri_matches (h : bestPri s ≤ 20) : ∃ p, Matches (bestPri s) (s.proc p) := by
  rcases (foldl_better s (List.finRange NPROC) 21).2.2 with h21 | ⟨p, -, hp⟩
  · rw [bestPri, h21] at h
    exact absurd h (by decide)
  · exact ⟨p, hp⟩

/-- The second pass finds the first process in the scheduler's order. -/
theorem firstMatch_eq_some_iff (h : bestPri s ≤ 20) :
    firstMatch s (bestPri s) = some p ↔ First s p := by
  obtain ⟨r, hr⟩ := bestPri_matches h
  unfold firstMatch
  simp only [Fin.find?_eq_some_iff, decide_eq_true_eq, decide_eq_false_iff_not]
  constructor
  · rintro ⟨hp, hlow⟩
    refine ⟨hp.1, fun q hq => ?_⟩
    have hle := bestPri_le hq
    rcases hle.lt_or_eq with hlt | heq
    · exact .inl (hp.2 ▸ hlt)
    · refine .inr ⟨hp.2.trans heq, not_lt.1 fun hqp => ?_⟩
      exact hlow q hqp ⟨hq, heq.symm⟩
  · rintro ⟨hrun, hfirst⟩
    have hp : (s.proc p).priority = bestPri s := by
      refine le_antisymm ?_ (bestPri_le hrun)
      rw [← hr.2]
      rcases hfirst r hr.1 with hlt | heq
      · exact hlt.le
      · exact heq.1.le
    refine ⟨⟨hrun, hp⟩, fun q hqp hq => ?_⟩
    rcases hfirst q hq.1 with hlt | heq
    · rw [hp, hq.2] at hlt
      exact lt_irrefl _ hlt
    · exact not_lt.2 heq.2 hqp

/-- What an iteration does, when no `RUNNABLE` process has a priority beyond 20. -/
theorem schedule_spec (hpri : ∀ i, (s.proc i).state = .runnable → (s.proc i).priority ≤ 20) :
    (∃ p, First s p ∧
      schedule s = (some p, s.modProc p fun q => { q with state := .running })) ∨
    (∀ i, (s.proc i).state ≠ .runnable) ∧ schedule s = (none, s) := by
  by_cases h : bestPri s ≤ 20
  · obtain ⟨r, hr⟩ := bestPri_matches h
    cases hf : firstMatch s (bestPri s) with
    | none =>
        have hno := Fin.find?_eq_none_iff.1 hf r
        simp only [decide_eq_false_iff_not] at hno
        exact absurd hr hno
    | some p =>
        refine .inl ⟨p, (firstMatch_eq_some_iff h).1 hf, ?_⟩
        rw [schedule, if_pos h, hf]
  · refine .inr ⟨fun i hi => h ((bestPri_le hi).trans (hpri i hi)), ?_⟩
    rw [schedule, if_neg h]

theorem First.unique (hp : First s p) (hq : First s q) : p = q := by
  rcases hp.2 q hq.1 with h | h
  · rcases hq.2 p hp.1 with h' | h'
    · exact absurd h' h.asymm
    · exact absurd h'.1 h.ne'
  · rcases hq.2 p hp.1 with h' | h'
    · exact absurd h.1 h'.ne'
    · exact le_antisymm h.2 h'.2

/-- In every state that the kernel can reach, priorities are between 1 and 20, an iteration
dispatches a process if and only if one is `RUNNABLE`, that process is the first one in the
scheduler's order, and nothing but its state is changed. -/
theorem reachable_schedule [Link] (h : Reach next Free Booted s) :
    (∀ i, (s.proc i).state ≠ .unused → 1 ≤ (s.proc i).priority ∧ (s.proc i).priority ≤ 20) ∧
    ((∃ p, (schedule s).1 = some p) ↔ ∃ i, (s.proc i).state = .runnable) ∧
    (∀ p, (schedule s).1 = some p ↔ First s p) ∧
    ∀ p, (schedule s).1 = some p →
      (schedule s).2.proc p = { s.proc p with state := .running } ∧
      ∀ q, q ≠ p → (schedule s).2.proc q = s.proc q := by
  have hpri : ∀ i, (s.proc i).state ≠ .unused → 1 ≤ (s.proc i).priority ∧ (s.proc i).priority ≤ 20 :=
    fun i => ((orderly_of_reach h).1 i).priority
  refine ⟨hpri, ?_⟩
  rcases schedule_spec fun i hi => (hpri i (by rw [hi]; exact nofun)).2 with ⟨p, hp, hs⟩ | ⟨hno, hs⟩
  · rw [hs]
    refine ⟨⟨fun _ => ⟨p, hp.1⟩, fun _ => ⟨p, rfl⟩⟩, fun q => ⟨?_, fun hq => ?_⟩, ?_⟩
    · rintro ⟨⟩
      exact hp
    · rw [hp.unique hq]
    · rintro q ⟨⟩
      dsimp only
      exact ⟨modProc_self _ _ _, fun r hr => modProc_of_ne _ _ _ hr⟩
  · rw [hs]
    exact ⟨⟨nofun, fun ⟨i, hi⟩ => absurd hi (hno i)⟩, fun p => ⟨nofun, fun hp => absurd hp.1 (hno p)⟩,
      nofun⟩

/-- A parent that has given its child a better priority and yields. -/
theorem reachable_schedule_child : ∃ s, Reach (@next sampleLink) Free (@Booted sampleLink) s ∧
    (s.proc 0).state = .runnable ∧ (s.proc 0).priority = 10 ∧ (s.proc 1).priority = 3 ∧
    First s 1 ∧ (schedule s).2.proc 1 = { s.proc 1 with state := .running } := by
  obtain ⟨s, hs, h0, h1, h2, h3⟩ := sampleRun_exists [.fork 0, .setpriority 0 2 3, .yield 0]
    (fun s => (s.proc 0).state = .runnable ∧ (s.proc 0).priority = 10 ∧ (s.proc 1).priority = 3 ∧
      (schedule s).1 = some 1) (by set_option maxRecDepth 100000 in decide +kernel)
  have hr : Reach (@next sampleLink) Free (@Booted sampleLink) s :=
    sampleRun_reach (fun _ _ _ => trivial) hs
  obtain ⟨-, -, hfirst, heff⟩ := @reachable_schedule s sampleLink hr
  exact ⟨s, hr, h0, h1, h2, (hfirst 1).1 h3, (heff 1 h3).1⟩

end G9OS.Sched
