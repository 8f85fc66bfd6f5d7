import G9OS.Smp.Seats

/-! # The two passes of the scheduler among other CPUs

The locks are released between the slots of a pass, so the table changes under both
passes. A process that stays `RUNNABLE` with one priority is seen by the first pass, and
whatever is dispatched has a priority value no greater. But the process that gave the
first pass its best priority may be gone when the second pass comes to it, and then the
iteration ends in `wfi` although other processes are `RUNNABLE`.
-/

namespace G9OS.Smp

open Lib Kernel Sched

/-- What a scheduler knows of process `q` with priority `pri` once it has looked at it. -/
def Knows (q : Fin NPROC) (pri : Int) : CpuPc → Prop
  | .pass1 k best => q < k → best ≤ pri
  | .pass2 _ best => best ≤ pri
  | _ => True

def Poke.Ranged : Poke → Prop
  | .kill => True
  | .setpriority priority => priority ≤ 20

/-- The place is not in front of the store of a priority out of range. -/
def Pc.Ranged : Pc → Prop
  | .search _ what _ => what.Ranged
  | .wakeup _ _ next => next.Ranged
  | _ => True

def CpuPc.scanning : CpuPc → Bool
  | .pass1 _ _ | .pass2 _ _ => true
  | _ => false

section
variable {C : Type}

def Waits (q : Fin NPROC) (pri : Int) (s : World C) (_ : Label C) : Prop := Matches pri (s.proc q)

variable {s t : World C} {c : C} {p q k : Fin NPROC} {pri : Int} {v : CpuPc}

theorem SchedStep.knows (hm : SchedStep s c v) (h : Knows q pri (s.cpu c))
    (hq : Matches pri (s.proc q)) : Knows q pri v := by
  cases hm with
  | begins => exact fun hk => absurd hk (Nat.not_lt_zero _)
  | @looks k best hc =>
      rw [hc] at h
      intro hk
      rcases Nat.lt_succ_iff_lt_or_eq.1 hk with hk | hk
      · exact (better_le _ _).trans (h hk)
      · rw [← Fin.ext hk, ← hq.2]
        exact better_le_priority hq.1
  | looked hc hk =>
      rw [hc] at h
      exact h (q.isLt.trans_le hk)
  | skips hc =>
      rw [hc] at h
      exact h
  | sleepsAt | idles | interrupted => exact trivial

theorem CpuMove.knows (hm : CpuMove s c v) (h : Knows q pri (s.cpu c))
    (hq : Matches pri (s.proc q)) : Knows q pri v := by
  cases hm with
  | same => exact h
  | sched hs => exact hs.knows h hq
  | dispatches | returns | leaves => exact trivial

variable [DecidableEq C] {c0 : C} {l : Label C}

/-- CPU `c` is about to begin its first pass. -/
def Begins (c0 c : C) (s : World C) : Prop :=
  Reach (next c0) Free (· = World.boot C) s ∧ s.cpu c = .pass1 0 21

theorem knows_of_reach (h : Reach (next c0) (Waits q pri) (Begins c0 c) s) :
    Knows q pri (s.cpu c) := by
  refine h.inv (I := fun s => Knows q pri (s.cpu c)) (fun s hs => ?_)
    fun s l t hs hq hn => ((next_move hn).cpu_move c).knows hs hq
  rw [hs.2]
  exact fun hk => absurd hk (Nat.not_lt_zero _)

/-- If process `q` is `RUNNABLE` with priority `pri` from the beginning of the first pass on and
CPU `c` then dispatches process `p`, the priority value of `p` is at most `pri`. -/
theorem reachable_dispatch_least (h : Reach (next c0) (Waits q pri) (Begins c0 c) s)
    (hn : next c0 s l = some t) (hs : s.cpu c ≠ .running p) (ht : t.cpu c = .running p) :
    (s.proc p).priority ≤ pri := by
  have hk := knows_of_reach h
  have hm := (next_move hn).cpu_move c
  rw [ht] at hm
  generalize hv : CpuPc.running p = v at hm
  cases hm with
  | same => exact absurd hv.symm hs
  | sched hm => cases hm <;> cases hv
  | returns | leaves => cases hv
  | dispatches hc hmatch =>
      cases hv
      rw [hc] at hk
      rw [hmatch.2]
      exact hk

/-! ## Priorities -/

structure Ranged (s : World C) : Prop where
  slot : ∀ k, (s.proc k).priority ≤ 20
  pending : ∀ p, (s.pc p).Ranged

omit [DecidableEq C] in
theorem PcStep.ranged {v : Pc} (hm : PcStep s p v) (h : (s.pc p).Ranged) : v.Ranged := by
  cases hm with
  | @enters x _ ha =>
      cases x with
      | setpriority => exact ha.2.2
      | fork | exit | wait | kill | wakeup => exact trivial
  | searchSkips hpc | woken hpc =>
      rw [hpc] at h
      exact h
  | _ => exact trivial

theorem ProcMove.ranged (hm : ProcMove s c p t) (h : ∀ q, (s.pc q).Ranged) :
    ∀ q, (t.pc q).Ranged := by
  intro q
  by_cases hq : q = p
  · subst hq
    cases hm with
    | goes hs | goesLock hs => simpa using hs.ranged (h q)
    | yields | sleeps => exact h q
    | wakes hpc =>
        have hn := h q
        rw [hpc] at hn
        simpa [Pc.Ranged] using hn
    | _ => simp [World.claim, World.leave, World.die, World.reap, Pc.Ranged]
  · rcases hm.pc_others hq with he | ⟨-, he⟩
    · rw [he]
      exact h q
    · rw [he]
      exact trivial

theorem SlotMove.ranged {q' : Proc} (h : Ranged s) (hm : SlotMove s l t k q') :
    q'.priority ≤ 20 := by
  cases hm with
  | claimed => exact (by decide : (10 : Int) ≤ 20)
  | @woken me chan =>
      unfold wakeProc
      split <;> exact h.slot k
  | @poked _ _ what p _ _ _ _ hpc =>
      cases what with
      | kill => exact h.slot k
      | setpriority priority =>
          have hr := h.pending p
          rw [hpc] at hr
          exact hr
  | charged =>
      unfold tickProc
      split <;> exact h.slot k
  | _ => exact h.slot k

theorem Ranged.step (h : Ranged s) (hm : Move c0 s l t) : Ranged t := by
  refine ⟨fun k => (hm.slot k).ranged h, ?_⟩
  cases hm with
  | proc _ _ hm => exact hm.ranged h.pending
  | _ => exact h.pending

theorem ranged_of_reach {ok : World C → Label C → Prop}
    (h : Reach (next c0) ok (· = World.boot C) s) : Ranged s := by
  refine h.inv ?_ fun s l t hs _ hn => hs.step (next_move hn)
  rintro _ rfl
  refine ⟨fun k => ?_, fun _ => trivial⟩
  by_cases hk : k = 0
  · subst hk
    exact (by decide : (10 : Int) ≤ 20)
  · simp [World.boot, hk]

/-! ## Candidates -/

/-- The process that a section takes from the `RUNNABLE` ones or gives a priority. -/
def touched (s : World C) : Label C → Option (Fin NPROC)
  | .cpu c _ =>
      match s.cpu c with
      | .pass2 k best =>
          if h : k < NPROC then if Matches best (s.proc ⟨k, h⟩) then some ⟨k, h⟩ else none else none
      | .running p =>
          match s.park p, s.pc p with
          | .awake, .search pid (.setpriority _) k =>
              if h : k < NPROC then if (s.proc ⟨k, h⟩).pid = pid then some ⟨k, h⟩ else none
              else none
          | _, _ => none
      | _ => none
  | _ => none

/-- The second pass of CPU `c` will come to process `k` and find it good enough. -/
def Candidate (k : Fin NPROC) (s : World C) : CpuPc → Prop
  | .pass1 _ best => Matches best (s.proc k)
  | .pass2 n best => n ≤ k ∧ Matches best (s.proc k)
  | _ => False

/-- A section of another CPU leaves one of the candidates of CPU `c`. -/
def Spares (c : C) (s : World C) (l : Label C) : Prop :=
  (∀ ch, l ≠ .cpu c ch) → (∃ k, Candidate k s (s.cpu c)) →
    ∃ k, Candidate k s (s.cpu c) ∧ touched s l ≠ some k

theorem SlotMove.untouched {q' : Proc} (hs : Seat s k) (hf : Forking s)
    (hm : SlotMove s l t k q') (hk : Matches pri (s.proc k)) (ht : touched s l ≠ some k) :
    Matches pri q' := by
  have hst : ∀ st, (s.proc k).state = st → st ≠ .runnable → False := fun st h hne =>
    hne (h.symm.trans hk.1)
  cases hm with
  | same | unslept | adopted | reparented => exact hk
  | dispatched hl hc hm =>
      refine absurd ?_ ht
      rw [hl]
      simp only [touched, hc]
      rw [dif_pos k.isLt, if_pos hm]
  | yielded hc | slept hc | died hc => exact (hst _ (hs.running hc) nofun).elim
  | claimed hu => exact (hst _ hu nofun).elim
  | unclaimed hpc => exact (hst _ (hf.used _ k (by rw [hpc]; rfl)) nofun).elim
  | readied hpc => exact (hst _ (hf.used _ k (by rw [hpc]; rfl)) nofun).elim
  | woken =>
      unfold wakeProc
      split
      · exact ⟨rfl, hk.2⟩
      · exact hk
  | @poked _ _ what _ _ hl hc hp hpc hpid =>
      cases what with
      | kill =>
          refine ⟨?_, hk.2⟩
          unfold Poke.apply
          dsimp only
          split
          · rfl
          · exact hk.1
      | setpriority priority =>
          refine absurd ?_ ht
          rw [hl]
          simp only [touched, hc, hp, hpc]
          rw [dif_pos k.isLt, if_pos hpid]
  | reaped hz => exact (hst _ hz nofun).elim
  | charged => exact ⟨(tickProc_state _).trans hk.1, by unfold tickProc; split <;> exact hk.2⟩

/-- The iteration has a candidate as soon as it has seen process `q`, and is not in `wfi`. -/
def Hope (q : Fin NPROC) (s : World C) : CpuPc → Prop
  | .pass1 n best =>
      (q < n → best ≤ 20) ∧ (best ≤ 20 → ∃ k, Candidate k s (.pass1 n best))
  | .pass2 n best => ∃ k, Candidate k s (.pass2 n best)
  | .wfi => False
  | _ => True

omit [DecidableEq C] in
theorem SchedStep.hope (hm : SchedStep s c v) (h : Hope q s (s.cpu c)) (hr : Ranged s)
    (hq : (s.proc q).state = .runnable) : Hope q s v := by
  cases hm with
  | begins => exact ⟨fun hk => absurd hk (Nat.not_lt_zero _), fun hb => absurd hb (by decide)⟩
  | @looks k best hc =>
      rw [hc] at h
      refine ⟨fun hk => ?_, fun hb => ?_⟩
      · rcases Nat.lt_succ_iff_lt_or_eq.1 hk with hk | hk
        · exact (better_le _ _).trans (h.1 hk)
        · rw [← Fin.ext hk]
          exact (better_le_priority hq).trans (hr.slot q)
      · rcases better_cases best (s.proc k) with he | ⟨hm, -⟩
        · rw [he] at hb ⊢
          exact h.2 hb
        · exact ⟨k, hm⟩
  | looked hc hk hb =>
      rw [hc] at h
      obtain ⟨k, hm⟩ := h.2 hb
      exact ⟨k, Nat.zero_le _, hm⟩
  | sleepsAt hc hk hb =>
      rw [hc] at h
      exact hb (h.1 (q.isLt.trans_le hk))
  | @skips n best hc hne =>
      rw [hc] at h
      obtain ⟨k, hk, hm⟩ := h
      refine ⟨k, Nat.lt_of_le_of_ne hk fun he => ?_, hm⟩
      rw [Fin.ext he] at hne
      exact hne hm
  | idles hc hk =>
      rw [hc] at h
      obtain ⟨k, hk', -⟩ := h
      exact absurd (k.isLt.trans_le hk) (not_lt.2 hk')
  | interrupted hc =>
      rw [hc] at h
      exact h.elim

omit [DecidableEq C] in
theorem Hope.congr (h : Hope q s v)
    (hc : (∃ k, Candidate k s v) → ∃ k, Candidate k t v) : Hope q t v := by
  cases v with
  | pass1 n best => exact ⟨h.1, fun hb => hc (h.2 hb)⟩
  | pass2 n best => exact hc h
  | start | wfi | running | back => exact h

omit [DecidableEq C] in
theorem Candidate.untouched (h : Candidate k s v)
    (hk : ∀ {pri}, Matches pri (s.proc k) → Matches pri (t.proc k)) : Candidate k t v := by
  cases v with
  | pass1 n best => exact hk h
  | pass2 n best => exact ⟨h.1, hk h.2⟩
  | start | wfi | running | back => exact h

omit [DecidableEq C] in
theorem CpuMove.hope_of_not_scanning (hm : CpuMove s c v) (h : Hope q s (s.cpu c))
    (hscan : ¬ (s.cpu c).scanning = true) : Hope q t v := by
  cases hm with
  | same =>
      cases hv : s.cpu c with
      | pass1 | pass2 =>
          rw [hv] at hscan
          exact absurd rfl hscan
      | wfi =>
          rw [hv] at h
          exact h
      | start | running | back => exact trivial
  | sched hs =>
      cases hs with
      | begins => exact ⟨fun hk => absurd hk (Nat.not_lt_zero _), fun hb => absurd hb (by decide)⟩
      | looks hc | looked hc | sleepsAt hc | skips hc | idles hc =>
          rw [hc] at hscan
          exact absurd rfl hscan
      | interrupted hc =>
          rw [hc] at h
          exact h.elim
  | dispatches | returns | leaves => exact trivial

theorem Move.scans {ch : Choice} (hm : Move c0 s (.cpu c ch) t) (hc : (s.cpu c).scanning = true) :
    (∃ v, SchedStep s c v ∧ t = s.setCpu c v) ∨
      ∃ (k : Fin NPROC) (best : Int), s.cpu c = .pass2 k best ∧ Matches best (s.proc k) ∧
        t = s.dispatch c k := by
  cases hm with
  | sched hs => exact .inl ⟨_, hs, rfl⟩
  | dispatches hc _ hm => exact .inr ⟨_, _, hc, hm, rfl⟩
  | returns h | unparks h | unsleeps h | proc h =>
      rw [h] at hc
      cases hc

theorem Hope.step (hs : ∀ k, Seat s k) (hf : Forking s) (hr : Ranged s) (h : Hope q s (s.cpu c))
    (hq : (s.proc q).state = .runnable) (hl : Spares c s l) (hm : Move c0 s l t) :
    Hope q t (t.cpu c) := by
  by_cases hscan : (s.cpu c).scanning = true
  · by_cases hown : ∃ ch, l = .cpu c ch
    · obtain ⟨ch, rfl⟩ := hown
      rcases hm.scans hscan with ⟨v, hv, rfl⟩ | ⟨k, best, -, -, rfl⟩
      · rw [World.setCpu_cpu, Function.update_self]
        exact (hv.hope h hr hq).congr id
      · simp [World.dispatch, Hope]
    · have hother : ∀ ch, l ≠ .cpu c ch := fun ch hch => hown ⟨ch, hch⟩
      rw [hm.cpu_others hother]
      refine h.congr fun hk => ?_
      obtain ⟨k, hk, ht⟩ := hl hother hk
      exact ⟨k, hk.untouched fun hk => (hm.slot k).untouched (hs k) hf hk ht⟩
  · exact (hm.cpu_move c).hope_of_not_scanning h hscan

theorem hope_of_reach (h : Reach (next c0)
      (fun u l => (u.proc q).state = .runnable ∧ Spares c u l) (Begins c0 c) s) :
    Hope q s (s.cpu c) ∧ Ranged s ∧ (∀ k, Seat s k) ∧ Forking s := by
  refine h.inv (I := fun s => Hope q s (s.cpu c) ∧ Ranged s ∧ (∀ k, Seat s k) ∧ Forking s)
    (fun s hs => ⟨?_, ranged_of_reach hs.1, placed_of_reach hs.1⟩) fun s l t hs hl hn => ?_
  · rw [hs.2]
    exact ⟨fun hk => absurd hk (Nat.not_lt_zero _), fun hb => absurd hb (by decide)⟩
  · obtain ⟨hh, hr, hp, hf⟩ := hs
    have hm := next_move hn
    exact ⟨hh.step hp hf hr hl.1 hl.2 hm, hr.step hm, fun k => hm.seat (hp k) hf, hf.step hp hm⟩

/-- If process `q` is `RUNNABLE` from the beginning of the first pass on, and the other CPUs leave
CPU `c` a candidate in each of their sections, then CPU `c` does not get to `wfi`, and where its
passes end it dispatches a `RUNNABLE` process. -/
theorem reachable_iteration_dispatches (h : Reach (next c0)
      (fun u l => (u.proc q).state = .runnable ∧ Spares c u l) (Begins c0 c) s)
    (hq : (s.proc q).state = .runnable) (hl : Spares c s l) (hn : next c0 s l = some t)
    (hscan : (s.cpu c).scanning = true) :
    t.cpu c ≠ .wfi ∧ ((t.cpu c).scanning = false →
      ∃ p, t.cpu c = .running p ∧ (s.proc p).state = .runnable) := by
  obtain ⟨hh, hr, hp, hf⟩ := hope_of_reach h
  have hm := next_move hn
  have ht := hh.step hp hf hr hq hl hm
  refine ⟨fun hw => ?_, fun hend => ?_⟩
  · rw [hw] at ht
    exact ht
  · generalize hv : t.cpu c = v at ht hend
    have hmove := hm.cpu_move c
    rw [hv] at hmove
    cases hmove with
    | same => cases hscan.symm.trans hend
    | sched hs =>
        cases hs with
        | sleepsAt | idles => exact ht.elim
        | begins | looks | looked | skips => cases hend
        | interrupted hc =>
            rw [hc] at hscan
            cases hscan
    | dispatches _ hmatch => exact ⟨_, rfl, hmatch.1⟩
    | returns hc | leaves hc =>
        rw [hc] at hscan
        cases hscan

end

/-- The first process forks a child, gives it priority 5 and yields; CPU 0 begins its next
iteration. -/
def twoWaiting : List (Label (Fin 2)) :=
  goes cpu0 68 ++ [.cpu cpu0 (.call .fork)] ++ goes cpu0 5 ++
    [.cpu cpu0 (.call (.setpriority 2 5))] ++ goes cpu0 2 ++ [.cpu cpu0 .yield] ++ goes cpu0 2

/-- The same, but the first process gives itself priority 5, too. -/
def equalWaiting : List (Label (Fin 2)) :=
  goes cpu0 68 ++ [.cpu cpu0 (.call .fork)] ++ goes cpu0 5 ++
    [.cpu cpu0 (.call (.setpriority 2 5))] ++ goes cpu0 2 ++
    [.cpu cpu0 (.call (.setpriority 1 5))] ++ goes cpu0 1 ++ [.cpu cpu0 .yield] ++ goes cpu0 2

theorem waiting_exists (before : List (Label (Fin 2)))
    (ok : World (Fin 2) → Label (Fin 2) → Prop) [∀ s l, Decidable (ok s l)]
    (ls : List (Label (Fin 2))) (P : World (Fin 2) → Prop) [DecidablePred P]
    (h : (sampleWorld before).any (fun s => decide (s.cpu 0 = .pass1 0 21) &&
      (replay (guarded (next 0) ok) s ls).any (fun t => decide (P t))) = true) :
    ∃ t, Reach (next 0) ok (Begins 0 0) t ∧ P t := by
  obtain ⟨s, hs, hP⟩ := (Option.any_eq_true _ _).1 h
  rw [Bool.and_eq_true, decide_eq_true_eq] at hP
  obtain ⟨t, ht, hPt⟩ := (Option.any_eq_true _ _).1 hP.2
  have hr : Reach (next 0) Free (· = World.boot (Fin 2)) s :=
    replay_reach (.start rfl) (fun _ _ _ => trivial) hs
  exact ⟨t, replay_guarded_reach (.start ⟨hr, hP.1⟩) ht, of_decide_eq_true hPt⟩

instance (q : Fin NPROC) (pri : Int) (s : World (Fin 2)) (l : Label (Fin 2)) :
    Decidable (Waits q pri s l) := inferInstanceAs (Decidable (Matches pri (s.proc q)))

/-- The first process waits with priority 10 while its child with priority 5 is dispatched. -/
theorem reachable_dispatch_least_child : ∃ s t,
    Reach (next 0) (Waits 0 10) (Begins 0 (0 : Fin 2)) s ∧ next 0 s (.cpu 0 .go) = some t ∧
      t.cpu 0 = .running 1 ∧ (s.proc 1).priority ≤ 10 := by
  obtain ⟨s, hr, hs, hn⟩ := waiting_exists twoWaiting (Waits 0 10) (goes 0 66)
    (fun s => s.cpu 0 ≠ .running 1 ∧ (next 0 s (.cpu 0 .go)).any (fun t => t.cpu 0 = .running 1) = true)
    (by set_option maxRecDepth 100000 in decide +kernel)
  obtain ⟨t, ht, hc⟩ := (Option.any_eq_true _ _).1 hn
  exact ⟨s, t, hr, ht, of_decide_eq_true hc,
    reachable_dispatch_least hr ht hs (of_decide_eq_true hc)⟩

instance candidateDecidable (k : Fin NPROC) (s : World (Fin 2)) (pc : CpuPc) :
    Decidable (Candidate k s pc) :=
  match pc with
  | .pass1 _ best => inferInstanceAs (Decidable (Matches best (s.proc k)))
  | .pass2 n best => inferInstanceAs (Decidable (n ≤ k ∧ Matches best (s.proc k)))
  | .start | .wfi | .running _ | .back _ => inferInstanceAs (Decidable False)

/-- Both processes wait with priority 5 when the first pass of CPU 0 ends. CPU 1 dispatches the
first one, and CPU 0 the other. -/
theorem reachable_iteration_dispatches_other : ∃ s t,
    Reach (next 0) (fun u l => (u.proc 1).state = .runnable ∧ Spares 0 u l)
      (Begins 0 (0 : Fin 2)) s ∧ s.cpu 1 = .running 0 ∧ (s.proc 1).state = .runnable ∧
      (s.cpu 0).scanning = true ∧ next 0 s (.cpu 0 .go) = some t ∧
      ∃ p, t.cpu 0 = .running p ∧ (s.proc p).state = .runnable := by
  obtain ⟨s, hr, hother, hs, hscan, hn⟩ := waiting_exists equalWaiting
    (fun u l => (u.proc 1).state = .runnable ∧
      (l = .cpu 0 .go ∨ ∃ k, Candidate k u (u.cpu 0) ∧ touched u l ≠ some k))
    (goes 0 64 ++ goes 1 68 ++ goes 0 2)
    (fun s => s.cpu 1 = .running 0 ∧ (s.proc 1).state = .runnable ∧ (s.cpu 0).scanning = true ∧
      (next 0 s (.cpu 0 .go)).any (fun t => (t.cpu 0).scanning = false) = true)
    (by set_option maxRecDepth 100000 in decide +kernel)
  obtain ⟨t, ht, hc⟩ := (Option.any_eq_true _ _).1 hn
  -- the sections of CPU 0 itself are not restricted
  have hspares : ∀ (u : World (Fin 2)), Spares 0 u (.cpu 0 .go) := fun u hne => absurd rfl (hne .go)
  have hr' : Reach (next 0) (fun u l => (u.proc 1).state = .runnable ∧ Spares 0 u l)
      (Begins 0 (0 : Fin 2)) s := by
    refine hr.mono fun u l hl => ⟨hl.1, ?_⟩
    rcases hl.2 with rfl | hleft
    · exact hspares u
    · exact fun _ _ => hleft
  exact ⟨s, t, hr', hother, hs, hscan, ht,
    (reachable_iteration_dispatches hr' hs (hspares s) ht hscan).2 (of_decide_eq_true hc)⟩

/-- CPU 0 finds priority 5 in its first pass, CPU 1 takes the process that has it, and CPU 0 ends
in `wfi` with the first process `RUNNABLE` all the time. -/
theorem iteration_idles : ∃ t,
    Reach (next 0) (fun u _ => (u.proc 0).state = .runnable) (Begins 0 (0 : Fin 2)) t ∧
      (t.proc 0).state = .runnable ∧ t.cpu 0 = .wfi ∧ t.cur 0 = none := by
  obtain ⟨t, hr, h⟩ := waiting_exists twoWaiting (fun u _ => (u.proc 0).state = .runnable)
    (goes 0 64 ++ goes 1 69 ++ goes 0 66)
    (fun t => (t.proc 0).state = .runnable ∧ t.cpu 0 = .wfi ∧ t.cur 0 = none)
    (by set_option maxRecDepth 100000 in decide +kernel)
  exact ⟨t, hr, h⟩

end G9OS.Smp
