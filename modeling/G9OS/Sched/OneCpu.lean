import G9OS.Sched.Iteration

/-! # One CPU

On one CPU the scheduler runs only while no process does, and then dispatches the process
that its iteration finds. Clock and device interrupts come in on the process that runs,
or on the idle scheduler. To each slot a step is a dispatch, a tick, a claim by `allocproc`,
or it starts nothing and leaves the clock counters alone.
-/

namespace G9OS.Sched

open Lib Kernel

/-- `me` is what `myproc()` returns in an interrupt handler. -/
def Current (s : State) (me : Option (Fin NPROC)) : Prop :=
  ∀ i, me = some i ↔ (s.proc i).state = .running

def OneCpu (s : State) : Op → Prop
  | .dispatch p => (∀ i, (s.proc i).state ≠ .running) ∧ (schedule s).1 = some p
  | .wakeup me _ | .clock me => Current s me
  | _ => True

instance (s : State) (me : Option (Fin NPROC)) : Decidable (Current s me) :=
  inferInstanceAs (Decidable (∀ _, _))

instance (s : State) (op : Op) : Decidable (OneCpu s op) :=
  match op with
  | .dispatch _ => inferInstanceAs (Decidable (_ ∧ _))
  | .wakeup me _ | .clock me => inferInstanceAs (Decidable (Current s me))
  | .fork _ | .exit _ _ | .wait _ _ | .waitStat _ _ _ _ | .exec _ _ _ _ | .sbrk _ _ _
  | .pageFault _ _ | .shmOpen _ _ _ | .shmClose _ _ | .setpriority _ _ _ | .kill _ _
  | .fdalloc _ _ | .close _ _ | .sleep _ _ | .resume _ | .yield _ =>
      inferInstanceAs (Decidable True)

def setsPriority : Op → Bool
  | .setpriority _ _ _ => true
  | _ => false

/-- The process that an iteration finds is the first one in the scheduler's order. -/
theorem schedule_first {s : State} {p : Fin NPROC} (h : (schedule s).1 = some p) : First s p := by
  unfold schedule at h
  split at h
  · rename_i hb
    cases hf : firstMatch s (bestPri s) with
    | none => simp [hf] at h
    | some q =>
        simp only [hf, Option.some_inj] at h
        subst h
        exact (firstMatch_eq_some_iff hb).1 hf
  · cases h

/-! ## What a step does to one slot -/

/-- The slot starts no process, keeps its clock counters, and nobody but its own process sleeps.
If the step is no `setpriority`, the slot keeps its priority. -/
structure Kept (ranked : Prop) (q q' : Proc) : Prop where
  running : q'.state = .running → q.state = .running
  unused : q.state = .unused → q'.state = .unused
  rtime : q'.rtime = q.rtime
  stime : q'.stime = q.stime
  chan : q'.chan = q.chan ∨ q'.chan = .null ∨ q.state = .running
  priority : ranked → q'.priority = q.priority

inductive Turn (i : Fin NPROC) (q : Proc) : Op → Proc → Prop
  | kept {op : Op} {q' : Proc} : Kept (setsPriority op = false) q q' → Turn i q op q'
  | claimed {op : Op} {q' : Proc} : q.state = .unused → q'.state ≠ .running → q'.rtime = 0 →
      q'.stime = 0 → q'.chan = .null → Turn i q op q'
  | dispatched : q.state = .runnable → Turn i q (.dispatch i) { q with state := .running }
  | ticked {me : Option (Fin NPROC)} : Turn i q (.clock me) (tickProc (wakeProc me .ticks i q))

variable {ranked : Prop}

theorem Kept.refl (q : Proc) : Kept ranked q q := ⟨id, id, rfl, rfl, .inl rfl, fun _ => rfl⟩

theorem Kept.trans {q q' q'' : Proc} (h : Kept ranked q q') (h' : Kept ranked q' q'') :
    Kept ranked q q'' := by
  refine ⟨fun hr => h.running (h'.running hr), fun hu => h'.unused (h.unused hu),
    h'.rtime.trans h.rtime, h'.stime.trans h.stime, ?_,
    fun hp => (h'.priority hp).trans (h.priority hp)⟩
  rcases h'.chan with hc | hc | hc
  · rw [hc]
    exact h.chan
  · exact .inr (.inl hc)
  · exact .inr (.inr (h.running hc))

theorem Kept.own {q q' : Proc} (hrun : q.state = .running) (hr : q'.rtime = q.rtime)
    (hs : q'.stime = q.stime) (hp : q'.priority = q.priority) : Kept ranked q q' := by
  refine ⟨fun _ => hrun, fun hu => ?_, hr, hs, .inr (.inr hrun), fun _ => hp⟩
  cases hrun.symm.trans hu

theorem wakeProc_kept (me : Option (Fin NPROC)) (chan : Chan) (i : Fin NPROC) (q : Proc) :
    Kept ranked q (wakeProc me chan i q) := by
  unfold wakeProc
  split
  · rename_i hw
    refine ⟨nofun, fun hu => ?_, rfl, rfl, .inl rfl, fun _ => rfl⟩
    cases hw.2.1.symm.trans hu
  · exact Kept.refl q

theorem tickProc_chan (q : Proc) : (tickProc q).chan = q.chan := by
  unfold tickProc
  split <;> rfl

/-- A slot whose process was not running cannot run afterwards, a free one is not taken. -/
theorem Kept.modProc {s : State} {j : Fin NPROC} {f : Proc → Proc}
    (h : Kept ranked (s.proc j) (f (s.proc j))) (i : Fin NPROC) :
    Kept ranked (s.proc i) ((s.modProc j f).proc i) := by
  by_cases hi : i = j
  · subst hi
    rwa [modProc_self]
  · rw [modProc_of_ne _ _ _ hi]
    exact Kept.refl _

theorem reparent_kept (s : State) (p i : Fin NPROC) :
    Kept ranked (s.proc i) ((reparent s p).proc i) := by
  unfold reparent
  generalize List.finRange NPROC = slots
  induction slots generalizing s with
  | nil => exact Kept.refl _
  | cons pp rest ih =>
      rw [List.foldl_cons]
      refine Kept.trans ?_ (ih _)
      split
      · exact (Kept.modProc ⟨id, id, rfl, rfl, .inl rfl, fun _ => rfl⟩ i).trans
          (wakeProc_kept _ _ _ _)
      · exact Kept.refl _

variable {s t : State} {op : Op} {p i : Fin NPROC}

theorem kexit_kept {status : Int} (hrun : (s.proc p).state = .running)
    (h : kexit s p status = .ok t) (i : Fin NPROC) : Kept ranked (s.proc i) (t.proc i) := by
  unfold kexit at h
  split at h
  · cases h
  · cases h
    set s0 := s.modProc p fun q => { q with ofile := fun _ => none, cwd := none } with hs0
    have h0 : ∀ i, Kept ranked (s.proc i) (s0.proc i) := Kept.modProc (Kept.own hrun rfl rfl rfl)
    have h1 : ∀ i, Kept ranked (s.proc i) ((wakeup (reparent s0 p) (some p)
        (parentChan ((reparent s0 p).proc p).parent)).proc i) := fun i =>
      ((h0 i).trans (reparent_kept s0 p i)).trans (wakeProc_kept _ _ _ _)
    by_cases hi : i = p
    · subst hi
      rw [modProc_self]
      refine ⟨fun _ => hrun, fun hu => ?_, (h1 i).rtime, (h1 i).stime, .inr (.inr hrun), ?_⟩
      · cases hrun.symm.trans hu
      · exact (h1 i).priority
    · rw [modProc_of_ne _ _ _ hi]
      exact h1 i

theorem setpriority_kept (s : State) (pid priority : Int) (i : Fin NPROC) :
    Kept False (s.proc i) ((setpriority s pid priority).2.proc i) := by
  unfold setpriority
  split
  · exact Kept.refl _
  · split
    · exact Kept.refl _
    · dsimp only
      exact Kept.modProc ⟨id, id, rfl, rfl, .inl rfl, False.elim⟩ i

theorem kkill_kept (s : State) (pid : Int) (i : Fin NPROC) :
    Kept ranked (s.proc i) ((kkill s pid).2.proc i) := by
  unfold kkill
  split
  · exact Kept.refl _
  · rename_i j _
    dsimp only
    refine Kept.modProc ⟨fun hr => ?_, fun hu => ?_, rfl, rfl, .inl rfl, fun _ => rfl⟩ i
    · by_cases hsl : (s.proc j).state = .sleeping
      · simp [hsl] at hr
      · simpa [hsl] using hr
    · simp [hu]

theorem kept_own (hothers : ∀ i, i ≠ p → t.proc i = s.proc i) (hrun : (s.proc p).state = .running)
    (hr : (t.proc p).rtime = (s.proc p).rtime) (hst : (t.proc p).stime = (s.proc p).stime)
    (hp : (t.proc p).priority = (s.proc p).priority) (i : Fin NPROC) :
    Kept ranked (s.proc i) (t.proc i) := by
  by_cases hi : i = p
  · subst hi
    exact Kept.own hrun hr hst hp
  · rw [hothers i hi]
    exact Kept.refl _

theorem setSpace_kept (hrun : (s.proc p).state = .running) (pt : PageTable) (m : Kmem)
    (i : Fin NPROC) : Kept ranked (s.proc i) ((s.setSpace p pt m).proc i) := by
  refine kept_own (fun j hj => setSpace_of_ne _ _ _ _ hj) hrun ?_ ?_ ?_ i
  all_goals rw [setSpace_self]

theorem setSpace_modProc_kept {pt : PageTable} {m : Kmem} {f : Proc → Proc}
    (hrun : (s.proc p).state = .running) (ht : t = (s.setSpace p pt m).modProc p f)
    (hr : ∀ q, (f q).rtime = q.rtime) (hst : ∀ q, (f q).stime = q.stime)
    (hp : ∀ q, (f q).priority = q.priority) (i : Fin NPROC) :
    Kept ranked (s.proc i) (t.proc i) := by
  rw [ht]
  refine kept_own (fun j hj => setSpace_modProc_of_ne _ _ _ _ _ hj) hrun ?_ ?_ ?_ i
  · rw [modProc_self, hr, setSpace_self]
  · rw [modProc_self, hst, setSpace_self]
  · rw [modProc_self, hp, setSpace_self]

/-- `allocproc` writes to a free slot, whatever becomes of it. -/
theorem bump_turn {j : Fin NPROC} {m : Kmem} {f : Proc → Proc} (hj : (s.proc j).state = .unused)
    (hf : ∀ q, (f q).state ≠ .running ∧ (f q).rtime = 0 ∧ (f q).stime = 0)
    (hchan : (f (s.proc j)).chan = .null) (i : Fin NPROC) :
    Turn i (s.proc i) op (((s.bump m).modProc j f).proc i) := by
  by_cases hi : i = j
  · subst hi
    rw [modProc_self]
    exact .claimed hj (hf _).1 (hf _).2.1 (hf _).2.2 hchan
  · rw [modProc_of_ne _ _ _ hi]
    exact .kept (Kept.refl _)

/-- A process runs after a step only if it ran before or has been dispatched. -/
theorem Turn.running {q q' : Proc} (h : Turn i q op q') (hr : q'.state = .running) :
    q.state = .running ∨ op = .dispatch i := by
  cases h with
  | kept hk => exact .inl (hk.running hr)
  | claimed _ hne => exact absurd hr hne
  | dispatched => exact .inr rfl
  | ticked =>
      rw [tickProc_state] at hr
      exact .inl ((@wakeProc_kept True _ _ _ _).running hr)

theorem Turn.priority {q q' : Proc} (h : Turn i q op q') (hset : setsPriority op = false)
    (hq : q.state ≠ .unused) : q'.priority = q.priority := by
  cases h with
  | kept hk => exact hk.priority hset
  | claimed hu => exact absurd hu hq
  | dispatched => rfl
  | ticked =>
      unfold tickProc
      split <;> exact (@wakeProc_kept True _ _ _ _).priority trivial

variable [Link]

theorem waitTurn_kept (hs : Tidy s) (hrun : (s.proc p).state = .running) {addrs : List Nat}
    {r : Option Int} (h : waitTurn s p addrs = .ok (r, t)) (i : Fin NPROC) :
    Kept ranked (s.proc i) (t.proc i) := by
  rcases waitTurn_cases h with (rfl | rfl) | ⟨c, own, own', m, ok, hz, ho, hc, hend⟩
  · exact Kept.modProc (Kept.own hrun rfl rfl rfl) i
  · exact Kept.modProc (Kept.own hrun rfl rfl rfl) i
  · have hw : ∀ i, Kept ranked (s.proc i) (((s.modProc p awake).setSpace p own' m).proc i) := by
      refine kept_own (fun j hj => ?_) hrun ?_ ?_ ?_
      · rw [setSpace_of_ne _ _ _ _ hj, modProc_of_ne _ _ _ hj]
      all_goals
        rw [setSpace_self, modProc_self]
        rfl
    rcases hend with ⟨-, rfl⟩ | ⟨-, hf⟩
    · exact hw i
    · have hcp := zombieChild_ne hrun hz
      obtain ⟨R, he⟩ := copyouts_spec hc
      have hg : Grows s p (waitedState s p own' m) := Grows.waited ho he
      have hsz : (((s.modProc p awake).setSpace p own' m).proc c).sz ≤ TRAPFRAME := by
        rw [← waitedState, hg.others c hcp]
        exact (hs c).sz_le
      obtain ⟨m', rfl, -, -⟩ := freeproc_spec hsz hf
      refine (hw i).trans (Kept.modProc
        ⟨fun hr => ?_, fun _ => rfl, rfl, rfl, .inr (.inl rfl), fun _ => rfl⟩ i)
      cases hr

theorem run_turn (hs : Tidy s) (he : Enabled s op) (h : run s op = .ok t)
    (i : Fin NPROC) : Turn i (s.proc i) op (t.proc i) := by
  cases op with
  | fork p =>
      have hrun : (s.proc p).state = .running := he.1.1
      obtain ⟨⟨r, t'⟩, hf, rfl⟩ := map_ok.1 h
      rcases kfork_cases hs (by simp [hrun]) hf with rfl | ⟨j, m, hj, -, rfl⟩ |
        ⟨j, tf, pt, m, hj, -, -, rfl⟩
      · exact .kept (Kept.refl _)
      · dsimp only
        refine bump_turn (unusedSlot_unused hj) (fun q => ⟨fun hr => ?_, rfl, rfl⟩) rfl i
        cases hr
      · dsimp only
        refine bump_turn (unusedSlot_unused hj) (fun q => ⟨fun hr => ?_, rfl, rfl⟩) ?_ i
        · cases hr
        · exact (hs j).noChan (unusedSlot_unused hj)
  | exit p status => exact .kept (kexit_kept he.1.1 h i)
  | wait p addr =>
      obtain ⟨⟨r, t'⟩, hf, rfl⟩ := map_ok.1 h
      exact .kept (waitTurn_kept hs he.1 hf i)
  | waitStat p wtime rtime status =>
      obtain ⟨⟨r, t'⟩, hf, rfl⟩ := map_ok.1 h
      exact .kept (waitTurn_kept hs he.1 hf i)
  | exec p file argv name =>
      obtain ⟨⟨r, t'⟩, hf, rfl⟩ := map_ok.1 h
      rcases kexec_cases hf with ⟨-, own, m, rfl⟩ | ⟨_, _, _, _, _, _, _, _, _, -, -, -, -, -, -, -, ht⟩
      · exact .kept (setSpace_kept he.1.1 _ _ i)
      · exact .kept (setSpace_modProc_kept he.1.1 ht (fun _ => rfl) (fun _ => rfl) (fun _ => rfl) i)
  | sbrk p n ty =>
      obtain ⟨⟨r, t'⟩, hf, rfl⟩ := map_ok.1 h
      rcases sysSbrk_cases hs hf with rfl | ⟨sz, -, rfl⟩ | ⟨_, _, _, -, -, ht⟩ |
        ⟨-, _, _, _, -, -, -, -, ht⟩
      · exact .kept (Kept.refl _)
      · dsimp only
        exact .kept (Kept.modProc (Kept.own he.1.1 rfl rfl rfl) i)
      · exact .kept (setSpace_modProc_kept he.1.1 ht (fun _ => rfl) (fun _ => rfl) (fun _ => rfl) i)
      · exact .kept (setSpace_modProc_kept he.1.1 ht (fun _ => rfl) (fun _ => rfl) (fun _ => rfl) i)
  | pageFault p va =>
      obtain ⟨-, _, _, _, ht⟩ := pageFault_cases h
      exact .kept (setSpace_modProc_kept he.1 ht (fun _ => rfl) (fun _ => rfl) (fun _ => rfl) i)
  | shmOpen p key size =>
      obtain ⟨⟨r, t'⟩, hf, rfl⟩ := map_ok.1 h
      have hrun : (s.proc p).state = .running := he.1.1
      rcases shmOpen_cases hf with ⟨-, rfl, -⟩ | ⟨-, -, -, hg⟩ | ⟨r, s1, -, -, hg, ha⟩
      · exact .kept (Kept.refl _)
      · rw [(shmGet_made hg).proc]
        exact .kept (Kept.refl _)
      · rw [← (shmGet_made hg).proc] at hrun ⊢
        rcases shmAttach_cases ha with ⟨_, -, -, rfl⟩ | ⟨-, -, rfl | ⟨_, own, m, -, -, rfl⟩⟩ |
          ⟨pslot, pt, pt', m, -, -, -, rfl⟩
        · exact .kept (Kept.refl _)
        · exact .kept (Kept.refl _)
        · exact .kept (setSpace_kept hrun _ _ i)
        · refine .kept (kept_own (attachedState_others _ p r key pslot pt' m) hrun ?_ ?_ ?_ i)
          all_goals rw [attachedState_self]
  | shmClose p key =>
      obtain ⟨⟨r, t'⟩, hf, rfl⟩ := map_ok.1 h
      rcases shmClose_cases hf with ⟨-, rfl⟩ | ⟨pslot, r, pt, pt', m, -, -, hr⟩
      · exact .kept (Kept.refl _)
      · rw [shmRelease_proc hr]
        have ht : detachedState s p pslot pt' m = (s.setSpace p pt' m).modProc p _ := rfl
        exact .kept (setSpace_modProc_kept he.1.1 ht (fun _ => rfl) (fun _ => rfl) (fun _ => rfl) i)
  | setpriority p pid priority =>
      cases h
      have hk := setpriority_kept s pid priority i
      exact .kept { hk with priority := nofun }
  | kill p pid =>
      cases h
      exact .kept (kkill_kept s pid i)
  | fdalloc p file =>
      cases h
      refine .kept (Kept.modProc (Kept.own he.1.1 ?_ ?_ ?_) i)
      all_goals
        unfold fdalloc
        split <;> rfl
  | close | sleep =>
      cases h
      exact .kept (Kept.modProc (Kept.own he.1.1 rfl rfl rfl) i)
  | resume | yield =>
      cases h
      exact .kept (Kept.modProc (Kept.own he.1 rfl rfl rfl) i)
  | dispatch p =>
      cases h
      by_cases hi : i = p
      · subst hi
        rw [modProc_self]
        exact .dispatched he
      · rw [modProc_of_ne _ _ _ hi]
        exact .kept (Kept.refl _)
  | wakeup me chan =>
      cases h
      exact .kept (wakeProc_kept me chan i _)
  | clock me =>
      cases h
      exact .ticked

/-! ## Runs -/

theorem booted_alone (h : Booted s) : ∃ p, (∀ i, i ≠ p → s.proc i = {}) ∧
    (s.proc p).state = .running ∧ (s.proc p).rtime = 0 ∧ (s.proc p).stime = 0 := by
  obtain ⟨m, init, argv, -, hb⟩ := h
  obtain ⟨s0, p, tf, pt, -, -, -, -, hothers, -, -, -, -, hp, ⟨argc, hk⟩, -⟩ := boot_steps hb
  have hstep : (∀ i, i ≠ p → s.proc i = s0.proc i) ∧ (s.proc p).state = (s0.proc p).state ∧
      (s.proc p).rtime = (s0.proc p).rtime ∧ (s.proc p).stime = (s0.proc p).stime := by
    rcases kexec_cases hk with ⟨-, own, m, rfl⟩ | ⟨_, _, _, _, _, _, _, _, _, -, -, -, -, -, -, -, rfl⟩
    · refine ⟨fun i hi => setSpace_of_ne _ _ _ _ hi, ?_⟩
      rw [setSpace_self]
      exact ⟨rfl, rfl, rfl⟩
    · refine ⟨fun i hi => setSpace_modProc_of_ne _ _ _ _ _ hi, ?_⟩
      rw [modProc_self, setSpace_self]
      exact ⟨rfl, rfl, rfl⟩
  obtain ⟨ho, h1, h2, h3⟩ := hstep
  refine ⟨p, fun i hi => (ho i hi).trans (hothers i hi), ?_⟩
  rw [h1, h2, h3, hp]
  exact ⟨rfl, rfl, rfl⟩

def Single (s : State) : Prop :=
  ∀ i j, (s.proc i).state = .running → (s.proc j).state = .running → i = j

theorem Single.step (h : Single s) (hs : Tidy s) (hok : OneCpu s op)
    (hn : next s op = some t) : Single t := by
  have hturn : ∀ i, (t.proc i).state = .running → (s.proc i).state = .running ∨ op = .dispatch i :=
    fun i => (run_turn hs (next_some hn).1 (next_some hn).2 i).running
  intro i j hi hj
  rcases hturn i hi with hi' | rfl
  · rcases hturn j hj with hj' | rfl
    · exact h i j hi' hj'
    · exact absurd hi' (hok.1 i)
  · rcases hturn j hj with hj' | hop
    · exact absurd hj' (hok.1 j)
    · cases hop
      rfl

end G9OS.Sched
