import G9OS.Kernel.Freeing
import G9OS.Mutex.OneCpu

/-! # Waiting for a mutex on one CPU

A process that finds a mutex taken yields and stays `RUNNABLE`. If the scheduler prefers it to
`h`, then `h` is dispatched only when the mutex has been given up. If none of the processes that
stand in the way of `h` waits for a mutex that is taken, they can get their mutexes one after the
other, give them back and leave the CPU.
-/

namespace G9OS.Mutex

open Lib Kernel Sched

/-- The mutex that a process inside `mutex_lock` does not have yet. -/
def Pc.wants : Pc → Option (Fin MAX_MUTEXES)
  | .lockValid k | .lockTry k => some k
  | _ => none

abbrev Waits (x : Sys) (q : Fin NPROC) (k : Fin MAX_MUTEXES) : Prop :=
  (x.mutex.pc q).wants = some k ∧ (x.mutex.table k).locked ≠ 0

/-- A process that stands in the way of `h`. -/
abbrev Rival (x : Sys) (h q : Fin NPROC) : Prop :=
  q ≠ h ∧ Ran (x.kernel.proc q) ∧ Before x.kernel q h

/-- No process that has been killed takes a mutex that another one behind it wants. -/
abbrev Fair (x : Sys) (h : Fin NPROC) : Prop :=
  ∀ v w k, Rival x h v → Rival x h w → v ≠ w → Before x.kernel v w →
    (x.mutex.pc v).wants = some k → (x.mutex.pc w).wants = some k → (x.kernel.proc v).killed = 0

/-- Process `q` can free its child `c` without a panic. -/
def Frees [Link] (s : State) (q c : Fin NPROC) : Prop :=
  (s.proc q).pagetable ≠ none ∧ ∃ t, freeproc s c = .ok t

/-- The wait calls that go on in front of `h` free exited children without a panic. -/
def Reaps [Link] (x : Sys) (h : Fin NPROC) : Prop :=
  ∀ q c, Rival x h q ∨ (x.kernel.proc q).state = .running → (x.kernel.proc q).chan = .proc q →
    (x.kernel.proc c).parent = some q → (x.kernel.proc c).state = .zombie → Frees x.kernel q c

/-- Some continuation dispatches `h`. -/
def Dispatchable [Link] (ok : Sys → Event → Prop) (x : Sys) (h : Fin NPROC) : Prop :=
  ∃ y z, Reach Sys.next ok (· = x) y ∧ ok y (.kernel (.dispatch h)) ∧
    y.next (.kernel (.dispatch h)) = some z

/-! ## The end of a call -/

/-- How far a process is from the end of its call if it finds the mutex unlocked. -/
def Pc.left : Pc → Nat
  | .idle => 0
  | .initScan k => MAX_MUTEXES - k + 4
  | .initValid _ => 3
  | .initLocked _ => 2
  | .initOwner _ => 1
  | .lockValid _ => 3
  | .lockTry _ => 2
  | .lockOwner _ => 1
  | .unlockValid _ => 4
  | .unlockOwner _ => 3
  | .unlockClear _ => 2
  | .unlockRelease _ => 1

section
variable {m m' : MState (Fin NPROC)} {p q : Fin NPROC} {n : Int} {k : Fin MAX_MUTEXES}

theorem access_left (hidle : m.pc p ≠ .idle)
    (hfree : ∀ i, (m.pc p).wants = some i → (m.table i).locked = 0) :
    ∃ m', access n m p = some m' ∧ (m'.pc p).left < (m.pc p).left ∧
      ∀ i, (m'.pc p).wants = some i → (m.pc p).wants = some i ∧ (m'.table i).locked = 0 := by
  unfold access
  cases hpc : m.pc p with
  | idle => exact absurd hpc hidle
  | initScan k =>
      dsimp only
      split
      · split
        · refine ⟨_, rfl, ?_⟩
          simp [MState.go_pc, Pc.wants, Pc.left]
        · refine ⟨_, rfl, ?_⟩
          simp [MState.go_pc, Pc.wants, Pc.left]
          omega
      · refine ⟨_, rfl, ?_⟩
        simp [MState.finish_pc, Pc.wants, Pc.left]
  | lockValid k =>
      have hk := hfree k (by rw [hpc]; rfl)
      dsimp only
      split
      · refine ⟨_, rfl, ?_⟩
        simp [MState.finish_pc, Pc.wants, Pc.left]
      · refine ⟨_, rfl, ?_⟩
        simp [MState.go_pc, Pc.wants, Pc.left, hk]
  | lockTry k =>
      have hk := hfree k (by rw [hpc]; rfl)
      refine ⟨_, rfl, ?_⟩
      simp [MState.go_pc, Pc.wants, Pc.left, hk]
  | initValid | initLocked | unlockClear =>
      refine ⟨_, rfl, ?_⟩
      simp [MState.go_pc, Pc.wants, Pc.left]
  | initOwner | lockOwner | unlockRelease =>
      refine ⟨_, rfl, ?_⟩
      simp [MState.finish_pc, Pc.wants, Pc.left]
  | unlockValid | unlockOwner =>
      dsimp only
      split
      · refine ⟨_, rfl, ?_⟩
        simp [MState.go_pc, MState.finish_pc, Pc.wants, Pc.left]
      · refine ⟨_, rfl, ?_⟩
        simp [MState.go_pc, MState.finish_pc, Pc.wants, Pc.left]

/-- A call locks no mutex but the one that it is about, and then writes down its owner. -/
theorem access_locked (h : access n m p = some m') (hl : (m'.table k).locked ≠ 0) :
    (m.table k).locked ≠ 0 ∧
        (m.pc p = .lockOwner k → m'.pc p = .idle ∧ (m'.table k).ownerPid = n) ∨
      m.pc p = .lockTry k ∧ m'.pc p = .lockOwner k := by
  cases access_move h <;>
    simp only [MState.go_pc, MState.finish_pc, MState.go_table, MState.finish_table,
      MState.setHeld_table, MState.store_table] at hl ⊢ <;>
    grind

end

section
variable [Link] {x y z : Sys} {h p q w : Fin NPROC} {k : Fin MAX_MUTEXES}

/-- The mutex calls of `p` have led from `m` to `m'`, where `p` is outside of them. -/
structure Ends (m m' : MState (Fin NPROC)) (p : Fin NPROC) : Prop where
  idle : m'.pc p = .idle
  others : ∀ r, r ≠ p → m'.pc r = m.pc r

omit [Link] in
theorem Ends.trans {m m' m'' : MState (Fin NPROC)} (h : Ends m m' p) (h' : Ends m' m'' p) :
    Ends m m'' p :=
  ⟨h'.idle, fun r hr => (h'.others r hr).trans (h.others r hr)⟩

theorem steps_on {m m' : MState (Fin NPROC)} (hrun : InUser (x.kernel.proc p))
    (hacc : access (x.pid p) m p = some m') (hspin : spins m (.step p) = false) :
    Reach Sys.next Continues (· = ⟨x.kernel, m⟩) ⟨x.kernel, m'⟩ := by
  refine goes_on (.mutex (.step p)) trivial rfl ?_
  have hmay : MayAct x.kernel (.step p) := hrun
  have hacc' : access (Sys.pid ⟨x.kernel, m⟩ p) m p = some m' := hacc
  simp only [Sys.next, if_pos hmay, Mutex.next, hacc', Option.bind_some, hspin,
    Bool.false_eq_true, if_false]

/-- Process `p` is on its way to the end of the call that it is in at `x`. -/
structure Ending (x : Sys) (p : Fin NPROC) (y : Sys) : Prop where
  kernel : y.kernel = x.kernel
  free : ∀ i, (y.mutex.pc p).wants = some i →
    (x.mutex.pc p).wants = some i ∧ (y.mutex.table i).locked = 0
  others : ∀ r, r ≠ p → y.mutex.pc r = x.mutex.pc r
  locked : ∀ k, (y.mutex.table k).locked ≠ 0 → (x.mutex.table k).locked ≠ 0 ∨
    (x.mutex.pc p).wants = some k ∧ (y.mutex.pc p = .lockOwner k ∨
      y.mutex.pc p = .idle ∧ (y.mutex.table k).ownerPid = x.pid p)

theorem Ending.step (hrun : InUser (x.kernel.proc p)) (hy : Ending x p y)
    (hidle : y.mutex.pc p ≠ .idle) : ∃ z, Reach Sys.next Continues (· = y) z ∧ Ending x p z ∧
      (z.mutex.pc p).left < (y.mutex.pc p).left := by
  obtain ⟨s, m⟩ := y
  obtain ⟨hs, hfree, hothers, hlocked⟩ := hy
  dsimp only at hs hfree hothers hlocked hidle ⊢
  subst hs
  obtain ⟨m', hacc, hlt, hfree'⟩ :=
    access_left (n := x.pid p) hidle fun i hi => (hfree i hi).2
  have hspin : spins m (.step p) = false := by
    simp only [spins]
    split
    · rename_i i hpc
      simp [(hfree i (by rw [hpc]; rfl)).2]
    · rfl
  refine ⟨⟨x.kernel, m'⟩, steps_on hrun hacc hspin, ⟨rfl, fun i hi => ?_, fun r hr => ?_,
    fun k hk => ?_⟩, hlt⟩
  · exact ⟨(hfree i (hfree' i hi).1).1, (hfree' i hi).2⟩
  · exact ((access_move hacc).pc_others hr).trans (hothers r hr)
  · rcases access_locked hacc hk with ⟨hl, hown⟩ | ⟨htry, hpc⟩
    · refine (hlocked k hl).imp id fun ht => ⟨ht.1, .inr (hown ?_)⟩
      exact ht.2.resolve_right fun hi => hidle hi.1
    · exact .inr ⟨(hfree k (by rw [htry]; rfl)).1, .inl hpc⟩

/-- A running process that need not wait can end the call it is in. -/
theorem ends_call (hrun : InUser (x.kernel.proc p)) (hgo : ∀ k, ¬ Waits x p k) :
    ∃ m, Reach Sys.next Continues (· = x) ⟨x.kernel, m⟩ ∧ Ends x.mutex m p ∧
      ∀ k, (m.table k).locked ≠ 0 → (x.mutex.table k).locked ≠ 0 ∨
        (x.mutex.pc p).wants = some k ∧ (m.table k).ownerPid = x.pid p := by
  have hstart : Ending x p x :=
    ⟨rfl, fun i hi => ⟨hi, not_not.1 fun hl => hgo i ⟨hi, hl⟩⟩, fun _ _ => rfl, fun _ => .inl⟩
  obtain ⟨⟨s, m⟩, hreach, hend, hidle⟩ := exists_reach_of_rank (Ending x p)
    (fun y => y.mutex.pc p = .idle) (fun y => (y.mutex.pc p).left)
    (fun y hy => or_iff_not_imp_left.2 fun hidle => hy.step hrun hidle) hstart
  have hs := hend.kernel
  dsimp only at hs hidle
  subst hs
  refine ⟨m, hreach, ⟨hidle, hend.others⟩, fun k hk => ?_⟩
  refine (hend.locked k hk).imp id fun ht => ⟨ht.1, ?_⟩
  rcases ht.2 with hpc | hown
  · cases hidle.symm.trans hpc
  · exact hown.2

/-- A process that may make system calls gives up a mutex that it has. -/
theorem gives_up (hcall : MayCall (x.kernel.proc p)) (hidle : x.mutex.pc p = .idle)
    (hvalid : (x.mutex.table k).valid ≠ 0) (hown : (x.mutex.table k).ownerPid = x.pid p) :
    ∃ m, Reach Sys.next Continues (· = x) ⟨x.kernel, m⟩ ∧ Ends x.mutex m p ∧
      (m.table k).locked = 0 ∧ ∀ i, i ≠ k → m.table i = x.mutex.table i := by
  have hcalls : x.next (.mutex (.unlock p k)) =
      some ⟨x.kernel, x.mutex.go p (.unlockValid k)⟩ := by
    have hmay : MayAct x.kernel (.unlock p k) := hcall
    have hslot : slotOf (k : Int) = some k := by
      simp [slotOf]
    simp [Sys.next, hmay, Mutex.next, hidle, enter, hslot, spins]
  have hstep : ∀ {m m' : MState (Fin NPROC)}, access (x.pid p) m p = some m' →
      (m.pc p).wants = none → Reach Sys.next Continues (· = ⟨x.kernel, m⟩) ⟨x.kernel, m'⟩ := by
    intro m m' hacc hw
    refine steps_on hcall.1 hacc ?_
    cases hpc : m.pc p <;> simp_all [spins, Pc.wants]
  have h1 := (goes_on (.mutex (.unlock p k)) trivial rfl hcalls).trans
    (hstep (by simp [access, MState.go_pc, hvalid]; rfl) (by simp [MState.go_pc, Pc.wants]))
  have h2 := h1.trans (hstep (by simp [access, MState.go_pc, hown]; rfl)
    (by simp [MState.go_pc, Pc.wants]))
  have h3 := h2.trans (hstep (by simp [access, MState.go_pc]; rfl)
    (by simp [MState.go_pc, Pc.wants]))
  have h4 := h3.trans (hstep (by simp [access, MState.go_pc]; rfl)
    (by simp [MState.go_pc, Pc.wants]))
  refine ⟨_, h4, ⟨?_, fun r hr => ?_⟩, ?_, fun i hi => ?_⟩
  · simp [MState.finish_pc]
  · simp [MState.finish_pc, MState.go_pc, hr]
  · simp [MState.store_table]
  · simp [MState.store_table, hi]

/-- The process keeps the mutex that it takes if it has been killed. -/
def LeftBy (x : Sys) (p : Fin NPROC) (m : MState (Fin NPROC)) : Prop :=
  ∀ k, (m.table k).locked ≠ 0 → (x.mutex.table k).locked ≠ 0 ∨
    (x.mutex.pc p).wants = some k ∧ (x.kernel.proc p).killed ≠ 0

theorem clears (ho : Ordered x) (hrun : InUser (x.kernel.proc p)) (hgo : ∀ k, ¬ Waits x p k) :
    ∃ m, Reach Sys.next Continues (· = x) ⟨x.kernel, m⟩ ∧ Ends x.mutex m p ∧ LeftBy x p m := by
  obtain ⟨m, hm, hends, hlocked⟩ := ends_call hrun hgo
  by_cases hkilled : (x.kernel.proc p).killed = 0
  · by_cases htook : ∃ k, (x.mutex.pc p).wants = some k ∧ (m.table k).locked ≠ 0
    · obtain ⟨k, hwants, hk⟩ := htook
      have hown := ((hlocked k hk).resolve_left fun hl => hgo k ⟨hwants, hl⟩).2
      obtain ⟨m', hm', hends', hfree, hsame⟩ := gives_up (x := ⟨x.kernel, m⟩) ⟨hrun, hkilled⟩
        hends.idle ((ho.reach hm).mutex.locked k hk) hown
      refine ⟨m', hm.trans hm', hends.trans hends', fun i hi => .inl ?_⟩
      have hik : i ≠ k := by
        rintro rfl
        exact hi hfree
      rw [hsame i hik] at hi
      refine (hlocked i hi).resolve_right fun ht => hik ?_
      exact Option.some.inj (ht.1.symm.trans hwants)
    · refine ⟨m, hm, hends, fun k hk => .inl ?_⟩
      exact (hlocked k hk).resolve_right fun ht => htook ⟨k, ht.1, hk⟩
  · exact ⟨m, hm, hends, fun k hk => (hlocked k hk).imp id fun ht => ⟨ht.1, hkilled⟩⟩

/-! ## Leaving the CPU -/

/-- Slot `r` after a turn of `p`, which may have freed a child. -/
def Aside (s t : State) (p r : Fin NPROC) : Prop :=
  t.proc r = s.proc r ∨ (s.proc r).state = .zombie ∧ (s.proc r).parent = some p ∧
    t.proc r = clearSlot (s.proc r)

/-- Process `p` has come back to user space. -/
structure Awake (x y : Sys) (p : Fin NPROC) : Prop where
  others : ∀ r, r ≠ p → Aside x.kernel y.kernel p r
  own : y.kernel.proc p = awake (x.kernel.proc p)
  mutex : y.mutex = x.mutex

/-- Process `p` has left the CPU. -/
structure Turned (x y : Sys) (p : Fin NPROC) : Prop where
  others : ∀ r, r ≠ p → Aside x.kernel y.kernel p r
  asleep : (y.kernel.proc p).state = .sleeping
  ends : Ends x.mutex y.mutex p
  table : LeftBy x p y.mutex

theorem Frees.congr {s t : State} {c : Fin NPROC} (hf : Frees s q c)
    (hq : (t.proc q).pagetable = (s.proc q).pagetable) (hc : t.proc c = s.proc c) :
    Frees t q c := by
  obtain ⟨hpt, u, hu⟩ := hf
  exact ⟨by rwa [hq], freeproc_any hu hc⟩

theorem reaps_child {c : Fin NPROC} {s : State} (hs : Tidy s) (hrun : (s.proc p).state = .running)
    (hz : zombieChild s p = some c) (hf : Frees s p c) :
    ∃ r t, waitTurn s p [0] = .ok (r, t) ∧ t.proc p = awake (s.proc p) ∧
      ∀ r, r ≠ p → Aside s t p r := by
  have hc := (Fin.find?_eq_some_iff.1 hz).1
  simp only [decide_eq_true_eq] at hc
  have hcp := zombieChild_ne hrun hz
  obtain ⟨own, hown⟩ := Option.ne_none_iff_exists'.1 hf.1
  set u := (s.modProc p awake).setSpace p own s.kmem with hu
  have hother : ∀ r, r ≠ p → u.proc r = s.proc r := fun r hr => by
    rw [hu, setSpace_of_ne _ _ _ _ hr, modProc_of_ne _ _ _ hr]
  have hself : u.proc p = awake (s.proc p) := by
    rw [hu, setSpace_self, modProc_self]
    simp [awake, hown]
  obtain ⟨-, t, ht⟩ : Frees u p c := hf.congr (by rw [hself]; rfl) (hother c hcp)
  obtain ⟨m, rfl, -⟩ := freeproc_spec (by rw [hother c hcp]; exact (hs c).sz_le) ht
  refine ⟨some (((s.modProc p awake).proc c).pid), (u.setKmem m).modProc c clearSlot, ?_, ?_,
    fun r hr => ?_⟩
  · have hpt : ((s.modProc p awake).proc p).pagetable = some own := by
      rw [modProc_self]
      exact hown
    unfold waitTurn
    rw [hz]
    dsimp only
    unfold reapChild
    rw [hpt]
    exact bind_ok.2 ⟨(true, own, s.kmem), rfl, bind_ok.2 ⟨_, ht, rfl⟩⟩
  · rw [modProc_of_ne _ _ _ hcp.symm]
    exact hself
  · by_cases hrc : r = c
    · subst hrc
      refine .inr ⟨hc.2, hc.1, ?_⟩
      rw [modProc_self]
      exact congrArg clearSlot (hother r hr)
    · refine .inl ?_
      rw [modProc_of_ne _ _ _ hrc]
      exact hother r hr

theorem leaves_sleep (ho : Ordered x) (hrun : (x.kernel.proc p).state = .running)
    (hreap : ∀ c, (x.kernel.proc p).chan = .proc p → (x.kernel.proc c).parent = some p →
      (x.kernel.proc c).state = .zombie → Frees x.kernel p c) :
    ∃ y, Reach Sys.next Continues (· = x) y ∧ (Awake x y p ∨ Turned x y p) := by
  by_cases hnull : (x.kernel.proc p).chan = .null
  · exact ⟨x, .start rfl, .inl ⟨fun _ _ => .inl rfl, by simp [awake, ← hnull], rfl⟩⟩
  have hidle : x.mutex.pc p = .idle := by
    by_contra hne
    exact hnull (ho.busy p hne).2
  have hstep : ∀ (op : Op) {s : State}, caller op = some p → Sched.OneCpu x.kernel op →
      Sched.setsPriority op = false → Kernel.next x.kernel op = some s →
      Reach Sys.next Continues (· = x) ⟨s, x.mutex⟩ := by
    intro op s hcall hok hset hn
    refine goes_on (.kernel op) hok hset (Sys.next_of_kernel _ (fun q hq => ?_) hn)
    cases hcall.symm.trans hq
    exact hidle
  have hawake : Awake x ⟨x.kernel.modProc p awake, x.mutex⟩ p :=
    ⟨fun r hr => .inl (modProc_of_ne _ _ _ hr), modProc_self _ _ _, rfl⟩
  by_cases hproc : (x.kernel.proc p).chan = .proc p
  · have hturn : ∀ {r : Option Int} {s : State}, waitTurn x.kernel p [0] = .ok (r, s) →
        Reach Sys.next Continues (· = x) ⟨s, x.mutex⟩ := by
      intro r s hw
      refine hstep (.wait p 0) rfl trivial rfl (next_of_run ⟨hrun, .inr hproc⟩ ?_)
      exact map_ok.2 ⟨_, hw, rfl⟩
    cases hz : zombieChild x.kernel p with
    | some c =>
        have hc := (Fin.find?_eq_some_iff.1 hz).1
        simp only [decide_eq_true_eq] at hc
        obtain ⟨r, t, hw, hself, hothers⟩ := reaps_child ho.tidy hrun hz (hreap c hproc hc.1 hc.2)
        exact ⟨⟨t, x.mutex⟩, hturn hw, .inl ⟨hothers, hself, rfl⟩⟩
    | none =>
        by_cases hkids : havekids x.kernel p = false ∨ (x.kernel.proc p).killed ≠ 0
        · have hw : waitTurn x.kernel p [0] = .ok (some (-1), x.kernel.modProc p awake) := by
            unfold waitTurn
            rw [hz]
            exact if_pos hkids
          exact ⟨_, hturn hw, .inl hawake⟩
        · have hw : waitTurn x.kernel p [0] =
              .ok (none, x.kernel.modProc p (asleep (.proc p))) := by
            unfold waitTurn
            rw [hz]
            exact if_neg hkids
          refine ⟨_, hturn hw, .inr ⟨fun r hr => .inl (modProc_of_ne _ _ _ hr), ?_,
            ⟨hidle, fun _ _ => rfl⟩, fun _ => .inl⟩⟩
          dsimp only
          rw [modProc_self]
          rfl
  · exact ⟨_, hstep (.resume p) rfl trivial rfl (next_of_run ⟨hrun, hproc⟩ rfl), .inl hawake⟩

/-- A running process that need not wait can leave the CPU for good. -/
theorem takes_turn (ho : Ordered x) (hrun : (x.kernel.proc p).state = .running)
    (hgo : ∀ k, ¬ Waits x p k)
    (hreap : ∀ c, (x.kernel.proc p).chan = .proc p → (x.kernel.proc c).parent = some p →
      (x.kernel.proc c).state = .zombie → Frees x.kernel p c) :
    ∃ y, Reach Sys.next Continues (· = x) y ∧ Turned x y p := by
  obtain ⟨y, hy, ha | ht⟩ := leaves_sleep ho hrun hreap
  · obtain ⟨u, m0⟩ := y
    obtain ⟨hothers, hown, rfl⟩ := ha
    dsimp only at hothers hown
    have huser : InUser (u.proc p) := by
      rw [hown]
      exact ⟨hrun, rfl⟩
    have hreach := ho.reach hy
    obtain ⟨m, hm, hends, htable⟩ := clears hreach (p := p) huser hgo
    have hn : Kernel.next u (.sleep p (.other 0)) = some (u.modProc p (asleep (.other 0))) :=
      next_of_run ⟨huser, nofun, nofun⟩ rfl
    have hnext : Sys.next ⟨u, m⟩ (.kernel (.sleep p (.other 0))) =
        some ⟨u.modProc p (asleep (.other 0)), m⟩ := by
      refine Sys.next_of_kernel _ (fun q hq => ?_) hn
      cases hq
      exact hends.idle
    refine ⟨_, (hy.trans hm).trans (goes_on (.kernel (.sleep p (.other 0))) trivial rfl hnext),
      fun r hr => ?_, ?_, hends, fun k hk => ?_⟩
    · rw [Aside, modProc_of_ne _ _ _ hr]
      exact hothers r hr
    · dsimp only
      rw [modProc_self]
      rfl
    · have hkilled : (u.proc p).killed = (x.kernel.proc p).killed := by
        rw [hown]
        rfl
      rw [← hkilled]
      exact htable k hk
  · exact ⟨y, hy, ht⟩

/-! ## Getting the rivals out of the way -/

/-- What holds while the rivals of `h` leave the CPU one after the other. -/
structure Clear (x : Sys) (h : Fin NPROC) : Prop where
  ordered : Ordered x
  runnable : (x.kernel.proc h).state = .runnable
  free : ∀ w k, Rival x h w → ¬ Waits x w k
  fair : Fair x h
  reaps : Reaps x h

section
variable (ht : Turned x y p) (hrun : (x.kernel.proc p).state = .running)
include ht

omit [Link] in
theorem Turned.same (hr : Ran (y.kernel.proc q)) : q ≠ p ∧ y.kernel.proc q = x.kernel.proc q := by
  have hqp : q ≠ p := by
    rintro rfl
    simp [Ran, ht.asleep] at hr
  refine ⟨hqp, (ht.others q hqp).resolve_right fun hz => ?_⟩
  simp [Ran, hz.2.2, clearSlot] at hr

omit [Link] in
theorem Turned.live (hr : Ran (x.kernel.proc q)) (hqp : q ≠ p) :
    y.kernel.proc q = x.kernel.proc q := by
  refine (ht.others q hqp).resolve_right fun hz => ?_
  simp [Ran, hz.1] at hr

include hrun

theorem Clear.turned (hc : Clear x h) (ho : Ordered y) (hph : p ≠ h)
    (hfair : (x.kernel.proc p).killed ≠ 0 → ∀ w k, w ≠ p → Rival x h w →
      (x.mutex.pc p).wants = some k → (x.mutex.pc w).wants ≠ some k) :
    Clear y h ∧ (∀ r, Rival y h r → Rival x h r ∧ r ≠ p) ∧
      ∀ i, (y.kernel.proc i).state ≠ .running := by
  have hh : y.kernel.proc h = x.kernel.proc h := ht.live (.inl hc.runnable) hph.symm
  have hrival : ∀ r, Rival y h r → Rival x h r ∧ r ≠ p := by
    rintro r ⟨hrh, hran, hb⟩
    obtain ⟨hrp, hsame⟩ := ht.same hran
    rw [hsame] at hran
    rw [Before, hsame, hh] at hb
    exact ⟨⟨hrh, hran, hb⟩, hrp⟩
  have hstop : ∀ i, (y.kernel.proc i).state ≠ .running := by
    intro i hi
    obtain ⟨hip, hsame⟩ := ht.same (.inr hi)
    rw [hsame] at hi
    exact hip (hc.ordered.single i p hi hrun)
  refine ⟨⟨ho, by rw [hh]; exact hc.runnable, fun w k hw hwaits => ?_,
    fun v w k hv hw hvw hb hwv hww => ?_, fun q c hq hchan hpar hz => ?_⟩, hrival, hstop⟩
  · obtain ⟨hwx, hwp⟩ := hrival w hw
    obtain ⟨hwants, hlocked⟩ := hwaits
    rw [ht.ends.others w hwp] at hwants
    rcases ht.table k hlocked with hl | ⟨hpk, hkilled⟩
    · exact hc.free w k hwx ⟨hwants, hl⟩
    · exact hfair hkilled w k hwp hwx hpk hwants
  · have hsv := (ht.same hv.2.1).2
    rw [Before, hsv, (ht.same hw.2.1).2] at hb
    rw [ht.ends.others v (hrival v hv).2] at hwv
    rw [ht.ends.others w (hrival w hw).2] at hww
    rw [hsv]
    exact hc.fair v w k (hrival v hv).1 (hrival w hw).1 hvw hb hwv hww
  · have hq := hq.resolve_right (hstop q)
    have hsq := (ht.same hq.2.1).2
    have hcp : c ≠ p := by
      rintro rfl
      cases ht.asleep.symm.trans hz
    have hsc : y.kernel.proc c = x.kernel.proc c := (ht.others c hcp).resolve_right fun hcl => by
      rw [hcl.2.2] at hz
      cases hz
    rw [hsc] at hpar hz
    rw [hsq] at hchan
    exact (hc.reaps q c (.inl (hrival q hq).1) hchan hpar hz).congr (by rw [hsq]) hsc

end

/-- Process `p` gets the CPU or gives it up, and nothing else changes. -/
theorem Clear.switch {st : ProcState} (hc : Clear x h) (ho : Ordered y)
    (hy : y = ⟨x.kernel.modProc p fun q => { q with state := st }, x.mutex⟩)
    (hst : st = .runnable ∨ st = .running) (hp : Ran (x.kernel.proc p)) (hph : p ≠ h)
    (hrival : st = .running → Rival x h p) :
    Clear y h ∧ (∀ r, r ≠ p → y.kernel.proc r = x.kernel.proc r) ∧
      ∀ r, Rival y h r ↔ Rival x h r := by
  have hother : ∀ r, r ≠ p → y.kernel.proc r = x.kernel.proc r := by
    intro r hr
    rw [hy, modProc_of_ne _ _ _ hr]
  have hself : y.kernel.proc p = { x.kernel.proc p with state := st } := by
    rw [hy, modProc_self]
  have hmutex : y.mutex = x.mutex := by rw [hy]
  have hslot : ∀ r, ∃ st, y.kernel.proc r = { x.kernel.proc r with state := st } := by
    intro r
    by_cases hr : r = p
    · rw [hr]
      exact ⟨st, hself⟩
    · exact ⟨_, hother r hr⟩
  have hbefore : ∀ a b, Before y.kernel a b ↔ Before x.kernel a b := by
    intro a b
    obtain ⟨st, ha⟩ := hslot a
    obtain ⟨st', hb⟩ := hslot b
    rw [Before, ha, hb]
    exact Iff.rfl
  have hiff : ∀ r, Rival y h r ↔ Rival x h r := by
    intro r
    rw [Rival, Rival, hbefore]
    by_cases hr : r = p
    · rw [hr, hself]
      simp [Ran, hst, hp]
    · rw [hother r hr]
  refine ⟨⟨ho, ?_, fun w k hw => ?_, fun v w k hv hw hvw hb => ?_, fun q c hq hchan hpar hz => ?_⟩,
    hother, hiff⟩
  · rw [hother h hph.symm]
    exact hc.runnable
  · rw [Waits, hmutex]
    exact hc.free w k ((hiff w).1 hw)
  · obtain ⟨st, hv'⟩ := hslot v
    rw [hmutex, hv']
    exact hc.fair v w k ((hiff v).1 hv) ((hiff w).1 hw) hvw ((hbefore v w).1 hb)
  · have hq' : Rival x h q ∨ (x.kernel.proc q).state = .running := by
      rcases hq with hq | hq
      · exact .inl ((hiff q).1 hq)
      · by_cases hqp : q = p
        · rw [hqp, hself] at hq
          rw [hqp]
          exact .inl (hrival hq)
        · rw [hother q hqp] at hq
          exact .inr hq
    have hcp : c ≠ p := by
      rintro rfl
      rw [hself] at hz
      rcases hst with rfl | rfl <;> cases hz
    obtain ⟨st, hqs⟩ := hslot q
    rw [hother c hcp] at hpar hz
    rw [hqs] at hchan
    exact (hc.reaps q c hq' hchan hpar hz).congr (by rw [hqs]) (hother c hcp)

/-! ## The way to the dispatch -/

/-- The first process takes its turn and is no longer in the way. -/
theorem Clear.first (hc : Clear x h) (hstop : ∀ i, (x.kernel.proc i).state ≠ .running)
    (hp : First x.kernel p) (hsched : (schedule x.kernel).1 = some p) (hph : p ≠ h) :
    ∃ y, Reach Sys.next Continues (· = x) y ∧
      (Clear y h ∧ ∀ i, (y.kernel.proc i).state ≠ .running) ∧
      ∀ r, Rival y h r → Rival x h r ∧ r ≠ p := by
  have hrival : Rival x h p := ⟨hph, .inl hp.1, hp.2 h hc.runnable⟩
  have hn := Sys.next_of_kernel (x := x) (.dispatch p) nofun (next_of_run hp.1 rfl)
  have hok : OneCpu x (.kernel (.dispatch p)) := ⟨hstop, hsched⟩
  have ho := hc.ordered.step hok hn
  have hstart := goes_on _ hok rfl hn
  obtain ⟨hc', hothers, hiff⟩ := hc.switch ho rfl (.inr rfl) hrival.2.1 hph fun _ => hrival
  have hself := modProc_self x.kernel p fun q => { q with state := .running }
  dsimp only at hothers
  generalize x.kernel.modProc p (fun q => { q with state := .running }) = u at *
  have hrun : (u.proc p).state = .running := by rw [hself]
  have hgo := hc.free p
  obtain ⟨y, hy, ht⟩ := takes_turn ho hrun (fun k => hgo k hrival) fun c =>
    hc'.reaps p c (.inr hrun)
  obtain ⟨hcy, hfewer, hstop'⟩ := hc'.turned ht hrun (ho.reach hy) hph
    fun hkilled w k hwp hw hp' hw' => by
      have hb : Before u p w := by
        have hb := hp.2 w (((hiff w).1 hw).2.1.resolve_right (hstop w))
        rwa [Before, hself, hothers w hwp]
      exact hkilled (hc'.fair p w k ((hiff p).2 hrival) hw hwp.symm hb hp' hw')
  refine ⟨y, hstart.trans hy, ⟨hcy, hstop'⟩, fun r hr => ?_⟩
  obtain ⟨hr, hrp⟩ := hfewer r hr
  exact ⟨(hiff r).1 hr, hrp⟩

theorem Clear.idle (hc : Clear x h) (hstop : ∀ i, (x.kernel.proc i).state ≠ .running) :
    Dispatchable Continues x h := by
  have hstep : ∀ x : Sys, (Clear x h ∧ ∀ i, (x.kernel.proc i).state ≠ .running) →
      (schedule x.kernel).1 = some h ∨ ∃ y, Reach Sys.next Continues (· = x) y ∧
        (Clear y h ∧ ∀ i, (y.kernel.proc i).state ≠ .running) ∧
        (Finset.univ.filter (Rival y h)).card < (Finset.univ.filter (Rival x h)).card := by
    rintro x ⟨hc, hstop⟩
    have hpri : ∀ i, (x.kernel.proc i).state = .runnable → (x.kernel.proc i).priority ≤ 20 :=
      fun i hi => ((hc.ordered.tidy i).priority (by rw [hi]; exact nofun)).2
    rcases schedule_spec hpri with ⟨p, hp, hs⟩ | ⟨hno, -⟩
    · have hsched : (schedule x.kernel).1 = some p := by rw [hs]
      by_cases hph : p = h
      · exact .inl (hph ▸ hsched)
      · obtain ⟨y, hy, hcy, hfewer⟩ := hc.first hstop hp hsched hph
        refine .inr ⟨y, hy, hcy, Finset.card_lt_card ?_⟩
        refine (Finset.ssubset_iff_of_subset fun r hr => ?_).2 ⟨p, ?_, fun hr => ?_⟩
        · rw [Finset.mem_filter] at hr ⊢
          exact ⟨hr.1, (hfewer r hr.2).1⟩
        · rw [Finset.mem_filter]
          exact ⟨Finset.mem_univ p, hph, .inl hp.1, hp.2 h hc.runnable⟩
        · exact (hfewer p (Finset.mem_filter.1 hr).2).2 rfl
    · exact absurd hc.runnable (hno h)
  obtain ⟨y, hy, ⟨-, hstopy⟩, hsched⟩ := exists_reach_of_rank _ _ _ hstep ⟨hc, hstop⟩
  exact ⟨y, _, hy, ⟨⟨hstopy, hsched⟩, rfl⟩,
    Sys.next_of_kernel _ nofun (next_of_run (schedule_first hsched).1 rfl)⟩

theorem Dispatchable.after {ok : Sys → Event → Prop} (hy : Reach Sys.next ok (· = x) y)
    (h' : Dispatchable ok y h) : Dispatchable ok x h := by
  obtain ⟨u, v, hu, hok, hv⟩ := h'
  exact ⟨u, v, hy.trans hu, hok, hv⟩

end

end G9OS.Mutex
