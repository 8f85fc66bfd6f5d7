import G9OS.Mutex.Progress

/-! # Starvation by a process that waits

If all processes that could give up a mutex come after one that waits for it, the scheduler takes
the waiting one again and again, and it always finds the mutex locked.
-/

namespace G9OS.Mutex

open Lib Kernel Sched

/-- A process at this place is about to change who has mutex `k`. -/
def Pc.changes (k : Fin MAX_MUTEXES) : Pc → Bool
  | .initValid i | .initLocked i | .initOwner i | .lockOwner i | .unlockClear i
  | .unlockRelease i => i = k
  | _ => false

/-- Process `a` is the recorded owner of mutex `k`, or is about to change who has it. -/
def Touches (x : Sys) (a : Fin NPROC) (k : Fin MAX_MUTEXES) : Prop :=
  (x.kernel.proc a).Live ∧ (x.mutex.table k).ownerPid = x.pid a ∨
    (x.mutex.pc a).changes k = true

/-- Process `a` comes after `w`, and does not run unless it waits for a mutex too. -/
def Behind (x : Sys) (w a : Fin NPROC) : Prop :=
  Before x.kernel w a ∧ ((x.kernel.proc a).state = .running → ∃ j, Waits x a j)

/-- Process `w` waits for mutex `k`. Neither `h` nor a process that could give the mutex up gets the
CPU before `w` and, if `alone`, no process does. -/
structure Jam (alone : Prop) (x : Sys) (w h : Fin NPROC) (k : Fin MAX_MUTEXES) : Prop where
  waits : Waits x w k
  live : (x.kernel.proc h).Live
  behind : ∀ a, a ≠ w → a = h ∨ Touches x a k ∨ alone ∧ (x.kernel.proc a).Live → Behind x w a

section
variable {s t : MState (Fin NPROC)} {p : Fin NPROC} {n : Int} {j k : Fin MAX_MUTEXES}

/-- A process that waits changes nothing. -/
theorem Move.waiting (h : Move n s p t) (hs : LockedValid s) (hw : (s.pc p).wants = some j)
    (hl : (s.table j).locked ≠ 0) : (t.pc p).wants = some j ∧
      ∀ i, (t.table i).ownerPid = (s.table i).ownerPid ∧
        ((s.table i).locked ≠ 0 → (t.table i).locked ≠ 0) := by
  have hv := hs.locked j hl
  cases h <;> simp_all [Pc.wants, MState.go_pc, MState.store_table]
  grind

/-- A process that has nothing to do with a locked mutex `k` leaves it alone. -/
theorem Move.calm (h : Move n s p t) (hs : LockedValid s) (hl : (s.table k).locked ≠ 0)
    (hown : (s.table k).ownerPid ≠ n) (hpc : (s.pc p).changes k = false) :
    (t.table k).locked ≠ 0 ∧ (t.table k).ownerPid = (s.table k).ownerPid ∧
      (t.pc p).changes k = false := by
  have hv := hs.locked k hl
  cases h <;> simp_all [Pc.changes, MState.go_pc, MState.finish_pc, MState.store_table]
  all_goals grind

end

theorem SlotStep.was_live {exiting : Prop} {p p' : Proc} (h : SlotStep exiting p p')
    (hu : p.state ≠ .unused) (hl : p'.Live) : p.Live ∧ p'.pid = p.pid := by
  cases h with
  | poked hp =>
      refine ⟨hp.live.1 hl, ?_⟩
      obtain ⟨_, _, _, _, _, _, rfl⟩ := hp.fields
      rfl
  | acts ha => exact ⟨⟨hu, by rw [ha.running]; exact nofun⟩, ha.pid⟩
  | exits => exact absurd rfl hl.2
  | spawned h | unspawned _ _ h => exact absurd h hu
  | reaped => exact absurd rfl hl.1

section
variable [Link] {alone : Prop} {x y : Sys} {s : State} {op : Op} {e : Event} {w h a : Fin NPROC}
  {k : Fin MAX_MUTEXES}

omit [Link] in
theorem Ran.live {p : Proc} (h : Ran p) : p.Live := by
  rcases h with h | h <;> simp [Proc.Live, h]

omit [Link] in
theorem Waits.busy (hw : Waits x a k) : x.mutex.pc a ≠ .idle := by
  intro hidle
  have hwants := hw.1
  rw [hidle] at hwants
  cases hwants

omit [Link] in
theorem Touches.live (ht : Touches x a k) (ho : Ordered x) : (x.kernel.proc a).Live := by
  rcases ht with ht | hpc
  · exact ht.1
  · refine (ho.busy a fun hidle => ?_).1.live
    rw [hidle] at hpc
    cases hpc

omit [Link] in
/-- The scheduler does not take a process that comes after `w`. -/
theorem Behind.not_dispatched (hb : Behind x w a) (ho : Ordered x) (hw : Waits x w k) (haw : a ≠ w)
    (hok : Sched.OneCpu x.kernel (.dispatch a)) : False := by
  obtain ⟨hstop, hsched⟩ := hok
  have hready := (ho.busy w hw.busy).1.resolve_right (hstop w)
  have hfirst := (schedule_first hsched).2 w hready
  have hbefore := hb.1
  unfold Before at hfirst hbefore
  omega

theorem Jam.kernel (hj : Jam alone x w h k) (ho : Ordered x) (hok : Sched.OneCpu x.kernel op)
    (hset : Sched.setsPriority op = false) (hidle : ∀ p, caller op = some p → x.mutex.pc p = .idle)
    (hn : Kernel.next x.kernel op = some s)
    (hnew : ∀ i, (x.kernel.proc i).state = .unused → (s.proc i).state ≠ .unused →
      (x.mutex.table k).ownerPid ≠ (s.proc i).pid ∧ ¬ alone) (hhw : h ≠ w) :
    Jam alone ⟨s, x.mutex⟩ w h k := by
  obtain ⟨he, hrun⟩ := Kernel.next_some hn
  have hslot := (next_effect ho.tidy hn).slots ho.tidy
  have hturn := run_turn ho.tidy he hrun
  have hpri : ∀ {a}, (x.kernel.proc a).Live → (s.proc a).priority = (x.kernel.proc a).priority :=
    fun ha => (hturn _).priority hset ha.1
  have hwlive := (ho.busy w hj.waits.busy).1.live
  refine ⟨hj.waits, ?_, fun a haw ha => ?_⟩
  · refine ((hslot h).live ?_ hj.live).1
    rintro ⟨status, rfl⟩
    obtain ⟨j, hj⟩ := (hj.behind h hhw (.inl rfl)).2 he.1.1
    exact hj.busy (hidle h rfl)
  · have hx : (x.kernel.proc a).Live ∧
        (a = h ∨ Touches x a k ∨ alone ∧ (x.kernel.proc a).Live) := by
      have hwas : (s.proc a).Live → (x.mutex.table k).ownerPid = (s.proc a).pid ∨ alone →
          (x.kernel.proc a).Live ∧ (s.proc a).pid = (x.kernel.proc a).pid := by
        intro hl hor
        refine SlotStep.was_live (hslot a) (fun hu => ?_) hl
        obtain ⟨hpid, halone⟩ := hnew a hu hl.1
        exact hor.elim hpid halone
      rcases ha with rfl | (⟨hl, hown⟩ | hpc) | ⟨halone, hl⟩
      · exact ⟨hj.live, .inl rfl⟩
      · obtain ⟨hl', hpid⟩ := hwas hl (.inl hown)
        exact ⟨hl', .inr (.inl (.inl ⟨hl', hown.trans hpid⟩))⟩
      · have ht : Touches x a k := .inr hpc
        exact ⟨ht.live ho, .inr (.inl ht)⟩
      · obtain ⟨hl', -⟩ := hwas hl (.inr halone)
        exact ⟨hl', .inr (.inr ⟨halone, hl'⟩)⟩
    have hb := hj.behind a haw hx.2
    refine ⟨?_, fun hr => ?_⟩
    · rw [Before, hpri hwlive, hpri hx.1]
      exact hb.1
    · rcases (hturn a).running hr with hr | rfl
      · exact hb.2 hr
      · exact (hb.not_dispatched ho hj.waits haw hok).elim

omit [Link] in
theorem Jam.access {c : Act (Fin NPROC)} {m : MState (Fin NPROC)} (hj : Jam alone x w h k)
    (ho : Ordered x) (hmay : MayAct x.kernel c) (hm : Mutex.next x.pid x.mutex c = some m) :
    Jam alone ⟨x.kernel, m⟩ w h k := by
  have hrun := hmay.inUser.1
  have hmove := next_move hm
  generalize c.actor = p at hrun hmove
  have honly : ∀ {a}, (x.kernel.proc a).state = .running → a = p :=
    fun ha => ho.single _ _ ha hrun
  by_cases hw : ∃ j, Waits x p j
  · obtain ⟨j, hwants, hlocked⟩ := hw
    obtain ⟨hwants', htable⟩ := hmove.waiting ho.mutex hwants hlocked
    refine ⟨⟨?_, (htable k).2 hj.waits.2⟩, hj.live, fun a haw ha => ?_⟩
    · by_cases hwp : w = p
      · subst hwp
        exact hwants'.trans (hwants.symm.trans hj.waits.1)
      · rw [hmove.pc_others hwp]
        exact hj.waits.1
    · have hb := hj.behind a haw (ha.imp id (Or.imp (Or.imp ?_ ?_) id))
      · refine ⟨hb.1, fun hr => ⟨j, ?_, (htable j).2 hlocked⟩⟩
        rw [honly hr]
        exact hwants'
      · rintro ⟨hl, hown⟩
        exact ⟨hl, (htable k).1.symm.trans hown⟩
      · intro hpc
        by_cases hap : a = p
        · subst hap
          revert hpc hwants'
          cases m.pc a <;> simp [Pc.wants, Pc.changes]
        · rwa [hmove.pc_others hap] at hpc
  · have hwp : w ≠ p := by
      rintro rfl
      exact hw ⟨k, hj.waits⟩
    have htouch : ¬ Touches x p k := fun ht =>
      hw ((hj.behind p hwp.symm (.inr (.inl ht))).2 hrun)
    have hplive : (x.kernel.proc p).Live := Ran.live (.inr hrun)
    obtain ⟨hlocked, hown, hpc⟩ := hmove.calm ho.mutex hj.waits.2
      (fun ho => htouch (.inl ⟨hplive, ho⟩)) (Bool.eq_false_iff.2 fun hc => htouch (.inr hc))
    refine ⟨⟨?_, hlocked⟩, hj.live, fun a haw ha => ?_⟩
    · rw [hmove.pc_others hwp]
      exact hj.waits.1
    · have hb := hj.behind a haw (ha.imp id (Or.imp (Or.imp ?_ ?_) id))
      · refine ⟨hb.1, fun hr => ?_⟩
        cases honly hr
        exact absurd (hb.2 hr) hw
      · rintro ⟨hl, ho⟩
        exact ⟨hl, hown.symm.trans ho⟩
      · intro hc
        by_cases hap : a = p
        · subst hap
          exact absurd hc (Bool.eq_false_iff.1 hpc)
        · rwa [hmove.pc_others hap] at hc

theorem Jam.step (hj : Jam alone x w h k) (ho : Ordered x) (hhw : h ≠ w) (hok : Continues x e)
    (hnew : ∀ i, (x.kernel.proc i).state = .unused → (y.kernel.proc i).state ≠ .unused →
      (x.mutex.table k).ownerPid ≠ y.pid i ∧ ¬ alone) (hn : x.next e = some y) :
    Jam alone y w h k := by
  cases Sys.next_step hn with
  | kernel hidle hk => exact hj.kernel ho hok.1 hok.2 hidle hk hnew hhw
  | access hmay _ hm => exact hj.access ho hmay hm
  | @spin c m s hmay _ hm hk =>
      have hyield : Sched.OneCpu x.kernel (.yield c.actor) := trivial
      refine (hj.access ho hmay hm).kernel (ho.access hmay hm) hyield rfl
        (fun _ hp => by cases hp) hk (fun i hu hs => ?_) hhw
      exact absurd ((uncalled_slot rfl hk i).2.2 hu) hs

/-- While all processes wait, none is started. -/
theorem Jam.unused (hj : Jam True x w h k) (hn : x.next e = some y) (i : Fin NPROC)
    (hu : (x.kernel.proc i).state = .unused) : (y.kernel.proc i).state = .unused := by
  cases Sys.next_step hn with
  | @kernel op s hidle hk =>
      refine (uncalled_slot (Option.eq_none_iff_forall_ne_some.2 fun p hp => ?_) hk i).2.2 hu
      have hrun := Enabled.running (Kernel.next_some hk).1 hp
      by_cases hpw : p = w
      · exact hj.waits.busy (hpw ▸ hidle p hp)
      · obtain ⟨j, hw⟩ := (hj.behind p hpw (.inr (.inr ⟨trivial, Ran.live (.inr hrun)⟩))).2 hrun
        exact hw.busy (hidle p hp)
  | access => exact hu
  | spin _ _ _ hk => exact (uncalled_slot rfl hk i).2.2 hu

end

end G9OS.Mutex
