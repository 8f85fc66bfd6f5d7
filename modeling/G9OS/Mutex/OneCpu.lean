import G9OS.Mutex.Lifetime
import G9OS.Sched.OneCpu

/-! # Mutexes on one CPU

What holds in every run on one CPU: one process runs at most, a process inside a mutex call is
`RUNNABLE` or `RUNNING` and not inside `sleep`, and a mutex that is locked is valid.
-/

namespace G9OS.Mutex

open Lib Kernel Sched

def OneCpu (x : Sys) : Event → Prop
  | .kernel op => Sched.OneCpu x.kernel op
  | .mutex _ => True

instance oneCpuDecidable (x : Sys) (e : Event) : Decidable (OneCpu x e) :=
  match e with
  | .kernel op => inferInstanceAs (Decidable (Sched.OneCpu x.kernel op))
  | .mutex _ => inferInstanceAs (Decidable True)

def Event.setsPriority : Event → Bool
  | .kernel op => Sched.setsPriority op
  | .mutex _ => false

/-- The steps of one CPU on which no process calls `setpriority`. -/
def Continues (x : Sys) (e : Event) : Prop := OneCpu x e ∧ e.setsPriority = false

/-- Ready for the CPU, or on it. -/
abbrev Ran (p : Proc) : Prop := p.state = .runnable ∨ p.state = .running

theorem MayAct.inUser {s : State} {a : Act (Fin NPROC)} (h : MayAct s a) :
    InUser (s.proc a.actor) := by
  cases a with
  | init | lock | unlock => exact h.1
  | step => exact h

/-- Only valid mutexes are locked. -/
structure LockedValid (m : MState (Fin NPROC)) : Prop where
  locked : ∀ k, (m.table k).locked ≠ 0 → (m.table k).valid ≠ 0
  tried : ∀ q k, m.pc q = .lockTry k → (m.table k).valid ≠ 0

theorem LockedValid.move {s t : MState (Fin NPROC)} {n : Int} {p : Fin NPROC} (h : LockedValid s)
    (hm : Move n s p t) : LockedValid t := by
  have hl := h.locked
  have ht := h.tried
  have hvalid : ∀ k, (s.table k).valid ≠ 0 → (t.table k).valid ≠ 0 := by
    intro k hv
    cases hm with
    | setValid | clearLocked | clearOwner | spins | takes | owns | clears | releases =>
        simp only [MState.go_table, MState.finish_table, MState.setHeld_table, MState.store_table]
        split <;> simp_all
    | _ => exact hv
  constructor
  · intro k
    cases hm with
    | setValid | clearLocked | clearOwner | spins | owns | clears | releases =>
        simp only [MState.go_table, MState.finish_table, MState.setHeld_table, MState.store_table]
        split <;> simp_all
    | takes hpc =>
        rw [MState.go_table, MState.store_table]
        split
        · exact fun _ => ht p _ hpc
        · exact hl k
    | _ => exact hl k
  · intro q k hpc
    refine hvalid k ?_
    by_cases hq : q = p
    · subst hq
      cases hm <;> simp_all [MState.go_pc, MState.finish_pc]
    · rw [hm.pc_others hq] at hpc
      exact ht q k hpc

theorem SlotStep.ready {exiting : Prop} {p p' : Proc} (h : SlotStep exiting p p')
    (hp : p.state = .runnable) : Ran p' := by
  cases h with
  | poked hk =>
      rcases hk.state with hst | ⟨-, hst⟩
      · exact .inl (hst.trans hp)
      · exact hst
  | acts ha => cases hp.symm.trans ha.running
  | exits _ _ hr => cases hp.symm.trans hr
  | spawned hu => cases hp.symm.trans hu
  | unspawned _ _ hu => cases hp.symm.trans hu
  | reaped hz => cases hp.symm.trans hz

section
variable [Link] {x y : Sys} {s : State} {op : Op} {e : Event} {p q : Fin NPROC}

theorem Sys.next_of_kernel (op : Op) (hidle : ∀ p, caller op = some p → x.mutex.pc p = .idle)
    (hn : Kernel.next x.kernel op = some s) : x.next (.kernel op) = some ⟨s, x.mutex⟩ := by
  rw [Sys.next, if_pos hidle, hn]
  rfl

theorem goes_on (e : Event) (hok : OneCpu x e) (hset : e.setsPriority = false)
    (hn : x.next e = some y) : Reach Sys.next Continues (· = x) y :=
  .step (.start rfl) ⟨hok, hset⟩ hn

omit [Link] in
theorem Enabled.running {s : State} (he : Enabled s op) (hc : caller op = some p) :
    (s.proc p).state = .running := by
  cases op with
  | fork | exec | sbrk | shmOpen | shmClose | setpriority | kill | fdalloc | close =>
      cases hc
      exact he.1.1
  | wait | waitStat | pageFault | resume =>
      cases hc
      exact he.1
  | exit | sleep =>
      cases hc
      exact he.1.1
  | yield | dispatch | wakeup | clock => cases hc

/-- The steps that no process calls start none, and end none. -/
theorem uncalled_slot {s u : State} (hcall : caller op = none) (hn : Kernel.next s op = some u)
    (q : Fin NPROC) : (u.proc q).chan = (s.proc q).chan ∧ (Ran (s.proc q) → Ran (u.proc q)) ∧
      ((s.proc q).state = .unused → (u.proc q).state = .unused) := by
  obtain ⟨he, hrun⟩ := Kernel.next_some hn
  have hwake : ∀ me chan, (wakeProc me chan q (s.proc q)).chan = (s.proc q).chan ∧
      (Ran (s.proc q) → Ran (wakeProc me chan q (s.proc q))) ∧
      ((s.proc q).state = .unused → (wakeProc me chan q (s.proc q)).state = .unused) := by
    intro me chan
    unfold wakeProc
    split
    · rename_i hw
      simp [hw.2.1, Ran]
    · simp
  cases op with
  | yield p | dispatch p =>
      cases hrun
      by_cases hqp : q = p
      · subst hqp
        have hst : (s.proc q).state ≠ .unused := by
          intro hu
          simp [Enabled, InUser, hu] at he
        rw [modProc_self]
        simp [hst, Ran]
      · rw [modProc_of_ne _ _ _ hqp]
        simp
  | wakeup me chan =>
      cases hrun
      exact hwake me chan
  | clock me =>
      cases hrun
      have hw := hwake me .ticks
      have hchan := tickProc_chan (wakeProc me .ticks q (s.proc q))
      have hstate := tickProc_state (wakeProc me .ticks q (s.proc q))
      rw [← hchan, Ran, Ran, ← hstate] at hw
      exact hw
  | _ => cases hcall

/-- What holds in every run on one CPU. -/
structure Ordered (x : Sys) : Prop where
  tidy : Tidy x.kernel
  single : Single x.kernel
  busy : ∀ q, x.mutex.pc q ≠ .idle → Ran (x.kernel.proc q) ∧ (x.kernel.proc q).chan = .null
  mutex : LockedValid x.mutex

/-- The caller of a step is outside of the mutex calls, and the only process that runs. -/
theorem Ordered.kernel (h : Ordered x) (hok : Sched.OneCpu x.kernel op)
    (hidle : ∀ p, caller op = some p → x.mutex.pc p = .idle)
    (hn : Kernel.next x.kernel op = some s) : Ordered ⟨s, x.mutex⟩ := by
  refine ⟨(next_effect h.tidy hn).tidy h.tidy, h.single.step h.tidy hok hn, fun q hq => ?_, h.mutex⟩
  obtain ⟨hran, hchan⟩ := h.busy q hq
  obtain ⟨he, hrun⟩ := Kernel.next_some hn
  cases hcall : caller op with
  | none =>
      obtain ⟨hc, hr, -⟩ := uncalled_slot hcall hn q
      exact ⟨hr hran, hc.trans hchan⟩
  | some p =>
      have hp := Enabled.running he hcall
      have hqp : q ≠ p := by
        rintro rfl
        exact hq (hidle q hcall)
      have hready : (x.kernel.proc q).state = .runnable :=
        hran.resolve_right fun hr => hqp (h.single q p hr hp)
      refine ⟨SlotStep.ready ((next_effect h.tidy hn).slots h.tidy q) hready, ?_⟩
      have hturn := run_turn h.tidy he hrun q
      dsimp only
      generalize s.proc q = v at hturn
      cases hturn with
      | kept hk =>
          rcases hk.chan with hc | hc | hc
          · exact hc.trans hchan
          · exact hc
          · cases hready.symm.trans hc
      | claimed _ _ _ _ hc => exact hc
      | dispatched | ticked => cases hcall

omit [Link] in
theorem Ordered.access {a : Act (Fin NPROC)} {m : MState (Fin NPROC)} (h : Ordered x)
    (hmay : MayAct x.kernel a) (hm : Mutex.next x.pid x.mutex a = some m) :
    Ordered ⟨x.kernel, m⟩ := by
  refine ⟨h.tidy, h.single, fun q hq => ?_, h.mutex.move (next_move hm)⟩
  by_cases hqa : q = a.actor
  · rw [hqa]
    exact ⟨.inr hmay.inUser.1, hmay.inUser.2⟩
  · rw [(next_move hm).pc_others hqa] at hq
    exact h.busy q hq

theorem Ordered.step (h : Ordered x) (hok : OneCpu x e) (hn : x.next e = some y) : Ordered y := by
  cases Sys.next_step hn with
  | kernel hidle hk => exact h.kernel hok hidle hk
  | access hmay _ hm => exact h.access hmay hm
  | @spin a m s hmay _ hm hk =>
      have hyield : Sched.OneCpu x.kernel (.yield a.actor) := trivial
      refine (h.access hmay hm).kernel hyield (fun p hp => ?_) hk
      cases hp

theorem Ordered.reach (h : Ordered x) (hr : Reach Sys.next Continues (· = x) y) : Ordered y :=
  hr.inv (fun _ hx => by rw [hx]; exact h) fun _ _ _ h hok hn => h.step hok.1 hn

end

end G9OS.Mutex
