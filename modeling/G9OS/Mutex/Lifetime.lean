import G9OS.Kernel.Safety
import G9OS.Mutex.Machine

/-! # Mutexes and the life of processes

The mutex calls run inside the kernel: a process makes its accesses while it is
`RUNNING`, enters a call only from user space, and gives up the CPU after each failed
attempt to take the lock word. Nothing in `kexit` looks at `mutextable`, so a process
that exits while it is recorded as an owner leaves its pid behind.
-/

namespace G9OS.Mutex

open Lib Kernel

structure Sys where
  kernel : State
  mutex : MState (Fin NPROC)

inductive Event
  | kernel (op : Op)
  | mutex (a : Act (Fin NPROC))

/-- The process that a step of the kernel finds in user space. A process can be made to give
up the CPU inside a mutex call too. -/
def caller : Op → Option (Fin NPROC)
  | .fork p | .exit p _ | .wait p _ | .waitStat p _ _ _ | .exec p _ _ _ | .sbrk p _ _
  | .pageFault p _ | .shmOpen p _ _ | .shmClose p _ | .setpriority p _ _ | .kill p _
  | .fdalloc p _ | .close p _ | .sleep p _ | .resume p => some p
  | .yield _ | .dispatch _ | .wakeup _ _ | .clock _ => none

/-- A process enters a mutex call as any other call, and goes on in it whenever it runs. -/
def MayAct (s : State) : Act (Fin NPROC) → Prop
  | .init p | .lock p _ | .unlock p _ => MayCall (s.proc p)
  | .step p => InUser (s.proc p)

instance (s : State) (a : Act (Fin NPROC)) : Decidable (MayAct s a) :=
  match a with
  | .init p | .lock p _ | .unlock p _ => inferInstanceAs (Decidable (MayCall (s.proc p)))
  | .step p => inferInstanceAs (Decidable (InUser (s.proc p)))

/-- The access is a test and set that finds the lock word set. -/
def spins (m : MState (Fin NPROC)) : Act (Fin NPROC) → Bool
  | .step p =>
      match m.pc p with
      | .lockTry i => decide ((m.table i).locked ≠ 0)
      | _ => false
  | _ => false

def Sys.pid (x : Sys) (p : Fin NPROC) : Int := (x.kernel.proc p).pid

/-! ## Owners -/

/-- Every recorded owner is the pid of a live process. -/
def OwnersLive (x : Sys) : Prop :=
  ∀ i, (x.mutex.table i).ownerPid ≠ 0 →
    ∃ p, (x.kernel.proc p).Live ∧ (x.kernel.proc p).pid = (x.mutex.table i).ownerPid

/-- A process that exits is not recorded as the owner of a mutex. -/
def ExitsFree (x : Sys) : Event → Prop
  | .kernel (.exit p _) => ∀ i, (x.mutex.table i).ownerPid ≠ 0 →
      (x.mutex.table i).ownerPid ≠ (x.kernel.proc p).pid
  | _ => True

/-- A mutex call writes an owner only when it takes the lock, and then its own pid. -/
theorem Move.owner {s t : MState (Fin NPROC)} {p : Fin NPROC} {n : Int} (hm : Move n s p t)
    (i : Fin MAX_MUTEXES) :
    (t.table i).ownerPid = (s.table i).ownerPid ∨ (t.table i).ownerPid = 0 ∨
      (t.table i).ownerPid = n := by
  cases hm with
  | setValid | clearLocked | spins | takes | clears =>
      rw [MState.go_table, MState.store_table]
      split <;> simp_all
  | clearOwner | owns | releases =>
      simp only [MState.finish_table, MState.setHeld_table, MState.store_table]
      split <;> simp_all
  | _ => exact .inl rfl

theorem MayAct.live {s : State} {a : Act (Fin NPROC)} (h : MayAct s a) : (s.proc a.actor).Live := by
  have hrun : (s.proc a.actor).state = .running := by
    cases a with
    | init | lock | unlock => exact h.1.1
    | step => exact h.1
  unfold Proc.Live
  rw [hrun]
  exact ⟨nofun, nofun⟩

theorem OwnersLive.mutex {x : Sys} {a : Act (Fin NPROC)} {m : MState (Fin NPROC)} (h : OwnersLive x)
    (hmay : MayAct x.kernel a) (hn : Mutex.next x.pid x.mutex a = some m) :
    OwnersLive ⟨x.kernel, m⟩ := by
  intro i hi
  rcases (next_move hn).owner i with ho | ho | ho
  · rw [ho] at hi ⊢
    exact h i hi
  · exact absurd ho hi
  · exact ⟨a.actor, hmay.live, ho.symm⟩

/-! ## The system -/

section
variable [Link]

def Sys.next (x : Sys) : Event → Option Sys
  | .kernel op =>
      if ∀ p, caller op = some p → x.mutex.pc p = .idle then
        (Kernel.next x.kernel op).map fun s => ⟨s, x.mutex⟩
      else none
  | .mutex a =>
      if MayAct x.kernel a then
        (Mutex.next x.pid x.mutex a).bind fun m =>
          if spins x.mutex a then (Kernel.next x.kernel (.yield a.actor)).map fun s => ⟨s, m⟩
          else some ⟨x.kernel, m⟩
      else none

def Sys.Booted (x : Sys) : Prop := Kernel.Booted x.kernel ∧ x.mutex = MState.boot (Fin NPROC)

variable {x y : Sys}

inductive SysStep (x : Sys) : Event → Sys → Prop
  | kernel {op : Op} {s : State} : (∀ p, caller op = some p → x.mutex.pc p = .idle) →
      Kernel.next x.kernel op = some s → SysStep x (.kernel op) ⟨s, x.mutex⟩
  | access {a : Act (Fin NPROC)} {m : MState (Fin NPROC)} : MayAct x.kernel a →
      spins x.mutex a = false → Mutex.next x.pid x.mutex a = some m →
      SysStep x (.mutex a) ⟨x.kernel, m⟩
  | spin {a : Act (Fin NPROC)} {m : MState (Fin NPROC)} {s : State} : MayAct x.kernel a →
      spins x.mutex a = true → Mutex.next x.pid x.mutex a = some m →
      Kernel.next x.kernel (.yield a.actor) = some s → SysStep x (.mutex a) ⟨s, m⟩

theorem Sys.next_step {e : Event} (h : x.next e = some y) : SysStep x e y := by
  cases e with
  | kernel op =>
      simp only [Sys.next] at h
      split at h
      · rename_i hidle
        obtain ⟨s, hs, rfl⟩ := Option.map_eq_some_iff.1 h
        exact .kernel hidle hs
      · cases h
  | mutex a =>
      simp only [Sys.next] at h
      split at h
      · rename_i hmay
        obtain ⟨m, hm, h⟩ := Option.bind_eq_some_iff.1 h
        split at h
        · rename_i hspin
          obtain ⟨s, hs, rfl⟩ := Option.map_eq_some_iff.1 h
          exact .spin hmay hspin hm hs
        · rename_i hspin
          cases h
          exact .access hmay (Bool.eq_false_iff.2 hspin) hm
      · cases h

/-- The kernel's side of a step is a step of the kernel, or nothing. -/
theorem SysStep.kernel_step {e : Event} (h : SysStep x e y) :
    y.kernel = x.kernel ∨ ∃ op, Kernel.next x.kernel op = some y.kernel ∧
      ∀ p status, op = .exit p status → e = .kernel (.exit p status) := by
  cases h with
  | kernel _ hn => exact .inr ⟨_, hn, fun p status h => by rw [h]⟩
  | access => exact .inl rfl
  | spin _ _ _ hn => exact .inr ⟨_, hn, nofun⟩

theorem Sys.orderly {ok : Sys → Event → Prop} (h : Reach Sys.next ok Sys.Booted x) :
    Tidy x.kernel ∧ x.kernel.ShmOk := by
  refine h.inv (I := fun x => Tidy x.kernel ∧ x.kernel.ShmOk)
    (fun _ hb => orderly_of_reach (.start hb.1 : Reach Kernel.next Free Kernel.Booted _))
    fun x e y hx _ hn => ?_
  rcases (Sys.next_step hn).kernel_step with hk | ⟨op, hop, -⟩
  · rwa [hk]
  · have he := next_effect hx.1 hop
    exact ⟨he.tidy hx.1, he.shmOk hx.1 hx.2⟩

/-- A step of the kernel leaves the owners alive if it lets none of them exit. -/
theorem OwnersLive.kernel {s : State} {op : Op} (h : OwnersLive x) (hs : Tidy x.kernel)
    (he : Effect x.kernel op s)
    (hx : ∀ p status, op = .exit p status → ExitsFree x (.kernel (.exit p status))) :
    OwnersLive ⟨s, x.mutex⟩ := by
  intro i hi
  obtain ⟨p, hlive, hpid⟩ := h i hi
  have hstay := (he.slots hs p).live (fun ⟨status, hop⟩ => hx p status hop i hi hpid.symm) hlive
  exact ⟨p, hstay.1, hstay.2.trans hpid⟩

theorem OwnersLive.step {e : Event} (h : OwnersLive x) (hs : Tidy x.kernel)
    (hok : ExitsFree x e) (hn : x.next e = some y) : OwnersLive y := by
  cases Sys.next_step hn with
  | kernel _ hk =>
      refine h.kernel hs (next_effect hs hk) fun p status hop => ?_
      rw [hop] at hok
      exact hok
  | access hmay _ hm => exact h.mutex hmay hm
  | spin hmay _ hm hk =>
      exact (h.mutex hmay hm).kernel (x := ⟨x.kernel, _⟩) hs (next_effect hs hk) nofun

/-- In runs in which no recorded owner exits, every recorded owner is alive. -/
theorem reachable_ownersLive (h : Reach Sys.next ExitsFree Sys.Booted x) : OwnersLive x := by
  induction h with
  | start hb =>
      intro i hi
      rw [hb.2] at hi
      exact absurd rfl hi
  | step hr hok hn ih =>
      obtain ⟨hs, -⟩ := Sys.orderly hr
      exact ih.step hs hok hn

end

def sampleSys (es : List Event) : Option Sys :=
  (sampleRun []).bind fun s => replay (@Sys.next sampleLink) ⟨s, MState.boot (Fin NPROC)⟩ es

theorem sampleSys_reach {ok : Sys → Event → Prop} {es : List Event} {x : Sys}
    (hok : ∀ e ∈ es, ∀ u, ok u e) (h : sampleSys es = some x) :
    Reach (@Sys.next sampleLink) ok (@Sys.Booted sampleLink) x := by
  unfold sampleSys at h
  obtain ⟨s, hs, hr⟩ := Option.bind_eq_some_iff.1 h
  refine replay_reach (.start ⟨?_, rfl⟩) hok hr
  unfold sampleRun at hs
  obtain ⟨u, hb, he⟩ := Option.bind_eq_some_iff.1 hs
  cases he
  exact ⟨_, _, _, sampleMem_bootMemory, toOption_some.1 hb⟩

theorem sampleSys_checked (es : List Event) (ok : Sys → Event → Prop) [∀ x e, Decidable (ok x e)]
    (P : Sys → Prop) [DecidablePred P]
    (h : ((sampleRun []).bind fun s => replay (guarded (@Sys.next sampleLink) ok)
      ⟨s, MState.boot (Fin NPROC)⟩ es).any (fun x => decide (P x)) = true) :
    ∃ x, Reach (@Sys.next sampleLink) ok (@Sys.Booted sampleLink) x ∧ P x := by
  obtain ⟨x, hx, hP⟩ := (Option.any_eq_true _ _).1 h
  obtain ⟨s, hs, hr⟩ := Option.bind_eq_some_iff.1 hx
  refine ⟨x, replay_guarded_reach (.start ⟨?_, rfl⟩) hr, of_decide_eq_true hP⟩
  obtain ⟨u, hb, he⟩ := Option.bind_eq_some_iff.1 hs
  cases he
  exact ⟨_, _, _, sampleMem_bootMemory, toOption_some.1 hb⟩

theorem sampleSys_exists (es : List Event) (P : Sys → Prop) [DecidablePred P]
    (h : (sampleSys es).any (fun x => decide (P x)) = true) : ∃ x, sampleSys es = some x ∧ P x := by
  obtain ⟨x, hx, hP⟩ := (Option.any_eq_true _ _).1 h
  exact ⟨x, hx, of_decide_eq_true hP⟩

def exitsFree (x : Sys) : Event → Bool
  | .kernel (.exit p _) => decide (∀ i, (x.mutex.table i).ownerPid ≠ 0 →
      (x.mutex.table i).ownerPid ≠ (x.kernel.proc p).pid)
  | _ => true

theorem exitsFree_sound {x : Sys} {e : Event} (h : exitsFree x e = true) : ExitsFree x e := by
  unfold exitsFree at h
  unfold ExitsFree
  split at h
  · exact of_decide_eq_true h
  · simp

/-- The first process takes mutex 0, and its child exits. -/
theorem reachable_ownersLive_exit : ∃ x,
    Reach (@Sys.next sampleLink) ExitsFree (@Sys.Booted sampleLink) x ∧
      (x.mutex.table 0).ownerPid = 1 ∧ (x.kernel.proc 1).state = .zombie ∧
      ∃ p, (x.kernel.proc p).Live ∧ (x.kernel.proc p).pid = (x.mutex.table 0).ownerPid := by
  obtain ⟨x, hr, hown, hz⟩ := sampleSys_checked
    [.mutex (.init 0), .mutex (.step 0), .mutex (.step 0), .mutex (.step 0), .mutex (.step 0),
      .mutex (.lock 0 0), .mutex (.step 0), .mutex (.step 0), .mutex (.step 0),
      .kernel (.fork 0), .kernel (.yield 0), .kernel (.dispatch 1), .kernel (.exit 1 0),
      .kernel (.dispatch 0)]
    (exitsFree · · = true)
    (fun x => (x.mutex.table 0).ownerPid = 1 ∧ (x.kernel.proc 1).state = .zombie)
    (by set_option maxRecDepth 100000 in decide +kernel)
  have hr' : Reach (@Sys.next sampleLink) ExitsFree (@Sys.Booted sampleLink) x :=
    hr.mono fun _ _ => exitsFree_sound
  refine ⟨x, hr', hown, hz, @reachable_ownersLive sampleLink x hr' 0 ?_⟩
  rw [hown]
  decide

/-- A process that is killed while it waits in `mutex_lock` still gets the mutex when it is
given up, and then exits with it. -/
theorem exit_leaves_owner : ∃ x,
    Reach (@Sys.next sampleLink) Free (@Sys.Booted sampleLink) x ∧
      (x.mutex.table 0).ownerPid = 2 ∧ (x.mutex.table 0).locked = 1 ∧
      (x.kernel.proc 1).pid = 2 ∧ (x.kernel.proc 1).state = .zombie ∧
      ∀ p, (x.kernel.proc p).Live → (x.kernel.proc p).pid ≠ 2 := by
  obtain ⟨x, hx, h⟩ := sampleSys_exists
    [.mutex (.init 0), .mutex (.step 0), .mutex (.step 0), .mutex (.step 0), .mutex (.step 0),
      .mutex (.lock 0 0), .mutex (.step 0), .mutex (.step 0), .mutex (.step 0),
      .kernel (.fork 0), .kernel (.yield 0), .kernel (.dispatch 1),
      .mutex (.lock 1 0), .mutex (.step 1), .mutex (.step 1), .kernel (.dispatch 0),
      .kernel (.kill 0 2), .mutex (.unlock 0 0), .mutex (.step 0), .mutex (.step 0),
      .mutex (.step 0), .mutex (.step 0), .kernel (.yield 0), .kernel (.dispatch 1),
      .mutex (.step 1), .mutex (.step 1), .kernel (.exit 1 (-1))]
    (fun x => (x.mutex.table 0).ownerPid = 2 ∧ (x.mutex.table 0).locked = 1 ∧
      (x.kernel.proc 1).pid = 2 ∧ (x.kernel.proc 1).state = .zombie ∧
      ∀ p, (x.kernel.proc p).Live → (x.kernel.proc p).pid ≠ 2)
    (by set_option maxRecDepth 100000 in decide +kernel)
  exact ⟨x, sampleSys_reach (fun _ _ _ => trivial) hx, h⟩

end G9OS.Mutex
