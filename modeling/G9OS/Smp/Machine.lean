import G9OS.Sched.Iteration

/-! # Processes on several CPUs

The process table as several CPUs work on it. One step is one critical section: what a
thread does between `acquire` and `release` of one process lock. Locks that are kept
longer are explicit. `wait_lock` covers the scans of `kexit` and `kwait`. The lock of a
process is taken in front of `swtch` by one thread and released behind it by another,
and `allocproc` returns with the lock of the new process held.

Memory is left out: whether an allocation or a `copyout` fails is a choice of the run.
Beside what the code keeps, the machine numbers the processes in the order of their
creation and writes down every exit and every child that a wait call returns.
-/

namespace G9OS.Smp

open Lib Kernel Sched

/-- The scheduler's thread of a CPU is at one of its critical sections, or the CPU
executes the thread of a process. -/
inductive CpuPc
  | start
  | pass1 (k : Nat) (best : Int)
  | pass2 (k : Nat) (best : Int)
  | wfi
  | running (p : Fin NPROC)
  | back (p : Fin NPROC)                     -- `swtch` has returned to the scheduler
deriving DecidableEq, Repr

/-- What `kkill` and `setpriority` do to the process they look for. -/
inductive Poke
  | kill
  | setpriority (priority : Int)
deriving DecidableEq, Repr

def Poke.apply : Poke → Proc → Proc
  | .kill, p =>
      { p with killed := 1, state := if p.state = .sleeping then .runnable else p.state }
  | .setpriority priority, p => { p with priority := priority }

/-- The critical section in front of the thread of a process. -/
inductive Pc
  | user
  | forkScan (k : Nat)                       -- `allocproc` looks at slot `k`
  | forkFill (np : Fin NPROC)                -- `np` is claimed, `np->lock` held
  | forkParent (np : Fin NPROC)              -- `np->parent = p`
  | forkReady (np : Fin NPROC)               -- `np->state = RUNNABLE`
  | exitLock (status : Int)                  -- `acquire(&wait_lock)` in `kexit`
  | exitReparent (status : Int) (k : Nat)    -- `reparent` looks at slot `k`
  | exitZombie (status : Int)                -- `p->state = ZOMBIE`
  | waitLock                                 -- `acquire(&wait_lock)` in `kwait`
  | waitScan (k : Nat) (havekids : Bool)     -- `kwait` looks at slot `k`
  | waitSleep                                -- `sleep(p, &wait_lock)`
  | search (pid : Int) (what : Poke) (k : Nat)
  | wakeup (chan : Chan) (j : Nat) (next : Pc)
deriving DecidableEq, Repr

inductive Park
  | awake | yielded | slept
deriving DecidableEq, Repr

inductive ClockPc
  | idle
  | waking (j : Nat)                         -- `wakeup(&ticks)`
  | charging (k : Nat)                       -- `update_time_stats`
deriving DecidableEq, Repr

structure Exit where
  serial : Nat
  stime : Nat
  rtime : Nat
  xstate : Int
deriving DecidableEq, Repr

/-- What a wait call returns to `parent`. -/
structure Report where
  exit : Exit
  parent : Fin NPROC
deriving DecidableEq, Repr

structure World (C : Type) where
  proc : Fin NPROC → Proc
  initproc : Fin NPROC
  nextpid : Int
  ticks : Nat
  plock : Fin NPROC → Option C
  wlock : Option C
  cpu : C → CpuPc
  cur : C → Option (Fin NPROC)               -- `cpu->proc`
  pc : Fin NPROC → Pc
  park : Fin NPROC → Park
  clock : ClockPc
  serial : Fin NPROC → Nat
  made : Nat
  exits : List Exit
  reports : List Report

inductive Call
  | fork
  | exit (status : Int)
  | wait
  | kill (pid : Int)
  | setpriority (pid priority : Int)
  | wakeup (chan : Chan)
deriving DecidableEq, Repr

def Call.start : Call → Pc
  | .fork => .forkScan 0
  | .exit status => .exitLock status
  | .wait => .waitLock
  | .kill pid => .search pid .kill 0
  | .setpriority pid priority => .search pid (.setpriority priority) 0
  | .wakeup chan => .wakeup chan 0 .user

/-- What a thread does where the code leaves it open. -/
inductive Choice
  | go
  | fail                                     -- an allocation or a `copyout` fails
  | yield                                    -- also by a timer interrupt
  | sleep (chan : Chan)
  | call (x : Call)
deriving DecidableEq, Repr

inductive Label (C : Type)
  | cpu (c : C) (ch : Choice)
  | clock
  | device (c : C) (chan : Chan) (j : Fin NPROC)
deriving DecidableEq

/-- The thread holds no spinlock in front of this section, so it can be interrupted. -/
def Pc.unlocked : Pc → Bool
  | .forkFill _ | .exitReparent _ _ | .exitZombie _ | .waitScan _ _ | .waitSleep => false
  | .wakeup _ _ next => next.unlocked
  | _ => true

section
variable {C : Type}

/-! ## Updates of the state -/

@[simps] def World.setProc (s : World C) (k : Fin NPROC) (f : Proc → Proc) : World C :=
  { s with proc := Function.update s.proc k (f (s.proc k)) }

@[simps] def World.setPlock (s : World C) (k : Fin NPROC) (o : Option C) : World C :=
  { s with plock := Function.update s.plock k o }

@[simps] def World.setWlock (s : World C) (o : Option C) : World C := { s with wlock := o }

@[simps] def World.setPc (s : World C) (p : Fin NPROC) (v : Pc) : World C :=
  { s with pc := Function.update s.pc p v }

@[simps] def World.setPark (s : World C) (p : Fin NPROC) (v : Park) : World C :=
  { s with park := Function.update s.park p v }

@[simps] def World.setClock (s : World C) (v : ClockPc) : World C := { s with clock := v }

@[simps] def World.number (s : World C) (np : Fin NPROC) : World C :=
  { s with
    nextpid := int32 (s.nextpid + 1), serial := Function.update s.serial np s.made
    made := s.made + 1 }

/-- What is known of an exited process. -/
def World.exitOf (s : World C) (p : Fin NPROC) : Exit :=
  ⟨s.serial p, (s.proc p).stime, (s.proc p).rtime, (s.proc p).xstate⟩

@[simps] def World.logExit (s : World C) (e : Exit) : World C := { s with exits := e :: s.exits }

@[simps] def World.logReport (s : World C) (r : Report) : World C :=
  { s with reports := r :: s.reports }

@[simps] def World.tick (s : World C) : World C := { s with ticks := (s.ticks + 1) % 2 ^ 32 }

variable [DecidableEq C]

@[simps] def World.setCpu (s : World C) (c : C) (v : CpuPc) : World C :=
  { s with cpu := Function.update s.cpu c v }

@[simps] def World.setCur (s : World C) (c : C) (o : Option (Fin NPROC)) : World C :=
  { s with cur := Function.update s.cur c o }

/-! ## The scheduler -/

/-- The second pass has found `p`, and `swtch` leads to the thread of `p`. -/
def World.dispatch (s : World C) (c : C) (p : Fin NPROC) : World C :=
  (((s.setProc p fun q => { q with state := .running }).setPlock p (some c)).setCur c
    (some p)).setCpu c (.running p)

def schedStep (s : World C) (c : C) : Option (World C) :=
  match s.cpu c with
  | .start => some (s.setCpu c (.pass1 0 21))
  | .pass1 k best =>
      if h : k < NPROC then
        if s.plock ⟨k, h⟩ = none then
          some (s.setCpu c (.pass1 (k + 1) (better best (s.proc ⟨k, h⟩))))
        else none
      else some (s.setCpu c (if best ≤ 20 then .pass2 0 best else .wfi))
  | .pass2 k best =>
      if h : k < NPROC then
        if s.plock ⟨k, h⟩ = none then
          if Matches best (s.proc ⟨k, h⟩) then some (s.dispatch c ⟨k, h⟩)
          else some (s.setCpu c (.pass2 (k + 1) best))
        else none
      else some (s.setCpu c .wfi)
  | .wfi => some (s.setCpu c .start)
  | .back p => some (((s.setCur c none).setPlock p none).setCpu c .start)
  | .running _ => none

/-! ## Processes -/

/-- Process `p` takes its own lock, changes its state and switches to the scheduler. -/
def World.leave (s : World C) (c : C) (p : Fin NPROC) (f : Proc → Proc) (how : Park) : World C :=
  (((s.setProc p f).setPlock p (some c)).setPark p how).setCpu c (.back p)

/-- Back in `sched`: `p->lock` is released, and `sleep` clears `chan` before that. -/
def unpark (s : World C) (p : Fin NPROC) : Option (World C) :=
  match s.park p with
  | .awake => none
  | .yielded => some ((s.setPlock p none).setPark p .awake)
  | .slept => some (((s.setProc p awake).setPlock p none).setPark p .awake)

/-- `usertrap` lets a killed process exit only, `kexit` panics for the first process, and
`setpriority` checks its range before the search. -/
def Admits (s : World C) (p : Fin NPROC) : Call → Prop
  | .exit status => p ≠ s.initproc ∧ ((s.proc p).killed = 0 ∨ status = -1)
  | .setpriority _ priority => (s.proc p).killed = 0 ∧ 1 ≤ priority ∧ priority ≤ 20
  | _ => (s.proc p).killed = 0

instance (s : World C) (p : Fin NPROC) (x : Call) : Decidable (Admits s p x) :=
  match x with
  | .exit _ => inferInstanceAs (Decidable (_ ∧ (_ ∨ _)))
  | .setpriority _ _ => inferInstanceAs (Decidable (_ ∧ _ ∧ _))
  | .fork | .wait | .kill _ | .wakeup _ => inferInstanceAs (Decidable (_ = _))

/-- `allocproc` takes slot `np`, whose thread will start in `forkret`. -/
def World.claim (s : World C) (c : C) (p np : Fin NPROC) : World C :=
  (((((s.setProc np (claimed s.nextpid s.ticks)).number np).setPlock np (some c)).setPc np
    .user).setPark np .yielded).setPc p (.forkFill np)

def forkStep (s : World C) (c : C) (p : Fin NPROC) : Pc → Choice → Option (World C)
  | .forkScan k, .go =>
      if h : k < NPROC then
        if s.plock ⟨k, h⟩ = none then
          if (s.proc ⟨k, h⟩).state = .unused then some (s.claim c p ⟨k, h⟩)
          else some (s.setPc p (.forkScan (k + 1)))
        else none
      else some (s.setPc p .user)
  | .forkFill np, .go => some ((s.setPlock np none).setPc p (.forkParent np))
  | .forkFill np, .fail => some (((s.setProc np clearSlot).setPlock np none).setPc p .user)
  | .forkParent np, .go =>
      if s.wlock = none then
        some ((s.setProc np fun q => { q with parent := some p }).setPc p (.forkReady np))
      else none
  | .forkReady np, .go =>
      if s.plock np = none then
        some ((s.setProc np fun q => { q with state := .runnable }).setPc p .user)
      else none
  | _, _ => none

/-- The last section of `kexit`: `p->lock` is taken, and `wait_lock` released. -/
def World.die (s : World C) (c : C) (p : Fin NPROC) (status : Int) : World C :=
  (((s.setWlock none).setPc p .user).logExit { s.exitOf p with xstate := status }).leave c p
    (fun q => { q with xstate := status, state := .zombie }) .yielded

def exitStep (s : World C) (c : C) (p : Fin NPROC) : Pc → Choice → Option (World C)
  | .exitLock status, .go =>
      if s.wlock = none then some ((s.setWlock (some c)).setPc p (.exitReparent status 0)) else none
  | .exitReparent status k, .go =>
      if h : k < NPROC then
        if (s.proc ⟨k, h⟩).parent = some p then
          some ((s.setProc ⟨k, h⟩ fun q => { q with parent := some s.initproc }).setPc p
            (.wakeup (.proc s.initproc) 0 (.exitReparent status (k + 1))))
        else some (s.setPc p (.exitReparent status (k + 1)))
      else some (s.setPc p (.wakeup (parentChan (s.proc p).parent) 0 (.exitZombie status)))
  | .exitZombie status, .go =>
      if s.plock p = none then some (s.die c p status) else none
  | _, _ => none

/-- A wait call of `p` returns the exited child `k`. -/
def World.reap (s : World C) (p k : Fin NPROC) : World C :=
  (((s.logReport ⟨s.exitOf k, p⟩).setProc k clearSlot).setWlock none).setPc p .user

def waitStep (s : World C) (c : C) (p : Fin NPROC) : Pc → Choice → Option (World C)
  | .waitLock, .go =>
      if s.wlock = none then some ((s.setWlock (some c)).setPc p (.waitScan 0 false)) else none
  | .waitScan k havekids, ch =>
      if h : k < NPROC then
        if (s.proc ⟨k, h⟩).parent = some p then
          if s.plock ⟨k, h⟩ = none then
            if (s.proc ⟨k, h⟩).state = .zombie then
              match ch with
              | .go => some (s.reap p ⟨k, h⟩)
              | .fail => some ((s.setWlock none).setPc p .user)
              | _ => none
            else if ch = .go then some (s.setPc p (.waitScan (k + 1) true))
            else none
          else none
        else if ch = .go then some (s.setPc p (.waitScan (k + 1) havekids))
        else none
      else if ch = .go then
        if havekids = false then some ((s.setWlock none).setPc p .user)
        else if s.plock p = none then
          if (s.proc p).killed ≠ 0 then some ((s.setWlock none).setPc p .user)
          else some (s.setPc p .waitSleep)
        else none
      else none
  | .waitSleep, .go =>
      if s.plock p = none then
        some (((s.setWlock none).setPc p .waitLock).leave c p (asleep (.proc p)) .slept)
      else none
  | _, _ => none

/-- The loops of `kkill`, `setpriority` and `wakeup`. -/
def loopStep (s : World C) (p : Fin NPROC) : Pc → Choice → Option (World C)
  | .search pid what k, .go =>
      if h : k < NPROC then
        if s.plock ⟨k, h⟩ = none then
          if (s.proc ⟨k, h⟩).pid = pid then some ((s.setProc ⟨k, h⟩ what.apply).setPc p .user)
          else some (s.setPc p (.search pid what (k + 1)))
        else none
      else some (s.setPc p .user)
  | .wakeup chan j next, .go =>
      if h : j < NPROC then
        if s.plock ⟨j, h⟩ = none ∨ (⟨j, h⟩ : Fin NPROC) = p then
          some ((s.setProc ⟨j, h⟩ (wakeProc (some p) chan ⟨j, h⟩)).setPc p
            (.wakeup chan (j + 1) next))
        else none
      else some (s.setPc p next)
  | _, _ => none

def procStep (s : World C) (c : C) (p : Fin NPROC) : Choice → Option (World C)
  | .yield =>
      if (s.pc p).unlocked = true ∧ s.plock p = none then
        some (s.leave c p (fun q => { q with state := .runnable }) .yielded)
      else none
  | .sleep chan =>
      if s.pc p = .user ∧ s.plock p = none then some (s.leave c p (asleep chan) .slept) else none
  | .call x => if s.pc p = .user ∧ Admits s p x then some (s.setPc p x.start) else none
  | ch =>
      match s.pc p with
      | .user => none
      | .forkScan _ | .forkFill _ | .forkParent _ | .forkReady _ => forkStep s c p (s.pc p) ch
      | .exitLock _ | .exitReparent _ _ | .exitZombie _ => exitStep s c p (s.pc p) ch
      | .waitLock | .waitScan _ _ | .waitSleep => waitStep s c p (s.pc p) ch
      | .search _ _ _ | .wakeup _ _ _ => loopStep s p (s.pc p) ch

/-! ## The clock -/

def interruptible (s : World C) (c : C) : Bool :=
  match s.cpu c with
  | .start => true
  | .running p => decide (s.park p = .awake) && (s.pc p).unlocked
  | _ => false

def clockStep (c0 : C) (s : World C) : Option (World C) :=
  match s.clock with
  | .idle => if interruptible s c0 then some (s.tick.setClock (.waking 0)) else none
  | .waking j =>
      if h : j < NPROC then
        if s.plock ⟨j, h⟩ = none ∨ some (⟨j, h⟩ : Fin NPROC) = s.cur c0 then
          some ((s.setProc ⟨j, h⟩ (wakeProc (s.cur c0) .ticks ⟨j, h⟩)).setClock (.waking (j + 1)))
        else none
      else some (s.setClock (.charging 0))
  | .charging k =>
      if h : k < NPROC then
        if s.plock ⟨k, h⟩ = none then
          some ((s.setProc ⟨k, h⟩ tickProc).setClock (.charging (k + 1)))
        else none
      else some (s.setClock .idle)

/-- One section of some CPU. CPU `c0` does nothing else while it is in `clockintr`. -/
def next (c0 : C) (s : World C) : Label C → Option (World C)
  | .clock => clockStep c0 s
  | .device c chan j =>
      -- a device interrupt on CPU `c` has come to slot `j` in its `wakeup`
      if s.plock j = none then some (s.setProc j (wakeProc (s.cur c) chan j)) else none
  | .cpu c ch =>
      if c = c0 ∧ s.clock ≠ .idle then none
      else
        match s.cpu c with
        | .running p =>
            if s.park p = .awake then procStep s c p ch
            else if ch = .go then unpark s p
            else none
        | _ => if ch = .go then schedStep s c else none

/-- After `userinit`, all CPUs in front of `scheduler`. -/
def World.boot (C : Type) : World C where
  proc := Function.update (fun _ => {}) 0
    { claimed 1 0 {} with cwd := some 0, state := .runnable }
  initproc := 0
  nextpid := 2
  ticks := 0
  plock := fun _ => none
  wlock := none
  cpu := fun _ => .start
  cur := fun _ => none
  pc := fun _ => .user
  park := fun _ => .yielded
  clock := .idle
  serial := fun _ => 0
  made := 1
  exits := []
  reports := []

end

end G9OS.Smp
