import G9OS.Lib.Runs
import G9OS.Kernel.Shm
import G9OS.Kernel.Exec

/-! # The kernel as a step function

One label is one system call, trap or scheduling event of one process. A process
acts only while it is `RUNNING`; a `RUNNABLE` process may be dispatched by the
scheduler of any CPU at any time. A panic ends the run.
-/

namespace G9OS.Kernel

inductive Op
  | fork (p : Fin NPROC)
  | exit (p : Fin NPROC) (status : Int)
  | wait (p : Fin NPROC) (addr : Nat)
  | waitStat (p : Fin NPROC) (wtime rtime status : Nat)
  | exec (p : Fin NPROC) (file : Option ExecFile) (argv : List Nat) (name : String)
  | sbrk (p : Fin NPROC) (n t : Int)
  | pageFault (p : Fin NPROC) (va : Nat)
  | shmOpen (p : Fin NPROC) (key size : Int)
  | shmClose (p : Fin NPROC) (key : Int)
  | setpriority (p : Fin NPROC) (pid priority : Int)
  | kill (p : Fin NPROC) (pid : Int)
  | fdalloc (p : Fin NPROC) (file : Nat)
  | close (p : Fin NPROC) (fd : Fin NOFILE)
  | sleep (p : Fin NPROC) (chan : Chan)
  | resume (p : Fin NPROC)
  | yield (p : Fin NPROC)
  | dispatch (p : Fin NPROC)
  | wakeup (me : Option (Fin NPROC)) (chan : Chan)
  | clock (me : Option (Fin NPROC))

/-- A process in user space about to trap: it is running and not inside `sleep`. -/
def InUser (p : Proc) : Prop := p.state = .running ∧ p.chan = .null

/-- `usertrap` lets a process enter a system call only if it is not killed. -/
def MayCall (p : Proc) : Prop := InUser p ∧ p.killed = 0

/-- A wait call may start, or go on after its `sleep`. -/
def MayWait (i : Fin NPROC) (p : Proc) : Prop :=
  p.state = .running ∧ (p.chan = .null ∧ p.killed = 0 ∨ p.chan = .proc i)

instance (p : Proc) : Decidable (InUser p) := inferInstanceAs (Decidable (_ ∧ _))
instance (p : Proc) : Decidable (MayCall p) := inferInstanceAs (Decidable (_ ∧ _))
instance (i : Fin NPROC) (p : Proc) : Decidable (MayWait i p) :=
  inferInstanceAs (Decidable (_ ∧ (_ ∨ _)))

/-- When each label can occur. A killed process exits with status -1. -/
def Enabled (s : State) : Op → Prop
  | .fork p | .exec p _ _ _ | .sbrk p _ _ | .shmOpen p _ _ | .shmClose p _
  | .setpriority p _ _ | .kill p _ | .fdalloc p _ | .close p _ => MayCall (s.proc p)
  | .wait p _ | .waitStat p _ _ _ => MayWait p (s.proc p)
  | .exit p status => InUser (s.proc p) ∧ ((s.proc p).killed = 0 ∨ status = -1)
  | .pageFault p _ => InUser (s.proc p)
  | .sleep p chan => InUser (s.proc p) ∧ chan ≠ .null ∧ chan ≠ .proc p
  | .resume p => (s.proc p).state = .running ∧ (s.proc p).chan ≠ .proc p
  | .yield p => InUser (s.proc p)
  | .dispatch p => (s.proc p).state = .runnable
  | .wakeup _ _ | .clock _ => True

instance (s : State) (op : Op) : Decidable (Enabled s op) :=
  match op with
  | .fork p | .exec p _ _ _ | .sbrk p _ _ | .shmOpen p _ _ | .shmClose p _
  | .setpriority p _ _ | .kill p _ | .fdalloc p _ | .close p _ =>
      inferInstanceAs (Decidable (MayCall (s.proc p)))
  | .wait p _ | .waitStat p _ _ _ => inferInstanceAs (Decidable (MayWait p (s.proc p)))
  | .exit _ _ => inferInstanceAs (Decidable (_ ∧ (_ ∨ _)))
  | .pageFault p _ | .yield p => inferInstanceAs (Decidable (InUser (s.proc p)))
  | .sleep _ _ => inferInstanceAs (Decidable (_ ∧ _ ∧ _))
  | .resume _ => inferInstanceAs (Decidable (_ ∧ _))
  | .dispatch _ => inferInstanceAs (Decidable (_ = _))
  | .wakeup _ _ | .clock _ => inferInstanceAs (Decidable True)

/-- `fdalloc`: install a file in the first free descriptor. -/
def fdalloc (file : Nat) (p : Proc) : Proc :=
  match Fin.find? fun fd => (p.ofile fd).isNone with
  | none => p
  | some fd => { p with ofile := Function.update p.ofile fd (some file) }

variable [Link]

/-- The state after a label, or the panic it runs into. -/
def run (s : State) : Op → Except Panic State
  | .fork p => (kfork s p).map (·.2)
  | .exit p status => kexit s p status
  | .wait p addr => (kwait s p addr).map (·.2)
  | .waitStat p wtime rtime status => (kwaitStat s p wtime rtime status).map (·.2)
  | .exec p file argv name => (kexec s p file argv name).map (·.2)
  | .sbrk p n t => (sysSbrk s p n t).map (·.2)
  | .pageFault p va => pageFault s p va
  | .shmOpen p key size => (shmOpen s p key size).map (·.2)
  | .shmClose p key => (shmClose s p key).map (·.2)
  | .setpriority _ pid priority => .ok (setpriority s pid priority).2
  | .kill _ pid => .ok (kkill s pid).2
  | .fdalloc p file => .ok (s.modProc p (fdalloc file))
  | .close p fd =>
      .ok (s.modProc p fun q => { q with ofile := Function.update q.ofile fd none })
  | .sleep p chan => .ok (s.modProc p (asleep chan))
  | .resume p => .ok (s.modProc p awake)
  | .yield p => .ok (s.modProc p fun q => { q with state := .runnable })
  | .dispatch p => .ok (s.modProc p fun q => { q with state := .running })
  | .wakeup me chan => .ok (wakeup s me chan)
  | .clock me => .ok (clockintr s me)

def next (s : State) (op : Op) : Option State :=
  if Enabled s op then (run s op).toOption else none

/-- `main` up to the first user instruction: the pages `m` are on the free list,
`userinit` makes the first process, and `forkret` replaces its empty
memory by the program `/init`. -/
def boot (m : Kmem) (init : ExecFile) (argv : List Nat) : Except Panic State := do
  let s ← userinit { kmem := m }
  let s := s.modProc s.initproc fun p => { p with state := .running }
  match ← kexec s s.initproc (some init) argv "init" with
  | (argc, s) => if argc = -1 then .error .nullPointer else .ok s

/-- Free lists that the kernel can have once it has taken its own pages off what `kinit`
left: usable pages, none of them twice. -/
def BootMemory (m : Kmem) : Prop := m.Nodup ∧ ∀ pa ∈ m, PageOk pa

def Booted (s : State) : Prop :=
  ∃ m init argv, BootMemory m ∧ boot m init argv = .ok s

end G9OS.Kernel
