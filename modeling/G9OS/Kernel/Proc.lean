import G9OS.Kernel.Vm

/-! # Processes (`proc.h`, `proc.c`)

The process table and the operations that create, end, reap and resize
processes. A step of the kernel that holds its locks from start to end is one
function on `State`; the registers saved in the trapframe, the kernel stacks and
the file table behind `ofile` are not modelled.
-/

namespace G9OS.Kernel

inductive ProcState
  | unused | used | sleeping | runnable | running | zombie
deriving DecidableEq, Repr

/-- A sleep channel: the address slept on, by what it is the address of. -/
inductive Chan
  | null
  | proc (i : Fin NPROC)
  | ticks
  | other (addr : Nat)
deriving DecidableEq, Repr

structure ShmAttach where
  key : Int := 0
  uva : Nat := 0
  npages : Int := 0
deriving DecidableEq, Repr

/-- `struct shmregion`; `pages` is read below `npages` only. -/
structure ShmRegion where
  key : Int := 0
  npages : Int := 0
  pages : Nat → PA := fun _ => 0
  refcount : Int := 0

/-- `struct proc`. A pointer to a process is its index in the table. -/
structure Proc where
  state : ProcState := .unused
  chan : Chan := .null
  killed : Int := 0
  xstate : Int := 0
  pid : Int := 0
  parent : Option (Fin NPROC) := none
  sz : Nat := 0
  pagetable : Option PageTable := none
  trapframe : Option PA := none
  ofile : Fin NOFILE → Option Nat := fun _ => none
  cwd : Option Nat := none
  name : String := ""
  priority : Int := 0
  ctime : Nat := 0
  rtime : Nat := 0
  stime : Nat := 0
  shm : Fin PROC_SHM_SLOTS → ShmAttach := fun _ => {}

structure State where
  proc : Fin NPROC → Proc := fun _ => {}
  initproc : Fin NPROC := 0
  nextpid : Int := 1
  ticks : Nat := 0
  kmem : Kmem := []
  shmTable : Fin SHM_SLOTS → ShmRegion := fun _ => {}

def State.setKmem (s : State) (m : Kmem) : State := { s with kmem := m }

def State.modProc (s : State) (i : Fin NPROC) (f : Proc → Proc) : State :=
  { s with proc := Function.update s.proc i (f (s.proc i)) }

def State.mapProc (s : State) (f : Fin NPROC → Proc → Proc) : State :=
  { s with proc := fun i => f i (s.proc i) }

/-- Process `i` has the page table `pt` now, and `m` is left on the free list. -/
def State.setSpace (s : State) (i : Fin NPROC) (pt : PageTable) (m : Kmem) : State :=
  (s.setKmem m).modProc i fun p => { p with pagetable := some pt }

/-- The fields that `freeproc` resets. -/
def clearSlot (p : Proc) : Proc :=
  { p with
    trapframe := none, pagetable := none, sz := 0, pid := 0, parent := none, name := ""
    chan := .null, killed := 0, xstate := 0, state := .unused }

def claimed (pid : Int) (ticks : Nat) (p : Proc) : Proc :=
  { p with
    pid := pid, state := .used, priority := 10, ctime := ticks, rtime := 0, stime := 0 }

variable [Link]

def freeproc (s : State) (i : Fin NPROC) : Except Panic State := do
  let m ← (match (s.proc i).trapframe with
    | some tf => kfree tf s.kmem
    | none => .ok s.kmem)
  let m ← (match (s.proc i).pagetable with
    | some pt => procFreepagetable pt (s.proc i).sz m
    | none => .ok m)
  .ok ((s.setKmem m).modProc i clearSlot)

def unusedSlot (s : State) : Option (Fin NPROC) :=
  Fin.find? fun i => decide ((s.proc i).state = .unused)

def claimSlot (s : State) (i : Fin NPROC) : State :=
  ({ s with nextpid := int32 (s.nextpid + 1) } : State).modProc i (claimed s.nextpid s.ticks)

/-- The allocations of `allocproc` for slot `i`: a trapframe page, then an empty
user page table. -/
def outfit (s : State) (i : Fin NPROC) : Except Panic (Option (Fin NPROC) × State) :=
  match kalloc s.kmem with
  | (none, m) => do
      let s ← freeproc ((s.setKmem m).modProc i fun p => { p with trapframe := none }) i
      .ok (none, s)
  | (some tf, m) => do
      let (pt, m) ← procPagetable tf m
      match pt with
      | none => do
          let s ← freeproc ((s.setKmem m).modProc i fun p =>
            { p with trapframe := some tf, pagetable := none }) i
          .ok (none, s)
      | some pt =>
          .ok (some i, (s.setKmem m).modProc i fun p =>
            { p with trapframe := some tf, pagetable := some pt })

def allocproc (s : State) : Except Panic (Option (Fin NPROC) × State) :=
  match unusedSlot s with
  | none => .ok (none, s)
  | some i => outfit (claimSlot s i) i

def userinit (s : State) : Except Panic State := do
  match ← allocproc s with
  | (none, _) => .error .nullPointer
  | (some i, s) =>
      .ok (({ s with initproc := i } : State).modProc i fun p =>
        { p with cwd := some 0, state := .runnable })

def childOf (parent : Fin NPROC) (p np : Proc) : Proc :=
  { np with
    sz := p.sz
    ofile := fun fd => match p.ofile fd with
      | some f => some f
      | none => np.ofile fd
    cwd := p.cwd
    name := p.name
    parent := some parent
    state := .runnable }

/-- `kfork`, once `allocproc` has found the slot `np`. -/
def forkInto (s : State) (p np : Fin NPROC) : Except Panic (Int × State) :=
  match (s.proc p).pagetable, (s.proc np).pagetable with
  | some old, some new => do
      let (ok, new, m) ← uvmcopy old new (s.proc p).sz s.kmem
      if ok then
        .ok ((s.proc np).pid, (s.setSpace np new m).modProc np (childOf p (s.proc p)))
      else
        let s ← freeproc (s.setSpace np new m) np
        .ok (-1, s)
  | _, _ => .error .nullPointer

def kfork (s : State) (p : Fin NPROC) : Except Panic (Int × State) := do
  match ← allocproc s with
  | (none, s) => .ok (-1, s)
  | (some np, s) => forkInto s p np

/-- What `wakeup` does to slot `i`. -/
def wakeProc (me : Option (Fin NPROC)) (chan : Chan) (i : Fin NPROC) (p : Proc) : Proc :=
  if some i ≠ me ∧ p.state = .sleeping ∧ p.chan = chan then { p with state := .runnable } else p

/-- `wakeup` called by `me`, or from an interrupt without a process. -/
def wakeup (s : State) (me : Option (Fin NPROC)) (chan : Chan) : State :=
  s.mapProc (wakeProc me chan)

/-- `reparent`: one turn of its loop for each slot. -/
def reparent (s : State) (p : Fin NPROC) : State :=
  (List.finRange NPROC).foldl (fun s pp =>
    if (s.proc pp).parent = some p then
      wakeup (s.modProc pp fun q => { q with parent := some s.initproc }) (some p)
        (.proc s.initproc)
    else s) s

/-- The channel `wakeup(p->parent)` signals. -/
def parentChan : Option (Fin NPROC) → Chan
  | none => .null
  | some i => .proc i

/-- `kexit`, up to its last call of `sched`. -/
def kexit (s : State) (p : Fin NPROC) (status : Int) : Except Panic State :=
  if p = s.initproc then .error .initExiting
  else
    let s := reparent (s.modProc p fun q => { q with ofile := fun _ => none, cwd := none }) p
    let s := wakeup s (some p) (parentChan (s.proc p).parent)
    .ok (s.modProc p fun q => { q with xstate := status, state := .zombie })

def zombieChild (s : State) (p : Fin NPROC) : Option (Fin NPROC) :=
  Fin.find? fun i => decide ((s.proc i).parent = some p ∧ (s.proc i).state = .zombie)

def havekids (s : State) (p : Fin NPROC) : Bool :=
  (Fin.find? fun i => decide ((s.proc i).parent = some p)).isSome

/-- The `copyout`s of a wait call in order, null addresses skipped. -/
def copyouts (sz : Nat) : List Nat → PageTable → Kmem → Except Panic (Bool × PageTable × Kmem)
  | [], own, m => .ok (true, own, m)
  | addr :: rest, own, m =>
      if addr = 0 then copyouts sz rest own m
      else do
        let (ok, own, m) ← copyout sz own none addr 4 m
        if ok then copyouts sz rest own m else .ok (false, own, m)

def reapChild (s : State) (p pp : Fin NPROC) (addrs : List Nat) :
    Except Panic (Option Int × State) :=
  match (s.proc p).pagetable with
  | none => .error .nullPointer
  | some own => do
      let (ok, own, m) ← copyouts (s.proc p).sz addrs own s.kmem
      if ok then
        let t ← freeproc (s.setSpace p own m) pp
        .ok (some (s.proc pp).pid, t)
      else .ok (some (-1), s.setSpace p own m)

/-- `sleep` is over: it clears `chan`. -/
def awake (p : Proc) : Proc := { p with chan := .null }

def asleep (chan : Chan) (p : Proc) : Proc := { p with chan := chan, state := .sleeping }

/-- One turn of the loop shared by `kwait` and `kwait_stat`, which differ in what
they copy out before the child is freed. The result is `none` when the caller
goes to sleep; a caller that was woken starts its next turn by clearing `chan`. -/
def waitTurn (s : State) (p : Fin NPROC) (addrs : List Nat) :
    Except Panic (Option Int × State) :=
  match zombieChild s p with
  | some pp => reapChild (s.modProc p awake) p pp addrs
  | none =>
      if havekids s p = false ∨ (s.proc p).killed ≠ 0 then .ok (some (-1), s.modProc p awake)
      else .ok (none, s.modProc p (asleep (.proc p)))

def kwait (s : State) (p : Fin NPROC) (addr : Nat) : Except Panic (Option Int × State) :=
  waitTurn s p [addr]

def kwaitStat (s : State) (p : Fin NPROC) (wtime rtime status : Nat) :
    Except Panic (Option Int × State) :=
  waitTurn s p [wtime, rtime, status]

def growproc (s : State) (p : Fin NPROC) (n : Int) : Except Panic (Bool × State) :=
  match (s.proc p).pagetable with
  | none => .error .nullPointer
  | some pt =>
      let sz := (s.proc p).sz
      if 0 < n then
        if TRAPFRAME < addU64 sz (toU64 n) then .ok (false, s)
        else do
          let (sz', pt, m) ← uvmalloc pt sz (addU64 sz (toU64 n)) { w := true } s.kmem
          if sz' = 0 then .ok (false, s.setSpace p pt m)
          else .ok (true, (s.setSpace p pt m).modProc p fun q => { q with sz := sz' })
      else if n < 0 then do
        let (sz', pt, m) ← uvmdealloc pt sz (addU64 sz (toU64 n)) s.kmem
        .ok (true, (s.setSpace p pt m).modProc p fun q => { q with sz := sz' })
      else .ok (true, s)

/-- `sys_sbrk` with increment `n` and type `t`. -/
def sysSbrk (s : State) (p : Fin NPROC) (n t : Int) : Except Panic (Nat × State) :=
  let addr := (s.proc p).sz
  if t = SBRK_EAGER ∨ n < 0 then do
    let (ok, s) ← growproc s p n
    .ok (if ok then addr else MINUS1, s)
  else if addU64 addr (toU64 n) < addr then .ok (MINUS1, s)
  else if TRAPFRAME < addU64 addr (toU64 n) then .ok (MINUS1, s)
  else .ok (addr, s.modProc p fun q => { q with sz := addU64 addr (toU64 n) })

/-- A page fault of `p` at `va`: a fault that `vmfault` does not resolve kills
the process (`usertrap`). -/
def pageFault (s : State) (p : Fin NPROC) (va : Nat) : Except Panic State :=
  match (s.proc p).pagetable with
  | none => .error .nullPointer
  | some own => do
      let (pa, own, m) ← vmfault (s.proc p).sz own own va s.kmem
      match pa with
      | some _ => .ok (s.setSpace p own m)
      | none => .ok ((s.setSpace p own m).modProc p fun q => { q with killed := 1 })

/-- The slot that the scans by pid stop at. -/
def pidSlot (s : State) (pid : Int) : Option (Fin NPROC) :=
  Fin.find? fun i => decide ((s.proc i).pid = pid)

def kkill (s : State) (pid : Int) : Int × State :=
  match pidSlot s pid with
  | none => (-1, s)
  | some i =>
      (0, s.modProc i fun p => { p with
        killed := 1
        state := if p.state = .sleeping then .runnable else p.state })

def setpriority (s : State) (pid priority : Int) : Int × State :=
  if priority < 1 ∨ 20 < priority then (-1, s)
  else
    match pidSlot s pid with
    | none => (-1, s)
    | some i => (0, s.modProc i fun p => { p with priority := priority })

def tickProc (p : Proc) : Proc :=
  match p.state with
  | .running => { p with rtime := (p.rtime + 1) % 2 ^ 32 }
  | .runnable => { p with stime := (p.stime + 1) % 2 ^ 32 }
  | _ => p

def updateTimeStats (s : State) : State := s.mapProc fun _ => tickProc

/-- `clockintr` on CPU 0, interrupting process `me` if there is one. -/
def clockintr (s : State) (me : Option (Fin NPROC)) : State :=
  updateTimeStats (wakeup { s with ticks := (s.ticks + 1) % 2 ^ 32 } me .ticks)

end G9OS.Kernel
