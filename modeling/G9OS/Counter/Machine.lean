import G9OS.Kernel.Orphans
import G9OS.Mutex.Lifetime

/-! # A shared counter (`mutexdemo.c`)

Workers that a parent has forked attach to a region the parent has created, and count in
its first word under a mutex. The machine runs them on the kernel and the mutex calls of
the other modules, one instruction or one access of a call at a time, with any other
processes around them. Memory is the first word of every physical page.
-/

namespace G9OS.Counter

open Lib Kernel Mutex

/-- `sizeof(struct shared_counter)`. -/
abbrev counterSize : Int := 4

inductive Place
  | call                    -- about to call `mutex_lock`, or `shm_close` when no turn is left
  | locking                 -- in `mutex_lock`
  | load                    -- about to load the counter
  | store (reg : UInt32)    -- about to store what it has loaded, plus one
  | unlock                  -- about to call `mutex_unlock`
  | unlocking               -- in `mutex_unlock`
deriving DecidableEq, Repr

inductive Role
  | other
  | fresh                                             -- a worker before its `shm_open`
  | looping (addr left : Nat) (place : Place)         -- with `left` turns to finish
  | closed                                            -- after its `shm_close`
  | finished                                          -- after its `exit`
deriving DecidableEq, Repr

/-- What the program is run with: the mutex, the key, the number of turns of each worker, the
parent, and the address of the region in the parent. -/
structure Demo where
  mutex : Fin MAX_MUTEXES
  key : Int
  iterations : Nat
  parent : Fin NPROC
  addr : Nat
  key_pos : 0 < key         -- `shm_open` takes no other

abbrev Mem := PA → UInt32

structure World where
  sys : Sys
  mem : Mem
  role : Fin NPROC → Role
  made : Nat                -- how many workers have been forked

/-- A step that the kernel makes comes with what it does to memory. -/
inductive Label
  | sys (e : Event) (f : Mem → Mem)
  | write (p : Fin NPROC) (va : Nat) (word : UInt32)
  | fork (f : Mem → Mem)
  | attach (p : Fin NPROC) (f : Mem → Mem)
  | lock (p : Fin NPROC)
  | locked (p : Fin NPROC)
  | load (p : Fin NPROC)
  | store (p : Fin NPROC)
  | unlock (p : Fin NPROC)
  | unlocked (p : Fin NPROC)
  | close (p : Fin NPROC) (f : Mem → Mem)
  | exit (p : Fin NPROC) (f : Mem → Mem)

def World.kernel (x : World) : State := x.sys.kernel

/-- The system and the memory have changed. Processes that have been freed have no role any
more. -/
def World.after (x : World) (y : Sys) (f : Mem → Mem) : World :=
  { x with
    sys := y, mem := f x.mem
    role := fun p => if (y.kernel.proc p).state = .unused then .other else x.role p }

def World.become (x : World) (p : Fin NPROC) (r : Role) : World :=
  { x with role := Function.update x.role p r }

@[simp] theorem World.become_self (x : World) (p : Fin NPROC) (r : Role) :
    (x.become p r).role p = r := Function.update_self ..

theorem World.become_of_ne (x : World) {p p' : Fin NPROC} (r : Role) (h : p' ≠ p) :
    (x.become p r).role p' = x.role p' := Function.update_of_ne h ..

/-- The page that process `p`, which runs in user space, finds at an address. -/
def World.page (x : World) (p : Fin NPROC) (va : Nat) : Option PA :=
  if InUser (x.kernel.proc p) then
    (x.kernel.proc p).pagetable.bind fun pt => (walkaddr pt va x.kernel.kmem).toOption.join
  else none

/-- The mutex call of `p` has returned 0 to user space. -/
def World.Returned (x : World) (p : Fin NPROC) : Prop :=
  InUser (x.kernel.proc p) ∧ x.sys.mutex.pc p = .idle ∧ x.sys.mutex.ret p = some 0

instance (x : World) (p : Fin NPROC) : Decidable (x.Returned p) :=
  inferInstanceAs (Decidable (_ ∧ _ ∧ _))

section
variable [Link]

/-- A fork of the parent gives a worker if it succeeds. -/
def World.forked (x : World) (y : Sys) (f : Mem → Mem) : World :=
  match unusedSlot x.kernel with
  | none => x.after y f
  | some w =>
      if (y.kernel.proc w).state = .runnable then
        { (x.after y f).become w .fresh with made := x.made + 1 }
      else x.after y f

def World.next (d : Demo) (x : World) : Label → Option World
  | .sys e f => (x.sys.next e).map fun y => x.after y f
  | .write p va word =>
      (x.page p va).map fun pa => { x with mem := Function.update x.mem pa word }
  | .fork f => (x.sys.next (.kernel (.fork d.parent))).map fun y => x.forked y f
  | .attach p f =>
      if x.role p = .fresh then
        match shmOpen x.kernel p d.key counterSize with
        | .ok (ret, _) =>
            if ret = MINUS1 then none
            else
              (x.sys.next (.kernel (.shmOpen p d.key counterSize))).map fun y =>
                (x.after y f).become p (.looping ret d.iterations .call)
        | .error _ => none
      else none
  | .lock p =>
      match x.role p with
      | .looping a (n + 1) .call =>
          (x.sys.next (.mutex (.lock p d.mutex))).map fun y =>
            (x.after y id).become p (.looping a (n + 1) .locking)
      | _ => none
  | .locked p =>
      match x.role p with
      | .looping a n .locking =>
          if x.Returned p then some (x.become p (.looping a n .load)) else none
      | _ => none
  | .load p =>
      match x.role p with
      | .looping a n .load =>
          (x.page p a).map fun pa => x.become p (.looping a n (.store (x.mem pa)))
      | _ => none
  | .store p =>
      match x.role p with
      | .looping a n (.store reg) =>
          (x.page p a).map fun pa =>
            { x with mem := Function.update x.mem pa (reg + 1) }.become p (.looping a n .unlock)
      | _ => none
  | .unlock p =>
      match x.role p with
      | .looping a n .unlock =>
          (x.sys.next (.mutex (.unlock p d.mutex))).map fun y =>
            (x.after y id).become p (.looping a n .unlocking)
      | _ => none
  | .unlocked p =>
      match x.role p with
      | .looping a (n + 1) .unlocking =>
          if x.Returned p then some (x.become p (.looping a n .call)) else none
      | _ => none
  | .close p f =>
      match x.role p with
      | .looping _ 0 .call =>
          (x.sys.next (.kernel (.shmClose p d.key))).map fun y => (x.after y f).become p .closed
      | _ => none
  | .exit p f =>
      if x.role p = .closed then
        (x.sys.next (.kernel (.exit p 0))).map fun y => (x.after y f).become p .finished
      else none

/-! ## What may happen -/

/-- Pages that are free or hold page tables and trapframes. -/
def KernelPage (s : State) (q : PA) : Prop :=
  q ∈ s.kmem ∨ ∃ p, (s.proc p).trapframe = some q ∨
    ∃ pt, (s.proc p).pagetable = some pt ∧ 0 < pt.tables q

/-- The process whose memory a call copies results to. -/
def copiesTo : Op → Option (Fin NPROC)
  | .wait p addr => if addr = 0 then none else some p
  | .waitStat p _ _ _ => some p
  | _ => none

/-- A step of the kernel leaves the contents of all pages alone but those it uses itself, before
or after the step, and those it copies results to. -/
def Preserves (s t : State) (op : Op) (mem mem' : Mem) : Prop :=
  ∀ q, ¬ KernelPage s q → ¬ KernelPage t q →
    (∀ u ∈ [s, t], ∀ p pt v, copiesTo op = some p → (u.proc p).pagetable = some pt →
      pt.mapped v ≠ some q) → mem' q = mem q

/-- What the kernel does to memory in this step is something that it can do. -/
def World.Leaves (x : World) (op : Op) (f : Mem → Mem) : Prop :=
  ∀ y, x.sys.next (.kernel op) = some y → Preserves x.kernel y.kernel op x.mem (f x.mem)

/-- What the kernel may do next. Faults, interrupts and the scheduler come at any time. The parent
waits, and the workers do nothing that is not in their program. Other processes
do as they like, except that they do not attach to the region and free no page of a
region in use. -/
inductive MayDo (d : Demo) (x : World) : Op → Prop
  | nobody {op : Op} : caller op = none → MayDo d x op
  | fault (p : Fin NPROC) (va : Nat) : MayDo d x (.pageFault p va)
  | waits : (∀ c, zombieChild x.kernel d.parent = some c → x.role c = .other →
      Unshared x.kernel c (userPages (x.kernel.proc c).sz)) → MayDo d x (.wait d.parent 0)
  | other {op : Op} {p : Fin NPROC} : caller op = some p → p ≠ d.parent → x.role p = .other →
      Careful x.kernel op → (∀ size, op ≠ .shmOpen p d.key size) → MayDo d x op

/-- Other processes use other mutexes. -/
def MayUse (d : Demo) (x : World) : Act (Fin NPROC) → Prop
  | .init p => x.role p = .other
  | .lock p id | .unlock p id => x.role p = .other ∧ slotOf id ≠ some d.mutex
  | .step _ => True

/-- The steps of a run. A worker starts with no attachments, and no process stores to the counter
but by the program. -/
def Allowed (d : Demo) (x : World) : Label → Prop
  | .sys (.kernel op) f => MayDo d x op ∧ x.Leaves op f
  | .sys (.mutex a) f => MayUse d x a ∧ f x.mem = x.mem
  | .write p va _ => ∀ j, ((x.kernel.proc p).shm j).key = d.key →
      va / PGSIZE ≠ ((x.kernel.proc p).shm j).uva / PGSIZE
  | .fork f => (∀ w, unusedSlot x.kernel = some w → Detached (x.kernel.proc w)) ∧
      x.Leaves (.fork d.parent) f
  | .attach p f => x.Leaves (.shmOpen p d.key counterSize) f
  | .close p f => x.Leaves (.shmClose p d.key) f
  | .exit p f => x.Leaves (.exit p 0) f
  | .lock _ | .locked _ | .load _ | .store _ | .unlock _ | .unlocked _ => True

def CarefulEvent (x : Sys) : Event → Prop
  | .kernel op => Careful x.kernel op
  | .mutex _ => True

/-- The parent has set up the mutex and created the region, whose first word is zero; nobody else
is attached to the region or inside a call for the mutex. -/
structure Start (d : Demo) (x : World) : Prop where
  history : Reach Sys.next CarefulEvent Sys.Booted x.sys
  attached : ∃ j, ((x.kernel.proc d.parent).shm j).key = d.key ∧
    ((x.kernel.proc d.parent).shm j).uva = d.addr
  alone : ∀ p j, ((x.kernel.proc p).shm j).key = d.key → p = d.parent
  zeroed : ∀ r, (x.kernel.shmTable r).key = d.key → x.mem ((x.kernel.shmTable r).pages 0) = 0
  valid : (x.sys.mutex.table d.mutex).valid ≠ 0
  free : (x.sys.mutex.table d.mutex).locked = 0 ∧ (x.sys.mutex.table d.mutex).ownerPid = 0
  outside : ∀ p, (x.sys.mutex.pc p).slot ≠ some d.mutex ∧ x.sys.mutex.held p d.mutex = false
  roles : ∀ p, x.role p = .other
  made : x.made = 0

/-! ## What one step is -/

inductive WorldStep (d : Demo) (x : World) : Label → World → Prop
  | sys {e : Event} {f : Mem → Mem} {y : Sys} : x.sys.next e = some y →
      WorldStep d x (.sys e f) (x.after y f)
  | write {p : Fin NPROC} {va : Nat} {word : UInt32} {pa : PA} : x.page p va = some pa →
      WorldStep d x (.write p va word) { x with mem := Function.update x.mem pa word }
  | fork {f : Mem → Mem} {y : Sys} : x.sys.next (.kernel (.fork d.parent)) = some y →
      WorldStep d x (.fork f) (x.forked y f)
  | attach {p : Fin NPROC} {f : Mem → Mem} {ret : Nat} {s : State} {y : Sys} :
      x.role p = .fresh → shmOpen x.kernel p d.key counterSize = .ok (ret, s) → ret ≠ MINUS1 →
      x.sys.next (.kernel (.shmOpen p d.key counterSize)) = some y →
      WorldStep d x (.attach p f) ((x.after y f).become p (.looping ret d.iterations .call))
  | lock {p : Fin NPROC} {a n : Nat} {y : Sys} : x.role p = .looping a (n + 1) .call →
      x.sys.next (.mutex (.lock p d.mutex)) = some y →
      WorldStep d x (.lock p) ((x.after y id).become p (.looping a (n + 1) .locking))
  | locked {p : Fin NPROC} {a n : Nat} : x.role p = .looping a n .locking → x.Returned p →
      WorldStep d x (.locked p) (x.become p (.looping a n .load))
  | load {p : Fin NPROC} {a n : Nat} {pa : PA} : x.role p = .looping a n .load →
      x.page p a = some pa →
      WorldStep d x (.load p) (x.become p (.looping a n (.store (x.mem pa))))
  | store {p : Fin NPROC} {a n : Nat} {reg : UInt32} {pa : PA} :
      x.role p = .looping a n (.store reg) → x.page p a = some pa →
      WorldStep d x (.store p)
        ({ x with mem := Function.update x.mem pa (reg + 1) }.become p (.looping a n .unlock))
  | unlock {p : Fin NPROC} {a n : Nat} {y : Sys} : x.role p = .looping a n .unlock →
      x.sys.next (.mutex (.unlock p d.mutex)) = some y →
      WorldStep d x (.unlock p) ((x.after y id).become p (.looping a n .unlocking))
  | unlocked {p : Fin NPROC} {a n : Nat} : x.role p = .looping a (n + 1) .unlocking →
      x.Returned p → WorldStep d x (.unlocked p) (x.become p (.looping a n .call))
  | close {p : Fin NPROC} {f : Mem → Mem} {a : Nat} {y : Sys} : x.role p = .looping a 0 .call →
      x.sys.next (.kernel (.shmClose p d.key)) = some y →
      WorldStep d x (.close p f) ((x.after y f).become p .closed)
  | exit {p : Fin NPROC} {f : Mem → Mem} {y : Sys} : x.role p = .closed →
      x.sys.next (.kernel (.exit p 0)) = some y →
      WorldStep d x (.exit p f) ((x.after y f).become p .finished)

theorem World.next_step {d : Demo} {x y : World} {l : Label} (h : x.next d l = some y) :
    WorldStep d x l y := by
  cases l with
  | sys e f =>
      obtain ⟨z, hz, rfl⟩ := Option.map_eq_some_iff.1 h
      exact .sys hz
  | write p va word =>
      obtain ⟨pa, hpa, rfl⟩ := Option.map_eq_some_iff.1 h
      exact .write hpa
  | fork f =>
      obtain ⟨z, hz, rfl⟩ := Option.map_eq_some_iff.1 h
      exact .fork hz
  | attach p f =>
      simp only [World.next] at h
      split at h
      · rename_i hr
        split at h
        · rename_i ret s hs
          split at h
          · cases h
          · rename_i hret
            obtain ⟨z, hz, rfl⟩ := Option.map_eq_some_iff.1 h
            exact .attach hr hs hret hz
        · cases h
      · cases h
  | lock p =>
      simp only [World.next] at h
      split at h
      · rename_i a n hr
        obtain ⟨z, hz, rfl⟩ := Option.map_eq_some_iff.1 h
        exact .lock hr hz
      · cases h
  | locked p =>
      simp only [World.next] at h
      split at h
      · rename_i a n hr
        split at h
        · rename_i hret
          cases h
          exact .locked hr hret
        · cases h
      · cases h
  | load p =>
      simp only [World.next] at h
      split at h
      · rename_i a n hr
        obtain ⟨pa, hpa, rfl⟩ := Option.map_eq_some_iff.1 h
        exact .load hr hpa
      · cases h
  | store p =>
      simp only [World.next] at h
      split at h
      · rename_i a n reg hr
        obtain ⟨pa, hpa, rfl⟩ := Option.map_eq_some_iff.1 h
        exact .store hr hpa
      · cases h
  | unlock p =>
      simp only [World.next] at h
      split at h
      · rename_i a n hr
        obtain ⟨z, hz, rfl⟩ := Option.map_eq_some_iff.1 h
        exact .unlock hr hz
      · cases h
  | unlocked p =>
      simp only [World.next] at h
      split at h
      · rename_i a n hr
        split at h
        · rename_i hret
          cases h
          exact .unlocked hr hret
        · cases h
      · cases h
  | close p f =>
      simp only [World.next] at h
      split at h
      · rename_i a hr
        obtain ⟨z, hz, rfl⟩ := Option.map_eq_some_iff.1 h
        exact .close hr hz
      · cases h
  | exit p f =>
      simp only [World.next] at h
      split at h
      · rename_i hr
        obtain ⟨z, hz, rfl⟩ := Option.map_eq_some_iff.1 h
        exact .exit hr hz
      · cases h

end

end G9OS.Counter
