import G9OS.Lib.Runs

/-! # User mutexes (`mutex.h`, `sysproc.c`)

The mutex calls run without a lock of their own, so a process can be interrupted
between any two of their accesses to `mutextable`. A process inside a call is at
one such access, its `Pc`, and one step of the machine makes that access. Two
records are kept beside what the code keeps: who holds which mutex, from the
return of `mutex_lock` until the owner check of the `mutex_unlock` that gives it
up, and which slots the calls of `mutex_init` have returned.
-/

namespace G9OS.Mutex

open Lib

abbrev MAX_MUTEXES : Nat := 16

instance : NeZero MAX_MUTEXES := ⟨by decide⟩

structure UMutex where
  valid : Int := 0
  locked : Int := 0
  ownerPid : Int := 0
deriving DecidableEq, Repr

/-- The access to the table that a process makes next. -/
inductive Pc
  | idle
  | initScan (i : Nat)                    -- load `valid` in the scan of `mutex_init`
  | initValid (i : Fin MAX_MUTEXES)       -- `valid = 1`
  | initLocked (i : Fin MAX_MUTEXES)      -- `locked = 0`
  | initOwner (i : Fin MAX_MUTEXES)       -- `owner_pid = 0`, and return
  | lockValid (i : Fin MAX_MUTEXES)       -- load `valid` in `mutex_lock`
  | lockTry (i : Fin MAX_MUTEXES)         -- test and set `locked`
  | lockOwner (i : Fin MAX_MUTEXES)       -- `owner_pid = myproc()->pid`, and return
  | unlockValid (i : Fin MAX_MUTEXES)     -- load `valid` in `mutex_unlock`
  | unlockOwner (i : Fin MAX_MUTEXES)     -- load `owner_pid`
  | unlockClear (i : Fin MAX_MUTEXES)     -- `owner_pid = 0`
  | unlockRelease (i : Fin MAX_MUTEXES)   -- release `locked`, and return
deriving DecidableEq, Repr

structure MState (P : Type) where
  table : Fin MAX_MUTEXES → UMutex
  pc : P → Pc
  ret : P → Option Int
  held : P → Fin MAX_MUTEXES → Bool
  inited : List (Fin MAX_MUTEXES)

/-- `mutexinit`, and all processes outside of the calls. -/
def MState.boot (P : Type) : MState P :=
  ⟨fun _ => {}, fun _ => .idle, fun _ => none, fun _ _ => false, []⟩

inductive Act (P : Type)
  | init (p : P)
  | lock (p : P) (id : Int)
  | unlock (p : P) (id : Int)
  | step (p : P)

def Act.actor {P : Type} : Act P → P
  | .init p | .lock p _ | .unlock p _ | .step p => p

/-- The range check of the calls that take an id. -/
def slotOf (id : Int) : Option (Fin MAX_MUTEXES) :=
  if h : 0 ≤ id ∧ id < MAX_MUTEXES then some ⟨id.toNat, by omega⟩ else none

section
variable {P : Type}

def MState.store (s : MState P) (i : Fin MAX_MUTEXES) (f : UMutex → UMutex) : MState P :=
  { s with table := Function.update s.table i (f (s.table i)) }

theorem MState.store_table (s : MState P) (i j : Fin MAX_MUTEXES)
    (f : UMutex → UMutex) :
    (s.store i f).table j = if j = i then f (s.table i) else s.table j := Function.update_apply ..

@[simp] theorem MState.store_pc (s : MState P) (i : Fin MAX_MUTEXES)
    (f : UMutex → UMutex) : (s.store i f).pc = s.pc := rfl

@[simp] theorem MState.store_held (s : MState P) (i : Fin MAX_MUTEXES)
    (f : UMutex → UMutex) : (s.store i f).held = s.held := rfl

@[simp] theorem MState.store_inited (s : MState P) (i : Fin MAX_MUTEXES)
    (f : UMutex → UMutex) : (s.store i f).inited = s.inited := rfl

variable [DecidableEq P]

def MState.go (s : MState P) (p : P) (c : Pc) : MState P :=
  { s with pc := Function.update s.pc p c }

def MState.finish (s : MState P) (p : P) (r : Int) : MState P :=
  { s with pc := Function.update s.pc p .idle, ret := Function.update s.ret p (some r) }

def MState.setHeld (s : MState P) (p : P) (i : Fin MAX_MUTEXES) (b : Bool) : MState P :=
  { s with held := Function.update s.held p (Function.update (s.held p) i b) }

@[simp] theorem MState.go_table (s : MState P) (p : P) (c : Pc) :
    (s.go p c).table = s.table := rfl

@[simp] theorem MState.go_held (s : MState P) (p : P) (c : Pc) :
    (s.go p c).held = s.held := rfl

@[simp] theorem MState.go_inited (s : MState P) (p : P) (c : Pc) :
    (s.go p c).inited = s.inited := rfl

theorem MState.go_pc (s : MState P) (p q : P) (c : Pc) :
    (s.go p c).pc q = if q = p then c else s.pc q := Function.update_apply ..

@[simp] theorem MState.finish_table (s : MState P) (p : P) (r : Int) :
    (s.finish p r).table = s.table := rfl

@[simp] theorem MState.finish_held (s : MState P) (p : P) (r : Int) :
    (s.finish p r).held = s.held := rfl

@[simp] theorem MState.finish_inited (s : MState P) (p : P) (r : Int) :
    (s.finish p r).inited = s.inited := rfl

theorem MState.finish_pc (s : MState P) (p q : P) (r : Int) :
    (s.finish p r).pc q = if q = p then .idle else s.pc q := Function.update_apply ..

@[simp] theorem MState.setHeld_table (s : MState P) (p : P) (i : Fin MAX_MUTEXES)
    (b : Bool) : (s.setHeld p i b).table = s.table := rfl

@[simp] theorem MState.setHeld_pc (s : MState P) (p : P) (i : Fin MAX_MUTEXES)
    (b : Bool) : (s.setHeld p i b).pc = s.pc := rfl

@[simp] theorem MState.setHeld_inited (s : MState P) (p : P) (i : Fin MAX_MUTEXES)
    (b : Bool) : (s.setHeld p i b).inited = s.inited := rfl

theorem MState.setHeld_held (s : MState P) (p q : P) (i j : Fin MAX_MUTEXES)
    (b : Bool) : (s.setHeld p i b).held q j = if q = p ∧ j = i then b else s.held q j := by
  unfold MState.setHeld
  by_cases hq : q = p
  · subst hq
    simp [Function.update_apply]
  · simp [hq]

def access (pid : Int) (s : MState P) (p : P) : Option (MState P) :=
  match s.pc p with
  | .idle => none
  | .initScan k =>
      if h : k < MAX_MUTEXES then
        if (s.table ⟨k, h⟩).valid = 0 then some (s.go p (.initValid ⟨k, h⟩))
        else some (s.go p (.initScan (k + 1)))
      else some (s.finish p (-1))
  | .initValid i => some ((s.store i fun m => { m with valid := 1 }).go p (.initLocked i))
  | .initLocked i => some ((s.store i fun m => { m with locked := 0 }).go p (.initOwner i))
  | .initOwner i =>
      some (({ s with inited := i :: s.inited }.store i fun m => { m with ownerPid := 0 }).finish p i)
  | .lockValid i =>
      if (s.table i).valid = 0 then some (s.finish p (-1)) else some (s.go p (.lockTry i))
  | .lockTry i =>
      some ((s.store i fun m => { m with locked := 1 }).go p
        (if (s.table i).locked = 0 then .lockOwner i else .lockTry i))
  | .lockOwner i =>
      some (((s.store i fun m => { m with ownerPid := pid }).setHeld p i true).finish p 0)
  | .unlockValid i =>
      if (s.table i).valid = 0 then some (s.finish p (-1)) else some (s.go p (.unlockOwner i))
  | .unlockOwner i =>
      if (s.table i).ownerPid = pid then some ((s.setHeld p i false).go p (.unlockClear i))
      else some (s.finish p (-1))
  | .unlockClear i => some ((s.store i fun m => { m with ownerPid := 0 }).go p (.unlockRelease i))
  | .unlockRelease i => some ((s.store i fun m => { m with locked := 0 }).finish p 0)

def enter (s : MState P) (p : P) (id : Int) (c : Fin MAX_MUTEXES → Pc) : MState P :=
  match slotOf id with
  | none => s.finish p (-1)
  | some i => s.go p (c i)

def next (pid : P → Int) (s : MState P) : Act P → Option (MState P)
  | .init p => if s.pc p = .idle then some (s.go p (.initScan 0)) else none
  | .lock p id => if s.pc p = .idle then some (enter s p id .lockValid) else none
  | .unlock p id => if s.pc p = .idle then some (enter s p id .unlockValid) else none
  | .step p => access (pid p) s p

/-! ## What one step does -/

inductive Move (pid : Int) (s : MState P) (p : P) : MState P → Prop
  | enterInit : s.pc p = .idle → Move pid s p (s.go p (.initScan 0))
  | enterLock {i} : s.pc p = .idle → Move pid s p (s.go p (.lockValid i))
  | enterUnlock {i} : s.pc p = .idle → Move pid s p (s.go p (.unlockValid i))
  | badId : s.pc p = .idle → Move pid s p (s.finish p (-1))
  | scanned {k} : s.pc p = .initScan k → Move pid s p (s.go p (.initScan (k + 1)))
  | full {k} : s.pc p = .initScan k → Move pid s p (s.finish p (-1))
  | found {i : Fin MAX_MUTEXES} : s.pc p = .initScan i → (s.table i).valid = 0 →
      Move pid s p (s.go p (.initValid i))
  | setValid {i} : s.pc p = .initValid i →
      Move pid s p ((s.store i fun m => { m with valid := 1 }).go p (.initLocked i))
  | clearLocked {i} : s.pc p = .initLocked i →
      Move pid s p ((s.store i fun m => { m with locked := 0 }).go p (.initOwner i))
  | clearOwner {i} : s.pc p = .initOwner i →
      Move pid s p
        (({ s with inited := i :: s.inited }.store i fun m => { m with ownerPid := 0 }).finish p i)
  | lockInvalid {i} : s.pc p = .lockValid i → (s.table i).valid = 0 →
      Move pid s p (s.finish p (-1))
  | unlockInvalid {i} : s.pc p = .unlockValid i → (s.table i).valid = 0 →
      Move pid s p (s.finish p (-1))
  | mayTry {i} : s.pc p = .lockValid i → (s.table i).valid ≠ 0 → Move pid s p (s.go p (.lockTry i))
  | spins {i} : s.pc p = .lockTry i → (s.table i).locked ≠ 0 →
      Move pid s p ((s.store i fun m => { m with locked := 1 }).go p (.lockTry i))
  | takes {i} : s.pc p = .lockTry i → (s.table i).locked = 0 →
      Move pid s p ((s.store i fun m => { m with locked := 1 }).go p (.lockOwner i))
  | owns {i} : s.pc p = .lockOwner i →
      Move pid s p (((s.store i fun m => { m with ownerPid := pid }).setHeld p i true).finish p 0)
  | mayUnlock {i} : s.pc p = .unlockValid i → (s.table i).valid ≠ 0 →
      Move pid s p (s.go p (.unlockOwner i))
  | notOwner {i} : s.pc p = .unlockOwner i → (s.table i).ownerPid ≠ pid →
      Move pid s p (s.finish p (-1))
  | gives {i} : s.pc p = .unlockOwner i → (s.table i).ownerPid = pid →
      Move pid s p ((s.setHeld p i false).go p (.unlockClear i))
  | clears {i} : s.pc p = .unlockClear i →
      Move pid s p ((s.store i fun m => { m with ownerPid := 0 }).go p (.unlockRelease i))
  | releases {i} : s.pc p = .unlockRelease i →
      Move pid s p ((s.store i fun m => { m with locked := 0 }).finish p 0)

variable {s t : MState P} {p q : P} {i : Fin MAX_MUTEXES}

theorem Move.pc_others {pid : Int} (hm : Move pid s p t) (hq : q ≠ p) : t.pc q = s.pc q := by
  cases hm <;> simp [MState.go_pc, MState.finish_pc, hq]

def Pc.slot : Pc → Option (Fin MAX_MUTEXES)
  | .idle | .initScan _ => none
  | .initValid i | .initLocked i | .initOwner i | .lockValid i | .lockTry i | .lockOwner i
  | .unlockValid i | .unlockOwner i | .unlockClear i | .unlockRelease i => some i

/-- A step writes to no slot but the one its process is working on. -/
theorem Move.table_other {pid : Int} (hm : Move pid s p t) (hi : (s.pc p).slot ≠ some i) :
    t.table i = s.table i := by
  cases hm <;> simp_all [MState.store_table, Pc.slot, eq_comm]

theorem Move.held_other {pid : Int} (hm : Move pid s p t) (hi : (s.pc p).slot ≠ some i) :
    t.held q i = s.held q i := by
  cases hm <;> simp_all [MState.setHeld_held, Pc.slot, eq_comm]

theorem access_move {pid : Int} (h : access pid s p = some t) : Move pid s p t := by
  unfold access at h
  split at h
  · cases h
  · rename_i k hpc
    split at h
    · split at h
      · rename_i hk hv
        cases h
        exact .found hpc hv
      · cases h
        exact .scanned hpc
    · cases h
      exact .full hpc
  · rename_i i hpc
    cases h
    exact .setValid hpc
  · rename_i i hpc
    cases h
    exact .clearLocked hpc
  · rename_i i hpc
    cases h
    exact .clearOwner hpc
  · rename_i i hpc
    split at h
    · rename_i hv
      cases h
      exact .lockInvalid hpc hv
    · rename_i hv
      cases h
      exact .mayTry hpc hv
  · rename_i i hpc
    cases h
    split
    · rename_i hl
      exact .takes hpc hl
    · rename_i hl
      exact .spins hpc hl
  · rename_i i hpc
    cases h
    exact .owns hpc
  · rename_i i hpc
    split at h
    · rename_i hv
      cases h
      exact .unlockInvalid hpc hv
    · rename_i hv
      cases h
      exact .mayUnlock hpc hv
  · rename_i i hpc
    split at h
    · rename_i ho
      cases h
      exact .gives hpc ho
    · rename_i ho
      cases h
      exact .notOwner hpc ho
  · rename_i i hpc
    cases h
    exact .clears hpc
  · rename_i i hpc
    cases h
    exact .releases hpc

theorem next_move {pid : P → Int} {a : Act P} (h : next pid s a = some t) :
    Move (pid a.actor) s a.actor t := by
  cases a with
  | init p =>
      simp only [next] at h
      split at h
      · rename_i hpc
        cases h
        exact .enterInit hpc
      · cases h
  | lock p id =>
      simp only [next, enter] at h
      split at h
      · rename_i hpc
        split at h
        · cases h
          exact .badId hpc
        · cases h
          exact .enterLock hpc
      · cases h
  | unlock p id =>
      simp only [next, enter] at h
      split at h
      · rename_i hpc
        split at h
        · cases h
          exact .badId hpc
        · cases h
          exact .enterUnlock hpc
      · cases h
  | step p => exact access_move h

theorem next_step {pid : P → Int} {a : Act P} (h : next pid s a = some t)
    (hidle : s.pc a.actor ≠ .idle) : a = .step a.actor := by
  cases a with
  | step p => rfl
  | init p | lock p id | unlock p id =>
      change s.pc p ≠ .idle at hidle
      rw [next, if_neg hidle] at h
      cases h

end

end G9OS.Mutex
