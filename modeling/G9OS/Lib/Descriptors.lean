import Mathlib

/-! # Descriptor tables

The open files of a process, by number. A new descriptor takes the lowest free number,
`dup2` copies one over another, and closing a free number does nothing.
-/

namespace G9OS.Lib

/-- A descriptor table over objects of type `α`. -/
structure Table (α : Type) where
  obj : Nat → Option α
  bound : Nat
  free : ∀ fd, bound ≤ fd → obj fd = none

namespace Table

variable {α β : Type}

def lowest (t : Table α) : Nat :=
  ((List.range t.bound).find? fun fd => (t.obj fd).isNone).getD t.bound

def set (t : Table α) (fd : Nat) (a : α) : Table α where
  obj := Function.update t.obj fd (some a)
  bound := max t.bound (fd + 1)
  free := fun i hi => by
    rw [Function.update_of_ne (by omega)]
    exact t.free i (by omega)

def close (t : Table α) (fd : Nat) : Table α where
  obj := Function.update t.obj fd none
  bound := t.bound
  free := fun i hi => by
    by_cases h : i = fd
    · rw [h, Function.update_self]
    · rw [Function.update_of_ne h]
      exact t.free i hi

def closeAll (t : Table α) (fds : List Nat) : Table α := fds.foldl close t

def alloc (t : Table α) (a : α) : Nat × Table α := (t.lowest, t.set t.lowest a)

/-- `dup2`, which fails if `old` is not open. -/
def dup2 (t : Table α) (old new : Nat) : Table α :=
  match t.obj old with
  | none => t
  | some a => t.set new a

def map (f : α → β) (t : Table α) : Table β where
  obj := fun fd => (t.obj fd).map f
  bound := t.bound
  free := fun fd h => by rw [t.free fd h, Option.map_none]

variable {t : Table α} {fd i old new : Nat} {a : α}

@[simp] theorem obj_set : (t.set fd a).obj i = if i = fd then some a else t.obj i :=
  Function.update_apply ..

@[simp] theorem obj_close : (t.close fd).obj i = if i = fd then none else t.obj i :=
  Function.update_apply ..

theorem obj_closeAll (t : Table α) (fds : List Nat) (i : Nat) :
    (t.closeAll fds).obj i = if i ∈ fds then none else t.obj i := by
  induction fds generalizing t with
  | nil => simp [closeAll]
  | cons fd fds ih =>
      show ((t.close fd).closeAll fds).obj i = _
      rw [ih, obj_close]
      by_cases h1 : i ∈ fds
      · simp [h1]
      · by_cases h2 : i = fd
        · simp [h2]
        · simp [h1, h2]

theorem obj_lowest (t : Table α) : t.obj t.lowest = none := by
  unfold lowest
  cases h : (List.range t.bound).find? fun fd => (t.obj fd).isNone with
  | none => exact t.free _ le_rfl
  | some fd =>
      have := List.find?_some h
      simpa using this

end Table

end G9OS.Lib
