import Mathlib

/-! # Redo logs

A store that survives a crash, with a list of places whose new contents lie in slots of the same
store. `redo` is the store that reinstalling the list leaves. Reinstalling one entry after the
other does not change it, so it may stop anywhere and begin again.
-/

namespace G9OS.Lib

variable {A D : Type} [DecidableEq A]

/-- The contents after all entries of the list are installed; the new contents of entry
number `i` are in `slot i`. -/
def redo (slot : Nat → A) (list : List A) (disk : A → D) (a : A) : D :=
  if a ∈ list then disk (slot (list.idxOf a)) else disk a

section
variable {slot : Nat → A} {list : List A} {disk : A → D} {a : A} {i : Nat} {d : D}

@[simp] theorem redo_nil : redo slot [] disk a = disk a := if_neg List.not_mem_nil

theorem redo_of_notMem (h : a ∉ list) : redo slot list disk a = disk a := if_neg h

theorem redo_getElem (hnodup : list.Nodup) (hi : list[i]? = some a) :
    redo slot list disk a = disk (slot i) := by
  obtain ⟨hlt, rfl⟩ := List.getElem?_eq_some_iff.1 hi
  rw [redo, if_pos (List.getElem_mem hlt), List.Nodup.idxOf_getElem hnodup i hlt]

theorem redo_eq {want : A → D} (hnodup : list.Nodup)
    (hslots : ∀ i a, list[i]? = some a → disk (slot i) = want a)
    (hrest : a ∉ list → disk a = want a) : redo slot list disk a = want a := by
  by_cases ha : a ∈ list
  · obtain ⟨i, hi⟩ := List.mem_iff_getElem?.1 ha
    rw [redo_getElem hnodup hi, hslots i a hi]
  · rw [redo_of_notMem ha, hrest ha]

/-- To install an entry, again or for the first time, changes nothing. -/
theorem redo_install (hslot : ∀ i, i < list.length → slot i ∉ list) {b : A}
    (hb : b ∈ list) :
    redo slot list (Function.update disk b d) a = redo slot list disk a := by
  by_cases ha : a ∈ list
  · have hne : slot (list.idxOf a) ≠ b := by
      rintro rfl
      exact hslot _ (List.idxOf_lt_length_of_mem ha) hb
    rw [redo, redo, if_pos ha, if_pos ha, Function.update_of_ne hne]
  · have hab : a ≠ b := by
      rintro rfl
      exact ha hb
    rw [redo_of_notMem ha, redo_of_notMem ha, Function.update_of_ne hab]

theorem redo_installed (hnodup : list.Nodup)
    (hdone : ∀ i a, list[i]? = some a → disk a = disk (slot i)) :
    redo slot list disk a = disk a := by
  apply redo_eq hnodup
  · intro i a hi
    exact (hdone i a hi).symm
  · intro _
    rfl

end

/-! ## Atomic groups of operations

What such a log is for: operations write to a common view, and only a moment at which no operation
is under way can become the stable state that a crash falls back to. -/

@[ext]
structure Atomic (P A D : Type) where
  stable : A → D
  view : A → D
  active : P → Bool

inductive AtomicAct (P A D : Type)
  | enter (p : P)
  | write (p : P) (a : A) (d : D)
  | leave (p : P)
  | commit
  | crash

inductive Atomic.Step {P A D : Type} [DecidableEq P] [DecidableEq A] :
    Atomic P A D → AtomicAct P A D → Atomic P A D → Prop
  | enter {s : Atomic P A D} {p : P} (h : s.active p = false) :
      Step s (.enter p) { s with active := Function.update s.active p true }
  | write {s : Atomic P A D} {p : P} {a : A} {d : D} (h : s.active p = true) :
      Step s (.write p a d) { s with view := Function.update s.view a d }
  | leave {s : Atomic P A D} {p : P} (h : s.active p = true) :
      Step s (.leave p) { s with active := Function.update s.active p false }
  | commit {s : Atomic P A D} (h : ∀ p, s.active p = false) :
      Step s .commit { s with stable := s.view }
  | crash {s : Atomic P A D} :
      Step s .crash { s with view := s.stable, active := fun _ => false }

end G9OS.Lib
