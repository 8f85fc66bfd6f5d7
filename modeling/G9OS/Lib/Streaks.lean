import Mathlib

/-! # Maximal runs in a list

A streak is a stretch of positions whose entries all satisfy a predicate, and which cannot be
extended on either side. The number of streaks is found in one pass over the list: a new one
begins with every such entry behind none.
-/

namespace G9OS.Lib

section
variable {α : Type} (p : α → Bool)

def HasAt (l : List α) (k : Nat) : Prop := ∃ a, l[k]? = some a ∧ p a = true

/-- The positions from `i` on and in front of `j` are a maximal run. -/
structure Streak (l : List α) (i j : Nat) : Prop where
  lt : i < j
  all : ∀ k, i ≤ k → k < j → HasAt p l k
  left : ∀ k, k + 1 = i → ¬ HasAt p l k
  right : ¬ HasAt p l j

structure Begins (l : List α) (i : Nat) : Prop where
  has : HasAt p l i
  left : ∀ k, k + 1 = i → ¬ HasAt p l k

noncomputable def streaks (l : List α) : Nat := {r : Nat × Nat | Streak p l r.1 r.2}.ncard

def endsIn (l : List α) : Bool := l.getLast?.any p

end

section
variable {α : Type} {p : α → Bool} {l : List α} {a : α} {i j k : Nat}

theorem HasAt.lt (h : HasAt p l k) : k < l.length := by
  obtain ⟨a, ha, -⟩ := h
  exact (List.getElem?_eq_some_iff.1 ha).1

theorem hasAt_concat : HasAt p (l ++ [a]) k ↔ HasAt p l k ∨ k = l.length ∧ p a = true := by
  unfold HasAt
  rcases lt_trichotomy k l.length with hlt | rfl | hgt
  · rw [List.getElem?_append_left hlt]
    exact ⟨.inl, fun h => h.resolve_right fun he => hlt.ne he.1⟩
  · simp
  · have hnone : (l ++ [a])[k]? = none := List.getElem?_eq_none (by simp; omega)
    have hnone' : l[k]? = none := List.getElem?_eq_none hgt.le
    rw [hnone, hnone']
    simp [hgt.ne']

theorem endsIn_concat (p : α → Bool) (l : List α) (a : α) : endsIn p (l ++ [a]) = p a := by
  simp [endsIn]

theorem endsIn_iff : endsIn p l = true ↔ ∃ k, k + 1 = l.length ∧ HasAt p l k := by
  induction l using List.reverseRecOn with
  | nil => simp [endsIn]
  | append_singleton l b =>
      rw [endsIn_concat]
      constructor
      · intro hb
        exact ⟨l.length, by simp, hasAt_concat.2 (.inr ⟨rfl, hb⟩)⟩
      · rintro ⟨k, hk, h⟩
        rw [List.length_append, List.length_singleton, Nat.add_right_cancel_iff] at hk
        rcases hasAt_concat.1 h with hlt | ⟨-, hb⟩
        · exact absurd hlt.lt (by omega)
        · exact hb

theorem Streak.begins (h : Streak p l i j) : Begins p l i := ⟨h.all i le_rfl h.lt, h.left⟩

/-- A run that begins has an end: the first position behind it that does not belong to it. -/
theorem Begins.streak (h : Begins p l i) : ∃ j, Streak p l i j := by
  classical
  have hex : ∃ j, i < j ∧ ¬ HasAt p l j := ⟨l.length, h.has.lt, fun hn => lt_irrefl _ hn.lt⟩
  refine ⟨Nat.find hex, (Nat.find_spec hex).1, fun k hik hk => ?_, h.left, (Nat.find_spec hex).2⟩
  by_cases he : k = i
  · exact he ▸ h.has
  · by_contra hno
    exact Nat.find_min hex hk ⟨by omega, hno⟩

theorem Streak.end_unique {j' : Nat} (h : Streak p l i j) (h' : Streak p l i j') : j = j' := by
  rcases lt_trichotomy j j' with hlt | he | hgt
  · exact absurd (h'.all j h.lt.le hlt) h.right
  · exact he
  · exact absurd (h.all j' h'.lt.le hgt) h'.right

theorem streaks_eq (p : α → Bool) (l : List α) : streaks p l = {i | Begins p l i}.ncard := by
  have hinj : Set.InjOn Prod.fst {r : Nat × Nat | Streak p l r.1 r.2} := by
    rintro ⟨i, j⟩ h ⟨i', j'⟩ h' he
    obtain rfl : i = i' := he
    exact congrArg (Prod.mk i) (Streak.end_unique h h')
  have himage : Prod.fst '' {r : Nat × Nat | Streak p l r.1 r.2} = {i | Begins p l i} := by
    ext i
    constructor
    · rintro ⟨⟨i, j⟩, h, rfl⟩
      exact h.begins
    · intro h
      obtain ⟨j, hj⟩ := Begins.streak h
      exact ⟨(i, j), hj, rfl⟩
  rw [streaks, ← hinj.ncard_image, himage]

theorem streaks_nil (p : α → Bool) : streaks p [] = 0 := by
  rw [streaks_eq, Set.ncard_eq_zero (Set.Finite.subset (Set.finite_lt_nat 0) fun i h => h.has.lt)]
  exact Set.eq_empty_iff_forall_notMem.2 fun i h => absurd h.has.lt (Nat.not_lt_zero i)

theorem begins_concat : Begins p (l ++ [a]) i ↔
    Begins p l i ∨ i = l.length ∧ p a = true ∧ endsIn p l = false := by
  -- in front of the new entry nothing changes
  have hold : ∀ k, k < l.length → (HasAt p (l ++ [a]) k ↔ HasAt p l k) := fun k hk =>
    hasAt_concat.trans ⟨fun h => h.resolve_right fun he => hk.ne he.1, .inl⟩
  constructor
  · intro h
    rcases hasAt_concat.1 h.has with hi | ⟨rfl, ha⟩
    · have hlt := hi.lt
      exact .inl ⟨hi, fun k hk hno => h.left k hk ((hold k (by omega)).2 hno)⟩
    · refine .inr ⟨rfl, ha, ?_⟩
      rw [← Bool.not_eq_true, endsIn_iff]
      rintro ⟨k, hk, hlast⟩
      exact h.left k hk ((hold k (by omega)).2 hlast)
  · rintro (h | ⟨rfl, ha, hend⟩)
    · have hlt := h.has.lt
      exact ⟨(hold i hlt).2 h.has, fun k hk hno => h.left k hk ((hold k (by omega)).1 hno)⟩
    · refine ⟨hasAt_concat.2 (.inr ⟨rfl, ha⟩), fun k hk hno => ?_⟩
      rw [← Bool.not_eq_true, endsIn_iff] at hend
      exact hend ⟨k, hk, (hold k (by omega)).1 hno⟩

theorem streaks_concat (p : α → Bool) (l : List α) (a : α) :
    streaks p (l ++ [a]) = streaks p l + if p a = true ∧ endsIn p l = false then 1 else 0 := by
  have hfin : {i | Begins p l i}.Finite :=
    (Set.finite_lt_nat l.length).subset fun i h => h.has.lt
  rw [streaks_eq, streaks_eq]
  split
  · rename_i hnew
    have hset : {i | Begins p (l ++ [a]) i} = insert l.length {i | Begins p l i} := by
      ext i
      rw [Set.mem_ofPred_eq, begins_concat, Set.mem_insert_iff, Set.mem_ofPred_eq, or_comm]
      exact or_congr_left ⟨fun h => h.1, fun h => ⟨h, hnew⟩⟩
    rw [hset, Set.ncard_insert_of_notMem (fun h => lt_irrefl _ h.has.lt) hfin]
  · rename_i hnew
    have hset : {i | Begins p (l ++ [a]) i} = {i | Begins p l i} := by
      ext i
      rw [Set.mem_ofPred_eq, begins_concat]
      exact ⟨fun h => h.resolve_right fun h' => hnew h'.2, .inl⟩
    rw [hset, Nat.add_zero]

end

end G9OS.Lib
