import Mathlib

/-! # Counting the holders of a value

Conservation arguments count how often a value is held: by a list, by the cells
of a partial map, by the entries of a finite table. The counts below change by
one when a single cell changes, so that a transfer from one holder to another is
an equation between sums.
-/

namespace G9OS.Lib

def hit {α : Type} [DecidableEq α] (a q : α) : Nat := if a = q then 1 else 0

def hitOpt {α : Type} [DecidableEq α] (a : Option α) (q : α) : Nat := a.elim 0 fun a => hit a q

section
variable {α : Type} [DecidableEq α]

@[simp] theorem hit_self (q : α) : hit q q = 1 := if_pos rfl

@[simp] theorem hitOpt_none (q : α) : hitOpt none q = 0 := rfl

@[simp] theorem hitOpt_some (a q : α) : hitOpt (some a) q = hit a q := rfl

theorem count_cons_hit (a q : α) (l : List α) : (a :: l).count q = l.count q + hit a q := by
  by_cases h : a = q
  · subst h; simp [hit]
  · simp [hit, h]

/-- How many cells of `f` in `S` hold `q`. Irreducible: `S` may be as large as an
address space, and no unifier should count through it. -/
@[irreducible] def occ (S : Finset Nat) (f : Nat → Option α) (q : α) : Nat :=
  (S.filter fun v => f v = some q).card

def cut (f : Nat → Option α) (T : Finset Nat) : Nat → Option α :=
  fun v => if v ∈ T then none else f v

theorem occ_congr {S : Finset Nat} {f g : Nat → Option α} (h : ∀ v ∈ S, f v = g v) (q : α) :
    occ S f q = occ S g q := by
  unfold occ
  congr 1
  exact Finset.filter_congr fun v hv => by rw [h v hv]

@[simp] theorem occ_empty (f : Nat → Option α) (q : α) : occ ∅ f q = 0 := by
  simp [occ]

theorem occ_none (S : Finset Nat) (q : α) : occ S (fun _ => none) q = 0 := by
  simp [occ]

theorem occ_insert {S : Finset Nat} {v : Nat} (hv : v ∉ S) (f : Nat → Option α) (q : α) :
    occ (insert v S) f q = occ S f q + hitOpt (f v) q := by
  unfold occ
  rw [Finset.filter_insert]
  cases hf : f v with
  | none => simp
  | some a =>
      by_cases ha : a = q
      · subst ha
        rw [if_pos rfl, Finset.card_insert_of_notMem (by simp [hv])]
        simp
      · simp [ha, hit]

theorem occ_cut_add (S T : Finset Nat) (f : Nat → Option α) (q : α) :
    occ S (cut f T) q + occ (S ∩ T) f q = occ S f q := by
  unfold occ
  rw [← Finset.card_union_of_disjoint]
  · congr 1
    ext v
    by_cases hv : v ∈ T <;> simp [cut, hv]
  · rw [Finset.disjoint_left]
    intro v hl hr
    simp only [Finset.mem_filter, Finset.mem_inter] at hl hr
    simp [cut, hr.1.2] at hl

theorem occ_mono_eq {S T : Finset Nat} {f : Nat → Option α} (hST : S ⊆ T)
    (h : ∀ v ∈ T, v ∉ S → f v = none) (q : α) : occ T f q = occ S f q := by
  unfold occ
  congr 1
  ext v
  simp only [Finset.mem_filter]
  constructor
  · rintro ⟨hv, hf⟩
    by_cases hs : v ∈ S
    · exact ⟨hs, hf⟩
    · rw [h v hv hs] at hf
      cases hf
  · rintro ⟨hv, hf⟩
    exact ⟨hST hv, hf⟩

theorem occ_pos {S : Finset Nat} {f : Nat → Option α} {v : Nat} {q : α} (hv : v ∈ S)
    (hf : f v = some q) : 0 < occ S f q := by
  unfold occ
  exact Finset.card_pos.2 ⟨v, Finset.mem_filter.2 ⟨hv, hf⟩⟩

end

theorem sum_update_weight {ι β : Type} [Fintype ι] [DecidableEq ι] (f : ι → β) (i : ι) (x : β)
    (w : β → Nat) :
    ∑ j, w (Function.update f i x j) + w (f i) = ∑ j, w (f j) + w x := by
  rw [← Finset.add_sum_erase Finset.univ (fun j => w (Function.update f i x j)) (Finset.mem_univ i),
    ← Finset.add_sum_erase Finset.univ (fun j => w (f j)) (Finset.mem_univ i)]
  have hrest : ∑ j ∈ Finset.univ.erase i, w (Function.update f i x j) =
      ∑ j ∈ Finset.univ.erase i, w (f j) :=
    Finset.sum_congr rfl fun j hj => by
      rw [Function.update_of_ne (Finset.ne_of_mem_erase hj)]
  simp only [hrest, Function.update_self]
  omega

theorem le_sum {ι : Type} [Fintype ι] (w : ι → Nat) (i : ι) : w i ≤ ∑ j, w j :=
  Finset.single_le_sum (fun _ _ => Nat.zero_le _) (Finset.mem_univ i)

theorem eq_zero_of_sum_le {ι : Type} [Fintype ι] [DecidableEq ι] (w : ι → Nat) {i j : ι}
    (h : ∑ k, w k ≤ w i) (hj : j ≠ i) : w j = 0 := by
  have hrest := Finset.add_sum_erase Finset.univ w (Finset.mem_univ i)
  have hle : w j ≤ ∑ k ∈ Finset.univ.erase i, w k :=
    Finset.single_le_sum (fun _ _ => Nat.zero_le _) (Finset.mem_erase.2 ⟨hj, Finset.mem_univ j⟩)
  omega

end G9OS.Lib
