import Mathlib

/-! # Sorting by exchange

Every position of an array is compared with all later ones, and the two entries are exchanged
if the earlier one is greater. The comparison is a test `gt` on the entries.
-/

namespace G9OS.Lib

section
variable {α : Type} (gt : α → α → Bool)

/-- The two entries change places if they are in the wrong order. -/
def exchange (a : Array α) (i j : Nat) : Array α :=
  if h : i < a.size ∧ j < a.size then
    if gt a[i] a[j] then a.swap i j h.1 h.2 else a
  else a

/-- The inner loop: position `i` against all later ones. -/
def exchangePass (a : Array α) (i : Nat) : Array α :=
  (List.range' (i + 1) (a.size - (i + 1))).foldl (fun a j => exchange gt a i j) a

def exchangeSort (a : Array α) : Array α := (List.range a.size).foldl (exchangePass gt) a

def InOrder (a : Array α) (p q : Nat) : Prop :=
  ∀ x y, a[p]? = some x → a[q]? = some y → gt x y = false

/-- The first `n` entries have their place: none of them is greater than a later one. -/
def Settled (a : Array α) (n : Nat) : Prop := ∀ p q, p < n → p < q → InOrder gt a p q

structure Scanned (a : Array α) (i j : Nat) : Prop where
  settled : Settled gt a i
  least : ∀ q, i < q → q < j → InOrder gt a i q

end

section
variable {α : Type} {gt : α → α → Bool} {a : Array α} {i j n : Nat}

theorem exchange_cases (gt : α → α → Bool) (a : Array α) (i j : Nat) :
    exchange gt a i j = a ∧ InOrder gt a i j ∨
      ∃ x y, a[i]? = some x ∧ a[j]? = some y ∧ gt x y = true ∧
        ∀ k, (exchange gt a i j)[k]? =
          if k = i then some y else if k = j then some x else a[k]? := by
  unfold exchange
  split
  · rename_i h
    have hi : a[i]? = some a[i] := Array.getElem?_eq_getElem h.1
    have hj : a[j]? = some a[j] := Array.getElem?_eq_getElem h.2
    split
    · rename_i hgt
      refine .inr ⟨a[i], a[j], hi, hj, hgt, fun k => ?_⟩
      by_cases hk : k < a.size
      · rw [Array.getElem?_eq_getElem (by simpa using hk), Array.getElem_swap]
        split
        · rfl
        · split
          · rfl
          · exact (Array.getElem?_eq_getElem hk).symm
      · have hki : k ≠ i := fun he => hk (he ▸ h.1)
        have hkj : k ≠ j := fun he => hk (he ▸ h.2)
        rw [if_neg hki, if_neg hkj, Array.getElem?_eq_none (by simpa using hk),
          Array.getElem?_eq_none (by simpa using hk)]
    · rename_i hgt
      refine .inl ⟨rfl, fun x y hx hy => ?_⟩
      obtain rfl := Option.some.inj (hi.symm.trans hx)
      obtain rfl := Option.some.inj (hj.symm.trans hy)
      simpa using hgt
  · rename_i h
    refine .inl ⟨rfl, fun x y hx hy => absurd ⟨?_, ?_⟩ h⟩
    · exact (Array.getElem?_eq_some_iff.1 hx).1
    · exact (Array.getElem?_eq_some_iff.1 hy).1

theorem exchange_perm (gt : α → α → Bool) (a : Array α) (i j : Nat) :
    (exchange gt a i j).Perm a := by
  unfold exchange
  split
  · split
    · exact Array.swap_perm _ _
    · exact .refl a
  · exact .refl a

@[simp] theorem exchange_size : (exchange gt a i j).size = a.size :=
  (exchange_perm gt a i j).size_eq

theorem foldl_exchange_perm (gt : α → α → Bool) (i : Nat) (js : List Nat) (a : Array α) :
    (js.foldl (fun a j => exchange gt a i j) a).Perm a := by
  induction js generalizing a with
  | nil => exact .refl a
  | cons j js ih => exact (ih (exchange gt a i j)).trans (exchange_perm gt a i j)

theorem exchangePass_perm (gt : α → α → Bool) (a : Array α) (i : Nat) :
    (exchangePass gt a i).Perm a :=
  foldl_exchange_perm gt i _ a

theorem foldl_exchangePass_perm (gt : α → α → Bool) (is : List Nat) (a : Array α) :
    (is.foldl (exchangePass gt) a).Perm a := by
  induction is generalizing a with
  | nil => exact .refl a
  | cons i is ih => exact (ih (exchangePass gt a i)).trans (exchangePass_perm gt a i)

theorem exchangeSort_perm (gt : α → α → Bool) (a : Array α) : (exchangeSort gt a).Perm a :=
  foldl_exchangePass_perm gt _ a

/-! ## The order -/

section
variable (hasymm : ∀ x y, gt x y = true → gt y x = false)
  (htrans : ∀ x y z, gt x y = false → gt y z = false → gt x z = false)

include hasymm htrans

/-- One turn of the inner loop. The entry that comes to position `i` is not greater than the one
that was there, and so not greater than all that was compared with it. -/
theorem Scanned.step (h : Scanned gt a i j) (hij : i < j) :
    Scanned gt (exchange gt a i j) i (j + 1) := by
  rcases exchange_cases gt a i j with ⟨he, hord⟩ | ⟨x, y, hx, hy, hgt, hget⟩
  · rw [he]
    refine ⟨h.settled, fun q hq hqj => ?_⟩
    by_cases heq : q = j
    · rwa [heq]
    · exact h.least q hq (by omega)
  · constructor
    · intro p q hp hpq u v hu hv
      rw [hget, if_neg (by omega), if_neg (by omega)] at hu
      rw [hget] at hv
      split at hv
      · exact h.settled p j hp (by omega) u v hu (hy.trans hv)
      · split at hv
        · exact h.settled p i hp hp u v hu (hx.trans hv)
        · exact h.settled p q hp hpq u v hu hv
    · intro q hq hqj u v hu hv
      rw [hget, if_pos rfl] at hu
      obtain rfl := Option.some.inj hu
      rw [hget, if_neg (by omega)] at hv
      split at hv
      · obtain rfl := Option.some.inj hv
        exact hasymm x y hgt
      · exact htrans y x v (hasymm x y hgt) (h.least q hq (by omega) x v hx hv)

theorem Scanned.pass (h : Scanned gt a i j) (hij : i < j) (m : Nat) :
    Scanned gt ((List.range' j m).foldl (fun a k => exchange gt a i k) a) i (j + m) := by
  induction m generalizing a j with
  | zero => exact h
  | succ m ih =>
      have hrest := ih (h.step hasymm htrans hij) (by omega)
      rw [Nat.add_assoc, Nat.add_comm 1 m] at hrest
      exact hrest

theorem Settled.pass (h : Settled gt a i) : Settled gt (exchangePass gt a i) (i + 1) := by
  have hstart : Scanned gt a i (i + 1) := ⟨h, fun q hq hqi => by omega⟩
  have hend := hstart.pass hasymm htrans (Nat.lt_succ_self i) (a.size - (i + 1))
  have hsize : (exchangePass gt a i).size = a.size := (exchangePass_perm gt a i).size_eq
  intro p q hp hpq u v hu hv
  by_cases hpi : p = i
  · subst hpi
    have hq : q < a.size := hsize ▸ (Array.getElem?_eq_some_iff.1 hv).1
    exact hend.least q hpq (by omega) u v hu hv
  · exact hend.settled p q (by omega) hpq u v hu hv

theorem settled_exchangeSort (a : Array α) (n : Nat) :
    Settled gt ((List.range n).foldl (exchangePass gt) a) n := by
  induction n with
  | zero =>
      intro p q hp
      exact absurd hp (Nat.not_lt_zero p)
  | succ n ih =>
      rw [List.range_succ, List.foldl_append]
      exact ih.pass hasymm htrans

theorem exchangeSort_sorted (a : Array α) :
    (exchangeSort gt a).toList.Pairwise fun x y => gt x y = false := by
  have hsettled : Settled gt (exchangeSort gt a) a.size :=
    settled_exchangeSort hasymm htrans a a.size
  have hsize : (exchangeSort gt a).size = a.size := (exchangeSort_perm gt a).size_eq
  rw [List.pairwise_iff_getElem]
  intro p q hp hq hpq
  refine hsettled p q ?_ hpq _ _ ?_ ?_
  · rw [Array.length_toList] at hp
    omega
  · exact Array.getElem?_eq_getElem (by simpa using hp)
  · exact Array.getElem?_eq_getElem (by simpa using hq)

end

end

end G9OS.Lib
