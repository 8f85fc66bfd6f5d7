import G9OS.Lib.CString

/-! # Checked accesses

An access to an array of fixed size as an operation that can fail: `none` is an access outside
the array, or to an element that has not been written. A function with checked accesses that is
`some` of the function without them stays inside its arrays.
-/

namespace G9OS.Lib

/-- An access to number `i` of an array of `size` elements. -/
def within (size i : Nat) : Option Unit := if i < size then some () else none

/-- Read number `i` of an array of `size` elements, of which the first ones are written. -/
def slot {α : Type} (size : Nat) (xs : List α) (i : Nat) : Option α :=
  if i < size then xs[i]? else none

/-- `scan` over a buffer of `size` bytes; also `none` if it needs more turns. -/
def scanIn (size : Nat) (P : UInt8 → Bool) (buf : Buf) : Nat → Nat → Option Nat
  | 0, _ => none
  | n + 1, p => do
      within size p
      if P (buf p) then scanIn size P buf n (p + 1) else some p

variable {α : Type} {size i n p e : Nat} {xs : List α} {P : UInt8 → Bool} {buf : Buf}

theorem within_of_lt (h : i < size) : within size i = some () := if_pos h

theorem slot_of_lt (hxs : xs.length ≤ size) (h : i < xs.length) : slot size xs i = xs[i]? :=
  if_pos (h.trans_le hxs)

theorem slot_or_eq {β : Type} {next : α → Option β} {err r : β} (hxs : xs.length ≤ size)
    (hnil : xs.drop i = [] → r = err) (hcons : ∀ a rest, xs.drop i = a :: rest → next a = some r) :
    (if xs.length ≤ i then some err else (slot size xs i).bind next) = some r := by
  by_cases hi : i < xs.length
  · rw [if_neg hi.not_ge, slot_of_lt hxs hi, List.getElem?_eq_getElem hi]
    exact hcons _ _ (List.drop_eq_getElem_cons hi)
  · rw [if_pos (Nat.le_of_not_lt hi), hnil (List.drop_eq_nil_of_le (Nat.le_of_not_lt hi))]

/-- The loop stays in the buffer if a byte ends it there, and stops at the first such byte. -/
theorem scanIn_eq (he : p ≤ e) (hsize : e < size) (hend : P (buf e) = false) (hn : e - p < n) :
    scanIn size P buf n p = some (scan P buf n p) ∧ p ≤ scan P buf n p ∧ scan P buf n p ≤ e ∧
      P (buf (scan P buf n p)) = false := by
  induction n generalizing p with
  | zero => omega
  | succ n ih =>
      rw [scanIn, scan, within_of_lt (he.trans_lt hsize)]
      by_cases hp : P (buf p) = true
      · have hne : p ≠ e := by
          rintro rfl
          rw [hend] at hp
          cases hp
        obtain ⟨hrun, hlow, hhigh, hstop⟩ := ih (p := p + 1) (by omega) (by omega)
        rw [if_pos hp, if_pos hp]
        exact ⟨hrun, by omega, hhigh, hstop⟩
      · rw [if_neg hp, if_neg hp]
        exact ⟨rfl, le_rfl, he, Bool.eq_false_iff.2 hp⟩

end G9OS.Lib
