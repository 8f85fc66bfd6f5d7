import G9OS.Lib.CString

/-! # Parts of a byte buffer

A part of a buffer as a list, and what writing a list into the buffer does to such parts.
-/

namespace G9OS.Lib

/-- The `m` bytes from position `p` on. -/
def slice (buf : Buf) (p m : Nat) : List UInt8 := (List.range m).map fun i => buf (p + i)

/-- The list with `w` written over it from position `p` on, as much longer as it takes. -/
def overwrite (old : List UInt8) (p : Nat) (w : List UInt8) : List UInt8 :=
  old.take p ++ w ++ old.drop (p + w.length)

variable {buf buf' : Buf} {p q m k n : Nat} {u v w : List UInt8}

@[simp] theorem length_slice : (slice buf p m).length = m := by
  rw [slice, List.length_map, List.length_range]

theorem getElem?_slice (h : k < m) : (slice buf p m)[k]? = some (buf (p + k)) := by
  rw [slice, List.getElem?_map, List.getElem?_range h, Option.map_some]

theorem slice_congr (h : ∀ i < m, buf' (q + i) = buf (p + i)) : slice buf' q m = slice buf p m :=
  List.map_congr_left fun i hi => h i (List.mem_range.1 hi)

theorem slice_add : slice buf p (m + k) = slice buf p m ++ slice buf (p + m) k := by
  rw [slice, List.range_add, List.map_append, List.map_map]
  refine congrArg (_ ++ ·) (List.map_congr_left fun i _ => ?_)
  exact congrArg buf (Nat.add_assoc p m i).symm

theorem take_slice : (slice buf p m).take k = slice buf p (min k m) := by
  rw [slice, ← List.map_take, List.take_range]
  rfl

theorem drop_slice : (slice buf p m).drop k = slice buf (p + k) (m - k) := by
  by_cases hk : k ≤ m
  · obtain ⟨r, rfl⟩ := Nat.exists_eq_add_of_le hk
    rw [slice_add, List.drop_left' length_slice, Nat.add_sub_cancel_left]
  · rw [List.drop_eq_nil_of_le (by rw [length_slice]; omega), Nat.sub_eq_zero_of_le (by omega)]
    rfl

theorem store_inside {i : Nat} (h : i < w.length) : store buf p w (p + i) = w[i] := by
  rw [store, if_pos (Nat.le_add_right p i), Nat.add_sub_cancel_left, List.getElem?_eq_getElem h,
    Option.getD_some]

theorem store_append : store (store buf p u) (p + u.length) v = store buf p (u ++ v) := by
  funext i
  by_cases hu : p ≤ i ∧ i < p + u.length
  · obtain ⟨j, rfl⟩ := Nat.exists_eq_add_of_le hu.1
    have hj : j < u.length := Nat.lt_of_add_lt_add_left hu.2
    have hj' : j < (u ++ v).length := by
      rw [List.length_append]
      omega
    rw [store_outside (by omega), store_inside hj, store_inside hj', List.getElem_append_left hj]
  · by_cases hv : p + u.length ≤ i ∧ i < p + u.length + v.length
    · obtain ⟨j, rfl⟩ := Nat.exists_eq_add_of_le hv.1
      have hj : j < v.length := Nat.lt_of_add_lt_add_left hv.2
      have hj' : u.length + j < (u ++ v).length := by
        rw [List.length_append]
        omega
      rw [store_inside hj, Nat.add_assoc, store_inside hj',
        List.getElem_append_right (Nat.le_add_right _ _)]
      simp only [Nat.add_sub_cancel_left]
    · rw [store_outside hv, store_outside hu, store_outside]
      rw [List.length_append]
      omega

theorem store_nil : store buf p [] = buf := by
  funext i
  exact store_outside (by simp)

/-- The bytes of a file after a write that begins inside it or at its end. -/
theorem slice_store (hp : p ≤ n) :
    slice (store buf p w) 0 (max n (p + w.length)) = overwrite (slice buf 0 n) p w := by
  have hfront : slice (store buf p w) 0 p = slice buf 0 p :=
    slice_congr fun i hi => store_outside (by omega)
  have hmid : slice (store buf p w) (0 + p) w.length = w := by
    apply List.ext_getElem
    · exact length_slice
    · intro i h1 h2
      have hget : (slice (store buf p w) (0 + p) w.length)[i]? = some w[i] := by
        rw [getElem?_slice h2, Nat.zero_add, store_inside h2]
      rw [List.getElem?_eq_getElem h1] at hget
      exact Option.some.inj hget
  have hback : slice (store buf p w) (0 + (p + w.length)) (n - (p + w.length)) =
      slice buf (0 + (p + w.length)) (n - (p + w.length)) :=
    slice_congr fun i _ => store_outside (by omega)
  have hlen : max n (p + w.length) = p + w.length + (n - (p + w.length)) := by omega
  rw [overwrite, hlen, slice_add, slice_add, hfront, hmid, hback, take_slice, drop_slice,
    Nat.min_eq_left hp]

theorem length_overwrite {old : List UInt8} (hp : p ≤ old.length) :
    (overwrite old p w).length = max old.length (p + w.length) := by
  simp only [overwrite, List.length_append, List.length_take, List.length_drop]
  omega

theorem overwrite_append {old : List UInt8} (hp : p ≤ old.length) :
    overwrite (overwrite old p u) (p + u.length) v = overwrite old p (u ++ v) := by
  have hfront : (old.take p ++ u).length = p + u.length := by
    rw [List.length_append, List.length_take_of_le hp]
  have htake : (overwrite old p u).take (p + u.length) = old.take p ++ u := by
    rw [overwrite, ← hfront, List.take_left]
  have hdrop : (overwrite old p u).drop (p + u.length + v.length) =
      old.drop (p + (u ++ v).length) := by
    rw [overwrite, ← List.drop_drop, ← hfront, List.drop_left, List.drop_drop, hfront,
      List.length_append, Nat.add_assoc]
  rw [overwrite, htake, hdrop, List.append_assoc (old.take p), ← List.append_assoc, overwrite,
    List.append_assoc (old.take p)]

theorem take_overwrite {old : List UInt8} (hq : q ≤ p) (hp : p ≤ old.length) :
    (overwrite old p w).take q = old.take q := by
  have hle : q ≤ (old.take p).length := by
    rw [List.length_take_of_le hp]
    exact hq
  rw [overwrite, List.append_assoc, List.take_append_of_le_length hle, List.take_take,
    Nat.min_eq_left hq]

theorem drop_overwrite {old : List UInt8} (hp : p ≤ old.length) (hq : p + w.length ≤ q) :
    (overwrite old p w).drop q = old.drop q := by
  have hfront : (old.take p ++ w).length = p + w.length := by
    rw [List.length_append, List.length_take_of_le hp]
  obtain ⟨r, rfl⟩ := Nat.exists_eq_add_of_le hq
  rw [overwrite, ← List.drop_drop, ← hfront, List.drop_left, List.drop_drop]

theorem slice_overwrite {old : List UInt8} (hp : p ≤ old.length) :
    ((overwrite old p w).drop p).take w.length = w := by
  have hlen : (old.take p).length = p := List.length_take_of_le hp
  have hdrop : (overwrite old p w).drop p = w ++ old.drop (p + w.length) := by
    rw [overwrite, List.append_assoc, List.drop_left' hlen]
  rw [hdrop, List.take_left]

end G9OS.Lib
