import G9OS.Lib.CString

/-! # Numbers in a byte buffer

Numbers of a fixed number of bytes, low byte first, at a position of a buffer. What is
written is read back, and no other position changes.
-/

namespace G9OS.Lib

/-- The number in `w` bytes from position `p` on. -/
def getLE (buf : Buf) : Nat → Nat → Nat
  | 0, _ => 0
  | w + 1, p => (buf p).toNat + 256 * getLE buf w (p + 1)

/-- The buffer with the low `w` bytes of `x` from position `p` on. -/
def putLE (buf : Buf) : Nat → Nat → Nat → Buf
  | 0, _, _ => buf
  | w + 1, p, x => Function.update (putLE buf w (p + 1) (x / 256)) p (UInt8.ofNat x)

variable {buf buf' : Buf} {w w' p q x i : Nat}

theorem putLE_outside (h : i < p ∨ p + w ≤ i) : putLE buf w p x i = buf i := by
  induction w generalizing p x with
  | zero => rfl
  | succ w ih =>
      rw [putLE, Function.update_of_ne (by omega)]
      exact ih (by omega)

theorem getLE_congr (h : ∀ i, p ≤ i → i < p + w → buf i = buf' i) :
    getLE buf w p = getLE buf' w p := by
  induction w generalizing p with
  | zero => rfl
  | succ w ih =>
      rw [getLE, getLE, h p le_rfl (by omega), ih fun i hi hlt => h i (by omega) (by omega)]

theorem getLE_putLE : getLE (putLE buf w p x) w p = x % 256 ^ w := by
  induction w generalizing p x with
  | zero => rw [getLE, Nat.pow_zero, Nat.mod_one]
  | succ w ih =>
      have hrest : getLE (putLE buf (w + 1) p x) w (p + 1) = x / 256 % 256 ^ w := by
        rw [← ih (p := p + 1)]
        apply getLE_congr
        intro i hi _
        exact Function.update_of_ne (by omega) _ _
      have hfirst : (putLE buf (w + 1) p x p).toNat = x % 256 := by
        rw [putLE, Function.update_self, UInt8.toNat_ofNat']
      rw [getLE, hfirst, hrest, Nat.pow_succ', Nat.mod_mul]

theorem getLE_putLE_of_lt (hx : x < 256 ^ w) : getLE (putLE buf w p x) w p = x := by
  rw [getLE_putLE, Nat.mod_eq_of_lt hx]

theorem getLE_putLE_of_disjoint (h : q + w' ≤ p ∨ p + w ≤ q) :
    getLE (putLE buf w p x) w' q = getLE buf w' q := by
  apply getLE_congr
  intro i hi hlt
  exact putLE_outside (by omega)

/-! ## Arrays of numbers of four bytes -/

/-- The buffer with the numbers of the list from position `p` on. -/
def putWords (buf : Buf) : Nat → List Nat → Buf
  | _, [] => buf
  | p, x :: xs => putWords (putLE buf 4 p x) (p + 4) xs

theorem putWords_outside {xs : List Nat} (h : i < p ∨ p + 4 * xs.length ≤ i) :
    putWords buf p xs i = buf i := by
  induction xs generalizing buf p with
  | nil => rfl
  | cons x xs ih =>
      rw [List.length_cons] at h
      rw [putWords, ih (by omega), putLE_outside (by omega)]

theorem getLE_putWords_of_disjoint {xs : List Nat} (h : q + w ≤ p ∨ p + 4 * xs.length ≤ q) :
    getLE (putWords buf p xs) w q = getLE buf w q := by
  apply getLE_congr
  intro i hi hlt
  exact putWords_outside (by omega)

theorem getLE_putWords {xs : List Nat} {j : Nat} (hj : j < xs.length) :
    getLE (putWords buf p xs) 4 (p + 4 * j) = xs[j] % 2 ^ 32 := by
  induction xs generalizing buf p j with
  | nil => exact absurd hj (Nat.not_lt_zero j)
  | cons x xs ih =>
      cases j with
      | zero =>
          rw [putWords, Nat.mul_zero, Nat.add_zero, getLE_putWords_of_disjoint (by omega)]
          exact getLE_putLE
      | succ j =>
          have hpos : p + 4 * (j + 1) = p + 4 + 4 * j := by omega
          rw [putWords, hpos]
          exact ih (Nat.lt_of_succ_lt_succ hj)

end G9OS.Lib
