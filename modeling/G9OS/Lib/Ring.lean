import Mathlib

/-! # Ring buffers with free-running counters

The counters of such a buffer are never reduced to positions in it: they run on and wrap at the word
size `M`. Contents are told by the numbers that the counters stand for, and `N` cells with `N`
dividing `M` make the wrap harmless.
-/

namespace G9OS.Lib

section
variable {D : Type} {N M : Nat}

/-- The cells from number `r` on hold `q`. -/
def Window (N : Nat) (data : Nat → D) (r : Nat) (q : List D) : Prop :=
  ∀ i d, q[i]? = some d → data ((r + i) % N) = d

variable {data : Nat → D} {r : Nat} {q : List D} {d : D}

theorem Window.nil : Window N data r [] := fun i d h => by
  rw [List.getElem?_nil] at h
  cases h

theorem mod_ne_of_lt {i j : Nat} (hij : i < j) (hj : j < N) : (r + i) % N ≠ (r + j) % N := by
  intro heq
  have hdvd : N ∣ r + j - (r + i) := (Nat.modEq_iff_dvd' (by omega)).1 heq
  exact absurd (Nat.le_of_dvd (by omega) hdvd) (by omega)

theorem Window.push (h : Window N data r q) (hlt : q.length < N) :
    Window N (Function.update data ((r + q.length) % N) d) r (q ++ [d]) := by
  intro i e hi
  by_cases hiq : i < q.length
  · rw [List.getElem?_append_left hiq] at hi
    rw [Function.update_of_ne (mod_ne_of_lt hiq hlt)]
    exact h i e hi
  · have hlen := (List.getElem?_eq_some_iff.1 hi).1
    rw [List.length_append, List.length_singleton] at hlen
    obtain rfl : i = q.length := by omega
    rw [List.getElem?_concat_length] at hi
    cases hi
    exact Function.update_self ..

theorem Window.head (h : Window N data r (d :: q)) : data (r % N) = d := h 0 d rfl

theorem Window.tail (h : Window N data r (d :: q)) : Window N data (r + 1) q := by
  intro i e hi
  rw [Nat.add_right_comm]
  exact h (i + 1) e hi

end

/-! ## Counters -/

section
variable {N M r k : Nat}

/-- Two counters less than `M` apart are equal only if nothing is between them. -/
theorem counter_empty (hk : k < M) : r % M = (r + k) % M ↔ k = 0 := by
  constructor
  · intro h
    have hdvd : M ∣ r + k - r := (Nat.modEq_iff_dvd' (Nat.le_add_right r k)).1 h
    rw [Nat.add_sub_cancel_left] at hdvd
    exact Nat.eq_zero_of_dvd_of_lt hdvd hk
  · rintro rfl
    rfl

/-- The test for a full buffer, with the sum reduced to a word. -/
theorem counter_full (hk : k ≤ N) (hN : N < M) : (r + k) % M = (r % M + N) % M ↔ k = N := by
  rw [Nat.mod_add_mod]
  constructor
  · intro h
    have hdvd : M ∣ r + N - (r + k) := (Nat.modEq_iff_dvd' (by omega)).1 h
    have hzero := Nat.eq_zero_of_dvd_of_lt hdvd (by omega)
    omega
  · rintro rfl
    rfl

theorem counter_succ : (r % M + 1) % M = (r + 1) % M := Nat.mod_add_mod r M 1

end

end G9OS.Lib
