import Mathlib

/-! # Text in a byte buffer

Zero-terminated strings as C programs walk over them. A position is an index into the
buffer, and a loop over the bytes has an upper bound on its number of turns.
-/

namespace G9OS.Lib

abbrev Buf : Type := Nat → UInt8

/-- The bytes of `w` stand in the buffer from position `p` on. -/
def Holds (buf : Buf) : Nat → List UInt8 → Prop
  | _, [] => True
  | p, b :: w => buf p = b ∧ Holds buf (p + 1) w

instance Holds.decidable (buf : Buf) : (p : Nat) → (w : List UInt8) → Decidable (Holds buf p w)
  | _, [] => inferInstanceAs (Decidable True)
  | p, _ :: w =>
      have := Holds.decidable buf (p + 1) w
      inferInstanceAs (Decidable (_ ∧ _))

/-- Go on from `p` while the byte satisfies `P`, for at most the given number of turns. -/
def scan (P : UInt8 → Bool) (buf : Buf) : Nat → Nat → Nat
  | 0, p => p
  | n + 1, p => if P (buf p) then scan P buf n (p + 1) else p

def cstr (buf : Buf) : Nat → Nat → List UInt8
  | 0, _ => []
  | n + 1, p => if buf p = 0 then [] else buf p :: cstr buf n (p + 1)

/-- The buffer with `w` written over it from position `p` on. -/
def store (buf : Buf) (p : Nat) (w : List UInt8) : Buf := fun i =>
  if p ≤ i then w[i - p]?.getD (buf i) else buf i

variable {buf buf' : Buf} {p n : Nat} {u v w : List UInt8}

theorem store_outside {i : Nat} (h : ¬ (p ≤ i ∧ i < p + w.length)) : store buf p w i = buf i := by
  unfold store
  split
  · rw [List.getElem?_eq_none (by omega), Option.getD_none]
  · rfl

theorem store_congr {i : Nat} (h : p ≤ i ∧ i < p + w.length ∨ buf i = buf' i) :
    store buf p w i = store buf' p w i := by
  by_cases hi : p ≤ i ∧ i < p + w.length
  · unfold store
    rw [if_pos hi.1, if_pos hi.1, List.getElem?_eq_getElem (by omega), Option.getD_some,
      Option.getD_some]
  · rw [store_outside hi, store_outside hi]
    exact h.resolve_left hi

theorem holds_append : Holds buf p (u ++ v) ↔ Holds buf p u ∧ Holds buf (p + u.length) v := by
  induction u generalizing p with
  | nil => simp [Holds]
  | cons b u ih =>
      rw [List.cons_append, Holds, Holds, ih, List.length_cons, Nat.add_assoc, Nat.add_comm 1,
        and_assoc]

theorem Holds.congr (h : Holds buf p w) (heq : ∀ i, p ≤ i → i < p + w.length → buf' i = buf i) :
    Holds buf' p w := by
  induction w generalizing p with
  | nil => exact h
  | cons b w ih =>
      rw [List.length_cons] at heq
      refine ⟨(heq p le_rfl (by omega)).trans h.1, ih h.2 fun i hi hi' => heq i ?_ ?_⟩
      · omega
      · omega

/-- The loop stops behind the text if all of it satisfies `P` and the next byte does not. -/
theorem Holds.scan {P : UInt8 → Bool} (h : Holds buf p w) (hP : ∀ b ∈ w, P b = true)
    (hend : P (buf (p + w.length)) = false) (hn : w.length < n) : scan P buf n p = p + w.length := by
  induction w generalizing p n with
  | nil =>
      obtain ⟨n, rfl⟩ : ∃ m, n = m + 1 := ⟨n - 1, by simp at hn; omega⟩
      rw [Lib.scan]
      exact if_neg (by simpa using hend)
  | cons b w ih =>
      rw [List.length_cons] at hend hn ⊢
      obtain ⟨n, rfl⟩ : ∃ m, n = m + 1 := ⟨n - 1, by omega⟩
      have hb : P (buf p) = true := by
        rw [h.1]
        exact hP b List.mem_cons_self
      rw [Lib.scan, if_pos hb, ih h.2 (fun c hc => hP c (List.mem_cons_of_mem _ hc)) ?_ (by omega)]
      · omega
      · rwa [Nat.add_right_comm, Nat.add_assoc]

theorem Holds.cstr (h : Holds buf p w) (hw : 0 ∉ w) (hend : buf (p + w.length) = 0)
    (hn : w.length < n) : cstr buf n p = w := by
  induction w generalizing p n with
  | nil =>
      obtain ⟨n, rfl⟩ : ∃ m, n = m + 1 := ⟨n - 1, by simp at hn; omega⟩
      exact if_pos hend
  | cons b w ih =>
      rw [List.length_cons] at hend hn
      obtain ⟨n, rfl⟩ : ∃ m, n = m + 1 := ⟨n - 1, by omega⟩
      have hb : ¬ buf p = 0 := by
        rw [h.1]
        rintro rfl
        exact hw List.mem_cons_self
      rw [Lib.cstr, if_neg hb, h.1, ih h.2 (fun hm => hw (List.mem_cons_of_mem _ hm)) ?_ (by omega)]
      rwa [Nat.add_right_comm, Nat.add_assoc]

theorem exists_cut {α : Type} (P : α → Bool) (l : List α) :
    ∃ g, (∀ a ∈ g, P a = true) ∧ (l = g ∨ ∃ a rest, P a = false ∧ l = g ++ a :: rest) := by
  induction l with
  | nil => exact ⟨[], List.forall_mem_nil _, .inl rfl⟩
  | cons b l ih =>
      cases hb : P b with
      | false => exact ⟨[], List.forall_mem_nil _, .inr ⟨b, l, hb, rfl⟩⟩
      | true =>
          obtain ⟨g, hg, hcut⟩ := ih
          refine ⟨b :: g, List.forall_mem_cons.2 ⟨hb, hg⟩, ?_⟩
          rcases hcut with rfl | ⟨a, rest, ha, rfl⟩
          · exact .inl rfl
          · exact .inr ⟨a, rest, ha, rfl⟩

end G9OS.Lib
