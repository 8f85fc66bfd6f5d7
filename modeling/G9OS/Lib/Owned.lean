import Mathlib

/-! # Owned resources

Numbered resources of an area are free or used, and places refer to them; 0 refers to none. Every
used one is referred to by exactly one place. Taking a free one for an empty place and dropping the
one of a place keep this.
-/

namespace G9OS.Lib

structure Owned {ι : Type} (area : Nat → Prop) (used : Nat → Bool) (R : ι → Nat) : Prop where
  nothing : ¬ area 0
  inArea : ∀ x, R x ≠ 0 → area (R x)
  marked : ∀ x, R x ≠ 0 → used (R x) = true
  inj : ∀ x y, R x ≠ 0 → R x = R y → x = y
  full : ∀ b, area b → used b = true → ∃ x, R x = b

variable {ι : Type} {area : Nat → Prop} {used used' : Nat → Bool} {R : ι → Nat} {x y : ι} {b : Nat}

theorem Owned.congr (h : Owned area used R) (hu : ∀ b, area b → used' b = used b) :
    Owned area used' R where
  nothing := h.nothing
  inArea := h.inArea
  marked x hx := (hu _ (h.inArea x hx)).trans (h.marked x hx)
  inj := h.inj
  full b hb hub := h.full b hb ((hu b hb).symm.trans hub)

theorem Owned.ne_of_free (h : Owned area used R) (hb : b ≠ 0) (hfree : used b = false) (x : ι) :
    R x ≠ b := by
  rintro rfl
  rw [h.marked x hb] at hfree
  cases hfree

theorem Owned.ne_of_ne (h : Owned area used R) (hx : R x ≠ 0) (hne : x ≠ y) : R x ≠ R y :=
  fun heq => hne (h.inj x y hx heq)

variable [DecidableEq ι]

theorem Owned.take (h : Owned area used R) (hx : R x = 0) (harea : area b)
    (hfree : used b = false) :
    Owned area (Function.update used b true) (Function.update R x b) := by
  have hb : b ≠ 0 := fun h0 => h.nothing (h0 ▸ harea)
  have hother : ∀ y, R y ≠ b := h.ne_of_free hb hfree
  refine ⟨h.nothing, fun y hy => ?_, fun y hy => ?_, fun y z hy heq => ?_, fun c hc huc => ?_⟩
  · by_cases hyx : y = x
    · rwa [hyx, Function.update_self]
    · rw [Function.update_of_ne hyx] at hy ⊢
      exact h.inArea y hy
  · by_cases hyx : y = x
    · rw [hyx, Function.update_self, Function.update_self]
    · rw [Function.update_of_ne hyx] at hy ⊢
      rw [Function.update_of_ne (hother y)]
      exact h.marked y hy
  · by_cases hyx : y = x
    · by_cases hzx : z = x
      · rw [hyx, hzx]
      · rw [hyx, Function.update_self, Function.update_of_ne hzx] at heq
        exact absurd heq.symm (hother z)
    · rw [Function.update_of_ne hyx] at hy heq
      by_cases hzx : z = x
      · rw [hzx, Function.update_self] at heq
        exact absurd heq (hother y)
      · rw [Function.update_of_ne hzx] at heq
        exact h.inj y z hy heq
  · by_cases hcb : c = b
    · exact ⟨x, by rw [Function.update_self, hcb]⟩
    · rw [Function.update_of_ne hcb] at huc
      obtain ⟨y, rfl⟩ := h.full c hc huc
      have hyx : y ≠ x := by
        rintro rfl
        exact h.nothing (hx ▸ hc)
      exact ⟨y, Function.update_of_ne hyx _ _⟩

theorem Owned.drop (h : Owned area used R) (x : ι) :
    Owned area (Function.update used (R x) false) (Function.update R x 0) := by
  have hleft : ∀ y, Function.update R x 0 y ≠ 0 → y ≠ x ∧ R y ≠ 0 ∧
      Function.update R x 0 y = R y := by
    intro y hy
    by_cases hyx : y = x
    · rw [hyx, Function.update_self] at hy
      exact absurd rfl hy
    · rw [Function.update_of_ne hyx] at hy ⊢
      exact ⟨hyx, hy, rfl⟩
  refine ⟨h.nothing, fun y hy => ?_, fun y hy => ?_, fun y z hy heq => ?_, fun c hc huc => ?_⟩
  · obtain ⟨-, hRy, hsame⟩ := hleft y hy
    rw [hsame]
    exact h.inArea y hRy
  · obtain ⟨hyx, hRy, hsame⟩ := hleft y hy
    rw [hsame, Function.update_of_ne (h.ne_of_ne hRy hyx)]
    exact h.marked y hRy
  · obtain ⟨-, hRy, hsame⟩ := hleft y hy
    obtain ⟨-, -, hsame'⟩ := hleft z (heq ▸ hy)
    rw [hsame, hsame'] at heq
    exact h.inj y z hRy heq
  · have hcx : c ≠ R x := by
      rintro rfl
      rw [Function.update_self] at huc
      cases huc
    rw [Function.update_of_ne hcx] at huc
    obtain ⟨y, rfl⟩ := h.full c hc huc
    have hyx : y ≠ x := fun hyx => hcx (by rw [hyx])
    exact ⟨y, Function.update_of_ne hyx _ _⟩

end G9OS.Lib
