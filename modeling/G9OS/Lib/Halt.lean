import Mathlib

/-! # Computations that may halt

A computation in `Except ε` either returns or halts with a reason. A returned
result is taken apart into the results of the parts.
-/

namespace G9OS.Lib

variable {ε α β : Type}

theorem bind_ok {x : Except ε α} {f : α → Except ε β} {b : β} :
    x >>= f = .ok b ↔ ∃ a, x = .ok a ∧ f a = .ok b := by
  cases x with
  | error e => simp [bind, Except.bind]
  | ok a => simp [bind, Except.bind]

theorem map_ok {x : Except ε α} {f : α → β} {b : β} :
    x.map f = .ok b ↔ ∃ a, x = .ok a ∧ f a = b := by
  cases x with
  | error e => simp [Except.map]
  | ok a => simp [Except.map]

theorem map_map {γ : Type} (x : Except ε α) (f : α → β) (g : β → γ) :
    (x.map f).map g = x.map fun a => g (f a) := by
  cases x with
  | error e => rfl
  | ok a => rfl

theorem map_bind {γ : Type} (x : Except ε α) (f : α → Except ε β) (g : β → γ) :
    (x >>= f).map g = x >>= fun a => (f a).map g := by
  cases x with
  | error e => rfl
  | ok a => rfl

/-- Two computations that agree up to what they return, with the same continued. -/
theorem bind_congr_map {γ δ : Type} {x : Except ε α} {y : Except ε β} {p : α → γ} {q : β → γ}
    {f : α → Except ε δ} {g : β → Except ε δ} (h : x.map p = y.map q)
    (hfg : ∀ a b, p a = q b → f a = g b) : x >>= f = y >>= g := by
  cases x with
  | error e =>
      cases y with
      | error e' =>
          cases h
          rfl
      | ok b => cases h
  | ok a =>
      cases y with
      | error e => cases h
      | ok b => exact hfg a b (Except.ok.inj h)

@[simp] theorem ok_bind (a : α) (f : α → Except ε β) : (Except.ok a >>= f) = f a := rfl

/-! ## Reasons that do not occur -/

/-- The computation does not halt for a reason in `bad`, and what it returns satisfies `Q`. -/
structure Avoids (bad : ε → Prop) (Q : α → Prop) (x : Except ε α) : Prop where
  ok : ∀ a, x = .ok a → Q a
  error : ∀ e, x = .error e → ¬ bad e

section
variable {bad : ε → Prop} {P Q : α → Prop} {R : β → Prop} {x : Except ε α} {f : α → Except ε β}

theorem Avoids.returns {a : α} (h : Q a) : Avoids bad Q (.ok a) :=
  ⟨fun _ ha => by cases ha; exact h, nofun⟩

theorem Avoids.halts {e : ε} (h : ¬ bad e) : Avoids bad Q (.error e : Except ε α) :=
  ⟨nofun, fun _ he => by cases he; exact h⟩

/-- The second part may use what the first part returned and what is known of it. -/
theorem Avoids.bind (hx : Avoids bad P x) (hf : ∀ a, x = .ok a → P a → Avoids bad R (f a)) :
    Avoids bad R (x >>= f) := by
  cases x with
  | error e => exact .halts (hx.error e rfl)
  | ok a => exact hf a rfl (hx.ok a rfl)

theorem Avoids.map {g : α → β} (hx : Avoids bad P x) (hg : ∀ a, x = .ok a → P a → R (g a)) :
    Avoids bad R (x.map g) := by
  cases x with
  | error e => exact .halts (hx.error e rfl)
  | ok a => exact .returns (hg a rfl (hx.ok a rfl))

theorem Avoids.mono (hx : Avoids bad P x) (h : ∀ a, x = .ok a → P a → Q a) : Avoids bad Q x :=
  ⟨fun a ha => h a ha (hx.ok a ha), hx.error⟩

end

def reason : Except ε α → Option ε
  | .ok _ => none
  | .error e => some e

theorem reason_some {x : Except ε α} {e : ε} : reason x = some e ↔ x = .error e := by
  cases x <;> simp [reason]

theorem toOption_some {x : Except ε α} {a : α} : x.toOption = some a ↔ x = .ok a := by
  cases x <;> simp [Except.toOption]

end G9OS.Lib
