import Mathlib

/-! # Patterns of single characters and repetitions

A pattern is a sequence of pieces, each one character or a run of characters of one kind, and may
be tied to the beginning and to the end of the text.
-/

namespace G9OS.Lib

open Computability

variable {α : Type}

inductive Atom (α : Type)
  | lit (a : α)
  | any

inductive Piece (α : Type)
  | one (x : Atom α)
  | many (x : Atom α)

def Atom.Admits : Atom α → α → Prop
  | .lit a, b => a = b
  | .any, _ => True

def Atom.lang (x : Atom α) : Language α := {w | ∃ a, x.Admits a ∧ w = [a]}

def Piece.lang : Piece α → Language α
  | .one x => x.lang
  | .many x => x.lang∗

structure Pattern (α : Type) where
  bol : Bool
  pieces : List (Piece α)
  eol : Bool

def Pattern.lang (p : Pattern α) : Language α := (p.pieces.map Piece.lang).prod

/-- Some part of the text is in the language of the pattern, at the ends it is tied to. -/
def Pattern.Matches (p : Pattern α) (text : List α) : Prop :=
  ∃ before word after, text = before ++ word ++ after ∧ word ∈ p.lang ∧
    (p.bol = true → before = []) ∧ (p.eol = true → after = [])

theorem Atom.mem_kstar {x : Atom α} {w : List α} : w ∈ x.lang∗ ↔ ∀ a ∈ w, x.Admits a := by
  rw [Language.mem_kstar]
  constructor
  · rintro ⟨L, rfl, hL⟩ a ha
    obtain ⟨y, hy, hay⟩ := List.mem_flatten.1 ha
    obtain ⟨b, hb, rfl⟩ := hL y hy
    rw [List.mem_singleton.1 hay]
    exact hb
  · intro h
    refine ⟨w.map fun a => [a], ?_, fun y hy => ?_⟩
    · induction w with
      | nil => rfl
      | cons a w ih =>
          rw [List.map_cons, List.flatten_cons, ← ih fun b hb => h b (List.mem_cons_of_mem a hb)]
          rfl
    · obtain ⟨a, ha, rfl⟩ := List.mem_map.1 hy
      exact ⟨a, h a ha, rfl⟩

theorem mem_lang_nil {w : List α} {b e : Bool} : w ∈ (⟨b, [], e⟩ : Pattern α).lang ↔ w = [] :=
  Language.mem_one w

theorem mem_lang_cons {x : Piece α} {xs : List (Piece α)} {w : List α} {b e : Bool} :
    w ∈ (⟨b, x :: xs, e⟩ : Pattern α).lang ↔
      ∃ u ∈ x.lang, ∃ v ∈ (⟨b, xs, e⟩ : Pattern α).lang, u ++ v = w :=
  Language.mem_mul

end G9OS.Lib
