import G9OS.Lib.Regex

/-! # The matcher of `grep` (`user/grep.c`)

Strings are the lists of their bytes before the NUL. The matcher is compared with the language that
its pattern stands for.
-/

namespace G9OS.User

open Lib

abbrev CARET : UInt8 := 94     -- ^
abbrev DOT : UInt8 := 46       -- .
abbrev STAR : UInt8 := 42      -- *
abbrev DOLLAR : UInt8 := 36    -- $

/-- `matchstar(c, re, text)`, with `k` for `matchhere(re, _)` -/
def matchstar (c : UInt8) (k : List UInt8 → Bool) : List UInt8 → Bool
  | [] => k []
  | t :: text => k (t :: text) || ((t == c || c == DOT) && matchstar c k text)

def matchhere : List UInt8 → List UInt8 → Bool
  | [], _ => true
  | [c], text =>
      if c = DOLLAR then text.isEmpty
      else
        match text with
        | [] => false
        | t :: _ => c == DOT || c == t
  | c :: d :: re, text =>
      if d = STAR then matchstar c (matchhere re) text
      else
        match text with
        | [] => false
        | t :: text => (c == DOT || c == t) && matchhere (d :: re) text

theorem matchhere_star (c : UInt8) (re text : List UInt8) :
    matchhere (c :: STAR :: re) text = matchstar c (matchhere re) text := by
  rw [matchhere.eq_def]
  exact if_pos rfl

theorem matchhere_end {c d : UInt8} (hd : d ≠ STAR) (re : List UInt8) :
    matchhere (c :: d :: re) [] = false := by
  rw [matchhere.eq_def]
  exact if_neg hd

theorem matchhere_char {c d : UInt8} (hd : d ≠ STAR) (re : List UInt8) (t : UInt8)
    (text : List UInt8) :
    matchhere (c :: d :: re) (t :: text) = ((c == DOT || c == t) && matchhere (d :: re) text) := by
  rw [matchhere.eq_def]
  exact if_neg hd

def matchAnywhere (re : List UInt8) : List UInt8 → Bool
  | [] => matchhere re []
  | t :: text => matchhere re (t :: text) || matchAnywhere re text

def matchText (re text : List UInt8) : Bool :=
  match re with
  | [] => matchAnywhere [] text
  | c :: re' => if c = CARET then matchhere re' text else matchAnywhere (c :: re') text

/-! ## What a pattern stands for -/

def atomOf (c : UInt8) : Atom UInt8 := if c = DOT then .any else .lit c

/-- The pieces of a pattern, and if it ends with `$`. A `*` that is first or follows a piece with
`*` is a character. -/
def piecesOf : List UInt8 → List (Piece UInt8) × Bool
  | [] => ([], false)
  | [c] => if c = DOLLAR then ([], true) else ([.one (atomOf c)], false)
  | c :: d :: re =>
      if d = STAR then (.many (atomOf c) :: (piecesOf re).1, (piecesOf re).2)
      else (.one (atomOf c) :: (piecesOf (d :: re)).1, (piecesOf (d :: re)).2)

def patternOf (re : List UInt8) : Pattern UInt8 :=
  match re with
  | [] => ⟨false, [], false⟩
  | c :: re' =>
      if c = CARET then ⟨true, (piecesOf re').1, (piecesOf re').2⟩
      else ⟨false, (piecesOf (c :: re')).1, (piecesOf (c :: re')).2⟩

/-! ## Correctness -/

section
variable {c t : UInt8} {re text : List UInt8}

theorem admits_iff : (atomOf c).Admits t ↔ (c == DOT || c == t) = true := by
  unfold atomOf
  by_cases hc : c = DOT
  · simp [hc, Atom.Admits]
  · simp [hc, Atom.Admits]

theorem matchstar_iff {k : List UInt8 → Bool} :
    matchstar c k text = true ↔
      ∃ word rest, text = word ++ rest ∧ (∀ a ∈ word, (atomOf c).Admits a) ∧ k rest = true := by
  induction text with
  | nil =>
      constructor
      · intro h
        exact ⟨[], [], rfl, List.forall_mem_nil _, h⟩
      · rintro ⟨word, rest, htext, -, hk⟩
        obtain ⟨-, rfl⟩ := List.nil_eq_append_iff.1 htext
        exact hk
  | cons t text ih =>
      rw [matchstar, Bool.or_eq_true, Bool.and_eq_true, ih]
      constructor
      · rintro (hk | ⟨ht, word, rest, rfl, hword, hk⟩)
        · exact ⟨[], t :: text, rfl, List.forall_mem_nil _, hk⟩
        · refine ⟨t :: word, rest, rfl, List.forall_mem_cons.2 ⟨?_, hword⟩, hk⟩
          rw [admits_iff, Bool.or_comm, Bool.beq_comm (a := c)]
          exact ht
      · rintro ⟨word, rest, htext, hword, hk⟩
        cases word with
        | nil =>
            left
            rw [htext]
            exact hk
        | cons a word =>
            obtain ⟨rfl, rfl⟩ := List.cons.inj htext
            obtain ⟨ha, hword⟩ := List.forall_mem_cons.1 hword
            rw [admits_iff, Bool.or_comm, Bool.beq_comm (a := c)] at ha
            exact .inr ⟨ha, word, rest, rfl, hword, hk⟩

def Here (pieces : List (Piece UInt8)) (eol : Bool) (text : List UInt8) : Prop :=
  ∃ word after, text = word ++ after ∧ word ∈ (⟨false, pieces, eol⟩ : Pattern UInt8).lang ∧
    (eol = true → after = [])

theorem here_nil {eol : Bool} : Here [] eol text ↔ (eol = true → text = []) := by
  constructor
  · rintro ⟨word, after, rfl, hword, heol⟩ h
    rw [mem_lang_nil] at hword
    rw [hword, heol h]
    rfl
  · intro h
    exact ⟨[], text, rfl, mem_lang_nil.2 rfl, h⟩

theorem here_one {pieces : List (Piece UInt8)} {eol : Bool} :
    Here (.one (atomOf c) :: pieces) eol text ↔
      ∃ t rest, text = t :: rest ∧ (atomOf c).Admits t ∧ Here pieces eol rest := by
  constructor
  · rintro ⟨word, after, rfl, hword, heol⟩
    obtain ⟨u, ⟨t, ht, rfl⟩, v, hv, rfl⟩ := mem_lang_cons.1 hword
    exact ⟨t, v ++ after, rfl, ht, v, after, rfl, hv, heol⟩
  · rintro ⟨t, rest, rfl, ht, word, after, rfl, hword, heol⟩
    exact ⟨t :: word, after, rfl, mem_lang_cons.2 ⟨[t], ⟨t, ht, rfl⟩, word, hword, rfl⟩, heol⟩

theorem here_many {pieces : List (Piece UInt8)} {eol : Bool} :
    Here (.many (atomOf c) :: pieces) eol text ↔
      ∃ word rest, text = word ++ rest ∧ (∀ a ∈ word, (atomOf c).Admits a) ∧
        Here pieces eol rest := by
  constructor
  · rintro ⟨word, after, rfl, hword, heol⟩
    obtain ⟨u, hu, v, hv, rfl⟩ := mem_lang_cons.1 hword
    exact ⟨u, v ++ after, by rw [List.append_assoc], Atom.mem_kstar.1 hu, v, after, rfl, hv, heol⟩
  · rintro ⟨u, rest, rfl, hu, word, after, rfl, hword, heol⟩
    refine ⟨u ++ word, after, by rw [List.append_assoc], ?_, heol⟩
    exact mem_lang_cons.2 ⟨u, Atom.mem_kstar.2 hu, word, hword, rfl⟩

theorem matchhere_iff :
    matchhere re text = true ↔ Here (piecesOf re).1 (piecesOf re).2 text := by
  induction re using piecesOf.induct generalizing text with
  | case1 =>
      simp [matchhere, piecesOf, here_nil]
  | case2 =>
      simp [matchhere, piecesOf, here_nil]
  | case3 c hc =>
      rw [piecesOf, if_neg hc, here_one]
      cases text with
      | nil => simp [matchhere, hc]
      | cons t text => simp [matchhere, hc, here_nil, admits_iff]
  | case4 c re ih =>
      rw [piecesOf, if_pos rfl, matchhere_star, matchstar_iff, here_many]
      simp only [ih]
  | case5 c d re hd ih =>
      rw [piecesOf, if_neg hd, here_one]
      cases text with
      | nil => simp [matchhere_end hd]
      | cons t text =>
          rw [matchhere_char hd, Bool.and_eq_true, ← admits_iff, ih]
          constructor
          · rintro ⟨ht, hrest⟩
            exact ⟨t, text, rfl, ht, hrest⟩
          · rintro ⟨t', text', heq, ht, hrest⟩
            cases heq
            exact ⟨ht, hrest⟩

theorem matchAnywhere_iff :
    matchAnywhere re text = true ↔
      ∃ before rest, text = before ++ rest ∧ matchhere re rest = true := by
  induction text with
  | nil =>
      constructor
      · intro h
        exact ⟨[], [], rfl, h⟩
      · rintro ⟨before, rest, htext, h⟩
        obtain ⟨-, rfl⟩ := List.nil_eq_append_iff.1 htext
        exact h
  | cons t text ih =>
      rw [matchAnywhere, Bool.or_eq_true, ih]
      constructor
      · rintro (h | ⟨before, rest, rfl, h⟩)
        · exact ⟨[], t :: text, rfl, h⟩
        · exact ⟨t :: before, rest, rfl, h⟩
      · rintro ⟨before, rest, htext, h⟩
        cases before with
        | nil =>
            left
            rw [htext]
            exact h
        | cons a before =>
            obtain ⟨rfl, rfl⟩ := List.cons.inj htext
            exact .inr ⟨before, rest, rfl, h⟩

/-- The matcher of `grep` decides the pattern: it finds a match exactly if some part of the text, at
the ends that `^` and `$` ask for, is in the language of the pattern. -/
theorem matchText_iff (re text : List UInt8) :
    matchText re text = true ↔ (patternOf re).Matches text := by
  have hanywhere : ∀ re, matchAnywhere re text = true ↔
      (⟨false, (piecesOf re).1, (piecesOf re).2⟩ : Pattern UInt8).Matches text := by
    intro re
    rw [matchAnywhere_iff]
    constructor
    · rintro ⟨before, rest, rfl, h⟩
      obtain ⟨word, after, rfl, hword, heol⟩ := matchhere_iff.1 h
      exact ⟨before, word, after, by rw [List.append_assoc], hword, fun h => (by cases h), heol⟩
    · rintro ⟨before, word, after, rfl, hword, -, heol⟩
      refine ⟨before, word ++ after, by rw [List.append_assoc], matchhere_iff.2 ?_⟩
      exact ⟨word, after, rfl, hword, heol⟩
  cases re with
  | nil => exact hanywhere []
  | cons c re =>
      by_cases hc : c = CARET
      · rw [matchText, patternOf, if_pos hc, if_pos hc, matchhere_iff]
        constructor
        · rintro ⟨word, after, rfl, hword, heol⟩
          exact ⟨[], word, after, rfl, hword, fun _ => rfl, heol⟩
        · rintro ⟨before, word, after, rfl, hword, hbol, heol⟩
          rw [hbol rfl]
          exact ⟨word, after, rfl, hword, heol⟩
      · rw [matchText, patternOf, if_neg hc, if_neg hc]
        exact hanywhere (c :: re)

end

end G9OS.User
