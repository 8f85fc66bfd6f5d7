import G9OS.User.Regex

/-! # The line loop of `grep` (`user/grep.c`)

The file arrives in pieces of any size that fits behind what is in the buffer. The lines that are
complete are looked at, and the beginning of the next one moves to the front of the buffer. A line
that fills the buffer without its newline ends the loop, because the next `read` is for no bytes.
-/

namespace G9OS.User

abbrev NL : UInt8 := 10
abbrev BUFSIZE : Nat := 1024

/-- `strchr(p, '\n')` in a string: what is before the newline and what is behind it. -/
def strchrNL : List UInt8 → Option (List UInt8 × List UInt8)
  | [] => none
  | b :: p =>
      if b = 0 then none
      else if b = NL then some ([], p)
      else (strchrNL p).map fun x => (b :: x.1, x.2)

theorem strchrNL_length {p line rest : List UInt8} (h : strchrNL p = some (line, rest)) :
    rest.length < p.length := by
  induction p generalizing line with
  | nil => cases h
  | cons b p ih =>
      unfold strchrNL at h
      split at h
      · cases h
      · split at h
        · cases h
          exact Nat.lt_succ_self _
        · obtain ⟨x, hx, heq⟩ := Option.map_eq_some_iff.1 h
          cases heq
          exact (ih hx).trans (Nat.lt_succ_self _)

def grepLines (pattern p : List UInt8) : List UInt8 × List UInt8 :=
  match h : strchrNL p with
  | none => ([], p)
  | some (line, rest) =>
      have := strchrNL_length h
      let (out, left) := grepLines pattern rest
      ((if matchText pattern line then line ++ [NL] else []) ++ out, left)
termination_by p.length

def grep (pattern : List UInt8) : List (List UInt8) → List UInt8 → List UInt8
  | [], _ => []
  | piece :: pieces, left =>
      let (out, left') := grepLines pattern (left ++ piece)
      out ++ grep pattern pieces left'

/-- How a file can arrive: every piece fits into the buffer, and the calls go on until the file or
the room in the buffer is at its end. -/
inductive Arrives (pattern : List UInt8) : List UInt8 → List UInt8 → List (List UInt8) → Prop
  | eof {left : List UInt8} : Arrives pattern [] left []
  | noRoom {file left : List UInt8} (h : left.length = BUFSIZE - 1) : Arrives pattern file left []
  | piece {file left piece : List UInt8} {pieces : List (List UInt8)} (hne : piece ≠ [])
      (hfits : left.length + piece.length ≤ BUFSIZE - 1)
      (h : Arrives pattern file (grepLines pattern (left ++ piece)).2 pieces) :
      Arrives pattern (piece ++ file) left (piece :: pieces)

/-- The lines that a newline ends. -/
def completeLines (file : List UInt8) : List (List UInt8) := (file.splitOn NL).dropLast

def matchingLines (pattern file : List UInt8) : List UInt8 :=
  ((completeLines file).filter fun line => matchText pattern line).flatMap fun line => line ++ [NL]

section
variable {pattern p line rest file left : List UInt8}

theorem completeLines_of_notMem (h : NL ∉ p) : completeLines p = [] := by
  rw [completeLines, List.splitOn_eq_singleton h]
  rfl

theorem completeLines_cons (h : NL ∉ line) (rest : List UInt8) :
    completeLines (line ++ NL :: rest) = line :: completeLines rest := by
  rw [completeLines, List.splitOn_append_cons_self_of_not_mem h,
    List.dropLast_cons_of_ne_nil (List.splitOn_ne_nil NL rest)]
  rfl

theorem matchingLines_of_notMem (h : NL ∉ p) : matchingLines pattern p = [] := by
  rw [matchingLines, completeLines_of_notMem h]
  rfl

theorem strchrNL_some (h : strchrNL p = some (line, rest)) :
    p = line ++ NL :: rest ∧ NL ∉ line := by
  induction p generalizing line with
  | nil => cases h
  | cons b p ih =>
      unfold strchrNL at h
      split at h
      · cases h
      · split at h
        · rename_i hb
          cases h
          exact ⟨by rw [hb]; rfl, List.not_mem_nil⟩
        · rename_i hb
          obtain ⟨x, hx, heq⟩ := Option.map_eq_some_iff.1 h
          cases heq
          obtain ⟨hp, hnot⟩ := ih hx
          refine ⟨by rw [hp]; rfl, fun hmem => ?_⟩
          rcases List.mem_cons.1 hmem with heq | hmem
          · exact hb heq.symm
          · exact hnot hmem

theorem strchrNL_none (h0 : 0 ∉ p) (h : strchrNL p = none) : NL ∉ p := by
  induction p with
  | nil => exact List.not_mem_nil
  | cons b p ih =>
      rw [List.mem_cons, not_or] at h0 ⊢
      obtain ⟨hb, hp⟩ := h0
      unfold strchrNL at h
      rw [if_neg (Ne.symm hb)] at h
      split at h
      · cases h
      · rename_i hnl
        exact ⟨Ne.symm hnl, ih hp (Option.map_eq_none_iff.1 h)⟩

theorem grepLines_none (h : strchrNL p = none) : grepLines pattern p = ([], p) := by
  rw [grepLines]
  split
  · rfl
  · rename_i hsome
    cases h.symm.trans hsome

theorem grepLines_some (h : strchrNL p = some (line, rest)) :
    grepLines pattern p =
      ((if matchText pattern line then line ++ [NL] else []) ++ (grepLines pattern rest).1,
        (grepLines pattern rest).2) := by
  rw [grepLines]
  split
  · rename_i hnone
    cases h.symm.trans hnone
  · rename_i hsome
    cases h.symm.trans hsome
    rfl

structure LinesSpec (pattern p out left : List UInt8) (taken : List (List UInt8)) : Prop where
  lines : ∀ more, completeLines (p ++ more) = taken ++ completeLines (left ++ more)
  printed : out = (taken.filter fun line => matchText pattern line).flatMap fun line => line ++ [NL]
  unfinished : NL ∉ left
  nonzero : 0 ∉ left

theorem grepLines_spec (pattern : List UInt8) (h0 : 0 ∉ p) :
    ∃ taken, LinesSpec pattern p (grepLines pattern p).1 (grepLines pattern p).2 taken := by
  induction hn : p.length using Nat.strong_induction_on generalizing p with
  | _ n ih =>
      rcases hnl : strchrNL p with _ | ⟨line, rest⟩
      · rw [grepLines_none hnl]
        exact ⟨[], fun _ => rfl, rfl, strchrNL_none h0 hnl, h0⟩
      · obtain ⟨hp, hline⟩ := strchrNL_some hnl
        have hrest0 : 0 ∉ rest := fun hmem => h0 (by
          rw [hp]
          exact List.mem_append_right _ (List.mem_cons_of_mem _ hmem))
        obtain ⟨taken, hspec⟩ := ih rest.length (hn ▸ strchrNL_length hnl) hrest0 rfl
        rw [grepLines_some hnl]
        refine ⟨line :: taken, fun more => ?_, ?_, hspec.unfinished, hspec.nonzero⟩
        · rw [hp, List.append_assoc, List.cons_append, completeLines_cons hline,
            hspec.lines more]
          rfl
        · rw [List.filter_cons, hspec.printed]
          split
          · rw [List.flatMap_cons]
          · rfl

theorem grep_from {pieces : List (List UInt8)} (h : Arrives pattern file left pieces)
    (h0 : 0 ∉ left ++ file) (hleft : NL ∉ left)
    (hshort : ∀ line ∈ completeLines (left ++ file), line.length < BUFSIZE - 1) :
    grep pattern pieces left = matchingLines pattern (left ++ file) := by
  induction h with
  | eof =>
      rw [List.append_nil, matchingLines_of_notMem hleft]
      rfl
  | @noRoom file left hfull =>
      have hno : NL ∉ left ++ file := by
        intro hmem
        -- The first line would be at least as long as the buffer.
        obtain ⟨front, back, hfile, hfront⟩ := List.eq_append_cons_of_mem
          ((List.mem_append.1 hmem).resolve_left hleft)
        have hline : NL ∉ left ++ front := fun hmem =>
          (List.mem_append.1 hmem).elim hleft hfront
        rw [hfile, ← List.append_assoc, completeLines_cons hline] at hshort
        have hlen := hshort _ List.mem_cons_self
        rw [List.length_append] at hlen
        omega
      rw [matchingLines_of_notMem hno]
      rfl
  | @piece file left piece pieces hne hfits _ ih =>
      rw [← List.append_assoc] at h0 hshort ⊢
      have h0' : 0 ∉ left ++ piece := fun hmem => h0 (List.mem_append_left _ hmem)
      obtain ⟨lines, hspec⟩ := grepLines_spec pattern h0'
      have hrest := ih (fun hmem => (List.mem_append.1 hmem).elim hspec.nonzero
        fun hmem => h0 (List.mem_append_right _ hmem)) hspec.unfinished (fun line hline =>
        hshort line (by
          rw [hspec.lines file]
          exact List.mem_append_right _ hline))
      calc grep pattern (piece :: pieces) left
          = (grepLines pattern (left ++ piece)).1 ++
              grep pattern pieces (grepLines pattern (left ++ piece)).2 := rfl
        _ = matchingLines pattern (left ++ piece ++ file) := by
          rw [hrest, hspec.printed, matchingLines, matchingLines, hspec.lines file,
            List.filter_append, List.flatMap_append]

/-- However the file arrives, `grep` prints its complete lines that match, in their order, if it
holds no NUL and no line that fills the buffer. -/
theorem grep_prints_matching {pieces : List (List UInt8)} (h : Arrives pattern file [] pieces)
    (h0 : 0 ∉ file) (hshort : ∀ line ∈ completeLines file, line.length < BUFSIZE - 1) :
    grep pattern pieces [] = matchingLines pattern file :=
  grep_from h h0 List.not_mem_nil hshort

/-- A line that arrives in two pieces. -/
theorem grep_prints_matching_split :
    grep [97] [[97], [10, 98, 10]] [] = matchingLines [97] [97, 10, 98, 10] := by
  have hlast : Arrives [97] ([10, 98, 10] ++ []) (grepLines [97] ([] ++ [97])).2
      [[10, 98, 10]] := by
    rw [grepLines_none (by decide)]
    exact .piece (by decide) (by decide) .eof
  have hall : Arrives [97] ([97] ++ [10, 98, 10]) [] [[97], [10, 98, 10]] :=
    .piece (by decide) (by decide) hlast
  exact grep_prints_matching hall (by decide) (by decide)

end

end G9OS.User
