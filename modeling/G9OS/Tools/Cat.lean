import G9OS.Lib.CText
import G9OS.Lib.Files

/-! # `custom_cat.c`

`print_file` copies a file byte by byte and remembers whether it is at the beginning of a
line, how many empty lines it has just seen, and the number of the next line, which is global.
The counters are integers: an `int` that overflows has no meaning in C.
-/

namespace G9OS.Tools

open Lib

abbrev newline : UInt8 := 10
abbrev dollar : UInt8 := 36
abbrev tab : UInt8 := 9
abbrev dash : UInt8 := 45

structure CatOptions where
  showLineNumbers : Bool := false            -- `-n`
  skipEmpty : Bool := false                  -- `-b`
  endMarker : Bool := false                  -- `-E`
  skipBlanks : Bool := false                 -- `-s`
deriving DecidableEq, Repr

structure CatState where
  newLine : Bool
  emptyLines : Nat
  myLineCnt : Int
deriving DecidableEq, Repr

/-- `printf("%6d\t", n)` -/
def numberText (n : Int) : List UInt8 := padLeft 6 (decimal n) ++ [tab]

def printNumber (wanted : Bool) (st : CatState) : List UInt8 × CatState :=
  if wanted then (numberText st.myLineCnt, { st with myLineCnt := st.myLineCnt + 1 }) else ([], st)

def endOfLine (o : CatOptions) : List UInt8 :=
  (if o.endMarker then [dollar] else []) ++ [newline]

def catByte (o : CatOptions) (st : CatState) (ch : UInt8) : List UInt8 × CatState :=
  if ch = newline then
    if st.newLine then
      let st := { st with emptyLines := st.emptyLines + 1 }
      if o.skipBlanks && decide (1 < st.emptyLines) then ([], st)
      else
        let (num, st) := printNumber (o.showLineNumbers && !o.skipEmpty) st
        (num ++ endOfLine o, { st with newLine := true })
    else (endOfLine o, { st with emptyLines := 0, newLine := true })
  else
    let st := { st with emptyLines := 0 }
    if st.newLine then
      let (num, st) := printNumber (o.skipEmpty || o.showLineNumbers) st
      (num ++ [ch], { st with newLine := false })
    else ([ch], st)

def catBytes (o : CatOptions) : CatState → List UInt8 → List UInt8 × CatState
  | st, [] => ([], st)
  | st, ch :: rest =>
      let (out, st) := catByte o st ch
      let (more, st) := catBytes o st rest
      (out ++ more, st)

/-- `print_file`, from and to a value of `my_line_cnt`. -/
def printFile (o : CatOptions) (cnt : Int) (content : List UInt8) : List UInt8 × Int :=
  let (out, st) := catBytes o ⟨true, 0, cnt⟩ content
  (out, st.myLineCnt)

/-! ## `main` -/

inductive CatArgs
  | help
  | unknown (c : UInt8)
  | files (o : CatOptions) (args : List Pathname)
deriving DecidableEq, Repr

/-- The letters of one argument, and what to do with the rest. -/
def catLetters (o : CatOptions) (next : CatOptions → CatArgs) : List UInt8 → CatArgs
  | [] => next o
  | c :: cs =>
      if c = 110 then catLetters { o with showLineNumbers := true } next cs       -- `n`
      else if c = 98 then catLetters { o with skipEmpty := true } next cs         -- `b`
      else if c = 69 then catLetters { o with endMarker := true } next cs         -- `E`
      else if c = 115 then catLetters { o with skipBlanks := true } next cs       -- `s`
      else if c = 104 then .help                                                  -- `h`
      else .unknown c

def catParse (o : CatOptions) : List Pathname → CatArgs
  | [] => .files o []
  | arg :: args =>
      match arg with
      | 45 :: c :: cs => catLetters o (fun o => catParse o args) (c :: cs)
      | _ => .files o (arg :: args)

/-- `-b` overrides `-n`. -/
def CatOptions.settled (o : CatOptions) : CatOptions :=
  if o.skipEmpty then { o with showLineNumbers := false } else o

/-- The loop over the files: standard output, the exit status and `my_line_cnt`. Standard input
is at its end once it has been read. -/
def catArgs (fopen : Pathname → Option (List UInt8)) (o : CatOptions) :
    List UInt8 → Int → List Pathname → List UInt8 × Nat × Int
  | _, cnt, [] => ([], 0, cnt)
  | stdin, cnt, arg :: args =>
      if arg = [dash] then
        let (out, cnt) := printFile o cnt stdin
        let (more, status, cnt) := catArgs fopen o [] cnt args
        (out ++ more, status, cnt)
      else
        match fopen arg with
        | none =>
            let (more, _, cnt) := catArgs fopen o stdin cnt args
            (more, 1, cnt)
        | some content =>
            let (out, cnt) := printFile o cnt content
            let (more, status, cnt) := catArgs fopen o stdin cnt args
            (out ++ more, status, cnt)

/-- `main`: what it prints, unless it is the help, and the exit status. -/
def catMain (fopen : Pathname → Option (List UInt8)) (stdin : List UInt8) (args : List Pathname) :
    Option (List UInt8) × Nat :=
  match catParse {} args with
  | .help => (none, 0)
  | .unknown _ => (some [], 1)
  | .files o [] => (some (printFile o.settled 1 stdin).1, 0)
  | .files o paths =>
      let (out, status, _) := catArgs fopen o.settled stdin 1 paths
      (some out, status)

def catFiles (o : CatOptions) (cnt : Int) : List (List UInt8) → List UInt8
  | [] => []
  | content :: contents =>
      let (out, cnt) := printFile o cnt content
      out ++ catFiles o cnt contents

theorem catArgs_files {fopen : Pathname → Option (List UInt8)} {o : CatOptions}
    {stdin : List UInt8} {cnt : Int} {paths : List Pathname} {contents : List (List UInt8)}
    (hdash : [dash] ∉ paths) (h : paths.map fopen = contents.map some) :
    (catArgs fopen o stdin cnt paths).1 = catFiles o cnt contents ∧
      (catArgs fopen o stdin cnt paths).2.1 = 0 := by
  induction paths generalizing contents cnt with
  | nil =>
      cases contents with
      | nil => exact ⟨rfl, rfl⟩
      | cons content contents => cases h
  | cons path paths ih =>
      cases contents with
      | nil => cases h
      | cons content contents =>
          rw [List.map_cons, List.map_cons, List.cons.injEq] at h
          rw [List.mem_cons, not_or] at hdash
          have hrest := @ih (printFile o cnt content).2 contents hdash.2 h.2
          rw [catArgs, if_neg (Ne.symm hdash.1), h.1]
          dsimp only
          rw [hrest.1, catFiles]
          exact ⟨rfl, hrest.2⟩

theorem catMain_files {fopen : Pathname → Option (List UInt8)} {o : CatOptions}
    {stdin : List UInt8} {args paths : List Pathname} {contents : List (List UInt8)}
    (hargs : catParse {} args = .files o paths) (hne : paths ≠ []) (hdash : [dash] ∉ paths)
    (h : paths.map fopen = contents.map some) :
    catMain fopen stdin args = (some (catFiles o.settled 1 contents), 0) := by
  obtain ⟨hout, hstatus⟩ := @catArgs_files fopen o.settled stdin 1 paths contents hdash h
  cases paths with
  | nil => exact absurd rfl hne
  | cons path paths =>
      rw [catMain, hargs]
      dsimp only
      rw [hout, hstatus]

/-! ## One byte -/

def CatOptions.numbersBlank (o : CatOptions) : Bool := o.showLineNumbers && !o.skipEmpty

def CatOptions.numbersText (o : CatOptions) : Bool := o.skipEmpty || o.showLineNumbers

def numberIf (wanted : Bool) (n : Int) : List UInt8 := if wanted then numberText n else []

def bumpIf (wanted : Bool) (n : Int) : Int := if wanted then n + 1 else n

theorem catByte_blank (o : CatOptions) (e : Nat) (n : Int) :
    catByte o ⟨true, e, n⟩ newline =
      if o.skipBlanks && decide (0 < e) then ([], ⟨true, e + 1, n⟩)
      else (numberIf o.numbersBlank n ++ endOfLine o, ⟨true, e + 1, bumpIf o.numbersBlank n⟩) := by
  have hiff : (1 < e + 1) = (0 < e) := by simp
  simp only [catByte, if_pos, hiff, CatOptions.numbersBlank]
  cases o.showLineNumbers && !o.skipEmpty with
  | false => rfl
  | true => rfl

theorem catByte_end (o : CatOptions) (e : Nat) (n : Int) :
    catByte o ⟨false, e, n⟩ newline = (endOfLine o, ⟨true, 0, n⟩) := rfl

theorem catByte_text (o : CatOptions) (nl : Bool) (e : Nat) (n : Int) {ch : UInt8}
    (hch : ch ≠ newline) :
    catByte o ⟨nl, e, n⟩ ch = (numberIf (nl && o.numbersText) n ++ [ch],
      ⟨false, 0, bumpIf (nl && o.numbersText) n⟩) := by
  rw [catByte, if_neg hch]
  cases nl with
  | false => rfl
  | true =>
      unfold CatOptions.numbersText
      cases o.skipEmpty || o.showLineNumbers with
      | false => rfl
      | true => rfl

/-! ## Lines -/

/-- A line, and whether a newline ends it. -/
structure Line where
  text : List UInt8
  ended : Bool
deriving DecidableEq, Repr

def lines : List UInt8 → List Line
  | [] => []
  | ch :: rest =>
      if ch = newline then ⟨[], true⟩ :: lines rest
      else
        match lines rest with
        | [] => [⟨[ch], false⟩]
        | l :: ls => ⟨ch :: l.text, l.ended⟩ :: ls

def Line.blank (l : Line) : Bool := l.text.isEmpty

/-- Without the blank lines that directly follow a blank line; `after` tells whether the line
in front of the list was one. -/
def squeeze (after : Bool) : List Line → List Line
  | [] => []
  | l :: ls => if after && l.blank then squeeze true ls else l :: squeeze l.blank ls

/-- `-b` numbers the lines that are not blank, and `-n` without it all lines. -/
def Line.numbered (o : CatOptions) (l : Line) : Bool :=
  if o.skipEmpty then !l.blank else o.showLineNumbers

/-- `-E` puts a `$` in front of the newline. -/
def Line.render (o : CatOptions) (l : Line) : List UInt8 :=
  l.text ++ if l.ended then if o.endMarker then [36, 10] else [10] else []

/-- A number stands in a field of six bytes, and a tabulator behind it. -/
def printLines (o : CatOptions) : Int → List Line → List UInt8
  | _, [] => []
  | n, l :: ls =>
      if l.numbered o then padLeft 6 (decimal n) ++ [9] ++ l.render o ++ printLines o (n + 1) ls
      else l.render o ++ printLines o n ls

/-- The lines that `-s` leaves. -/
def keptLines (o : CatOptions) (after : Bool) (ls : List Line) : List Line :=
  if o.skipBlanks then squeeze after ls else ls

/-- What is printed for a file, line by line. -/
def reference (o : CatOptions) (n : Int) (content : List UInt8) : List UInt8 :=
  printLines o n (keptLines o false (lines content))

/-- What is left to print in the middle of a file: in the middle of a line, its rest and then
the other lines. -/
def remaining (o : CatOptions) (st : CatState) (ls : List Line) : List UInt8 :=
  if st.newLine then printLines o st.myLineCnt (keptLines o (decide (0 < st.emptyLines)) ls)
  else
    match ls with
    | [] => []
    | l :: ls => l.render o ++ printLines o st.myLineCnt (keptLines o false ls)

@[simp] theorem keptLines_nil (o : CatOptions) (after : Bool) : keptLines o after [] = [] := by
  unfold keptLines
  split
  · rfl
  · rfl

theorem keptLines_blank (o : CatOptions) (after : Bool) (ls : List Line) :
    keptLines o after (⟨[], true⟩ :: ls) =
      if o.skipBlanks && after then keptLines o true ls else ⟨[], true⟩ :: keptLines o true ls := by
  unfold keptLines
  cases o.skipBlanks with
  | false => rfl
  | true =>
      cases after with
      | false => rfl
      | true => rfl

theorem keptLines_text (o : CatOptions) (after : Bool) (ch : UInt8) (text : List UInt8)
    (ended : Bool) (ls : List Line) :
    keptLines o after (⟨ch :: text, ended⟩ :: ls) =
      ⟨ch :: text, ended⟩ :: keptLines o false ls := by
  unfold keptLines
  cases o.skipBlanks with
  | false => rfl
  | true => simp [squeeze, Line.blank]

theorem render_eq (o : CatOptions) (l : Line) :
    l.render o = l.text ++ if l.ended then endOfLine o else [] := by
  unfold Line.render endOfLine
  cases o.endMarker with
  | false => rfl
  | true => rfl

theorem printLines_cons (o : CatOptions) (n : Int) (l : Line) (ls : List Line) :
    printLines o n (l :: ls) =
      numberIf (l.numbered o) n ++ (l.render o ++ printLines o (bumpIf (l.numbered o) n) ls) := by
  rw [printLines]
  cases l.numbered o with
  | false => rfl
  | true => exact List.append_assoc ..

theorem numbered_blank (o : CatOptions) : Line.numbered o ⟨[], true⟩ = o.numbersBlank := by
  unfold Line.numbered CatOptions.numbersBlank
  cases o.skipEmpty <;> simp [Line.blank]

theorem numbered_text (o : CatOptions) (ch : UInt8) (text : List UInt8) (ended : Bool) :
    Line.numbered o ⟨ch :: text, ended⟩ = o.numbersText := by
  unfold Line.numbered CatOptions.numbersText
  cases o.skipEmpty <;> simp [Line.blank]

theorem remaining_blank (o : CatOptions) (e : Nat) (n : Int) (ls : List Line) :
    remaining o ⟨true, e, n⟩ (⟨[], true⟩ :: ls) =
      (catByte o ⟨true, e, n⟩ newline).1 ++ remaining o (catByte o ⟨true, e, n⟩ newline).2 ls := by
  rw [catByte_blank, remaining, if_pos rfl, keptLines_blank]
  cases o.skipBlanks && decide (0 < e) with
  | true => simp [remaining]
  | false => simp [remaining, printLines_cons, numbered_blank, render_eq]

theorem remaining_text (o : CatOptions) (st : CatState) {ch : UInt8} (hch : ch ≠ newline)
    (rest : List UInt8) :
    remaining o st (lines (ch :: rest)) =
      (catByte o st ch).1 ++ remaining o (catByte o st ch).2 (lines rest) := by
  obtain ⟨nl, e, n⟩ := st
  rw [catByte_text o nl e n hch, lines, if_neg hch]
  -- the first line of the rest continues this one, if there is one
  cases lines rest with
  | nil =>
      cases nl with
      | false => simp [remaining, Line.render, numberIf, printLines]
      | true =>
          simp [remaining, Line.render, keptLines_text, printLines_cons, numbered_text, printLines]
  | cons l ls =>
      cases nl with
      | false => simp [remaining, Line.render, numberIf, bumpIf]
      | true => simp [remaining, Line.render, keptLines_text, printLines_cons, numbered_text]

theorem catBytes_remaining (o : CatOptions) (st : CatState) (content : List UInt8) :
    (catBytes o st content).1 = remaining o st (lines content) := by
  induction content generalizing st with
  | nil =>
      unfold remaining
      split
      · exact congrArg (printLines o _) (keptLines_nil o _).symm
      · rfl
  | cons ch rest ih =>
      rw [catBytes]
      dsimp only
      rw [ih]
      by_cases hch : ch = newline
      · subst hch
        rw [lines, if_pos rfl]
        obtain ⟨nl, e, n⟩ := st
        cases nl with
        | true => exact (remaining_blank o e n _).symm
        | false => simp [remaining, catByte_end, render_eq]
      · exact (remaining_text o st hch rest).symm

/-! ## Squeezing twice -/

theorem mem_numberText {n : Int} {c : UInt8} (h : c ∈ numberText n) :
    c ≠ newline ∧ c ≠ dollar := by
  rw [numberText, padLeft, List.mem_append, List.mem_append, List.mem_singleton] at h
  rcases h with (hblank | hnumber) | rfl
  · rw [List.eq_of_mem_replicate hblank]
    decide
  · rcases mem_decimal hnumber with rfl | ⟨hlow, -⟩
    · decide
    · constructor
      · rintro rfl
        exact absurd hlow (by decide)
      · rintro rfl
        exact absurd hlow (by decide)
  · decide

theorem catBytes_append (o : CatOptions) (st : CatState) (xs ys : List UInt8) :
    catBytes o st (xs ++ ys) =
      ((catBytes o st xs).1 ++ (catBytes o (catBytes o st xs).2 ys).1,
        (catBytes o (catBytes o st xs).2 ys).2) := by
  induction xs generalizing st with
  | nil => rfl
  | cons x xs ih =>
      rw [List.cons_append, catBytes, catBytes]
      dsimp only
      rw [ih, List.append_assoc]

def squeezeOnly : CatOptions := { skipBlanks := true }

theorem newline_notMem_numberIf (wanted : Bool) (n : Int) : newline ∉ numberIf wanted n := by
  unfold numberIf
  split
  · exact fun h => (mem_numberText h).1 rfl
  · exact List.not_mem_nil

theorem catBytes_text (nl : Bool) (e : Nat) (n : Int) {text : List UInt8} (h : newline ∉ text)
    (hne : text ≠ []) :
    catBytes squeezeOnly ⟨nl, e, n⟩ text = (text, ⟨false, 0, n⟩) := by
  induction text generalizing nl e with
  | nil => exact absurd rfl hne
  | cons ch text ih =>
      rw [List.mem_cons, not_or] at h
      have hbyte : catByte squeezeOnly ⟨nl, e, n⟩ ch = ([ch], ⟨false, 0, n⟩) := by
        rw [catByte_text _ _ _ _ (Ne.symm h.1)]
        simp [CatOptions.numbersText, squeezeOnly, numberIf, bumpIf]
      rw [catBytes, hbyte]
      dsimp only
      by_cases htext : text = []
      · subst htext
        rfl
      · rw [ih false 0 h.2 htext]
        rfl

theorem catBytes_ended (nl : Bool) (e : Nat) (n : Int) {text : List UInt8} (h : newline ∉ text)
    (hfirst : nl = true → text = [] → e = 0) :
    ∃ e', catBytes squeezeOnly ⟨nl, e, n⟩ (text ++ [newline]) =
      (text ++ [newline], ⟨true, e', n⟩) ∧ (nl = false → e' = 0) := by
  by_cases htext : text = []
  · subst htext
    cases nl with
    | false => exact ⟨0, rfl, fun _ => rfl⟩
    | true =>
        obtain rfl : e = 0 := hfirst rfl rfl
        exact ⟨1, rfl, nofun⟩
  · refine ⟨0, ?_, fun _ => rfl⟩
    rw [catBytes_append, catBytes_text nl e n h htext]
    rfl

/-- The state of a second run with `-s` on the output of a first one: it is at the beginning of
a line when the first is, and has seen an empty line only if the first has. -/
structure Echoes (st st' : CatState) : Prop where
  line : st'.newLine = st.newLine
  empty : st.newLine = true → 0 < st'.emptyLines → 0 < st.emptyLines

theorem Echoes.step {o : CatOptions} (hs : o.skipBlanks = true) {st st' : CatState}
    (h : Echoes st st') (ch : UInt8) :
    ∃ st2, catBytes squeezeOnly st' (catByte o st ch).1 = ((catByte o st ch).1, st2) ∧
      Echoes (catByte o st ch).2 st2 := by
  obtain ⟨nl, e, n⟩ := st
  obtain ⟨nl', e', n'⟩ := st'
  obtain ⟨hline, hempty⟩ := h
  dsimp only at hline hempty
  subst hline
  have hmark : newline ∉ (if o.endMarker then [dollar] else []) := by
    cases o.endMarker <;> decide
  by_cases hch : ch = newline
  · subst hch
    cases nl' with
    | false =>
        obtain ⟨e2, hrun, he2⟩ := catBytes_ended false e' n' hmark nofun
        rw [catByte_end]
        exact ⟨_, hrun, rfl, fun _ hpos => absurd hpos (by simp [he2 rfl])⟩
    | true =>
        rw [catByte_blank, hs, Bool.true_and]
        by_cases he : 0 < e
        · rw [if_pos (decide_eq_true he)]
          exact ⟨_, rfl, rfl, fun _ _ => Nat.succ_pos e⟩
        · -- the first run prints the line, so the second has seen no empty line either
          rw [if_neg (by simpa using he)]
          have htext : newline ∉
              numberIf o.numbersBlank n ++ (if o.endMarker then [dollar] else []) := by
            rw [List.mem_append, not_or]
            exact ⟨newline_notMem_numberIf _ n, hmark⟩
          obtain ⟨e2, hrun, -⟩ := catBytes_ended true e' n' htext fun _ _ =>
            Nat.eq_zero_of_not_pos fun hpos => he (hempty rfl hpos)
          rw [List.append_assoc] at hrun
          exact ⟨_, hrun, rfl, fun _ _ => Nat.succ_pos e⟩
  · rw [catByte_text o nl' e n hch]
    have htext : newline ∉ numberIf (nl' && o.numbersText) n ++ [ch] := by
      rw [List.mem_append, not_or, List.mem_singleton]
      exact ⟨newline_notMem_numberIf _ n, Ne.symm hch⟩
    exact ⟨_, catBytes_text nl' e' n' htext (by simp), rfl, nofun⟩

theorem Echoes.run {o : CatOptions} (hs : o.skipBlanks = true) {st st' : CatState}
    (h : Echoes st st') (content : List UInt8) :
    (catBytes squeezeOnly st' (catBytes o st content).1).1 = (catBytes o st content).1 := by
  induction content generalizing st st' with
  | nil => rfl
  | cons ch rest ih =>
      obtain ⟨st2, hout, hnext⟩ := h.step hs ch
      rw [catBytes]
      dsimp only
      rw [catBytes_append, hout, ih hnext]

/-- `print_file` prints the lines of the file, squeezed, numbered and marked as the options
say, and what it prints with `-s` is not changed by another `-s`. -/
theorem printFile_eq_reference (o : CatOptions) (n : Int) (content : List UInt8) :
    (printFile o n content).1 = reference o n content ∧
      (o.skipBlanks = true → ∀ m : Int,
        (printFile squeezeOnly m (printFile o n content).1).1 = (printFile o n content).1) := by
  constructor
  · exact catBytes_remaining o ⟨true, 0, n⟩ content
  · intro hs m
    have hstart : Echoes ⟨true, 0, n⟩ ⟨true, 0, m⟩ := ⟨rfl, fun _ hpos => hpos⟩
    exact hstart.run hs content

end G9OS.Tools
