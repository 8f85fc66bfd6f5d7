import G9OS.Lib.CText
import G9OS.Lib.Streaks
import G9OS.Shell.Tokenize

/-! # `custom_wc.c`

`count_fd` reads a file in chunks and counts byte by byte; whether it is inside a word is kept
from one chunk to the next. The counters are integers: a `long` that overflows has no meaning
in C.
-/

namespace G9OS.Tools

open Lib Shell

structure WcOptions where
  lines : Bool := false                      -- `-l`
  words : Bool := false                      -- `-w`
  chars : Bool := false                      -- `-c`
deriving DecidableEq, Repr

@[ext]
structure Counts where
  lines : Int := 0
  words : Int := 0
  chars : Int := 0
deriving DecidableEq, Repr

instance : Zero Counts := ⟨{}⟩

/-- `total.lines += c.lines` and so on. -/
instance : Add Counts := ⟨fun a b => ⟨a.lines + b.lines, a.words + b.words, a.chars + b.chars⟩⟩

structure Chunk where
  bytes : List UInt8
  pos : bytes ≠ []
  le : bytes.length ≤ 65536

inductive WcRead
  | bytes (chunk : Chunk)
  | eof
  | error

def countByte (st : Counts × Bool) (b : UInt8) : Counts × Bool :=
  let c := { st.1 with chars := st.1.chars + 1 }
  let c := if b = 10 then { c with lines := c.lines + 1 } else c
  if isspace b then (c, false)
  else if !st.2 then ({ c with words := c.words + 1 }, true)
  else (c, st.2)

/-- The loop over `read`; `none` if it asks for more results. -/
def countLoop : Counts × Bool → List WcRead → Option Counts
  | _, [] => none
  | st, .bytes chunk :: rs => countLoop (chunk.bytes.foldl countByte st) rs
  | st, .eof :: _ => some st.1
  | st, .error :: _ => some st.1

def countFd (rs : List WcRead) : Option Counts := countLoop ({}, false) rs

def printCounts (o : WcOptions) (c : Counts) (name : Option (List UInt8)) (showAll : Bool) :
    List UInt8 :=
  (if showAll || o.lines then padLeft 8 (decimal c.lines) else []) ++
    (if showAll || o.words then padLeft 8 (decimal c.words) else []) ++
    (if showAll || o.chars then padLeft 8 (decimal c.chars) else []) ++
    (match name with
      | none => []
      | some name => 32 :: name) ++ [10]

def wcFiles (o : WcOptions) (showAll : Bool) :
    List (List UInt8 × Option (List WcRead)) → Counts → Option (List UInt8 × Counts)
  | [], total => some ([], total)
  | (_, none) :: args, total => wcFiles o showAll args total
  | (name, some rs) :: args, total => do
      let c ← countFd rs
      let (out, total) ← wcFiles o showAll args (total + c)
      some (printCounts o c (some name) showAll ++ out, total)

abbrev totalWord : List UInt8 := [116, 111, 116, 97, 108]

/-- `main` behind the options: standard output. -/
def wcMain (o : WcOptions) (stdin : List WcRead) (args : List (List UInt8 × Option (List WcRead))) :
    Option (List UInt8) :=
  let showAll := !(o.lines || o.words || o.chars)
  if args = [] then (countFd stdin).map fun c => printCounts o c none showAll
  else do
    let (out, total) ← wcFiles o showAll args {}
    some (out ++ if 1 < args.length then printCounts o total (some totalWord) showAll else [])

/-! ## Counting -/

def inWord (b : UInt8) : Bool := !isspace b

/-- The newlines, the maximal runs of bytes that are no white space, and the bytes. -/
noncomputable def tally (content : List UInt8) : Counts where
  lines := content.count 10
  words := streaks inWord content
  chars := content.length

theorem countByte_eq (c : Counts) (inside : Bool) (b : UInt8) :
    countByte (c, inside) b =
      (⟨c.lines + if b = 10 then 1 else 0,
        c.words + if inWord b = true ∧ inside = false then 1 else 0, c.chars + 1⟩, inWord b) := by
  unfold countByte inWord
  cases isspace b with
  | true =>
      by_cases hb : b = 10
      · simp [hb]
      · simp [hb]
  | false =>
      cases inside with
      | true =>
          by_cases hb : b = 10
          · simp [hb]
          · simp [hb]
      | false =>
          by_cases hb : b = 10
          · simp [hb]
          · simp [hb]

theorem countByte_tally (seen : List UInt8) (b : UInt8) :
    countByte (tally seen, endsIn inWord seen) b =
      (tally (seen ++ [b]), endsIn inWord (seen ++ [b])) := by
  rw [countByte_eq, endsIn_concat]
  refine Prod.ext (Counts.ext ?_ ?_ ?_) rfl
  · show (seen.count 10 : Int) + _ = ((seen ++ [b]).count 10 : Nat)
    rw [List.count_append, List.count_singleton]
    simp
  · show (streaks inWord seen : Int) + _ = (streaks inWord (seen ++ [b]) : Nat)
    rw [streaks_concat]
    push_cast
    rfl
  · show (seen.length : Int) + 1 = ((seen ++ [b]).length : Nat)
    simp

theorem foldl_countByte (seen bytes : List UInt8) :
    bytes.foldl countByte (tally seen, endsIn inWord seen) =
      (tally (seen ++ bytes), endsIn inWord (seen ++ bytes)) := by
  induction bytes generalizing seen with
  | nil => rw [List.foldl_nil, List.append_nil]
  | cons b bytes ih =>
      rw [List.foldl_cons, countByte_tally, ih, List.append_assoc]
      rfl

theorem countLoop_tally (seen : List UInt8) (chunks : List Chunk) :
    countLoop (tally seen, endsIn inWord seen) (chunks.map .bytes ++ [.eof]) =
      some (tally (seen ++ chunks.flatMap Chunk.bytes)) := by
  induction chunks generalizing seen with
  | nil => rw [List.flatMap_nil, List.append_nil]; rfl
  | cons chunk chunks ih =>
      rw [List.map_cons, List.cons_append, countLoop, foldl_countByte, ih, List.flatMap_cons,
        List.append_assoc]

theorem tally_nil : tally [] = {} := by
  unfold tally
  rw [streaks_nil]
  rfl

/-- The counts depend on the content only, and not on how it is read. -/
theorem countFd_tally (chunks : List Chunk) :
    countFd (chunks.map .bytes ++ [.eof]) = some (tally (chunks.flatMap Chunk.bytes)) := by
  have hloop := countLoop_tally [] chunks
  rw [tally_nil, List.nil_append] at hloop
  exact hloop

/-! ## The total -/

/-- The rows that are printed: the files that can be opened. -/
noncomputable def wcRows (files : List (List UInt8 × Option (List Chunk))) :
    List (List UInt8 × Counts) :=
  files.filterMap fun file =>
    file.2.map fun chunks => (file.1, tally (chunks.flatMap Chunk.bytes))

def opened (file : List UInt8 × Option (List Chunk)) : List UInt8 × Option (List WcRead) :=
  (file.1, file.2.map fun chunks => chunks.map .bytes ++ [.eof])

theorem add_assoc_counts (a b c : Counts) : a + b + c = a + (b + c) :=
  Counts.ext (add_assoc ..) (add_assoc ..) (add_assoc ..)

theorem add_zero_counts (a : Counts) : a + 0 = a :=
  Counts.ext (add_zero _) (add_zero _) (add_zero _)

theorem zero_add_counts (a : Counts) : 0 + a = a :=
  Counts.ext (zero_add _) (zero_add _) (zero_add _)

theorem wcFiles_rows (o : WcOptions) (showAll : Bool)
    (files : List (List UInt8 × Option (List Chunk))) (total : Counts) :
    wcFiles o showAll (files.map opened) total =
      some ((wcRows files).flatMap (fun row => printCounts o row.2 (some row.1) showAll),
        total + ((wcRows files).map Prod.snd).sum) := by
  induction files generalizing total with
  | nil =>
      rw [List.map_nil, wcFiles]
      exact congrArg (fun t => some ([], t)) (add_zero_counts total).symm
  | cons file files ih =>
      obtain ⟨name, chunks⟩ := file
      cases chunks with
      | none => exact ih total
      | some chunks =>
          have hrows : wcRows ((name, some chunks) :: files) =
              (name, tally (chunks.flatMap Chunk.bytes)) :: wcRows files := rfl
          rw [hrows, List.map_cons, opened, Option.map_some, wcFiles, countFd_tally]
          simp only [Option.bind_eq_bind, Option.bind_some, ih, List.flatMap_cons, List.map_cons,
            List.sum_cons, add_assoc_counts]

/-! ## The rows -/

/-- The counts of a row: those that the options ask for, or all three. -/
def columns (o : WcOptions) (c : Counts) : List Int :=
  if o = {} then [c.lines, c.words, c.chars]
  else (if o.lines then [c.lines] else []) ++ (if o.words then [c.words] else []) ++
    if o.chars then [c.chars] else []

theorem printCounts_columns (o : WcOptions) (c : Counts) (name : Option (List UInt8)) :
    printCounts o c name (!(o.lines || o.words || o.chars)) =
      (columns o c).flatMap (fun n => padLeft 8 (decimal n)) ++
        (name.map (List.cons 32)).getD [] ++ [10] := by
  obtain ⟨l, w, ch⟩ := o
  cases name <;> cases l <;> cases w <;> cases ch <;> simp [printCounts, columns]

example : printCounts { lines := true, chars := true } ⟨3, 7, 1234567890⟩ (some [97]) false =
    [32, 32, 32, 32, 32, 32, 32, 51, 49, 50, 51, 52, 53, 54, 55, 56, 57, 48, 32, 97, 10] := by
  decide

/-- However the files are read, `count_fd` counts the newlines, the words and the bytes of the
whole content. A row shows the counts asked for in fields of eight and the name behind them, and
the row of the total has the sums of the other rows. -/
theorem wc_counts :
    (∀ chunks : List Chunk,
      countFd (chunks.map .bytes ++ [.eof]) = some (tally (chunks.flatMap Chunk.bytes))) ∧
    (∀ (o : WcOptions) (chunks : List Chunk),
      wcMain o (chunks.map .bytes ++ [.eof]) [] =
        some ((columns o (tally (chunks.flatMap Chunk.bytes))).flatMap
          (fun n => padLeft 8 (decimal n)) ++ [10])) ∧
    ∀ (o : WcOptions) (stdin : List WcRead) (file : List UInt8 × Option (List Chunk))
      (files : List (List UInt8 × Option (List Chunk))),
      let line : Counts → List UInt8 → List UInt8 := fun c name =>
        (columns o c).flatMap (fun n => padLeft 8 (decimal n)) ++ 32 :: name ++ [10]
      let rows := wcRows (file :: files)
      wcMain o stdin ((file :: files).map opened) =
        some (rows.flatMap (fun row => line row.2 row.1) ++
          if 1 < (file :: files).length then line (rows.map Prod.snd).sum totalWord else []) := by
  refine ⟨countFd_tally, fun o chunks => ?_, fun o stdin file files => ?_⟩
  · rw [wcMain, if_pos rfl, countFd_tally, Option.map_some, printCounts_columns]
    simp
  · have hloop := wcFiles_rows o (!(o.lines || o.words || o.chars)) (file :: files) {}
    have hne : (file :: files).map opened ≠ [] := by simp
    have hstart : ({} : Counts) + ((wcRows (file :: files)).map Prod.snd).sum =
        ((wcRows (file :: files)).map Prod.snd).sum := zero_add_counts _
    unfold wcMain
    dsimp only
    rw [if_neg hne, hloop, List.length_map]
    simp only [Option.bind_eq_bind, Option.bind_some, hstart, printCounts_columns, Option.map_some,
      Option.getD_some]

end G9OS.Tools
