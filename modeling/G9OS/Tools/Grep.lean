import G9OS.Lib.CText

/-! # `custom_grep.c`

`getline` counts the bytes of a line, and `strstr` searches up to the first zero byte. The line
that is searched still has its newline.
-/

namespace G9OS.Tools

open Lib

variable {showFname : Bool} {pattern : CStr} {o : GrepOptions} {select : InputLine → Bool}
  {lines : List InputLine} {filename text : List UInt8} {lineno : Nat}

structure GrepOptions where
  linenum : Bool := false                    -- `-n`
  icase : Bool := false                      -- `-i`
deriving DecidableEq, Repr

/-- `tolower` of the C locale -/
def tolower (b : UInt8) : UInt8 := if 65 ≤ b ∧ b ≤ 90 then b + 32 else b

def toLower (src : List UInt8) : List UInt8 := src.map tolower

/-- `getline`: a line with its newline, if it has one, and what is left of the input. -/
def getline (input : List UInt8) : Option (List UInt8 × List UInt8) :=
  if input = [] then none
  else
    match input.dropWhile (· != 10) with
    | [] => some (input, [])
    | newline :: rest => some (input.takeWhile (· != 10) ++ [newline], rest)

def lineFound (o : GrepOptions) (pattern : CStr) (line : List UInt8) : Bool :=
  if o.icase then (strstr (cstring (toLower line)) (toLower pattern.bytes)).isSome
  else (strstr (cstring line) pattern.bytes).isSome

def fnameTag (filename : List UInt8) (showFname : Bool) : List UInt8 :=
  if showFname then filename ++ [58] else []

def printLine (o : GrepOptions) (filename : List UInt8) (showFname : Bool) (lineno : Nat)
    (line : List UInt8) : List UInt8 :=
  fnameTag filename showFname ++ (if o.linenum then decimal lineno ++ [58] else []) ++ line ++
    (if line.getLast? ≠ some 10 then [10] else [])

/-- The loop of `grep_file`: standard output and `matched`; `none` if it runs for longer. -/
def grepLoop (o : GrepOptions) (filename : List UInt8) (pattern : CStr) (showFname : Bool) :
    Nat → List UInt8 → Nat → Nat → Option (List UInt8 × Nat)
  | 0, _, _, _ => none
  | fuel + 1, input, lineno, matched =>
      match getline input with
      | none => some ([], matched)
      | some (line, rest) =>
          let lineno := lineno + 1
          if lineFound o pattern line then
            (grepLoop o filename pattern showFname fuel rest lineno 1).map fun (out, matched) =>
              (printLine o filename showFname lineno line ++ out, matched)
          else grepLoop o filename pattern showFname fuel rest lineno matched

def grepFile (o : GrepOptions) (filename : List UInt8) (pattern : CStr) (showFname : Bool)
    (content : List UInt8) : Option (List UInt8 × Nat) :=
  grepLoop o filename pattern showFname (content.length + 1) content 0 0

/-- The loop of `main` over the files, each with its content if it can be opened: standard output
and `any_match`. -/
def grepFiles (o : GrepOptions) (pattern : CStr) (multiple : Bool) :
    List (List UInt8 × Option (List UInt8)) → Bool → Option (List UInt8 × Bool)
  | [], anyMatch => some ([], anyMatch)
  | (_, none) :: args, anyMatch => grepFiles o pattern multiple args anyMatch
  | (name, some content) :: args, anyMatch => do
      let (text, matched) ← grepFile o name pattern multiple content
      let (out, anyMatch) ← grepFiles o pattern multiple args (anyMatch || matched != 0)
      some (text ++ out, anyMatch)

abbrev stdinWord : List UInt8 := [115, 116, 100, 105, 110]

/-- `main` behind the options: standard output and the exit status. -/
def grepMain (o : GrepOptions) (pattern : CStr) (stdin : List UInt8)
    (args : List (List UInt8 × Option (List UInt8))) : Option (List UInt8 × Nat) :=
  let run :=
    if args = [] then
      (grepFile o stdinWord pattern false stdin).map fun (out, matched) => (out, matched != 0)
    else grepFiles o pattern (decide (1 < args.length)) args false
  run.map fun (out, anyMatch) => (out, if anyMatch then 0 else 1)

/-! ## The lines of the input -/

structure InputLine where
  text : List UInt8
  ended : Bool
deriving DecidableEq, Repr

def InputLine.bytes (l : InputLine) : List UInt8 := if l.ended then l.text ++ [10] else l.text

/-- What stands between the newlines; there is a last line only if something stands behind the
last newline. -/
def inputLines (content : List UInt8) : List InputLine :=
  let pieces := content.splitOn 10
  pieces.dropLast.map (⟨·, true⟩) ++
    (if pieces.getLastD [] = [] then [] else [⟨pieces.getLastD [], false⟩])

theorem inputLines_rest (h : 10 ∉ text) :
    inputLines text = if text = [] then [] else [⟨text, false⟩] := by
  unfold inputLines
  rw [List.splitOn_eq_singleton h]
  rfl

theorem inputLines_append (h : 10 ∉ text) (rest : List UInt8) :
    inputLines (text ++ 10 :: rest) = ⟨text, true⟩ :: inputLines rest := by
  have hsplit : (text ++ 10 :: rest).splitOn 10 = text :: rest.splitOn 10 := by
    have hone := List.splitOn_eq_singleton h
    unfold List.splitOn at hone ⊢
    have hsep : ((10 : UInt8) == 10) = true := rfl
    rw [List.splitOnP_append_cons (p := (· == 10)) text rest hsep, hone]
    rfl
  unfold inputLines
  rw [hsplit]
  cases hrest : rest.splitOn 10 with
  | nil => exact absurd hrest (List.splitOnP_ne_nil _ _)
  | cons piece pieces => rfl

theorem getline_rest (h : 10 ∉ text) (hne : text ≠ []) :
    getline text = some (text, []) := by
  have hdrop : text.dropWhile (· != 10) = [] := by
    refine List.dropWhile_eq_nil_iff.2 fun b hb => bne_iff_ne.2 ?_
    rintro rfl
    exact h hb
  unfold getline
  rw [if_neg hne, hdrop]

theorem getline_append (h : 10 ∉ text) (rest : List UInt8) :
    getline (text ++ 10 :: rest) = some (text ++ [10], rest) := by
  have hall : ∀ b ∈ text, (b != 10) = true := by
    intro b hb
    refine bne_iff_ne.2 ?_
    rintro rfl
    exact h hb
  have hdrop : (text ++ 10 :: rest).dropWhile (· != 10) = 10 :: rest := by
    rw [List.dropWhile_append_of_pos hall, List.dropWhile_cons_of_neg (by decide)]
  have htake : (text ++ 10 :: rest).takeWhile (· != 10) = text := by
    rw [List.takeWhile_append_of_pos hall, List.takeWhile_cons_of_neg (by decide),
      List.append_nil]
  unfold getline
  rw [if_neg (by simp), hdrop, htake]

theorem input_cases (input : List UInt8) :
    10 ∉ input ∨ ∃ text rest, 10 ∉ text ∧ input = text ++ 10 :: rest := by
  by_cases h : 10 ∈ input
  · obtain ⟨text, rest, heq, htext⟩ := List.eq_append_cons_of_mem h
    exact .inr ⟨text, rest, htext, heq⟩
  · exact .inl h

theorem inputLines_text {content : List UInt8} {l : InputLine} (h : l ∈ inputLines content) :
    10 ∉ l.text := by
  induction hn : content.length using Nat.strong_induction_on generalizing content with
  | _ n ih =>
      rcases input_cases content with hlast | ⟨text, rest, htext, rfl⟩
      · rw [inputLines_rest hlast] at h
        split at h
        · exact absurd h List.not_mem_nil
        · rw [List.mem_singleton.1 h]
          exact hlast
      · rw [inputLines_append htext, List.mem_cons] at h
        rcases h with rfl | h
        · exact htext
        · refine ih rest.length ?_ h rfl
          rw [← hn, List.length_append, List.length_cons]
          omega

/-! ## What the loop prints -/

def numbered (o : GrepOptions) (l : InputLine × Nat) : List UInt8 :=
  (if o.linenum then decimal l.2 ++ [58] else []) ++ l.1.text

def grepText (o : GrepOptions) (filename : List UInt8) (showFname : Bool)
    (select : InputLine → Bool) (lineno : Nat) (lines : List InputLine) : List UInt8 :=
  ((lines.zipIdx lineno).filter fun l => select l.1).flatMap fun l =>
    fnameTag filename showFname ++ numbered o l ++ [10]

theorem grepText_cons (o : GrepOptions) (filename : List UInt8) (showFname : Bool)
    (select : InputLine → Bool) (lineno : Nat) (l : InputLine) (lines : List InputLine) :
    grepText o filename showFname select lineno (l :: lines) =
      (if select l then fnameTag filename showFname ++ numbered o (l, lineno) ++ [10] else []) ++
      grepText o filename showFname select (lineno + 1) lines := by
  unfold grepText
  rw [List.zipIdx_cons, List.filter_cons]
  split
  · rfl
  · rfl

theorem printLine_eq (o : GrepOptions) (filename : List UInt8) (showFname : Bool) (lineno : Nat)
    {l : InputLine} (h : 10 ∉ l.text) :
    printLine o filename showFname lineno l.bytes =
      fnameTag filename showFname ++ numbered o (l, lineno) ++ [10] := by
  have hend : l.bytes ++ (if l.bytes.getLast? ≠ some 10 then [10] else []) = l.text ++ [10] := by
    unfold InputLine.bytes
    cases l.ended with
    | true => simp
    | false =>
        have hlast : l.text.getLast? ≠ some 10 := fun he => h (List.mem_of_getLast? he)
        simp [hlast]
  unfold printLine numbered
  rw [List.append_assoc _ l.bytes, hend]
  simp only [List.append_assoc]

/-- The loop prints the lines that are found, and remembers whether there was one. -/
theorem grepLoop_eq (o : GrepOptions) (filename : List UInt8) (pattern : CStr) (showFname : Bool)
    (fuel : Nat) (input : List UInt8) (lineno matched : Nat) (hfuel : input.length < fuel) :
    grepLoop o filename pattern showFname fuel input lineno matched =
      some (grepText o filename showFname (fun l => lineFound o pattern l.bytes) (lineno + 1)
          (inputLines input),
        if (inputLines input).any (fun l => lineFound o pattern l.bytes) then 1 else matched) := by
  induction fuel generalizing input lineno matched with
  | zero => exact absurd hfuel (Nat.not_lt_zero _)
  | succ fuel ih =>
      -- one call of `getline` that returns the line `l`
      have hstep : ∀ (l : InputLine) (rest : List UInt8), 10 ∉ l.text →
          getline input = some (l.bytes, rest) → rest.length < fuel →
          inputLines input = l :: inputLines rest →
          grepLoop o filename pattern showFname (fuel + 1) input lineno matched =
            some (grepText o filename showFname (fun l => lineFound o pattern l.bytes)
                (lineno + 1) (inputLines input),
              if (inputLines input).any (fun l => lineFound o pattern l.bytes) then 1
              else matched) := by
        intro l rest htext hget hlt hlines
        rw [grepLoop, hget, hlines, grepText_cons, List.any_cons]
        dsimp only
        rw [ih rest (lineno + 1) 1 hlt, ih rest (lineno + 1) matched hlt]
        cases lineFound o pattern l.bytes with
        | true => simp [printLine_eq o filename showFname (lineno + 1) htext]
        | false => simp
      rcases input_cases input with hlast | ⟨text, rest, htext, rfl⟩
      · by_cases hnil : input = []
        · subst hnil
          rfl
        · have hpos := List.length_pos_iff.2 hnil
          refine hstep ⟨input, false⟩ [] hlast (getline_rest hlast hnil) ?_ ?_
          · rw [List.length_nil]
            omega
          · rw [inputLines_rest hlast, if_neg hnil]
            rfl
      · refine hstep ⟨text, true⟩ rest htext (getline_append htext rest) ?_
          (inputLines_append htext rest)
        rw [List.length_append, List.length_cons] at hfuel
        omega

/-! ## What is found -/

/-- Both sides in lower case under `-i`. -/
def caseFold (o : GrepOptions) (text : List UInt8) : List UInt8 :=
  if o.icase then toLower text else text

def Contains (o : GrepOptions) (pattern : CStr) (text : List UInt8) : Prop :=
  caseFold o pattern.bytes <:+: caseFold o text

instance (o : GrepOptions) (pattern : CStr) (text : List UInt8) :
    Decidable (Contains o pattern text) :=
  inferInstanceAs (Decidable (_ <:+: _))

theorem tolower_eq_iff {b c : UInt8} (hc : c.toNat < 65) : tolower b = c ↔ b = c := by
  unfold tolower
  split
  · rename_i h
    obtain ⟨hlow, hhigh⟩ := h
    rw [UInt8.le_iff_toNat_le] at hlow hhigh
    constructor
    · intro he
      have hval := congrArg UInt8.toNat he
      rw [UInt8.toNat_add] at hval
      simp only [UInt8.reduceToNat] at hlow hhigh hval
      omega
    · rintro rfl
      simp only [UInt8.reduceToNat] at hlow
      omega
  · exact Iff.rfl

theorem mem_caseFold {c : UInt8} (hc : c.toNat < 65) :
    c ∈ caseFold o text ↔ c ∈ text := by
  unfold caseFold toLower
  split
  · rw [List.mem_map]
    simp only [tolower_eq_iff hc, exists_eq_right]
  · exact Iff.rfl

theorem cstring_caseFold (o : GrepOptions) (text : List UInt8) :
    cstring (caseFold o text) = caseFold o (cstring text) := by
  have hsame : ((· != 0) ∘ tolower) = (· != (0 : UInt8)) := by
    funext b
    rw [Function.comp_apply, Bool.eq_iff_iff, bne_iff_ne, bne_iff_ne, Ne,
      tolower_eq_iff (by decide)]
  unfold caseFold
  split
  · unfold cstring toLower
    rw [List.takeWhile_map, hsame]
  · rfl

theorem caseFold_append (o : GrepOptions) (s t : List UInt8) :
    caseFold o (s ++ t) = caseFold o s ++ caseFold o t := by
  unfold caseFold
  split
  · exact List.map_append
  · rfl

theorem caseFold_newline (o : GrepOptions) : caseFold o [10] = [10] := by
  unfold caseFold
  split
  · rfl
  · rfl

theorem lineFound_iff {line : List UInt8} :
    lineFound o pattern line = true ↔ Contains o pattern (cstring line) := by
  unfold Contains
  rw [← cstring_caseFold]
  unfold lineFound caseFold
  split
  · exact strstr_isSome
  · exact strstr_isSome

/-- The pattern ends in a newline, and the rest of it is the end of the line. -/
def TouchesEnd (o : GrepOptions) (pattern : CStr) (l : InputLine) : Prop :=
  l.ended = true ∧ 0 ∉ l.text ∧
    ∃ front, caseFold o pattern.bytes = front ++ [10] ∧ front <:+ caseFold o l.text

/-- A line is found if the pattern is in front of its first zero byte, or touches its end. -/
theorem found_iff {l : InputLine} :
    lineFound o pattern l.bytes = true ↔
      Contains o pattern (cstring l.text) ∨ TouchesEnd o pattern l := by
  rw [lineFound_iff]
  obtain ⟨text, ended⟩ := l
  cases ended with
  | false => exact ⟨.inl, fun h => h.resolve_right fun ht => Bool.noConfusion ht.1⟩
  | true =>
      show Contains o pattern (cstring (text ++ [10])) ↔ _
      by_cases hzero : 0 ∈ text
      · rw [cstring_append_of_mem hzero]
        exact ⟨.inl, fun h => h.resolve_right fun ht => ht.2.1 hzero⟩
      · have hline : 0 ∉ text ++ [10] := by
          rw [List.mem_append, List.mem_singleton]
          exact fun h => h.elim hzero (by decide)
        rw [cstring_of_notMem hline, cstring_of_notMem hzero, Contains, caseFold_append,
          caseFold_newline, List.infix_concat_iff, List.suffix_concat_iff, or_comm]
        refine or_congr_right' fun hnot => ?_
        constructor
        · rintro (hnil | hfront)
          · exact absurd (hnil ▸ List.nil_infix) hnot
          · exact ⟨rfl, hzero, hfront⟩
        · exact fun ht => .inr ht.2.2

/-- A pattern that touches the end has a newline, which no line contains. -/
theorem TouchesEnd.not_contains {l l' : InputLine} (ht : TouchesEnd o pattern l)
    (h : 10 ∉ l'.text) : ¬ Contains o pattern l'.text := by
  obtain ⟨-, -, front, hpattern, -⟩ := ht
  intro hc
  have hmem : 10 ∈ caseFold o pattern.bytes := by
    rw [hpattern]
    exact List.mem_append_right _ (List.mem_singleton_self _)
  exact h ((mem_caseFold (by decide)).1 (hc.subset hmem))

theorem Contains.of_cstring (h : Contains o pattern (cstring text)) : Contains o pattern text := by
  unfold Contains at h ⊢
  rw [← cstring_caseFold] at h
  exact h.trans (List.takeWhile_prefix _).isInfix

/-! ## Reading the output back -/

theorem numbered_inj {l l' : InputLine × Nat} (h : numbered o l = numbered o l') : l.1.text =
    l'.1.text := by
  have hcolon : ∀ n : Nat, 58 ∉ decimal n := by
    intro n hmem
    rcases mem_decimal hmem with hsign | ⟨-, hhigh⟩
    · exact absurd hsign (by decide)
    · exact absurd hhigh (by decide)
  unfold numbered at h
  split at h
  · rw [List.append_assoc, List.append_assoc] at h
    exact (append_sep_inj (hcolon _) (hcolon _) h).2
  · exact h

theorem newline_notMem_numbered (o : GrepOptions) {l : InputLine × Nat} (h : 10 ∉ l.1.text) :
    10 ∉ numbered o l := by
  have hnumber : 10 ∉ decimal l.2 := by
    intro hmem
    rcases mem_decimal hmem with hsign | ⟨hlow, -⟩
    · exact absurd hsign (by decide)
    · exact absurd hlow (by decide)
  unfold numbered
  split
  · simp [hnumber, h]
  · exact h

/-- Two selections with the same output select the same texts. -/
theorem grepText_texts {select' : InputLine → Bool} (hlines : ∀ l ∈ lines, 10 ∉ l.text)
    (h : grepText o filename showFname select lineno lines =
      grepText o filename showFname select' lineno lines)
    {l : InputLine} (hl : l ∈ lines) (hsel : select l = true) :
    ∃ l' ∈ lines, select' l' = true ∧ l'.text = l.text := by
  have hfree : ∀ (sel : InputLine → Bool),
      ∀ x ∈ ((lines.zipIdx lineno).filter fun l => sel l.1).map (numbered o), 10 ∉ x := by
    intro sel x hx
    obtain ⟨l, hl, rfl⟩ := List.mem_map.1 hx
    exact newline_notMem_numbered o (hlines _ (List.fst_mem_of_mem_zipIdx (List.mem_filter.1 hl).1))
  have htexts : ∀ sel : InputLine → Bool, grepText o filename showFname sel lineno lines =
      (((lines.zipIdx lineno).filter fun l => sel l.1).map (numbered o)).flatMap
        fun x => fnameTag filename showFname ++ x ++ [10] := by
    intro sel
    rw [List.flatMap_map]
    rfl
  rw [htexts, htexts] at h
  have hsame := flatMap_terminated_inj _ (hfree select) (hfree select') h
  -- the line stands in the first output, so its text stands in the second
  rw [← List.zipIdx_map_fst lineno lines] at hl
  obtain ⟨⟨l, n⟩, hn, rfl⟩ := List.mem_map.1 hl
  have hmem : numbered o (l, n) ∈
      ((lines.zipIdx lineno).filter fun l => select l.1).map (numbered o) :=
    List.mem_map_of_mem (List.mem_filter.2 ⟨hn, hsel⟩)
  rw [hsame] at hmem
  obtain ⟨⟨l', n'⟩, hl', heq⟩ := List.mem_map.1 hmem
  obtain ⟨hl', hsel'⟩ := List.mem_filter.1 hl'
  exact ⟨l', List.fst_mem_of_mem_zipIdx hl', hsel', numbered_inj heq⟩

theorem grepText_congr {select' : InputLine → Bool} (h : ∀ l ∈ lines, select l = select' l) :
    grepText o filename showFname select lineno lines =
      grepText o filename showFname select' lineno lines := by
  unfold grepText
  rw [List.filter_congr fun l hl => h l.1 (List.fst_mem_of_mem_zipIdx hl)]

theorem grepText_eq_nil :
    grepText o filename showFname select lineno lines = [] ↔ lines.any select = false := by
  induction lines generalizing lineno with
  | nil => exact iff_of_true rfl rfl
  | cons l lines ih =>
      rw [grepText_cons, List.any_cons, List.append_eq_nil_iff, ih, Bool.or_eq_false_iff]
      cases select l with
      | true => simp
      | false => simp

def grepReport (o : GrepOptions) (filename : List UInt8) (pattern : CStr) (showFname : Bool)
    (content : List UInt8) : List UInt8 :=
  grepText o filename showFname (fun l => decide (Contains o pattern l.text)) 1
    (inputLines content)

/-- `grep_file` prints the lines that contain the pattern exactly if no line contains it only
behind a zero byte, and it touches the end of none. -/
theorem grepFile_report_iff (o : GrepOptions) (filename : List UInt8) (pattern : CStr)
    (showFname : Bool) (content : List UInt8) :
    (∃ matched,
      grepFile o filename pattern showFname content =
        some (grepReport o filename pattern showFname content, matched) ∧
      (matched = 1 ↔ grepReport o filename pattern showFname content ≠ [])) ↔
    ∀ l ∈ inputLines content,
      (Contains o pattern l.text → Contains o pattern (cstring l.text)) ∧
        ¬ TouchesEnd o pattern l := by
  have hfree : ∀ l ∈ inputLines content, 10 ∉ l.text := fun l => inputLines_text
  unfold grepFile
  rw [grepLoop_eq o filename pattern showFname _ content 0 0 (Nat.lt_succ_self _)]
  constructor
  · rintro ⟨matched, hout, -⟩ l hl
    have hsame := (Prod.mk.inj (Option.some.inj hout)).1
    constructor
    · intro hc
      obtain ⟨l', -, hfound, htext⟩ := grepText_texts hfree hsame.symm hl (decide_eq_true hc)
      rcases found_iff.1 hfound with hfront | hend
      · rwa [htext] at hfront
      · exact absurd hc (hend.not_contains (hfree l hl))
    · intro hend
      obtain ⟨l', hl', hc, -⟩ := grepText_texts hfree hsame hl (found_iff.2 (.inr hend))
      exact hend.not_contains (hfree l' hl') (of_decide_eq_true hc)
  · intro hgood
    have hagree : ∀ l ∈ inputLines content,
        lineFound o pattern l.bytes = decide (Contains o pattern l.text) := by
      intro l hl
      rw [Bool.eq_iff_iff, found_iff, decide_eq_true_iff, or_iff_left (hgood l hl).2]
      exact ⟨Contains.of_cstring, (hgood l hl).1⟩
    have hsame : grepText o filename showFname (fun l => lineFound o pattern l.bytes) (0 + 1)
        (inputLines content) = grepReport o filename pattern showFname content :=
      grepText_congr hagree
    refine ⟨_, by rw [hsame], ?_⟩
    rw [← hsame, Ne, grepText_eq_nil]
    cases (inputLines content).any fun l => lineFound o pattern l.bytes with
    | true => exact iff_of_true rfl nofun
    | false => exact iff_of_false nofun (fun h => h rfl)

/-- The `b` in the second half of a line with a zero byte is not found. -/
theorem match_behind_zero :
    grepFile {} [102] ⟨[98], by decide⟩ false [97, 0, 98, 10] = some ([], 0) ∧
    grepReport {} [102] ⟨[98], by decide⟩ false [97, 0, 98, 10] = [97, 0, 98, 10] := by
  decide

/-! ## The exit status -/

theorem grepFile_returns (o : GrepOptions) (filename : List UInt8) (pattern : CStr)
    (showFname : Bool) (content : List UInt8) :
    ∃ out, grepFile o filename pattern showFname content =
      some (out, if out = [] then 0 else 1) := by
  unfold grepFile
  rw [grepLoop_eq o filename pattern showFname _ content 0 0 (Nat.lt_succ_self _)]
  refine ⟨_, congrArg (fun matched => some (_, matched)) ?_⟩
  simp only [grepText_eq_nil]
  cases (inputLines content).any fun l => lineFound o pattern l.bytes with
  | true => rfl
  | false => rfl

theorem grepFiles_returns (o : GrepOptions) (pattern : CStr) (multiple : Bool)
    (args : List (List UInt8 × Option (List UInt8))) (before : Bool) :
    ∃ out, grepFiles o pattern multiple args before =
      some (out, before || decide (out ≠ [])) := by
  induction args generalizing before with
  | nil => exact ⟨[], by rw [grepFiles]; simp⟩
  | cons arg args ih =>
      obtain ⟨name, content⟩ := arg
      cases content with
      | none => exact ih before
      | some content =>
          obtain ⟨text, hfile⟩ := grepFile_returns o name pattern multiple content
          obtain ⟨out, hrest⟩ := ih (before || (if text = [] then 0 else 1) != 0)
          refine ⟨text ++ out, ?_⟩
          rw [grepFiles, hfile]
          simp only [Option.bind_eq_bind, Option.bind_some, hrest]
          by_cases htext : text = []
          · simp [htext]
          · simp [htext]

/-- The exit status is 0 exactly if something is printed. -/
theorem grepMain_status (o : GrepOptions) (pattern : CStr) (stdin : List UInt8)
    (args : List (List UInt8 × Option (List UInt8))) :
    ∃ out, grepMain o pattern stdin args = some (out, if out = [] then 1 else 0) := by
  unfold grepMain
  dsimp only
  split
  · obtain ⟨out, hfile⟩ := grepFile_returns o stdinWord pattern false stdin
    refine ⟨out, ?_⟩
    rw [hfile, Option.map_some, Option.map_some]
    by_cases hout : out = []
    · simp [hout]
    · simp [hout]
  · obtain ⟨out, hfiles⟩ := grepFiles_returns o pattern (decide (1 < args.length)) args false
    refine ⟨out, ?_⟩
    rw [hfiles, Option.map_some]
    by_cases hout : out = []
    · simp [hout]
    · simp [hout]

end G9OS.Tools
