import G9OS.Lib.CString

/-! # The tokenizer of the shell (`custom_shell.c`)

`tokenize` splits a line in place: a token is the position of its first byte, and the
whitespace byte behind it is overwritten by zero. The positions and the changed buffer
together are the list of words.
-/

namespace G9OS.Shell

open Lib

variable {toks : List Nat} {line : List UInt8} {b : UInt8}

abbrev MAX_ARGS : Nat := 128
abbrev MAX_CMDS : Nat := 32
abbrev MAX_LINE : Nat := 4096

abbrev Word : Type := List UInt8

/-- `isspace` in the C locale: tab, newline, vertical tab, form feed, return and blank. -/
def isspace (b : UInt8) : Bool := b == 9 || b == 10 || b == 11 || b == 12 || b == 13 || b == 32

/-- What the loop that skips whitespace runs over. -/
def inGap (b : UInt8) : Bool := b != 0 && isspace b

/-- What the loop to the end of a token runs over. -/
def inToken (b : UInt8) : Bool := b != 0 && !isspace b

/-- The loop of `tokenize` for an array of `max` pointers. The line lies in a buffer of
`MAX_LINE` bytes, which bounds the turns of the loops. -/
def tokenizeLoop (max : Nat) : Nat → Buf → Nat → List Nat → List Nat × Buf
  | 0, buf, _, toks => (toks, buf)
  | fuel + 1, buf, p, toks =>
      if buf p = 0 then (toks, buf)
      else
        let p := scan inGap buf MAX_LINE p
        if buf p = 0 then (toks, buf)
        else if max - 1 ≤ toks.length then (toks, buf)
        else
          let q := scan inToken buf MAX_LINE p
          if buf q = 0 then tokenizeLoop max fuel buf q (toks ++ [p])
          else tokenizeLoop max fuel (Function.update buf q 0) (q + 1) (toks ++ [p])

/-- `tokenize`: the tokens and the line as it leaves it. -/
def tokenize (buf : Buf) (line max : Nat) : List Nat × Buf := tokenizeLoop max MAX_LINE buf line []

def text (buf : Buf) (tok : Nat) : Word := cstr buf MAX_LINE tok

/-! ## Lines -/

def Plain (w : Word) : Prop := w ≠ [] ∧ ∀ b ∈ w, inToken b = true

def Gap (g : List UInt8) : Prop := ∀ b ∈ g, isspace b = true

/-- The words `ws` on one line, with `gap i` behind the word number `i`. -/
def writeLine (gap : Nat → List UInt8) : List Word → List UInt8
  | [] => []
  | [w] => w
  | w :: ws => w ++ gap 0 ++ writeLine (fun i => gap (i + 1)) ws

instance (w : Word) : Decidable (Plain w) := inferInstanceAs (Decidable (_ ∧ _))

variable {buf : Buf} {p max fuel : Nat} {w : Word} {g : List UInt8}

theorem inGap_eq (h : isspace b = true) : inGap b = true ∧ inToken b = false := by
  have h0 : b ≠ 0 := by
    rintro rfl
    cases h
  simp [inGap, inToken, h, h0]

theorem inToken_eq (h : inToken b = true) : inGap b = false ∧ b ≠ 0 := by
  simp only [inToken, Bool.and_eq_true, bne_iff_ne, Bool.not_eq_true'] at h
  exact ⟨by simp [inGap, h.2], h.1⟩

theorem inToken_of_not_gap (h0 : b ≠ 0) (h : inGap b = false) : inToken b = true := by
  simp only [inGap, bne_iff_ne.2 h0, Bool.true_and] at h
  rw [inToken, bne_iff_ne.2 h0, h]
  rfl

theorem Plain.nonzero (h : Plain w) : 0 ∉ w := fun hm => (inToken_eq (h.2 0 hm)).2 rfl

/-- The next token: behind a gap and up to a byte that is not part of it. -/
theorem next_token {rest : List UInt8} (hg : Gap g) (hw : Plain w)
    (h : Holds buf p (g ++ (w ++ rest))) (hend : inToken (buf (p + g.length + w.length)) = false)
    (hlen : g.length + w.length < MAX_LINE) :
    scan inGap buf MAX_LINE p = p + g.length ∧ buf p ≠ 0 ∧ buf (p + g.length) ≠ 0 ∧
      scan inToken buf MAX_LINE (p + g.length) = p + g.length + w.length := by
  obtain ⟨hgap, hword⟩ := holds_append.1 h
  obtain ⟨hword, -⟩ := holds_append.1 hword
  have hfirst : inToken (buf (p + g.length)) = true := by
    cases w with
    | nil => exact absurd rfl hw.1
    | cons b w =>
        rw [hword.1]
        exact hw.2 b List.mem_cons_self
  refine ⟨?_, ?_, (inToken_eq hfirst).2, ?_⟩
  · exact hgap.scan (fun b hb => (inGap_eq (hg b hb)).1) (inToken_eq hfirst).1 (by omega)
  · cases g with
    | nil => exact (inToken_eq hfirst).2
    | cons b g =>
        rw [hgap.1]
        have hb := (inGap_eq (hg b List.mem_cons_self)).1
        rintro rfl
        cases hb
  · exact hword.scan hw.2 hend (by omega)

theorem tokenizeLoop_token {rest : List UInt8} (hg : Gap g) (hw : Plain w)
    (h : Holds buf p (g ++ (w ++ rest))) (hend : inToken (buf (p + g.length + w.length)) = false)
    (hlen : g.length + w.length < MAX_LINE) (hmax : toks.length + 1 < max) :
    tokenizeLoop max (fuel + 1) buf p toks =
      if buf (p + g.length + w.length) = 0 then
        tokenizeLoop max fuel buf (p + g.length + w.length) (toks ++ [p + g.length])
      else
        tokenizeLoop max fuel (Function.update buf (p + g.length + w.length) 0)
          (p + g.length + w.length + 1) (toks ++ [p + g.length]) := by
  obtain ⟨hscan, hp, hq, htok⟩ := next_token hg hw h hend hlen
  have hroom : ¬ max - 1 ≤ toks.length := by omega
  rw [tokenizeLoop, if_neg hp]
  dsimp only
  rw [hscan, if_neg hq, if_neg hroom, htok]

theorem tokenizeLoop_end (hg : Gap g) (h : Holds buf p g) (hend : buf (p + g.length) = 0)
    (hlen : g.length < MAX_LINE) :
    tokenizeLoop max (fuel + 1) buf p toks = (toks, buf) := by
  rw [tokenizeLoop]
  split
  · rfl
  · have hscan : scan inGap buf MAX_LINE p = p + g.length :=
      h.scan (fun b hb => (inGap_eq (hg b hb)).1) (by rw [hend]; rfl) hlen
    dsimp only
    rw [hscan, if_pos hend]

theorem text_of_holds (hw : Plain w) (h : Holds buf p w) (hend : buf (p + w.length) = 0)
    (hlen : w.length < MAX_LINE) : text buf p = w := h.cstr hw.nonzero hend hlen

/-! ## The words of a line -/

def words (line : List UInt8) : List Word := (line.splitOnP isspace).filter (· ≠ [])

theorem words_append_space (hb : isspace b = true) (x y : List UInt8) :
    words (x ++ b :: y) = words x ++ words y := by
  unfold words
  rw [List.splitOnP_append_cons x y hb, List.filter_append]

theorem words_gap_append (hg : Gap g) (rest : List UInt8) : words (g ++ rest) = words rest := by
  induction g with
  | nil => rfl
  | cons b g ih =>
      rw [List.cons_append, ← ih fun c hc => hg c (List.mem_cons_of_mem b hc)]
      exact words_append_space (hg b List.mem_cons_self) [] (g ++ rest)

theorem words_gap (hg : Gap g) : words g = [] := by
  rw [← List.append_nil g, words_gap_append hg]
  rfl

theorem words_plain (hw : Plain w) : words w = [w] := by
  have hnone : ∀ b ∈ w, isspace b = false := by
    intro b hb
    have hin := hw.2 b hb
    simp only [inToken, Bool.and_eq_true, Bool.not_eq_true'] at hin
    exact hin.2
  unfold words
  rw [List.splitOnP_eq_singleton hnone]
  simp [hw.1]

/-- A line is a gap; or a gap and a word; or these, white space and a line. -/
inductive IsLine : List UInt8 → Prop
  | gap {g : List UInt8} (hg : Gap g) : IsLine g
  | last {g : List UInt8} {w : Word} (hg : Gap g) (hw : Plain w) : IsLine (g ++ w)
  | more {g : List UInt8} {w : Word} {b : UInt8} {rest : List UInt8} (hg : Gap g) (hw : Plain w)
      (hb : isspace b = true) (hrest : IsLine rest) : IsLine (g ++ (w ++ b :: rest))

theorem isLine_of_nonzero (h : 0 ∉ line) : IsLine line := by
  induction hn : line.length using Nat.strong_induction_on generalizing line with
  | _ n ih =>
      obtain ⟨g, hg, rfl | ⟨a, text, ha, rfl⟩⟩ := exists_cut isspace line
      · exact .gap hg
      · -- the word goes up to the next white space
        obtain ⟨w, hw, hcut⟩ := exists_cut (fun b => !isspace b) text
        have hplain : Plain (a :: w) := by
          refine ⟨List.cons_ne_nil _ _, fun b hb => ?_⟩
          have hspace : (!isspace b) = true := by
            rcases List.mem_cons.1 hb with rfl | hmem
            · rw [ha]
              rfl
            · exact hw b hmem
          have hzero : b ≠ 0 := by
            rintro rfl
            rcases hcut with rfl | ⟨c, rest, -, rfl⟩
            · exact h (List.mem_append_right g hb)
            · exact h (List.mem_append_right g (List.mem_append_left (c :: rest) hb))
          rw [inToken, Bool.and_eq_true]
          exact ⟨bne_iff_ne.2 hzero, hspace⟩
        rcases hcut with rfl | ⟨b, rest, hb, rfl⟩
        · exact .last hg hplain
        · refine .more hg hplain (by simpa using hb) (ih rest.length ?_ ?_ rfl)
          · rw [← hn, List.length_append, List.length_cons, List.length_append, List.length_cons]
            omega
          · intro hzero
            exact h (by simp [hzero])

theorem words_last (hg : Gap g) (hw : Plain w) : words (g ++ w) = [w] := by
  rw [words_gap_append hg, words_plain hw]

theorem words_more (hg : Gap g) (hw : Plain w) (hb : isspace b = true) (rest : List UInt8) : words
    (g ++ (w ++ b :: rest)) = w :: words rest := by
  rw [words_gap_append hg, words_append_space hb, words_plain hw]
  rfl

theorem IsLine.length_words_le (h : IsLine line) :
    (words line).length ≤ line.length := by
  induction h with
  | gap hg =>
      rw [words_gap hg]
      exact Nat.zero_le _
  | last hg hw =>
      have hpos := List.length_pos_iff.2 hw.1
      rw [words_last hg hw, List.length_append, List.length_singleton]
      omega
  | more hg hw hb _ ih =>
      rw [words_more hg hw hb, List.length_append, List.length_append, List.length_cons,
        List.length_cons]
      omega

/-- The loop finds the words of the rest of a line, whatever has been found before, and leaves
the bytes in front of it alone. Behind a word the white space becomes its terminator. -/
theorem tokenizeLoop_words (hline : IsLine line) (h : Holds buf p line)
    (hend : buf (p + line.length) = 0) (hlen : line.length < MAX_LINE)
    (hmax : toks.length + (words line).length < max) (hfuel : (words line).length < fuel) :
    ∃ ptrs buf', tokenizeLoop max fuel buf p toks = (toks ++ ptrs, buf') ∧
      ptrs.map (text buf') = words line ∧ ∀ i, i < p → buf' i = buf i := by
  induction hline generalizing buf p toks fuel with
  | gap hg =>
      obtain ⟨fuel, rfl⟩ : ∃ n, fuel = n + 1 := ⟨fuel - 1, by omega⟩
      refine ⟨[], buf, ?_, ?_, fun _ _ => rfl⟩
      · rw [tokenizeLoop_end hg h hend hlen, List.append_nil]
      · rw [words_gap hg]
        rfl
  | @last g w hg hw =>
      rw [words_last hg hw, List.length_singleton] at hmax hfuel
      obtain ⟨fuel, rfl⟩ : ∃ n, fuel = n + 1 + 1 := ⟨fuel - 2, by omega⟩
      rw [List.length_append] at hend hlen
      rw [← Nat.add_assoc] at hend
      have hline : Holds buf p (g ++ (w ++ [])) := by rwa [List.append_nil]
      refine ⟨[p + g.length], buf, ?_, ?_, fun _ _ => rfl⟩
      · rw [tokenizeLoop_token hg hw hline (by rw [hend]; rfl) hlen hmax, if_pos hend]
        exact tokenizeLoop_end (g := []) nofun trivial hend (by decide)
      · rw [List.map_singleton, words_last hg hw,
          text_of_holds hw (holds_append.1 h).2 hend (by omega)]
  | @more g w b rest hg hw hb _ ih =>
      rw [words_more hg hw hb, List.length_cons] at hmax hfuel
      obtain ⟨fuel, rfl⟩ : ∃ n, fuel = n + 1 := ⟨fuel - 1, by omega⟩
      simp only [List.length_append, List.length_cons] at hend hlen
      obtain ⟨hword, hgb, hmore⟩ := holds_append.1 (holds_append.1 h).2
      have hq : buf (p + g.length + w.length) ≠ 0 := by
        rw [hgb]
        rintro rfl
        cases hb
      -- the rest of the line in the buffer with the terminator
      have hmore' : Holds (Function.update buf (p + g.length + w.length) 0)
          (p + g.length + w.length + 1) rest := by
        refine hmore.congr fun i hi _ => Function.update_of_ne ?_ _ _
        omega
      have hend' : Function.update buf (p + g.length + w.length) 0
          (p + g.length + w.length + 1 + rest.length) = 0 := by
        rw [Function.update_of_ne (by omega), ← hend]
        congr 1
        omega
      have hmax' : (toks ++ [p + g.length]).length + (words rest).length < max := by
        rw [List.length_append, List.length_singleton]
        omega
      obtain ⟨ptrs, buf', hrun, hptrs, hkeep⟩ :=
        ih hmore' hend' (by omega) hmax' (Nat.lt_of_succ_lt_succ hfuel)
      refine ⟨(p + g.length) :: ptrs, buf', ?_, ?_, fun i hi => ?_⟩
      · rw [tokenizeLoop_token hg hw h (by rw [hgb]; exact (inGap_eq hb).2) (by omega)
          (by omega), if_neg hq, hrun, List.append_assoc]
        rfl
      · have hsame : ∀ i, i < p + g.length + w.length → buf' i = buf i := fun i hi => by
          rw [hkeep i (by omega), Function.update_of_ne (by omega)]
        have hzero : buf' (p + g.length + w.length) = 0 := by
          rw [hkeep _ (by omega), Function.update_self]
        rw [List.map_cons, hptrs, words_more hg hw hb, text_of_holds hw
          (hword.congr fun i _ hi => hsame i hi) hzero (by omega)]
      · rw [hkeep i (by omega), Function.update_of_ne (by omega)]

theorem tokenize_words (h0 : 0 ∉ line) (h : Holds buf p line) (hend : buf (p + line.length) = 0)
    (hlen : line.length < MAX_LINE) (hmax : (words line).length < max) :
    (tokenize buf p max).1.map (text (tokenize buf p max).2) = words line := by
  have hmax' : ([] : List Nat).length + (words line).length < max := by simpa using hmax
  have hline := isLine_of_nonzero h0
  obtain ⟨toks, buf', hrun, htoks, -⟩ := tokenizeLoop_words hline h hend hlen hmax'
    (hline.length_words_le.trans_lt hlen)
  rw [tokenize, hrun]
  exact htoks

/-! ## Words with gaps between them -/

variable {ws : List Word} {gap : Nat → List UInt8}

theorem writeLine_cons (gap : Nat → List UInt8) (w v : Word) (ws : List Word) :
    writeLine gap (w :: v :: ws) =
      w ++ (gap 0 ++ writeLine (fun i => gap (i + 1)) (v :: ws)) := by
  rw [writeLine, List.append_assoc]
  exact nofun

theorem writeLine_nonzero (hws : ∀ w ∈ ws, Plain w) (hgap : ∀ i, Gap (gap i)) :
    0 ∉ writeLine gap ws := by
  induction ws generalizing gap with
  | nil => exact List.not_mem_nil
  | cons w ws ih =>
      have hw := (hws w List.mem_cons_self).nonzero
      cases ws with
      | nil => exact hw
      | cons v ws =>
          have hrest := ih (fun u hu => hws u (List.mem_cons_of_mem w hu)) fun i => hgap (i + 1)
          rw [writeLine_cons, List.mem_append, List.mem_append, not_or, not_or]
          exact ⟨hw, fun hz => Bool.noConfusion (hgap 0 0 hz), hrest⟩

theorem words_writeLine (hws : ∀ w ∈ ws, Plain w) (hgap : ∀ i, gap i ≠ [] ∧ Gap (gap i)) :
    words (writeLine gap ws) = ws := by
  induction ws generalizing gap with
  | nil => rfl
  | cons w ws ih =>
      have hw := hws w List.mem_cons_self
      cases ws with
      | nil => exact words_plain hw
      | cons v ws =>
          have hrest := ih (fun u hu => hws u (List.mem_cons_of_mem w hu)) fun i => hgap (i + 1)
          obtain ⟨b, g, hb⟩ := List.exists_cons_of_ne_nil (hgap 0).1
          have hspaces : Gap (b :: g) := hb ▸ (hgap 0).2
          have hg : Gap g := fun c hc => hspaces c (List.mem_cons_of_mem b hc)
          rw [writeLine_cons, hb, List.cons_append,
            words_append_space (hspaces b List.mem_cons_self), words_plain hw,
            words_gap_append hg, hrest]
          rfl

theorem length_le_writeLine (hws : ∀ w ∈ ws, Plain w) (hgap : ∀ i, gap i ≠ [] ∧ Gap (gap i)) :
    ws.length ≤ (writeLine gap ws).length := by
  have hle := (isLine_of_nonzero (writeLine_nonzero hws fun i => (hgap i).2)).length_words_le
  rwa [words_writeLine hws hgap] at hle

theorem tokenize_line (hws : ∀ w ∈ ws, Plain w) (hgap : ∀ i, gap i ≠ [] ∧ Gap (gap i))
    (h : Holds buf p (writeLine gap ws)) (hend : buf (p + (writeLine gap ws).length) = 0)
    (hlen : (writeLine gap ws).length < MAX_LINE) (hmax : ws.length < max) :
    (tokenize buf p max).1.map (text (tokenize buf p max).2) = ws := by
  have hwords := words_writeLine hws hgap
  rw [tokenize_words (writeLine_nonzero hws fun i => (hgap i).2) h hend hlen (by rwa [hwords]),
    hwords]

end G9OS.Shell
