import G9OS.Shell.RoundTrip

/-! # The loop that reads commands (`main` of `custom_shell.c`)

`main` reads with `fgets` into a buffer of `MAX_LINE` bytes and takes what it gets for
a line. A line that does not fit is read in blocks, and every block is looked at anew:
it is skipped if it is blank or starts with `#`, and is a command line otherwise.

The descriptor of the input is shared with the children. They may read from it, and a child
that leaves with `exit` moves its offset back over the bytes that its copy of the stream has
not used, if the input is a file. The shell goes on with the bytes in its own buffer, and then
from the offset as the children have left it.
-/

namespace G9OS.Shell

open Lib

variable {ls ps : List (List UInt8)} {b r : List UInt8}

abbrev newline : UInt8 := 10
abbrev hash : UInt8 := 35

structure Input where
  data : List UInt8
  off : Nat             -- the offset of the descriptor
  ahead : List UInt8    -- read, but not used
  eof : Bool

/-- The next byte. An empty buffer is filled with at most `size` bytes. -/
def Input.getc (size : Nat) (x : Input) : Option UInt8 × Input :=
  match x.ahead with
  | b :: t => (some b, { x with ahead := t })
  | [] =>
      if x.eof then (none, x)
      else
        match (x.data.drop x.off).take size with
        | [] => (none, { x with eof := true })
        | b :: t => (some b, { x with off := x.off + (t.length + 1), ahead := t })

/-- `fgets` with room for `n` bytes. It stores nothing, and returns `NULL`, at the end only. -/
def fgets (size : Nat) : Nat → Input → List UInt8 × Input
  | 0, x => ([], x)
  | n + 1, x =>
      match x.getc size with
      | (none, x') => ([], x')
      | (some b, x') =>
          if b = newline then ([b], x')
          else (b :: (fgets size n x').1, (fgets size n x').2)

/-- The string in the buffer after `line[strcspn(line, "\n")] = '\0'`. -/
def chomp (line : List UInt8) : List UInt8 := line.takeWhile fun b => b != 0 && b != newline

/-- The string that `p` points to behind the white space. -/
def skipSpaces (line : List UInt8) : List UInt8 := line.dropWhile isspace

def isCommand (line : List UInt8) : Bool :=
  match skipSpaces line with
  | [] => false
  | b :: _ => b != hash

abbrev exitWord : Word := [101, 120, 105, 116]

/-- Running the line ends the shell: it is the built-in `exit` alone. -/
def endsShell (p : List UInt8) : Bool :=
  match parseLine (fun i => p.getD i 0) 0 with
  | .ok ([c], _) => c.argv.head? = some exitWord
  | _ => false

/-- The loop of `main`, for the given number of turns: the strings that it hands to `tokenize`,
each with the number of newlines read before it. `children` tells the offset of the input after
the children of a turn. -/
def mainLoop (size : Nat) (children : Nat → Input → Nat) :
    Nat → Nat → Input → List (Nat × List UInt8)
  | 0, _, _ => []
  | turns + 1, i, x =>
      let r := fgets size (MAX_LINE - 1) x
      if r.1 = [] then []
      else
        let line := chomp r.1
        let i' := i + r.1.count newline
        if isCommand line = false then mainLoop size children turns i' r.2
        else if endsShell (skipSpaces line) then [(i, skipSpaces line)]
        else (i, skipSpaces line) ::
          mainLoop size children turns i' { r.2 with off := children turns r.2 }

/-- The command lines that the shell takes from its input. -/
def handedOn (size : Nat) (children : Nat → Input → Nat) (turns : Nat) (stream : List UInt8) :
    List (Nat × List UInt8) :=
  mainLoop size children turns 0 ⟨stream, 0, [], false⟩

/-- The lines that it should take: all but the blank ones and the comments. -/
def commandLines : Nat → List (List UInt8) → List (Nat × List UInt8)
  | _, [] => []
  | i, l :: ls =>
      if isCommand l then (i, skipSpaces l) :: commandLines (i + 1) ls
      else commandLines (i + 1) ls

/-- What a line is cut into. -/
def blocks (l : List UInt8) : List (List UInt8) :=
  if l = [] then [] else l.take (MAX_LINE - 1) :: blocks (l.drop (MAX_LINE - 1))
termination_by l.length
decreasing_by
  rename_i h
  have := List.length_pos_iff.2 h
  rw [List.length_drop]
  norm_num
  omega

/-- The line comes to `tokenize` whole, or not at all if it should not: the blocks in front of
the last one of a command line are white space, and no block of another line is a command. -/
def Fits (l : List UInt8) : Prop :=
  if isCommand l then ∀ b ∈ (blocks l).dropLast, ∀ c ∈ b, isspace c = true
  else ∀ b ∈ blocks l, isCommand b = false

/-- All lines fit as far as the shell reads, and it leaves no command line unread. -/
def Tame : List (List UInt8) → Prop
  | [] => True
  | l :: ls =>
      Fits l ∧
        if isCommand l && endsShell (skipSpaces l) then ∀ l' ∈ ls, isCommand l' = false
        else Tame ls

/-! ## An input of its own

If the children leave the offset where it is, the shell reads as from a list of bytes of its own.
-/

/-- A line of at most `n` bytes, with its newline, and the bytes behind it. -/
def cut : Nat → List UInt8 → List UInt8 × List UInt8
  | 0, stream => ([], stream)
  | _ + 1, [] => ([], [])
  | n + 1, b :: stream =>
      if b = newline then ([b], stream)
      else (b :: (cut n stream).1, (cut n stream).2)

def loopAlone : Nat → Nat → List UInt8 → List (Nat × List UInt8)
  | 0, _, _ => []
  | turns + 1, i, stream =>
      let r := cut (MAX_LINE - 1) stream
      if r.1 = [] then []
      else
        let line := chomp r.1
        let i' := i + r.1.count newline
        if isCommand line = false then loopAlone turns i' r.2
        else if endsShell (skipSpaces line) then [(i, skipSpaces line)]
        else (i, skipSpaces line) :: loopAlone turns i' r.2

/-- Every turn uses a byte, so the length of the stream bounds them. -/
def handedAlone (i : Nat) (stream : List UInt8) : List (Nat × List UInt8) :=
  loopAlone stream.length i stream

def Input.left (x : Input) : List UInt8 :=
  x.ahead ++ if x.eof then [] else x.data.drop x.off

section
variable {size : Nat} {children : Nat → Input → Nat}

theorem Input.getc_left (hsize : 0 < size) (x : Input) :
    (x.getc size).1 = x.left.head? ∧ (x.getc size).2.left = x.left.tail := by
  unfold getc left
  cases hahead : x.ahead with
  | cons b t => exact ⟨rfl, rfl⟩
  | nil =>
      cases heof : x.eof with
      | true => simp [hahead, heof]
      | false =>
          dsimp only
          cases hchunk : (x.data.drop x.off).take size with
          | nil =>
              have hend : x.data.drop x.off = [] := by
                rcases List.take_eq_nil_iff.1 hchunk with hzero | hend
                · exact absurd hzero hsize.ne'
                · exact hend
              simp [hend]
          | cons b t =>
              -- the chunk and what is behind it are what was left
              have hlen := congrArg List.length hchunk
              have hall := List.take_append_drop size (x.data.drop x.off)
              have hrest : (x.data.drop x.off).drop size = x.data.drop (x.off + (t.length + 1)) := by
                rw [List.length_take, List.length_cons] at hlen
                rw [← List.drop_drop]
                by_cases hle : size ≤ (x.data.drop x.off).length
                · rw [← hlen, min_eq_left hle]
                · rw [List.drop_eq_nil_of_le (by omega), List.drop_eq_nil_of_le (by omega)]
              rw [hchunk, hrest] at hall
              simp [← hall]

theorem fgets_left (hsize : 0 < size) (n : Nat) (x : Input) :
    (fgets size n x).1 = (cut n x.left).1 ∧ (fgets size n x).2.left = (cut n x.left).2 := by
  induction n generalizing x with
  | zero => exact ⟨rfl, rfl⟩
  | succ n ih =>
      obtain ⟨hbyte, hrest⟩ := Input.getc_left hsize x
      unfold fgets
      generalize x.getc size = r at hbyte hrest
      obtain ⟨o, x'⟩ := r
      cases hleft : x.left with
      | nil =>
          rw [hleft] at hbyte hrest
          obtain rfl : o = none := hbyte
          exact ⟨rfl, hrest⟩
      | cons b stream =>
          rw [hleft] at hbyte hrest
          obtain rfl : o = some b := hbyte
          obtain ⟨hline, hnext⟩ := ih x'
          have hstream : x'.left = stream := hrest
          rw [hstream] at hline hnext
          dsimp only
          rw [cut]
          split
          · exact ⟨rfl, hstream⟩
          · exact ⟨congrArg _ hline, hnext⟩

/-- The loop over the shared input is the loop over the bytes that are left. -/
theorem mainLoop_left (hsize : 0 < size) (hquiet : ∀ k x, children k x = x.off)
    (turns i : Nat) (x : Input) :
    mainLoop size children turns i x = loopAlone turns i x.left := by
  induction turns generalizing i x with
  | zero => rfl
  | succ turns ih =>
      obtain ⟨hline, hrest⟩ := fgets_left hsize (MAX_LINE - 1) x
      unfold mainLoop loopAlone
      dsimp only
      rw [hquiet, ih, hline, hrest]

end

/-! ## Reading -/

section
variable {n i : Nat} {l t stream : List UInt8}

theorem cut_length (n : Nat) (stream : List UInt8) :
    (cut n stream).1.length + (cut n stream).2.length = stream.length := by
  induction n generalizing stream with
  | zero => simp [cut]
  | succ n ih =>
      cases stream with
      | nil => rfl
      | cons b stream =>
          unfold cut
          split
          · simp [Nat.add_comm]
          · have := ih stream
            simp only [List.length_cons]
            omega

theorem cut_nil_iff : (cut (n + 1) stream).1 = [] ↔ stream = [] := by
  cases stream with
  | nil => simp [cut]
  | cons b stream =>
      unfold cut
      split
      · simp
      · simp

theorem cut_block (hl : newline ∉ l) (h : n ≤ l.length) :
    cut n (l ++ t) = (l.take n, l.drop n ++ t) := by
  induction n generalizing l with
  | zero => simp [cut]
  | succ n ih =>
      cases l with
      | nil => simp at h
      | cons b l =>
          have hb : b ≠ newline := fun he => hl (he ▸ List.mem_cons_self)
          rw [List.cons_append, cut, if_neg hb,
            ih (fun hm => hl (List.mem_cons_of_mem _ hm)) (Nat.le_of_succ_le_succ h)]
          rfl

theorem cut_last (hl : newline ∉ l) (h : l.length < n) :
    cut n (l ++ newline :: t) = (l ++ [newline], t) := by
  induction n generalizing l with
  | zero => omega
  | succ n ih =>
      cases l with
      | nil => simp [cut]
      | cons b l =>
          have hb : b ≠ newline := fun he => hl (he ▸ List.mem_cons_self)
          rw [List.cons_append, cut, if_neg hb,
            ih (fun hm => hl (List.mem_cons_of_mem _ hm)) (Nat.lt_of_succ_lt_succ h)]
          rfl

theorem cut_end (hl : newline ∉ l) (h : l.length < n) : cut n l = (l, []) := by
  induction n generalizing l with
  | zero => omega
  | succ n ih =>
      cases l with
      | nil => rfl
      | cons b l =>
          have hb : b ≠ newline := fun he => hl (he ▸ List.mem_cons_self)
          rw [cut, if_neg hb,
            ih (fun hm => hl (List.mem_cons_of_mem _ hm)) (Nat.lt_of_succ_lt_succ h)]

theorem chomp_eq (hl : newline ∉ l) (h0 : 0 ∉ l) (ht : t = [] ∨ t = [newline]) :
    chomp (l ++ t) = l := by
  unfold chomp
  rw [List.takeWhile_append_of_pos]
  · rcases ht with rfl | rfl
    · simp
    · simp
  · intro b hb
    have h1 : b ≠ 0 := fun he => h0 (he ▸ hb)
    have h2 : b ≠ newline := fun he => hl (he ▸ hb)
    simp [h1, h2]

def hand (i : Nat) (b : List UInt8) (rest : List (Nat × List UInt8)) : List (Nat × List UInt8) :=
  if isCommand b = false then rest
  else if endsShell (skipSpaces b) then [(i, skipSpaces b)]
  else (i, skipSpaces b) :: rest

theorem loopAlone_succ (fuel i : Nat) (stream : List UInt8) (hs : stream ≠ []) :
    loopAlone (fuel + 1) i stream =
      hand i (chomp (cut (MAX_LINE - 1) stream).1)
        (loopAlone fuel (i + (cut (MAX_LINE - 1) stream).1.count newline)
          (cut (MAX_LINE - 1) stream).2) := by
  rw [loopAlone]
  exact if_neg fun h => hs (cut_nil_iff.1 h)

theorem loopAlone_nil (fuel i : Nat) : loopAlone fuel i [] = [] := by
  cases fuel with
  | zero => rfl
  | succ fuel => rfl

theorem cut_rest_lt (hs : stream ≠ []) : (cut (n + 1) stream).2.length < stream.length := by
  have hlen := cut_length (n + 1) stream
  have hpos : 0 < (cut (n + 1) stream).1.length :=
    List.length_pos_iff.2 fun h => hs (cut_nil_iff.1 h)
  omega

theorem loopAlone_fuel {fuel fuel' : Nat} (hf : stream.length ≤ fuel) (hf' : stream.length ≤ fuel') :
    loopAlone fuel i stream = loopAlone fuel' i stream := by
  induction fuel generalizing fuel' i stream with
  | zero =>
      obtain rfl := List.length_eq_zero_iff.1 (Nat.le_zero.1 hf)
      rw [loopAlone_nil, loopAlone_nil]
  | succ fuel ih =>
      by_cases hs : stream = []
      · rw [hs, loopAlone_nil, loopAlone_nil]
      · obtain ⟨k, rfl⟩ : ∃ k, fuel' = k + 1 :=
          ⟨fuel' - 1, by have := List.length_pos_iff.2 hs; omega⟩
        have hlt : (cut (MAX_LINE - 1) stream).2.length < stream.length := cut_rest_lt hs
        rw [loopAlone_succ fuel i stream hs, loopAlone_succ k i stream hs]
        exact congrArg (hand i _) (ih (by omega) (by omega))

theorem handedAlone_nil (i : Nat) : handedAlone i [] = [] := rfl

theorem handedAlone_eq (hs : stream ≠ []) {line rest : List UInt8}
    (h : cut (MAX_LINE - 1) stream = (line, rest)) :
    handedAlone i stream = hand i (chomp line) (handedAlone (i + line.count newline) rest) := by
  have hlt : (cut (MAX_LINE - 1) stream).2.length < stream.length := cut_rest_lt hs
  obtain ⟨k, hk⟩ : ∃ k, stream.length = k + 1 :=
    ⟨stream.length - 1, by have := List.length_pos_iff.2 hs; omega⟩
  rw [h] at hlt
  have hfuel : loopAlone k (i + line.count newline) rest = handedAlone (i + line.count newline) rest :=
    loopAlone_fuel (by rw [hk] at hlt; exact Nat.le_of_lt_succ hlt) le_rfl
  rw [handedAlone, hk, loopAlone_succ k i stream hs, h, hfuel]

/-! ## One line -/

theorem blocks_nil : blocks [] = [] := by rw [blocks, if_pos rfl]

theorem blocks_cons (h : l ≠ []) :
    blocks l = l.take (MAX_LINE - 1) :: blocks (l.drop (MAX_LINE - 1)) := by
  rw [blocks, if_neg h]

theorem blocks_short (h : l ≠ []) (hlen : l.length ≤ MAX_LINE - 1) : blocks l = [l] := by
  rw [blocks_cons h, List.take_of_length_le hlen, List.drop_eq_nil_of_le hlen, blocks_nil]

theorem count_newline (hl : newline ∉ l) : l.count newline = 0 := List.count_eq_zero.2 hl

theorem handedAlone_block (hl : newline ∉ l) (h0 : 0 ∉ l) (h : MAX_LINE - 1 ≤ l.length) :
    handedAlone i (l ++ t) =
      hand i (l.take (MAX_LINE - 1)) (handedAlone i (l.drop (MAX_LINE - 1) ++ t)) := by
  have hs : l ++ t ≠ [] := by
    intro he
    rw [(List.append_eq_nil_iff.1 he).1] at h
    exact absurd h (by decide)
  have hl' : newline ∉ l.take (MAX_LINE - 1) := fun hm => hl (List.mem_of_mem_take hm)
  have h0' : 0 ∉ l.take (MAX_LINE - 1) := fun hm => h0 (List.mem_of_mem_take hm)
  have hc : chomp (l.take (MAX_LINE - 1)) = l.take (MAX_LINE - 1) := by
    have := chomp_eq hl' h0' (.inl rfl)
    rwa [List.append_nil] at this
  rw [handedAlone_eq hs (cut_block hl h), hc, count_newline hl', Nat.add_zero]

theorem handedAlone_line (hl : newline ∉ l) (h0 : 0 ∉ l) :
    handedAlone i (l ++ newline :: t) = (blocks l).foldr (hand i) (handedAlone (i + 1) t) := by
  induction l using blocks.induct with
  | case1 =>
      rw [blocks_nil, handedAlone_eq (by simp) (cut_last hl (by decide))]
      rfl
  | case2 l hne ih =>
      by_cases h : MAX_LINE - 1 ≤ l.length
      · rw [handedAlone_block hl h0 h, ih (fun hm => hl (List.mem_of_mem_drop hm))
          (fun hm => h0 (List.mem_of_mem_drop hm)), blocks_cons hne, List.foldr_cons]
      · have hcount : (l ++ [newline]).count newline = 1 := by
          rw [List.count_append, count_newline hl]
          rfl
        rw [handedAlone_eq (by simp) (cut_last hl (Nat.lt_of_not_le h)), hcount,
          chomp_eq hl h0 (.inr rfl), blocks_short hne (Nat.le_of_not_le h)]
        rfl

theorem handedAlone_last (hl : newline ∉ l) (h0 : 0 ∉ l) :
    handedAlone i l = (blocks l).foldr (hand i) [] := by
  induction l using blocks.induct with
  | case1 => rw [blocks_nil]; rfl
  | case2 l hne ih =>
      by_cases h : MAX_LINE - 1 ≤ l.length
      · have hblock := handedAlone_block (i := i) (t := []) hl h0 h
        rw [List.append_nil, List.append_nil] at hblock
        rw [hblock, ih (fun hm => hl (List.mem_of_mem_drop hm))
          (fun hm => h0 (List.mem_of_mem_drop hm)), blocks_cons hne, List.foldr_cons]
      · have hc := chomp_eq hl h0 (.inl rfl)
        rw [List.append_nil] at hc
        rw [handedAlone_eq hne (cut_end hl (Nat.lt_of_not_le h)), hc, handedAlone_nil,
          blocks_short hne (Nat.le_of_not_le h)]
        rfl

def handLines : Nat → List (List UInt8) → List (Nat × List UInt8)
  | _, [] => []
  | i, l :: ls => (blocks l).foldr (hand i) (handLines (i + 1) ls)

theorem handedAlone_eq_handLines (i : Nat) (stream : List UInt8) (h0 : 0 ∉ stream) :
    handedAlone i stream = handLines i (stream.splitOn newline) := by
  induction hn : stream.length using Nat.strong_induction_on generalizing i stream with
  | _ n ih =>
      by_cases h : newline ∈ stream
      · obtain ⟨l, t, rfl, hl⟩ := List.eq_append_cons_of_mem h
        have hsplit : (l ++ newline :: t).splitOn newline = l :: t.splitOn newline := by
          unfold List.splitOn
          refine List.splitOnP_append_cons_of_forall_mem (fun b hb => ?_) _ (by simp) _
          exact beq_false_of_ne fun he => hl (he ▸ hb)
        have h0l : 0 ∉ l := fun hm => h0 (List.mem_append_left _ hm)
        have h0t : 0 ∉ t := fun hm => h0 (List.mem_append_right _ (List.mem_cons_of_mem _ hm))
        have hlt : t.length < n := by
          rw [← hn, List.length_append, List.length_cons]
          omega
        rw [handedAlone_line hl h0l, hsplit, handLines, ih t.length hlt (i + 1) t h0t rfl]
      · rw [handedAlone_last h h0, List.splitOn_eq_singleton h]
        rfl

/-! ## Lines that fit -/

def through (q : List UInt8 → Bool) : List (List UInt8) → List (List UInt8)
  | [] => []
  | p :: ps => if q p then [p] else p :: through q ps

def pieces (l : List UInt8) : List (List UInt8) := ((blocks l).filter isCommand).map skipSpaces

def whole (l : List UInt8) : List (List UInt8) := if isCommand l then [skipSpaces l] else []

theorem foldr_hand (i : Nat) (bs : List (List UInt8)) (rest : List (Nat × List UInt8)) :
    bs.foldr (hand i) rest =
      (through endsShell ((bs.filter isCommand).map skipSpaces)).map (fun p => (i, p)) ++
        if ((bs.filter isCommand).map skipSpaces).any endsShell then [] else rest := by
  induction bs with
  | nil => simp [through]
  | cons b bs ih =>
      rw [List.foldr_cons, hand]
      cases hb : isCommand b with
      | false => simpa [hb] using ih
      | true =>
          cases hq : endsShell (skipSpaces b) with
          | true => simp [hb, hq, through]
          | false => simp [hb, hq, through, ih]

theorem skipSpaces_append_blank (hb : ∀ c ∈ b, isspace c = true) :
    skipSpaces (b ++ r) = skipSpaces r := by
  unfold skipSpaces
  exact List.dropWhile_append_of_pos hb

/-- The text of a line starts in its first block that is not blank. -/
theorem skipSpaces_append (hb : skipSpaces b ≠ []) :
    skipSpaces (b ++ r) = skipSpaces b ++ r := by
  unfold skipSpaces at hb ⊢
  rw [List.dropWhile_append, if_neg (by simpa using hb)]

theorem skipSpaces_eq_nil : skipSpaces b = [] ↔ ∀ c ∈ b, isspace c = true :=
  List.dropWhile_eq_nil_iff

theorem isCommand_congr {l : List UInt8} (h : skipSpaces l = skipSpaces r) :
    isCommand l = isCommand r := by
  unfold isCommand
  rw [h]

theorem isCommand_append (hb : skipSpaces b ≠ []) :
    isCommand (b ++ r) = isCommand b := by
  unfold isCommand
  rw [skipSpaces_append hb]
  cases h : skipSpaces b with
  | nil => exact absurd h hb
  | cons c rest => rfl

theorem through_eq_nil {q : List UInt8 → Bool} :
    through q ps = [] ↔ ps = [] := by
  cases ps with
  | nil => simp [through]
  | cons p ps =>
      unfold through
      split
      · simp
      · simp

theorem through_head {q : List UInt8 → Bool} {p : List UInt8} :
    (through q (p :: ps)).head? = some p := by
  unfold through
  split
  · rfl
  · rfl

theorem pieces_eq_nil : pieces l = [] ↔ ∀ b ∈ blocks l, isCommand b = false := by
  unfold pieces
  rw [List.map_eq_nil_iff, List.filter_eq_nil_iff]
  simp

theorem Fits.blank_block (hl : l = b ++ r) (hblocks : blocks l = b :: blocks r) (hr : blocks r ≠ [])
    (hb : skipSpaces b = []) :
    (Fits l ↔ Fits r) ∧ pieces l = pieces r ∧ whole l = whole r := by
  have hskip : skipSpaces l = skipSpaces r := by
    rw [hl, skipSpaces_append_blank (skipSpaces_eq_nil.1 hb)]
  have hcmd := isCommand_congr hskip
  have hbcmd : isCommand b = false := by
    unfold isCommand
    rw [hb]
  refine ⟨?_, ?_, ?_⟩
  · unfold Fits
    rw [hcmd, hblocks, List.dropLast_cons_of_ne_nil hr]
    simp only [List.mem_cons, forall_eq_or_imp, hbcmd, true_and]
    rw [and_iff_right (skipSpaces_eq_nil.1 hb)]
  · unfold pieces
    rw [hblocks, List.filter_cons_of_neg (by simp [hbcmd])]
  · unfold whole
    rw [hcmd, hskip]

/-- What is handed on of a line is the line exactly if it fits. -/
theorem through_pieces_iff (q : List UInt8 → Bool) (l : List UInt8) :
    through q (pieces l) = whole l ↔ Fits l := by
  induction l using blocks.induct with
  | case1 => simp [pieces, whole, Fits, blocks_nil, through, isCommand, skipSpaces]
  | case2 l hne ih =>
      by_cases hlen : l.length ≤ MAX_LINE - 1
      · unfold Fits pieces whole
        rw [blocks_short hne hlen]
        cases hc : isCommand l with
        | false => simp [hc, through]
        | true => simp [hc, through]
      · have hrest : l.drop (MAX_LINE - 1) ≠ [] := by
          rw [ne_eq, List.drop_eq_nil_iff]
          exact hlen
        have hblocks := blocks_cons hne
        have hl := (List.take_append_drop (MAX_LINE - 1) l).symm
        have hr : blocks (l.drop (MAX_LINE - 1)) ≠ [] := by
          rw [blocks_cons hrest]
          exact List.cons_ne_nil _ _
        generalize l.take (MAX_LINE - 1) = b at hblocks hl
        generalize l.drop (MAX_LINE - 1) = r at hblocks hl hr hrest ih
        by_cases hb : skipSpaces b = []
        · obtain ⟨h1, h2, h3⟩ := Fits.blank_block hl hblocks hr hb
          rw [h1, h2, h3]
          exact ih
        · have hcmd : isCommand l = isCommand b := by rw [hl, isCommand_append hb]
          cases hc : isCommand b with
          | true =>
              -- the first block is taken for the line, and the line is longer
              have hpieces : pieces l = skipSpaces b :: pieces r := by
                unfold pieces
                rw [hblocks, List.filter_cons_of_pos hc]
                rfl
              have hwhole : whole l = [skipSpaces b ++ r] := by
                unfold whole
                rw [hcmd, hc, if_pos rfl, hl, skipSpaces_append hb]
              refine iff_of_false (fun heq => ?_) fun hf => ?_
              · have hhead := congrArg List.head? heq
                rw [hpieces, through_head, hwhole, List.head?_cons, Option.some.injEq] at hhead
                exact hrest (List.append_right_eq_self.1 hhead.symm)
              · unfold Fits at hf
                rw [hcmd, hc, if_pos rfl, hblocks, List.dropLast_cons_of_ne_nil hr] at hf
                exact hb (skipSpaces_eq_nil.2 (hf b List.mem_cons_self))
          | false =>
              have hwhole : whole l = [] := by
                unfold whole
                rw [hcmd, hc]
                rfl
              rw [hwhole, through_eq_nil, pieces_eq_nil, Fits, hcmd, hc]
              rfl

theorem through_false (ps : List (List UInt8)) : through (fun _ => false) ps = ps := by
  induction ps with
  | nil => rfl
  | cons p ps ih => rw [through, ih]; rfl

theorem Fits.pieces_eq (h : Fits l) : pieces l = whole l := by
  have := (through_pieces_iff (fun _ => false) l).2 h
  rwa [through_false] at this

/-! ## All lines -/

theorem commandLines_eq (i : Nat) (l : List UInt8) (ls : List (List UInt8)) :
    commandLines i (l :: ls) = (whole l).map (fun p => (i, p)) ++ commandLines (i + 1) ls := by
  unfold whole
  rw [commandLines]
  split
  · rfl
  · rfl

theorem commandLines_nil_iff :
    commandLines i ls = [] ↔ ∀ l ∈ ls, isCommand l = false := by
  induction ls generalizing i with
  | nil => simp [commandLines]
  | cons l ls ih =>
      rw [commandLines]
      cases h : isCommand l with
      | true => simp [h]
      | false => simp [h, ih]

theorem commandLines_le : ∀ x ∈ commandLines i ls, i ≤ x.1 := by
  induction ls generalizing i with
  | nil => simp [commandLines]
  | cons l ls ih =>
      rw [commandLines_eq]
      intro x hx
      rcases List.mem_append.1 hx with hx | hx
      · obtain ⟨p, -, rfl⟩ := List.mem_map.1 hx
        exact le_rfl
      · exact (Nat.le_succ i).trans (ih x hx)

theorem handLines_le : ∀ x ∈ handLines i ls, i ≤ x.1 := by
  induction ls generalizing i with
  | nil => simp [handLines]
  | cons l ls ih =>
      rw [handLines, foldr_hand]
      intro x hx
      rcases List.mem_append.1 hx with hx | hx
      · obtain ⟨p, -, rfl⟩ := List.mem_map.1 hx
        exact le_rfl
      · split at hx
        · cases hx
        · exact (Nat.le_succ i).trans (ih x hx)

theorem tagged_inj {ps' : List (List UInt8)} {xs xs' : List (Nat × List UInt8)}
    (hx : ∀ x ∈ xs, i + 1 ≤ x.1) (hx' : ∀ x ∈ xs', i + 1 ≤ x.1) :
    ps.map (fun p => (i, p)) ++ xs = ps'.map (fun p => (i, p)) ++ xs' ↔ ps = ps' ∧ xs = xs' := by
  constructor
  · intro h
    have hfilter : ∀ (qs : List (List UInt8)) (ys : List (Nat × List UInt8)),
        (∀ y ∈ ys, i + 1 ≤ y.1) →
        ((qs.map fun p => (i, p)) ++ ys).filter (fun x => x.1 = i) = qs.map fun p => (i, p) := by
      intro qs ys hy
      rw [List.filter_append, List.filter_eq_self.2, List.filter_eq_nil_iff.2, List.append_nil]
      · intro y hm
        have := hy y hm
        simp
        omega
      · simp
    have hps := congrArg (List.filter fun x => x.1 = i) h
    rw [hfilter ps xs hx, hfilter ps' xs' hx'] at hps
    rw [hps, List.append_cancel_left_eq] at h
    exact ⟨List.map_injective_iff.2 (fun a b hab => (Prod.mk.inj hab).2) hps, h⟩
  · rintro ⟨rfl, rfl⟩
    rfl

theorem handLines_eq_iff :
    handLines i ls = commandLines i ls ↔ Tame ls := by
  induction ls generalizing i with
  | nil => simp [handLines, commandLines, Tame]
  | cons l ls ih =>
      have hrest : ∀ x ∈ (if (pieces l).any endsShell then [] else handLines (i + 1) ls),
          i + 1 ≤ x.1 := by
        intro x hx
        split at hx
        · cases hx
        · exact handLines_le x hx
      rw [handLines, foldr_hand, commandLines_eq]
      rw [show ((blocks l).filter isCommand).map skipSpaces = pieces l from rfl,
        tagged_inj hrest commandLines_le, through_pieces_iff, Tame]
      refine and_congr_right fun hf => ?_
      have hany : (pieces l).any endsShell = (isCommand l && endsShell (skipSpaces l)) := by
        rw [hf.pieces_eq, whole]
        cases isCommand l with
        | true => simp
        | false => simp
      rw [hany]
      split
      · rw [eq_comm, commandLines_nil_iff]
      · exact ih

/-- If no child moves the offset of the input, the shell takes exactly the command lines of its
input if and only if every line up to an `exit` fits, and no command line comes behind the `exit`. -/
theorem handedOn_eq_iff {size turns : Nat} {children : Nat → Input → Nat} (hsize : 0 < size)
    (hquiet : ∀ k x, children k x = x.off) (stream : List UInt8) (h0 : 0 ∉ stream)
    (hturns : stream.length ≤ turns) :
    handedOn size children turns stream = commandLines 0 (stream.splitOn newline) ↔
      Tame (stream.splitOn newline) := by
  have hleft : (Input.mk stream 0 [] false).left = stream := rfl
  rw [handedOn, mainLoop_left hsize hquiet, hleft, loopAlone_fuel hturns le_rfl, ← handedAlone,
    handedAlone_eq_handLines 0 stream h0, handLines_eq_iff]

theorem fits_of_short (h : l.length ≤ MAX_LINE - 1) : Fits l := by
  unfold Fits
  by_cases hl : l = []
  · subst hl
    rw [blocks_nil]
    split
    · simp
    · simp
  · rw [blocks_short hl h]
    split
    · simp
    · rename_i hc
      simpa using hc

end

def leaveInput (_ : Nat) (x : Input) : Nat := x.off

/-- `ls`, a comment and ` pwd`, the last without a newline. -/
theorem handedOn_eq_iff_short :
    handedOn 4 leaveInput 20 [108, 115, 10, 35, 99, 10, 32, 112, 119, 100] =
      [(0, [108, 115]), (2, [112, 119, 100])] := by
  have hsplit : List.splitOn newline [108, 115, 10, 35, 99, 10, 32, 112, 119, 100] =
      [[108, 115], [35, 99], [32, 112, 119, 100]] := by decide +kernel
  refine ((handedOn_eq_iff (by decide) (fun _ _ => rfl) _ (by decide +kernel) (by decide)).2
    ?_).trans (by rw [hsplit]; decide +kernel)
  rw [hsplit]
  refine ⟨fits_of_short (by decide), ?_⟩
  rw [if_neg (by decide +kernel)]
  refine ⟨fits_of_short (by decide), ?_⟩
  rw [if_neg (by decide +kernel)]
  refine ⟨fits_of_short (by decide), ?_⟩
  rw [if_neg (by decide +kernel)]
  trivial

/-- A child leaves with `exit`, and the input is a file. -/
def rewindInput (_ : Nat) (x : Input) : Nat := x.off - x.ahead.length

-- `nosuch` cannot be executed, so its child leaves with `exit`, and `pwd` is read twice
example : handedOn 4096 rewindInput 20 [110, 111, 115, 117, 99, 104, 10, 112, 119, 100, 10] =
    [(0, [110, 111, 115, 117, 99, 104]), (1, [112, 119, 100]), (2, [112, 119, 100])] := by
  decide +kernel

def longComment : List UInt8 := hash :: (List.replicate 4094 97 ++ [108, 115])

/-- The end of the comment is run as a command. -/
theorem long_comment_runs : 0 ∉ longComment ++ [newline] ∧ isCommand longComment = false ∧
    handedOn 4096 leaveInput 5000 (longComment ++ [newline]) = [(0, [108, 115])] ∧
    commandLines 0 ((longComment ++ [newline]).splitOn newline) = [] := by
  set_option maxRecDepth 100000 in decide +kernel

end G9OS.Shell
