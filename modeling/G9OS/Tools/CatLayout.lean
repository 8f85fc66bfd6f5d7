import G9OS.Tools.Cat

/-! # `custom_cat` on several files

`my_line_cnt` goes on from file to file, while `new_line` and `empty_lines` begin anew. What
this makes of a list of files is read off its layout: the bytes other than newlines, and
behind each of them a gap, which counts the newlines up to the next one, file by file.
-/

namespace G9OS.Tools

/-- The newlines in front of a byte, counted in each file that they come from. -/
abbrev Gap : Type := List Nat

def addNewline : Gap → Gap
  | [] => [1]
  | k :: ks => (k + 1) :: ks

def scanFile : List UInt8 → Gap × List (UInt8 × Gap) → Gap × List (UInt8 × Gap)
  | [], (g, bs) => (0 :: g, bs)
  | ch :: rest, after =>
      let (g, bs) := scanFile rest after
      if ch = newline then (addNewline g, bs) else ([0], (ch, g) :: bs)

def layout : List (List UInt8) → Gap × List (UInt8 × Gap)
  | [] => ([], [])
  | file :: files => scanFile file (layout files)

/-! ## What is printed -/

/-- The number of files that newlines come from. -/
def parts (ks : List Nat) : Nat := ks.countP fun k => decide (0 < k)

/-- The lines printed for `k` newlines at the beginning of a line, behind `e` empty ones. -/
def topLines (o : CatOptions) (e k : Nat) : Nat :=
  if o.skipBlanks then if e = 0 then min k 1 else 0 else k

/-- The lines printed for newlines at the top of files. -/
def topsLines (o : CatOptions) (ks : List Nat) : Nat :=
  if o.skipBlanks then parts ks else ks.sum

def blankText (o : CatOptions) : Int → Nat → List UInt8
  | _, 0 => []
  | n, q + 1 => numberIf o.numbersBlank n ++ endOfLine o ++ blankText o (bumpIf o.numbersBlank n) q

/-- `my_line_cnt` behind them. -/
def afterBlanks (o : CatOptions) (n : Int) (q : Nat) : Int := if o.numbersBlank then n + q else n

/-- The blank lines of a gap behind a byte. -/
def gapBlanks (o : CatOptions) : Gap → Nat
  | [] => 0
  | 0 :: ks => topsLines o ks
  | (k + 1) :: ks => topLines o 0 k + topsLines o ks

/-- A gap behind a byte: the first newline ends the line of the byte, if it is in its file. -/
def gapText (o : CatOptions) (n : Int) : Gap → List UInt8
  | (k + 1) :: ks => endOfLine o ++ blankText o n (gapBlanks o ((k + 1) :: ks))
  | g => blankText o n (gapBlanks o g)

/-- The bytes and their gaps; `fresh` tells whether the first byte begins a line. -/
def bytesText (o : CatOptions) : Bool → Int → List (UInt8 × Gap) → List UInt8
  | _, _, [] => []
  | fresh, n, (ch, g) :: bs =>
      let m := bumpIf (fresh && o.numbersText) n
      numberIf (fresh && o.numbersText) n ++ ch ::
        (gapText o m g ++ bytesText o (decide (g ≠ [0])) (afterBlanks o m (gapBlanks o g)) bs)

/-- The blank lines of a gap at the beginning of a line. -/
def topBlanks (o : CatOptions) (e : Nat) : Gap → Nat
  | [] => 0
  | k :: ks => topLines o e k + topsLines o ks

section
variable {o : CatOptions}

theorem topsLines_cons (k : Nat) (ks : List Nat) :
    topsLines o (k :: ks) = topLines o 0 k + topsLines o ks := by
  unfold topsLines topLines parts
  cases o.skipBlanks with
  | false => rfl
  | true =>
      rw [if_pos rfl, if_pos rfl, if_pos rfl, if_pos rfl, List.countP_cons]
      by_cases hk : 0 < k
      · rw [if_pos (decide_eq_true hk)]
        omega
      · rw [if_neg (by simpa using hk)]
        omega

theorem topsLines_nil : topsLines o [] = 0 := by
  unfold topsLines
  split
  · rfl
  · rfl

theorem topBlanks_zero (g : Gap) : topBlanks o 0 g = topsLines o g := by
  cases g with
  | nil => exact topsLines_nil.symm
  | cons k ks => exact (topsLines_cons k ks).symm

theorem topLines_zero (e : Nat) : topLines o e 0 = 0 := by
  unfold topLines
  split
  · split
    · rfl
    · rfl
  · rfl

theorem gapText_zero (n : Int) (ks : List Nat) :
    gapText o n (0 :: ks) = blankText o n (topsLines o ks) := rfl

theorem gapText_succ (n : Int) (k : Nat) (ks : List Nat) :
    gapText o n ((k + 1) :: ks) =
      endOfLine o ++ blankText o n (topLines o 0 k + topsLines o ks) := rfl

theorem afterBlanks_zero (n : Int) : afterBlanks o n 0 = n := by
  unfold afterBlanks
  split
  · exact Int.add_zero n
  · rfl

theorem afterBlanks_succ (n : Int) (q : Nat) :
    afterBlanks o n (q + 1) = afterBlanks o (bumpIf o.numbersBlank n) q := by
  unfold afterBlanks bumpIf
  split
  · push_cast
    omega
  · rfl

theorem scanFile_gap (file : List UInt8) (after : Gap × List (UInt8 × Gap)) :
    ∃ k ks, (scanFile file after).1 = k :: ks := by
  cases file with
  | nil => exact ⟨0, after.1, rfl⟩
  | cons ch rest =>
      rw [scanFile]
      dsimp only
      split
      · cases (scanFile rest after).1 with
        | nil => exact ⟨1, [], rfl⟩
        | cons k ks => exact ⟨k + 1, ks, rfl⟩
      · exact ⟨0, [], rfl⟩

theorem topBlanks_addNewline (e k : Nat) (ks : List Nat) :
    topBlanks o e ((k + 1) :: ks) =
      if o.skipBlanks && decide (0 < e) then topBlanks o (e + 1) (k :: ks)
      else topBlanks o (e + 1) (k :: ks) + 1 := by
  unfold topBlanks topLines
  cases o.skipBlanks with
  | false =>
      simp only [if_neg Bool.false_ne_true, Bool.false_and]
      omega
  | true =>
      by_cases he : e = 0
      · simp [he]
        omega
      · simp [he, Nat.pos_of_ne_zero he]

/-- What is printed for the rest of a file and the files behind it, in the middle of a line and
at the beginning of one. -/
structure Prints (o : CatOptions) (rest : List UInt8) (files : List (List UInt8)) : Prop where
  mid : ∀ e n, (catBytes o ⟨false, e, n⟩ rest).1 ++
      catFiles o (catBytes o ⟨false, e, n⟩ rest).2.myLineCnt files =
    gapText o n (scanFile rest (layout files)).1 ++
      bytesText o (decide ((scanFile rest (layout files)).1 ≠ [0]))
        (afterBlanks o n (gapBlanks o (scanFile rest (layout files)).1))
        (scanFile rest (layout files)).2
  top : ∀ e n, (catBytes o ⟨true, e, n⟩ rest).1 ++
      catFiles o (catBytes o ⟨true, e, n⟩ rest).2.myLineCnt files =
    blankText o n (topBlanks o e (scanFile rest (layout files)).1) ++
      bytesText o true (afterBlanks o n (topBlanks o e (scanFile rest (layout files)).1))
        (scanFile rest (layout files)).2

theorem Prints.ended {rest : List UInt8} {files : List (List UInt8)} (h : Prints o rest files) :
    Prints o (newline :: rest) files := by
  obtain ⟨k, ks, hg⟩ := scanFile_gap rest (layout files)
  have hscan : scanFile (newline :: rest) (layout files) =
      ((k + 1) :: ks, (scanFile rest (layout files)).2) := by
    rw [scanFile]
    dsimp only
    rw [if_pos rfl, hg]
    rfl
  constructor
  · intro e n
    have htop := h.top 0 n
    rw [hg] at htop
    rw [hscan, catBytes, catByte_end]
    dsimp only
    rw [List.append_assoc, htop, gapText, List.append_assoc]
    rfl
  · intro e n
    have htop := h.top (e + 1)
    rw [hg] at htop
    rw [hscan, catBytes, catByte_blank]
    dsimp only
    rw [topBlanks_addNewline]
    split
    · exact htop n
    · dsimp only
      rw [List.append_assoc, htop, blankText, afterBlanks_succ, ← List.append_assoc]

theorem Prints.text {rest : List UInt8} {files : List (List UInt8)} {ch : UInt8}
    (hch : ch ≠ newline) (h : Prints o rest files) : Prints o (ch :: rest) files := by
  have hscan : scanFile (ch :: rest) (layout files) =
      ([0], (ch, (scanFile rest (layout files)).1) :: (scanFile rest (layout files)).2) := by
    rw [scanFile]
    dsimp only
    rw [if_neg hch]
  constructor
  · intro e n
    rw [hscan, catBytes, catByte_text o false e n hch]
    dsimp only
    rw [List.append_assoc, h.mid]
    simp [gapText_zero, gapBlanks, topsLines_nil, blankText, bytesText, afterBlanks_zero]
  · intro e n
    rw [hscan, catBytes, catByte_text o true e n hch]
    dsimp only
    rw [List.append_assoc, h.mid]
    simp [topBlanks, topLines_zero, topsLines_nil, blankText, bytesText, afterBlanks_zero]

theorem prints_nil {files : List (List UInt8)} (h : ∀ file more, files = file :: more →
    Prints o file more) : Prints o [] files := by
  have hfiles : ∀ n, catFiles o n files =
      blankText o n (topsLines o (layout files).1) ++
        bytesText o true (afterBlanks o n (topsLines o (layout files).1)) (layout files).2 := by
    intro n
    cases files with
    | nil => simp [catFiles, layout, topsLines_nil, blankText, bytesText]
    | cons file more =>
        have htop := (h file more rfl).top 0 n
        rw [topBlanks_zero] at htop
        rw [catFiles]
        exact htop
  have hscan : scanFile [] (layout files) = (0 :: (layout files).1, (layout files).2) := rfl
  constructor
  · intro e n
    rw [hscan, catBytes, List.nil_append, hfiles, gapText_zero, gapBlanks]
    dsimp only
    cases hg : (layout files).1 with
    | cons k ks => simp
    | nil =>
        -- there are no more files
        cases files with
        | nil => rfl
        | cons file more =>
            obtain ⟨k, ks, hk⟩ := scanFile_gap file (layout more)
            rw [layout, hk] at hg
            cases hg
  · intro e n
    rw [hscan, catBytes, List.nil_append, hfiles, topBlanks, topLines_zero, Nat.zero_add]

theorem prints (rest : List UInt8) (files : List (List UInt8)) : Prints o rest files := by
  induction files generalizing rest with
  | nil =>
      induction rest with
      | nil => exact prints_nil nofun
      | cons ch rest ih =>
          by_cases hch : ch = newline
          · exact hch ▸ ih.ended
          · exact ih.text hch
  | cons file files ihf =>
      induction rest with
      | nil =>
          refine prints_nil fun file' more heq => ?_
          cases heq
          exact ihf file
      | cons ch rest ih =>
          by_cases hch : ch = newline
          · exact hch ▸ ih.ended
          · exact ih.text hch

theorem catFiles_layout (n : Int) (files : List (List UInt8)) :
    catFiles o n files =
      blankText o n (topsLines o (layout files).1) ++
        bytesText o true (afterBlanks o n (topsLines o (layout files).1)) (layout files).2 := by
  have hmid := (prints (o := o) [] files).top 0 n
  rw [topBlanks_zero, scanFile, topsLines_cons, topLines_zero, Nat.zero_add] at hmid
  exact hmid

/-! ## One file -/

def joined (bs : List (UInt8 × Gap)) : List (UInt8 × Gap) := bs.map fun b => (b.1, [b.2.sum])

theorem scanFile_append (file rest : List UInt8) {after : Gap × List (UInt8 × Gap)}
    (h : scanFile rest ([], []) = ([after.1.sum], joined after.2)) :
    scanFile (file ++ rest) ([], []) =
      ([(scanFile file after).1.sum], joined (scanFile file after).2) := by
  induction file with
  | nil => simpa [scanFile] using h
  | cons ch file ih =>
      obtain ⟨k, ks, hg⟩ := scanFile_gap file after
      rw [List.cons_append, scanFile, ih, scanFile]
      dsimp only
      rw [hg]
      split
      · simp [addNewline, Nat.add_right_comm]
      · simp [joined]

theorem layout_flatten (files : List (List UInt8)) :
    layout [files.flatten] = ([(layout files).1.sum], joined (layout files).2) := by
  induction files with
  | nil => rfl
  | cons file files ih =>
      rw [List.flatten_cons, layout, layout, layout]
      exact scanFile_append file _ ih

/-- The bytes of a layout are no newlines, and the gap of a byte begins in its own file. -/
def WellLaid (bs : List (UInt8 × Gap)) : Prop :=
  ∀ b ∈ bs, b.1 ≠ newline ∧ ∃ k ks, b.2 = k :: ks

theorem scanFile_wellLaid (file : List UInt8) {after : Gap × List (UInt8 × Gap)}
    (h : WellLaid after.2) : WellLaid (scanFile file after).2 := by
  induction file with
  | nil => exact h
  | cons ch file ih =>
      rw [scanFile]
      dsimp only
      split
      · exact ih
      · rename_i hch
        intro b hb
        rcases List.mem_cons.1 hb with rfl | hrest
        · exact ⟨hch, scanFile_gap file after⟩
        · exact ih b hrest

theorem layout_wellLaid (files : List (List UInt8)) : WellLaid (layout files).2 := by
  induction files with
  | nil => exact fun b hb => absurd hb List.not_mem_nil
  | cons file files ih => exact scanFile_wellLaid file ih

theorem WellLaid.joined {bs : List (UInt8 × Gap)} (h : WellLaid bs) :
    WellLaid (Tools.joined bs) := by
  intro b hb
  obtain ⟨b', hb', rfl⟩ := List.mem_map.1 hb
  exact ⟨(h b' hb').1, _, _, rfl⟩

/-! ## Where two outputs part -/

theorem numberText_ne_nil (n : Int) : numberText n ≠ [] := by simp [numberText]

theorem numbersText_of_numbersBlank (h : o.numbersBlank = true) : o.numbersText = true := by
  unfold CatOptions.numbersBlank at h
  unfold CatOptions.numbersText
  rw [Bool.and_eq_true] at h
  rw [h.1, Bool.or_true]

theorem numberText_cons (n : Int) : ∃ c t, numberText n = c :: t ∧ c ≠ newline ∧ c ≠ dollar := by
  obtain ⟨c, t, hn⟩ := List.exists_cons_of_ne_nil (numberText_ne_nil n)
  exact ⟨c, t, hn, mem_numberText (n := n) (by rw [hn]; exact List.mem_cons_self)⟩

theorem numberText_ne_end (n : Int) (x y : List UInt8) :
    numberText n ++ x ≠ endOfLine o ++ y := by
  intro h
  obtain ⟨c, t, hn, hnewline, hdollar⟩ := numberText_cons n
  rw [hn] at h
  unfold endOfLine at h
  split at h
  · exact hdollar (List.cons.inj h).1
  · exact hnewline (List.cons.inj h).1

theorem gap_head (he : o.endMarker = true) {bs : List (UInt8 × Gap)} (hbs : WellLaid bs)
    (n m : Int) (g : Gap) (f : Bool) (x : List UInt8) :
    gapText o n g ++ bytesText o f m bs ≠ newline :: x := by
  have hend : endOfLine o = [dollar, newline] := by rw [endOfLine, he]; rfl
  have hnumber : ∀ k y, numberText k ++ y ≠ newline :: x := by
    intro k y h
    obtain ⟨c, t, hn, hnewline, -⟩ := numberText_cons k
    rw [hn] at h
    exact hnewline (List.cons.inj h).1
  have hbytes : bytesText o f m bs ≠ newline :: x := by
    cases bs with
    | nil => exact nofun
    | cons b bs =>
        obtain ⟨ch, g⟩ := b
        rw [bytesText]
        unfold numberIf
        split
        · exact hnumber _ _
        · intro h
          exact (hbs _ List.mem_cons_self).1 (List.cons.inj h).1
  have hblank : ∀ q, blankText o n q ++ bytesText o f m bs ≠ newline :: x := by
    intro q
    cases q with
    | zero => exact hbytes
    | succ q =>
        rw [blankText, hend, List.append_assoc, List.append_assoc]
        unfold numberIf
        split
        · exact hnumber _ _
        · intro h
          cases (List.cons.inj h).1
  match g with
  | [] => exact hblank _
  | 0 :: ks => exact hblank _
  | (k + 1) :: ks =>
      rw [gapText_succ, hend]
      intro h
      cases (List.cons.inj h).1

theorem bytesText_ne_blank {bs : List (UInt8 × Gap)} (hbs : WellLaid bs) {f : Bool}
    (hf : o.numbersBlank = true → f = true) (n : Int) (x : List UInt8) :
    bytesText o f n bs ≠ numberIf o.numbersBlank n ++ endOfLine o ++ x := by
  intro h
  cases bs with
  | nil =>
      have hlen := congrArg List.length h
      simp [bytesText, endOfLine] at hlen
  | cons b bs =>
      obtain ⟨ch, g⟩ := b
      have hch := (hbs _ List.mem_cons_self).1
      have hrest : WellLaid bs := fun b hb => hbs b (List.mem_cons_of_mem _ hb)
      -- a byte of text is no end of a line
      have htext : ∀ m k y, ch :: (gapText o m g ++ bytesText o (decide (g ≠ [0])) k bs) ≠
          endOfLine o ++ y := by
        intro m k y heq
        unfold endOfLine at heq
        split at heq
        · rename_i he
          exact gap_head he hrest _ _ _ _ _ (List.cons.inj heq).2
        · exact hch (List.cons.inj heq).1
      rw [bytesText] at h
      cases hnb : o.numbersBlank with
      | true =>
          rw [hf hnb, numbersText_of_numbersBlank hnb, hnb, List.append_assoc] at h
          exact htext _ _ _ (List.append_cancel_left h)
      | false =>
          rw [hnb] at h
          cases hnum : f && o.numbersText with
          | true =>
              rw [hnum] at h
              exact numberText_ne_end _ _ _ h
          | false =>
              rw [hnum] at h
              exact htext _ _ _ h

/-- Two outputs that begin with blank lines are the same if and only if these are as many and
the rest is the same. -/
theorem blankText_append_eq_iff {bs bs' : List (UInt8 × Gap)} (hbs : WellLaid bs)
    (hbs' : WellLaid bs') {f f' : Bool} (hf : o.numbersBlank = true → f = true)
    (hf' : o.numbersBlank = true → f' = true) (n : Int) (q q' : Nat) :
    blankText o n q ++ bytesText o f (afterBlanks o n q) bs =
        blankText o n q' ++ bytesText o f' (afterBlanks o n q') bs' ↔
      q = q' ∧ bytesText o f (afterBlanks o n q) bs = bytesText o f' (afterBlanks o n q) bs' := by
  induction q generalizing n q' with
  | zero =>
      cases q' with
      | zero => simp [blankText]
      | succ q' =>
          refine iff_of_false (fun h => ?_) (fun h => by cases h.1)
          rw [afterBlanks_zero, blankText, blankText, List.nil_append, List.append_assoc] at h
          exact bytesText_ne_blank hbs hf n _ h
  | succ q ih =>
      cases q' with
      | zero =>
          refine iff_of_false (fun h => ?_) (fun h => by cases h.1)
          rw [afterBlanks_zero, blankText, blankText, List.nil_append, List.append_assoc] at h
          exact bytesText_ne_blank hbs' hf' n _ h.symm
      | succ q' =>
          rw [blankText, blankText, afterBlanks_succ, afterBlanks_succ, List.append_assoc,
            List.append_assoc _ (blankText _ _ q'), List.append_right_inj, ih, Nat.succ_inj]

def lineLength (text : List UInt8) : Nat := (text.takeWhile (· != newline)).length

theorem lineLength_cons {ch : UInt8} (hch : ch ≠ newline) (text : List UInt8) :
    lineLength (ch :: text) = lineLength text + 1 := by
  simp [lineLength, hch]

theorem lineLength_append {u : List UInt8} (hu : newline ∉ u) (text : List UInt8) :
    lineLength (u ++ text) = u.length + lineLength text := by
  induction u with
  | nil => simp
  | cons ch u ih =>
      rw [List.mem_cons, not_or] at hu
      rw [List.cons_append, lineLength_cons (Ne.symm hu.1), ih hu.2, List.length_cons]
      omega

theorem lineLength_end (text : List UInt8) :
    lineLength (endOfLine o ++ text) = if o.endMarker then 1 else 0 := by
  unfold endOfLine
  split
  · rfl
  · rfl

theorem lineLength_number (wanted : Bool) (n : Int) (text : List UInt8) :
    lineLength text ≤ lineLength (numberIf wanted n ++ text) := by
  rw [lineLength_append (newline_notMem_numberIf wanted n)]
  omega

theorem topsLines_pos {ks : List Nat} (h : 0 < ks.sum) : 0 < topsLines o ks := by
  unfold topsLines parts
  split
  · obtain ⟨k, hk, hpos⟩ : ∃ k ∈ ks, 0 < k := by
      by_contra hno
      have hzero : ks.sum = 0 := List.sum_eq_zero fun k hk =>
        Nat.eq_zero_of_not_pos fun hpos => hno ⟨k, hk, hpos⟩
      omega
    exact List.countP_pos_iff.2 ⟨k, hk, decide_eq_true hpos⟩
  · exact h

theorem topsLines_zero {ks : List Nat} (h : ks.sum = 0) : topsLines o ks = 0 := by
  unfold topsLines parts
  split
  · refine List.countP_eq_zero.2 fun k hk => ?_
    have hzero := List.sum_eq_zero_iff.1 h k hk
    simp [hzero]
  · exact h

/-- Until its first newline, a list of files prints at least what one file does. -/
theorem lineLength_joined {bs : List (UInt8 × Gap)} (hbs : WellLaid bs) (f : Bool) (n m : Int) :
    lineLength (bytesText o false m (joined bs)) ≤ lineLength (bytesText o f n bs) := by
  induction bs generalizing f n m with
  | nil => exact le_refl _
  | cons b bs ih =>
      obtain ⟨ch, g⟩ := b
      obtain ⟨hch, k, ks, rfl⟩ := hbs _ List.mem_cons_self
      have hrest : WellLaid bs := fun b hb => hbs b (List.mem_cons_of_mem _ hb)
      have hjoined : joined ((ch, k :: ks) :: bs) = (ch, [k + ks.sum]) :: joined bs := rfl
      rw [hjoined, bytesText, bytesText]
      refine le_trans ?_ (lineLength_number _ _ _)
      rw [Bool.false_and, numberIf, if_neg Bool.false_ne_true, List.nil_append,
        lineLength_cons hch, lineLength_cons hch]
      refine Nat.succ_le_succ ?_
      cases k with
      | succ k =>
          rw [Nat.succ_add, gapText_succ, gapText_succ, List.append_assoc, List.append_assoc,
            lineLength_end, lineLength_end]
      | zero =>
          rw [Nat.zero_add, gapText_zero]
          cases hsum : ks.sum with
          | zero =>
              rw [topsLines_zero hsum, gapText_zero, topsLines_nil, blankText, blankText]
              exact ih hrest _ _ _
          | succ j =>
              obtain ⟨q, hq⟩ := Nat.exists_eq_succ_of_ne_zero (topsLines_pos (o := o) (by omega :
                0 < ks.sum)).ne'
              rw [hq, gapText_succ, blankText, List.append_assoc, List.append_assoc,
                List.append_assoc, lineLength_end]
              refine le_trans ?_ (lineLength_number _ _ _)
              rw [lineLength_end]

/-! ## The same output -/

def lineEnds (o : CatOptions) (k : Nat) (ks : List Nat) : Nat :=
  if o.skipBlanks then min k 2 + parts ks else k + ks.sum

/-- A gap behind a byte is printed as if it were in one file: with `-s` as many line ends, with
`-n` no number for a newline that ends the line of another file, and with numbers none in the
middle of a line. -/
def Smooth (o : CatOptions) (last : Bool) : Gap → Prop
  | [] => True
  | k :: ks =>
      (o.skipBlanks = true → min k 2 + parts ks = min (k + ks.sum) 2) ∧
        (o.numbersBlank = true → k = 0 → ks.sum = 0) ∧
        (o.numbersText = true → last = false → k + ks.sum = 0 → ks = [])

def AllSmooth (o : CatOptions) : List (UInt8 × Gap) → Prop
  | [] => True
  | (_, g) :: bs => Smooth o bs.isEmpty g ∧ AllSmooth o bs

/-- The files can be printed as one: newlines in front of all other bytes come from one file
with `-s`, and the gaps behind the bytes are smooth. -/
def Seamless (o : CatOptions) (files : List (List UInt8)) : Prop :=
  (o.skipBlanks = true → parts (layout files).1 = min (layout files).1.sum 1) ∧
    AllSmooth o (layout files).2

theorem lineEnds_zero (ks : List Nat) : lineEnds o 0 ks = gapBlanks o (0 :: ks) := by
  unfold lineEnds gapBlanks topsLines
  split
  · exact Nat.zero_add _
  · exact Nat.zero_add _

theorem lineEnds_succ (k : Nat) (ks : List Nat) :
    lineEnds o (k + 1) ks = gapBlanks o ((k + 1) :: ks) + 1 := by
  show lineEnds o (k + 1) ks = topLines o 0 k + topsLines o ks + 1
  unfold lineEnds topsLines topLines
  split
  · rw [if_pos rfl]
    omega
  · omega

theorem lineEnds_eq_iff (k : Nat) (ks : List Nat) :
    lineEnds o k ks = lineEnds o (k + ks.sum) [] ↔
      (o.skipBlanks = true → min k 2 + parts ks = min (k + ks.sum) 2) := by
  unfold lineEnds
  cases o.skipBlanks with
  | false => simp
  | true => simp [parts]

/-- Without numbers for blank lines, all line ends look the same. -/
theorem gapText_plain (h : o.numbersBlank = false) (n : Int) (k : Nat) (ks : List Nat) :
    gapText o n (k :: ks) = blankText o n (lineEnds o k ks) := by
  cases k with
  | zero => rw [lineEnds_zero, gapText_zero, gapBlanks]
  | succ k =>
      rw [lineEnds_succ, gapText_succ, gapBlanks, blankText, h]
      rfl

theorem afterBlanks_plain (h : o.numbersBlank = false) (n : Int) (q : Nat) :
    afterBlanks o n q = n := by
  rw [afterBlanks, h, if_neg Bool.false_ne_true]

theorem gap_eq_iff {bs bs' : List (UInt8 × Gap)} (hbs : WellLaid bs) (hbs' : WellLaid bs')
    (n : Int) (k : Nat) (ks : List Nat) :
    gapText o n (k :: ks) ++
          bytesText o (decide (k :: ks ≠ [0])) (afterBlanks o n (gapBlanks o (k :: ks))) bs =
        gapText o n [k + ks.sum] ++
          bytesText o (decide ([k + ks.sum] ≠ [0]))
            (afterBlanks o n (gapBlanks o [k + ks.sum])) bs' ↔
      (o.skipBlanks = true → min k 2 + parts ks = min (k + ks.sum) 2) ∧
        (o.numbersBlank = true → k = 0 → ks.sum = 0) ∧
        bytesText o (decide (k :: ks ≠ [0])) (afterBlanks o n (gapBlanks o (k :: ks))) bs =
          bytesText o (decide ([k + ks.sum] ≠ [0])) (afterBlanks o n (gapBlanks o (k :: ks)))
            bs' := by
  rw [← lineEnds_eq_iff]
  cases hnb : o.numbersBlank with
  | false =>
      have hiff := @blankText_append_eq_iff o bs bs' hbs hbs' (decide (k :: ks ≠ [0]))
        (decide ([k + ks.sum] ≠ [0])) (by rw [hnb]; nofun) (by rw [hnb]; nofun) n
        (lineEnds o k ks) (lineEnds o (k + ks.sum) [])
      simp only [afterBlanks_plain hnb] at hiff ⊢
      rw [gapText_plain hnb, gapText_plain hnb, hiff]
      simp
  | true =>
      cases k with
      | zero =>
          rw [Nat.zero_add]
          cases hsum : ks.sum with
          | zero =>
              have htops : gapBlanks o (0 :: ks) = 0 := topsLines_zero hsum
              have hone : gapBlanks o [0] = 0 := topsLines_nil
              rw [lineEnds_zero, lineEnds_zero, htops, hone, gapText_zero, gapText_zero,
                topsLines_nil, topsLines_zero hsum]
              simp [blankText]
          | succ j =>
              -- the list numbers what one file does not
              refine iff_of_false (fun h => ?_) (fun h => by cases h.2.1 rfl rfl)
              obtain ⟨q, hq⟩ := Nat.exists_eq_succ_of_ne_zero
                (topsLines_pos (o := o) (by omega : 0 < ks.sum)).ne'
              rw [gapText_zero, hq, blankText, hnb, gapText_succ, List.append_assoc,
                List.append_assoc, List.append_assoc] at h
              exact numberText_ne_end _ _ _ h
      | succ k =>
          rw [Nat.succ_add, lineEnds_succ, lineEnds_succ, gapText_succ, gapText_succ,
            List.append_assoc, List.append_assoc, List.append_right_inj]
          have hfirst : decide ((k + 1) :: ks ≠ [0]) = true := by simp
          have hsecond : decide ([k + ks.sum + 1] ≠ [0]) = true := by simp
          rw [hfirst, hsecond]
          have hiff := @blankText_append_eq_iff o bs bs' hbs hbs' true true (fun _ => rfl)
            (fun _ => rfl) n (gapBlanks o ((k + 1) :: ks)) (gapBlanks o [k + ks.sum + 1])
          rw [Nat.succ_inj]
          refine hiff.trans ?_
          simp

theorem bytesText_plain (h : o.numbersText = false) (f f' : Bool) (n : Int)
    (bs : List (UInt8 × Gap)) : bytesText o f n bs = bytesText o f' n bs := by
  cases bs with
  | nil => rfl
  | cons b bs =>
      obtain ⟨ch, g⟩ := b
      simp [bytesText, h]

/-- At the beginning of a line, a byte is printed with a number. -/
theorem bytesText_fresh (h : o.numbersText = true) (n : Int) (b : UInt8 × Gap)
    (bs : List (UInt8 × Gap)) :
    bytesText o true n (b :: bs) = numberIf true n ++ bytesText o false (n + 1) (b :: bs) := by
  obtain ⟨ch, g⟩ := b
  rw [bytesText, bytesText, h]
  rfl

/-- The gaps behind bytes are printed as in one file if and only if all of them are smooth. -/
theorem bytesText_joined_iff {bs : List (UInt8 × Gap)} (hbs : WellLaid bs) (f : Bool) (n : Int) :
    bytesText o f n bs = bytesText o f n (joined bs) ↔ AllSmooth o bs := by
  induction bs generalizing f n with
  | nil => exact iff_of_true rfl trivial
  | cons b bs ih =>
      obtain ⟨ch, g⟩ := b
      obtain ⟨-, k, ks, rfl⟩ := hbs _ List.mem_cons_self
      have hrest : WellLaid bs := fun b hb => hbs b (List.mem_cons_of_mem _ hb)
      have hjoined : joined ((ch, k :: ks) :: bs) = (ch, [k + ks.sum]) :: joined bs := rfl
      rw [hjoined, bytesText, bytesText, List.append_right_inj, List.cons.injEq,
        gap_eq_iff hrest hrest.joined, AllSmooth, Smooth]
      generalize afterBlanks o (bumpIf (f && o.numbersText) n) (gapBlanks o (k :: ks)) = m
      by_cases hcut : o.numbersText = true ∧ k + ks.sum = 0 ∧ ks ≠ []
      · obtain ⟨hnum, hsum, hks⟩ := hcut
        have hfirst : decide (k :: ks ≠ [0]) = true := by simp [hks]
        have hsecond : decide ([k + ks.sum] ≠ [0]) = false := by simp [hsum]
        rw [hfirst, hsecond]
        cases bs with
        | nil => simp [bytesText, joined, AllSmooth]
        | cons b bs =>
            -- a number in the middle of a line makes it longer
            refine iff_of_false (fun h => ?_) (fun h => hks (h.1.2.2 hnum rfl hsum))
            have heq := congrArg lineLength h.2.2.2
            rw [bytesText_fresh hnum, lineLength_append (newline_notMem_numberIf true m)] at heq
            have hshort := @lineLength_joined o _ hrest false (m + 1) m
            have hpos : 0 < (numberIf true m).length := List.length_pos_iff.2 (numberText_ne_nil m)
            omega
      · have hsame : bytesText o (decide (k :: ks ≠ [0])) m bs =
            bytesText o (decide ([k + ks.sum] ≠ [0])) m bs := by
          cases hnum : o.numbersText with
          | false => exact bytesText_plain hnum _ _ _ _
          | true =>
              have hboth : decide (k :: ks ≠ [0]) = decide ([k + ks.sum] ≠ [0]) := by
                rw [decide_eq_decide]
                by_cases hks : ks = []
                · simp [hks]
                · have hpos : k + ks.sum ≠ 0 := fun hsum => hcut ⟨hnum, hsum, hks⟩
                  exact iff_of_true (by simp [hks]) (fun heq => hpos (List.cons.inj heq).1)
              rw [hboth]
        rw [hsame, ih hrest]
        have hthird : o.numbersText = true → bs.isEmpty = false → k + ks.sum = 0 → ks = [] := by
          intro hnum _ hsum
          by_contra hks
          exact hcut ⟨hnum, hsum, hks⟩
        constructor
        · rintro ⟨-, hends, hblank, hall⟩
          exact ⟨⟨hends, hblank, hthird⟩, hall⟩
        · rintro ⟨⟨hends, hblank, -⟩, hall⟩
          exact ⟨rfl, hends, hblank, hall⟩

/-- A list of files is printed as their concatenation if and only if it is seamless. -/
theorem catFiles_concat_iff (o : CatOptions) (n : Int) (files : List (List UInt8)) :
    catFiles o n files = catFiles o n [files.flatten] ↔ Seamless o files := by
  have hlaid := layout_wellLaid files
  rw [catFiles_layout, catFiles_layout, layout_flatten,
    blankText_append_eq_iff hlaid hlaid.joined (fun _ => rfl) (fun _ => rfl),
    bytesText_joined_iff hlaid, Seamless]
  refine and_congr ?_ Iff.rfl
  unfold topsLines
  cases o.skipBlanks with
  | false => simp
  | true =>
      have hparts : parts [(layout files).1.sum] = min (layout files).1.sum 1 := by
        by_cases hpos : 0 < (layout files).1.sum
        · simp [parts, hpos]
          omega
        · simp [parts, Nat.eq_zero_of_not_pos hpos]
      simp [hparts]

end

/-- `custom_cat -n` on the files `a` and `b` without newlines: two numbers in one line. -/
theorem number_inside_line :
    catFiles { showLineNumbers := true } 1 [[97], [98]] ≠
      catFiles { showLineNumbers := true } 1 [[[97], [98]].flatten] := by
  decide +kernel

/-- `custom_cat -s` on two files that end and begin with an empty line: both are printed. -/
example : catFiles { skipBlanks := true } 1 [[97, 10, 10], [10, 98]] = [97, 10, 10, 10, 98] := by
  decide +kernel

end G9OS.Tools
