import G9OS.Tools.Copy

/-! # `custom_cp.c` -/

namespace G9OS.Tools

open Lib

inductive CpEnd
  | sourceStatFailed
  | sameFile
  | declined
  | sourceOpenFailed
  | destOpenFailed
  | writeError
  | readError
  | copied
deriving DecidableEq, Repr

/-- What it writes to `stderr`, less the names of the files and of the error. -/
def CpEnd.message : CpEnd → Option String
  | .sourceStatFailed => some "custom_cp: Source stat failed"
  | .sameFile => some "custom_cp: are the same file"
  | .sourceOpenFailed => some "custom_cp: Source open failed"
  | .destOpenFailed => some "custom_cp: Destination open failed"
  | .writeError => some "custom_cp: Write error"
  | .readError => some "custom_cp: Read error"
  | .declined => none
  | .copied => none

def CopyEnd.cpEnd : CopyEnd → CpEnd
  | .done => .copied
  | .readError => .readError
  | .writeError => .writeError

section
variable {S : Type} [DecidableEq S] (names : Names S)

def copyFile (interactive : Bool) (answer : Option UInt8) (src dest : Pathname)
    (rs : List Reply) (d : Disk S) : Option (CpEnd × List Reply × Disk S) :=
  match stat names d src with
  | none => some (.sourceStatFailed, rs, d)
  | some stSrc =>
      let (path, same) := destination names d stSrc src dest
      if same then some (.sameFile, rs, d)
      else if declines names d interactive answer path then some (.declined, rs, d)
      else
        match rs with
        | [] => none
        | r :: rs =>
            match r.gives (openRead names d src) with
            | none => some (.sourceOpenFailed, rs, d)
            | some srcfd =>
                match rs with
                | [] => none
                | r :: rs =>
                    match r.gives (openTrunc names d path stSrc.perm) with
                    | none => some (.destOpenFailed, rs, d)
                    | some (destfd, d) =>
                        (copyLoop srcfd destfd rs [] 0 0 d).map fun x => (x.1.cpEnd, x.2)

end

section
variable {S : Type} [DecidableEq S] {names : Names S} {d d' : Disk S} {src dest : Pathname}
  {rs rs' : List Reply} {interactive : Bool} {answer : Option UInt8} {e : CpEnd}

inductive CopyExit (names : Names S) (d : Disk S) (src dest : Pathname) (interactive : Bool)
    (answer : Option UInt8) : List Reply → CpEnd → List Reply → Disk S → Prop
  | noSource {rs : List Reply} (hst : stat names d src = none) :
      CopyExit names d src dest interactive answer rs .sourceStatFailed rs d
  | same {rs : List Reply} {st : Stat} (hst : stat names d src = some st)
      (hsame : (destination names d st src dest).2 = true) :
      CopyExit names d src dest interactive answer rs .sameFile rs d
  | declined {rs : List Reply} {st : Stat} (hst : stat names d src = some st)
      (hsame : (destination names d st src dest).2 = false)
      (hno : declines names d interactive answer (destPath names d src dest) = true) :
      CopyExit names d src dest interactive answer rs .declined rs d
  | noRead {r : Reply} {rs : List Reply} {st : Stat} (hst : stat names d src = some st)
      (hsame : (destination names d st src dest).2 = false)
      (hopen : r.gives (openRead names d src) = none) :
      CopyExit names d src dest interactive answer (r :: rs) .sourceOpenFailed rs d
  | noWrite {r1 r2 : Reply} {rs : List Reply} {st : Stat} (hst : stat names d src = some st)
      (hsame : (destination names d st src dest).2 = false)
      (hopen : r2.gives (openTrunc names d (destPath names d src dest) st.perm) = none) :
      CopyExit names d src dest interactive answer (r1 :: r2 :: rs) .destOpenFailed rs d
  | looped {r1 r2 : Reply} {rs rs' : List Reply} {st : Stat} {srcfd : Handle} {destfd : Nat}
      {d1 d' : Disk S} {e : CopyEnd} (hst : stat names d src = some st)
      (hsame : (destination names d st src dest).2 = false)
      (hread : openRead names d src = some srcfd)
      (hwrite : openTrunc names d (destPath names d src dest) st.perm = some (destfd, d1))
      (hloop : copyLoop srcfd destfd rs [] 0 0 d1 = some (e, rs', d')) :
      CopyExit names d src dest interactive answer (r1 :: r2 :: rs) e.cpEnd rs' d'

theorem copyFile_exit
    (h : copyFile names interactive answer src dest rs d = some (e, rs', d')) :
    CopyExit names d src dest interactive answer rs e rs' d' := by
  unfold copyFile at h
  split at h
  · rename_i hst
    cases h
    exact .noSource hst
  · rename_i st hst
    dsimp only at h
    rw [destination_fst] at h
    split at h
    · rename_i hsame
      cases h
      exact .same hst hsame
    · rename_i hsame
      rw [Bool.not_eq_true] at hsame
      split at h
      · rename_i hno
        cases h
        exact .declined hst hsame hno
      · split at h
        · cases h
        · split at h
          · rename_i hopen
            cases h
            exact .noRead hst hsame hopen
          · rename_i srcfd hread
            split at h
            · cases h
            · split at h
              · rename_i hopen
                cases h
                exact .noWrite hst hsame hopen
              · rename_i destfd d1 hwrite
                obtain ⟨⟨e1, rs1, d2⟩, hloop, heq⟩ := Option.map_eq_some_iff.1 h
                cases heq
                exact .looped hst hsame (Reply.gives_some hread) (Reply.gives_some hwrite) hloop

end

/-! ## The copy loop under any chunking -/

/-- Calls of `write` that take `n` bytes: each accepts at least one, and at most what is left. -/
inductive Accepts : List Reply → Nat → Prop
  | done : Accepts [] 0
  | piece {w n : Nat} {rs : List Reply} (hpos : 1 ≤ w) (hle : w ≤ n) (hrest : Accepts rs (n - w)) :
      Accepts (.ok w :: rs) n

/-- Calls of `read` that split `n` bytes into chunks, the calls of `write` for each chunk behind
it, and a last `read` that finds the end. -/
inductive Splits : List Reply → Nat → Prop
  | eof {count : Nat} : Splits [.ok count] 0
  | chunk {k n : Nat} {ws rs : List Reply} (hpos : 1 ≤ k) (hbuf : k ≤ BUF_SIZE) (hle : k ≤ n)
      (hwrites : Accepts ws k) (hrest : Splits rs (n - k)) : Splits (.ok k :: (ws ++ rs)) n

section
variable {S : Type} {d : Disk S} {i j : Nat} {h : Handle} {rs ws : List Reply}

theorem copyLoop_accepts {n rpos wpos : Nat} {buf : List UInt8} (ha : Accepts ws n)
    (hn : buf.length = n) (hw : wpos = (d.inode j).bytes.length) :
    copyLoop h j (ws ++ rs) buf rpos wpos d =
      copyLoop h j rs [] rpos (wpos + n) (d.setBytes j ((d.inode j).bytes ++ buf)) := by
  induction ha generalizing buf wpos d with
  | done =>
      rw [List.length_eq_zero_iff.1 hn, List.append_nil, setBytes_self]
      rfl
  | @piece w n ws hpos hle _ ih =>
      cases buf with
      | nil =>
          rw [List.length_nil] at hn
          omega
      | cons b buf =>
          have htake : ((b :: buf).take w).length = w := by
            rw [List.length_take, hn]
            omega
          have hdrop : ((b :: buf).drop w).length = n - w := by rw [List.length_drop, hn]
          rw [List.cons_append, copyLoop, hw, writeAt_length, htake,
            ih hdrop (by simp [htake]), setBytes_setBytes]
          rw [inode_setBytes, if_pos rfl, List.append_assoc, List.take_append_drop]
          congr 1
          omega

theorem copyLoop_splits {n rpos wpos : Nat} (hij : i ≠ j) (hs : Splits rs n)
    (hn : n = (d.inode i).bytes.length - rpos) (hw : wpos = (d.inode j).bytes.length) :
    copyLoop (.file i) j rs [] rpos wpos d =
      some (.done, [], d.setBytes j ((d.inode j).bytes ++ (d.inode i).bytes.drop rpos)) := by
  induction hs generalizing rpos wpos d with
  | eof =>
      have hend : (d.inode i).bytes.drop rpos = [] := List.drop_eq_nil_iff.2 (by omega)
      simp only [copyLoop, readChunk, hend, List.take_nil, List.append_nil, setBytes_self]
  | @chunk k n ws rs hpos hbuf hle hwrites _ ih =>
      -- the call returns exactly `k` bytes
      have hk : max 1 (min k BUF_SIZE) = k := by omega
      have hlen : (((d.inode i).bytes.drop rpos).take k).length = k := by
        rw [List.length_take, List.length_drop]
        omega
      have hread : readChunk d (.file i) rpos (.ok k) =
          some (((d.inode i).bytes.drop rpos).take k) := by rw [readChunk, hk]
      rw [copyLoop, hread]
      cases hc : ((d.inode i).bytes.drop rpos).take k with
      | nil =>
          rw [hc, List.length_nil] at hlen
          omega
      | cons b buf =>
          rw [hc] at hlen
          dsimp only
          rw [copyLoop_accepts hwrites hlen hw, hlen]
          have hsrc : ((d.setBytes j ((d.inode j).bytes ++ b :: buf)).inode i).bytes =
              (d.inode i).bytes := by rw [inode_setBytes, if_neg hij]
          rw [ih (by rw [hsrc]; omega) (by simp [hw, hlen]), hsrc, setBytes_setBytes,
            inode_setBytes, if_pos rfl, List.append_assoc, ← hc, ← List.drop_drop,
            List.take_append_drop]

end

section
variable {S : Type} [DecidableEq S]

/-- Whatever the chunks that `read` returns and the pieces that `write` takes, `copy_file` ends
and leaves the source's bytes in the destination. The source is opened before the destination
is emptied, and `read` is to find what it held. -/
theorem copyFile_exact (names : Names S) (d d1 : Disk S) (src dest : Pathname)
    (interactive : Bool) (answer : Option UInt8) (i j : Nat) (r1 r2 : Nat) (rs : List Reply)
    (hfile : fileAt names d src = some i)
    (hother : (destination names d ⟨false, i, (d.inode i).perm⟩ src dest).2 = false)
    (hyes : declines names d interactive answer (destPath names d src dest) = false)
    (hopen : openTrunc names d (destPath names d src dest) (d.inode i).perm = some (j, d1))
    (hsource : (d1.inode i).bytes = (d.inode i).bytes)
    (hsplits : Splits rs (d.inode i).bytes.length) :
    ∃ d', copyFile names interactive answer src dest (.ok r1 :: .ok r2 :: rs) d =
        some (.copied, [], d') ∧
      contents names d' (destPath names d src dest) = contents names d src ∧
      contents names d src = some (d.inode i).bytes := by
  have hbytes : contents names d src = some (d.inode i).bytes :=
    contents_eq_some.2 ⟨i, hfile, rfl⟩
  obtain ⟨t, ht, hwrote⟩ := openTrunc_spec hopen
  obtain ⟨perm, hwrote⟩ : ∃ perm, Wrote d t j ⟨[], perm⟩ d1 := by
    rcases hwrote with ⟨-, -, hw⟩ | ⟨-, hw⟩
    · exact ⟨_, hw⟩
    · exact ⟨_, hw⟩
  have hempty : (d1.inode j).bytes = [] := by rw [hwrote.inode_eq, if_pos rfl]
  have hrun : copyFile names interactive answer src dest (.ok r1 :: .ok r2 :: rs) d =
      (copyLoop (.file i) j rs [] 0 0 d1).map fun x => (x.1.cpEnd, x.2) := by
    unfold copyFile
    rw [stat_of_fileAt hfile]
    dsimp only
    rw [hother, destination_fst, hyes, if_neg Bool.false_ne_true, if_neg Bool.false_ne_true,
      Reply.gives, openRead_of_fileAt hfile]
    dsimp only
    rw [Reply.gives, hopen]
  have hloop : copyLoop (.file i) j rs [] 0 0 d1 =
      some (.done, [], d1.setBytes j (d.inode i).bytes) := by
    by_cases hij : i = j
    · -- the source itself was emptied, so it was empty before
      subst hij
      rw [hempty] at hsource
      rw [← hsource] at hsplits ⊢
      rw [← hempty, setBytes_self]
      cases hsplits with
      | eof => simp [copyLoop, readChunk, hempty]
      | chunk hpos _ hle _ _ =>
          rw [List.length_nil] at hle
          omega
    · rw [copyLoop_splits hij hsplits (by rw [hsource]; rfl) (by rw [hempty]; rfl), hempty,
        hsource, List.nil_append, List.drop_zero]
  refine ⟨d1.setBytes j (d.inode i).bytes, ?_, ?_, hbytes⟩
  · rw [hrun, hloop]
    rfl
  · rw [hbytes]
    exact (hwrote.setBytes _).contents ht

end

/-- `a` copied to `c`, a byte at a time. -/
theorem copyFile_exact_bytewise :
    ∃ d', copyFile threeNames false none [97] [99]
        [.ok 0, .ok 0, .ok 1, .ok 1, .ok 1, .ok 1, .ok 0] danglingDisk = some (.copied, [], d') ∧
      contents threeNames d' [99] = some [104, 105] := by
  have hsplits : Splits [.ok 1, .ok 1, .ok 1, .ok 1, .ok 0] 2 := by
    have hone : Accepts [.ok 1] 1 := .piece (by decide) (by decide) .done
    exact .chunk (by decide) (by decide) (by decide) hone
      (.chunk (by decide) (by decide) (by decide) hone .eof)
  obtain ⟨d', hrun, hsame, hbytes⟩ := copyFile_exact threeNames danglingDisk
    (danglingDisk.create 2 0o644) [97] [99] false none 0 1 0 0 _ rfl rfl rfl rfl rfl hsplits
  exact ⟨d', hrun, hsame.trans hbytes⟩

end G9OS.Tools
