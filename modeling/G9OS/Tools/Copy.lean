import G9OS.Lib.Files

/-! # What `custom_cp.c` and `custom_mv.c` share

Both programs find the path to write to in the same way, ask the same question before an
overwrite and copy with the same loop.
-/

namespace G9OS.Tools

open Lib

abbrev BUF_SIZE : Nat := 4096

abbrev slash : UInt8 := 47
abbrev dot : UInt8 := 46
abbrev lowerY : UInt8 := 121
abbrev upperY : UInt8 := 89

/-- `basename`, as `libgen.h` has it. -/
def basename (path : Pathname) : Pathname :=
  if path = [] then [dot]
  else
    let rest := path.reverse.dropWhile (· == slash)
    if rest = [] then [slash] else (rest.takeWhile (· != slash)).reverse

/-- What fits into `dest_path`. -/
def cut (path : Pathname) : Pathname := path.take (PATH_MAX - 1)

section
variable {S : Type} (names : Names S)

/-- `dest_path`, and whether it is found to be the source, whose status is `stSrc`. -/
def destination (d : Disk S) (stSrc : Stat) (src dest : Pathname) : Pathname × Bool :=
  match stat names d dest with
  | none => (cut dest, false)
  | some stDest =>
      if stDest.isDir then
        let destPath := cut (dest ++ slash :: basename src)
        match stat names d destPath with
        | none => (destPath, false)
        | some stDest => (destPath, stSrc.ino == stDest.ino)
      else (cut dest, stSrc.ino == stDest.ino)

def destPath (d : Disk S) (src dest : Pathname) : Pathname :=
  match stat names d dest with
  | none => cut dest
  | some st => if st.isDir then cut (dest ++ slash :: basename src) else cut dest

/-- The question of `-i` is asked and not answered by `y` or `Y`; the answer is `none` at the
end of the input. -/
def declines (d : Disk S) (interactive : Bool) (answer : Option UInt8) (path : Pathname) : Bool :=
  interactive && (stat names d path).isSome && answer != some lowerY && answer != some upperY

/-- `read` from position `pos`: at least one byte unless the file is at its end. -/
def readChunk (d : Disk S) (h : Handle) (pos : Nat) (r : Reply) : Option (List UInt8) :=
  match r, h with
  | .ok count, .file i =>
      some (((d.inode i).bytes.drop pos).take (max 1 (min count BUF_SIZE)))
  | _, _ => none

/-- `write` of `w` at position `pos`, which may be behind the end. -/
def writeAt (bytes : List UInt8) (pos : Nat) (w : List UInt8) : List UInt8 :=
  bytes.take pos ++ List.replicate (pos - bytes.length) 0 ++ w ++ bytes.drop (pos + w.length)

inductive CopyEnd
  | done
  | readError
  | writeError
deriving DecidableEq, Repr

/-- The two nested loops, one system call at a time: with nothing left of the buffer the outer
loop reads, otherwise the inner one writes. `none` if the replies end before the loops. -/
def copyLoop (h : Handle) (j : Nat) :
    List Reply → List UInt8 → Nat → Nat → Disk S → Option (CopyEnd × List Reply × Disk S)
  | [], _, _, _, _ => none
  | r :: rs, [], rpos, wpos, d =>
      match readChunk d h rpos r with
      | none => some (.readError, rs, d)
      | some [] => some (.done, rs, d)
      | some (b :: buf) => copyLoop h j rs (b :: buf) (rpos + (b :: buf).length) wpos d
  | .ok count :: rs, b :: buf, rpos, wpos, d =>
      let w := (b :: buf).take count
      copyLoop h j rs ((b :: buf).drop count) rpos (wpos + w.length)
        (d.setBytes j (writeAt (d.inode j).bytes wpos w))
  | _ :: rs, _ :: _, _, _, d => some (.writeError, rs, d)

end

/-! ## The path to write to -/

section
variable {S : Type} {names : Names S} {d d' : Disk S} {src dest : Pathname} {st : Stat} {i j : Nat}
  {rs rs' : List Reply} {e : CopyEnd}

theorem cut_short {p : Pathname} (h : p.length < PATH_MAX) : cut p = p :=
  List.take_of_length_le (by omega)

theorem destination_fst : (destination names d st src dest).1 = destPath names d src dest := by
  unfold destination destPath
  split
  · rfl
  · split
    · dsimp only
      split
      · rfl
      · rfl
    · rfl

theorem destination_snd (hdest : dest.length < PATH_MAX)
    (h : fileAt names d (destPath names d src dest) = some st.ino) :
    (destination names d st src dest).2 = true := by
  have hstat := stat_of_fileAt h
  unfold destPath at hstat
  unfold destination
  cases hs : stat names d dest with
  | none =>
      rw [hs, cut_short hdest] at hstat
      rw [hs] at hstat
      cases hstat
  | some stDest =>
      rw [hs] at hstat
      dsimp only at hstat ⊢
      by_cases hdir : stDest.isDir = true
      · rw [if_pos hdir] at hstat
        rw [if_pos hdir, hstat]
        exact beq_self_eq_true _
      · rw [if_neg hdir, cut_short hdest, hs] at hstat
        cases hstat
        rw [if_neg hdir]
        exact beq_self_eq_true _

theorem destination_found (h : (destination names d st src dest).2 = true) :
    dest.length < PATH_MAX ∧
      ∃ st', stat names d (destPath names d src dest) = some st' ∧ st'.ino = st.ino := by
  have hlen : dest.length < PATH_MAX := by
    by_contra hlong
    rw [destination, stat_tooLong (not_lt.1 hlong)] at h
    cases h
  refine ⟨hlen, ?_⟩
  unfold destination at h
  unfold destPath
  cases hs : stat names d dest with
  | none =>
      rw [hs] at h
      cases h
  | some stDest =>
      rw [hs] at h
      dsimp only at h ⊢
      by_cases hdir : stDest.isDir = true
      · rw [if_pos hdir] at h ⊢
        split at h
        · cases h
        · rename_i st' hst'
          exact ⟨st', hst', (beq_iff_eq.1 h).symm⟩
      · rw [if_neg hdir] at h ⊢
        rw [cut_short hlen]
        exact ⟨stDest, hs, (beq_iff_eq.1 h).symm⟩

/-! ## The copy loop -/

theorem writeAt_length (bytes w : List UInt8) : writeAt bytes bytes.length w = bytes ++ w := by
  simp [writeAt]

theorem setBytes_setBytes (b c : List UInt8) : (d.setBytes j b).setBytes j c = d.setBytes j c := by
  simp [Disk.setBytes]

theorem setBytes_self : d.setBytes j (d.inode j).bytes = d := by
  simp [Disk.setBytes]

@[simp] theorem inode_setBytes (b : List UInt8) (k : Nat) :
    (d.setBytes j b).inode k = if k = j then ⟨b, (d.inode j).perm⟩ else d.inode k :=
  Function.update_apply ..

/-- From one file to another, the loop appends to the second; when it is done, it has appended
the buffer and what was left to read. -/
theorem copyLoop_spec {buf : List UInt8} {rpos wpos : Nat} (hij : i ≠ j)
    (hw : wpos = (d.inode j).bytes.length)
    (h : copyLoop (.file i) j rs buf rpos wpos d = some (e, rs', d')) :
    ∃ w, d' = d.setBytes j ((d.inode j).bytes ++ w) ∧
      (e = .done → w = buf ++ (d.inode i).bytes.drop rpos) := by
  induction rs generalizing buf rpos wpos d with
  | nil => cases h
  | cons r rs ih =>
      cases buf with
      | nil =>
          rw [copyLoop] at h
          split at h
          · cases h
            exact ⟨[], by rw [List.append_nil, setBytes_self], fun he => by cases he⟩
          · rename_i hread
            cases h
            refine ⟨[], by rw [List.append_nil, setBytes_self], fun _ => ?_⟩
            cases r with
            | ok count =>
                have hend := List.take_eq_nil_iff.1 (Option.some.inj hread)
                rcases hend with hzero | hnil
                · omega
                · rw [hnil]
                  rfl
            | exdev => cases hread
            | fail => cases hread
          · rename_i b buf hread
            obtain ⟨w, hd, hdone⟩ := ih hw h
            refine ⟨w, hd, fun he => ?_⟩
            rw [hdone he]
            cases r with
            | ok count =>
                -- the chunk and what lies behind it
                have hchunk := Option.some.inj hread
                rw [List.nil_append, ← List.drop_drop, ← hchunk]
                conv_rhs =>
                  rw [← List.take_append_drop (max 1 (min count BUF_SIZE))
                    ((d.inode i).bytes.drop rpos)]
                congr 1
                rw [List.length_take, ← List.drop_eq_drop_min]
            | exdev => cases hread
            | fail => cases hread
      | cons b buf =>
          cases r with
          | ok count =>
              rw [copyLoop, hw, writeAt_length] at h
              obtain ⟨w, hd, hdone⟩ := ih (by simp) h
              refine ⟨(b :: buf).take count ++ w, ?_, fun he => ?_⟩
              · rw [hd, setBytes_setBytes]
                simp
              · rw [hdone he, inode_setBytes, if_neg hij, ← List.append_assoc,
                  List.take_append_drop]
          | exdev =>
              cases h
              exact ⟨[], by rw [List.append_nil, setBytes_self], fun he => by cases he⟩
          | fail =>
              cases h
              exact ⟨[], by rw [List.append_nil, setBytes_self], fun he => by cases he⟩

/-- Nothing is read from an empty file, and nothing from a directory. -/
theorem copyLoop_nothing {h : Handle} (hh : ∀ i, h = .file i → (d.inode i).bytes = [])
    (hrun : copyLoop h j rs [] 0 0 d = some (e, rs', d')) : d' = d := by
  cases rs with
  | nil => cases hrun
  | cons r rs =>
      rw [copyLoop] at hrun
      split at hrun
      · cases hrun
        rfl
      · cases hrun
        rfl
      · rename_i b buf hread
        unfold readChunk at hread
        split at hread
        · rw [hh _ rfl] at hread
          simp at hread
        · cases hread

theorem copyLoop_suffix {h : Handle} {buf : List UInt8} {rpos wpos : Nat}
    (hrun : copyLoop h j rs buf rpos wpos d = some (e, rs', d')) : rs' <:+ rs := by
  induction rs generalizing buf rpos wpos d with
  | nil => cases hrun
  | cons r rs ih =>
      have htail : rs <:+ r :: rs := List.suffix_cons r rs
      cases buf with
      | nil =>
          rw [copyLoop] at hrun
          split at hrun
          · cases hrun
            exact htail
          · cases hrun
            exact htail
          · exact (ih hrun).trans htail
      | cons b buf =>
          cases r with
          | ok count =>
              rw [copyLoop] at hrun
              exact (ih hrun).trans htail
          | exdev =>
              cases hrun
              exact htail
          | fail =>
              cases hrun
              exact htail

theorem copyLoop_fine {buf : List UInt8} {rpos wpos : Nat} (hok : ∀ r ∈ rs, r.isOk = true)
    (h : copyLoop (.file i) j rs buf rpos wpos d = some (e, rs', d')) : e = .done := by
  induction rs generalizing buf rpos wpos d with
  | nil => cases h
  | cons r rs ih =>
      have hrest : ∀ r ∈ rs, r.isOk = true := fun x hx => hok x (List.mem_cons_of_mem _ hx)
      cases r with
      | ok count =>
          cases buf with
          | nil =>
              rw [copyLoop] at h
              split at h
              · rename_i hread
                cases hread
              · cases h
                rfl
              · exact ih hrest h
          | cons b buf => exact ih hrest h
      | exdev => cases hok _ List.mem_cons_self
      | fail => cases hok _ List.mem_cons_self

/-! ## From the opened destination to the end of the loop -/

variable [DecidableEq S] {s t : S} {f : Inode} {p : Pathname}

/-- What is made of the file `i`: in slot `t` a new file with the permission bits of `i` as the
`umask` leaves them, or the file that was there. It holds nothing if it is `i` itself, and the
bytes of `i` if it is another one and the copy is complete. -/
structure Copied (d : Disk S) (i : Nat) (t : S) (j : Nat) (f : Inode) (e : CopyEnd) (d' : Disk S) :
    Prop where
  wrote : Wrote d t j f d'
  opened : d.entry t = none ∧ j = d.next ∧ f.perm = (d.inode i).perm &&& ~~~ d.umask ∨
    d.entry t = some (.file j) ∧ f.perm = (d.inode j).perm
  itself : j = i → f.bytes = []
  other : e = .done → j ≠ i → f.bytes = (d.inode i).bytes

theorem copied_of_copyLoop {d1 : Disk S}
    (hopen : openTrunc names d p (d.inode i).perm = some (j, d1))
    (hloop : copyLoop (.file i) j rs [] 0 0 d1 = some (e, rs', d')) :
    ∃ t f, lead names d p = some t ∧ Copied d i t j f e d' := by
  obtain ⟨t, ht, hwrote⟩ := openTrunc_spec hopen
  obtain ⟨perm, hwrote, hopened⟩ : ∃ perm, Wrote d t j ⟨[], perm⟩ d1 ∧
      (d.entry t = none ∧ j = d.next ∧ perm = (d.inode i).perm &&& ~~~ d.umask ∨
        d.entry t = some (.file j) ∧ perm = (d.inode j).perm) := by
    rcases hwrote with ⟨hnone, hnext, hw⟩ | ⟨hfile, hw⟩
    · exact ⟨_, hw, .inl ⟨hnone, hnext, rfl⟩⟩
    · exact ⟨_, hw, .inr ⟨hfile, rfl⟩⟩
  have hempty : (d1.inode j).bytes = [] := by rw [hwrote.inode_eq, if_pos rfl]
  by_cases hij : i = j
  · subst hij
    have hsame : d' = d1 := copyLoop_nothing (fun k hk => by cases hk; exact hempty) hloop
    subst hsame
    exact ⟨t, _, ht, hwrote, hopened, fun _ => rfl, fun _ hne => absurd rfl hne⟩
  · obtain ⟨w, rfl, hw⟩ := copyLoop_spec hij (by rw [hempty]; rfl) hloop
    rw [hempty, List.nil_append]
    refine ⟨t, ⟨w, perm⟩, ht, hwrote.setBytes w, hopened, fun he => absurd he.symm hij, ?_⟩
    intro he _
    rw [hw he, hwrote.inode_eq, if_neg hij]
    rfl

theorem Copied.was_file (h : Copied d i t j f e d') {x : Entry} (hx : d.entry t = some x) :
    x = .file j := by
  rcases h.opened with ⟨hnone, -, -⟩ | ⟨hfile, -⟩
  · rw [hx] at hnone
    cases hnone
  · exact Option.some.inj (hx.symm.trans hfile)

theorem Copied.ne_slot (h : Copied d i t j f e d') (hi : d.entry s = some (.file i))
    (hj : j ≠ i) : s ≠ t := by
  rintro rfl
  cases h.was_file hi
  exact hj rfl

theorem Copied.itself_entry (h : Copied d i t j f e d') (hi : d.entry s = some (.file i))
    (hj : j = i) : d.entry t = some (.file i) := by
  subst hj
  rcases h.opened with ⟨-, hnext, -⟩ | ⟨hfile, -⟩
  · exact absurd (d.used s j hi) (by omega)
  · exact hfile

end

/-! ## A small disk -/

def threeNames : Names (Fin 3) where
  slot := fun p => if p = [97] then some 0 else if p = [98] then some 1
    else if p = [99] then some 2 else none
  target := fun _ text => if text = [99] then some 2 else none
  tooLong := fun p h => by
    have hlen : 4096 ≤ p.length := h
    have hne : ∀ b : UInt8, p ≠ [b] := by
      rintro b rfl
      rw [List.length_singleton] at hlen
      omega
    rw [if_neg (hne 97), if_neg (hne 98), if_neg (hne 99)]

/-- `a` is a file, `b` is a link to `c`, and `c` does not exist. -/
def danglingDisk : Disk (Fin 3) where
  entry := ![some (.file 0), some (.link [99]), none]
  inode := fun _ => ⟨[104, 105], 0o644⟩
  next := 1
  umask := 0o022
  used := fun s i h => by
    fin_cases s
    · cases h
      exact Nat.one_pos
    · cases h
    · cases h

end G9OS.Tools
