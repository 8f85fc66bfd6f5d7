import G9OS.Tools.Cp
import G9OS.Tools.Mv

/-! # The exit status of `custom_cp` and `custom_mv`

Both programs end with status 0 once they have their two arguments, whatever `copy_file` and
`move_file` came to.
-/

namespace G9OS.Tools

open Lib

abbrev EXIT_FAILURE : Nat := 1

section
variable {S : Type}

/-- Both `main` functions. The options are `none` if `getopt` meets one it does not know,
otherwise whether `-i` is among them; `-v` only prints. -/
def mainWith {ε : Type} (run : Bool → Pathname → Pathname → Option (ε × List Reply × Disk S))
    (options : Option Bool) (args : List Pathname) (d : Disk S) :
    Option (Nat × Option ε × Disk S) :=
  match options, args with
  | some interactive, [src, dest] =>
      (run interactive src dest).map fun x => (0, some x.1, x.2.2)
  | _, _ => some (EXIT_FAILURE, none, d)

variable [DecidableEq S] (names : Names S)

def cpMain (options : Option Bool) (args : List Pathname) (answer : Option UInt8)
    (rs : List Reply) (d : Disk S) : Option (Nat × Option CpEnd × Disk S) :=
  mainWith (fun interactive src dest => copyFile names interactive answer src dest rs d)
    options args d

def mvMain (options : Option Bool) (args : List Pathname) (answer : Option UInt8)
    (rs : List Reply) (d : Disk S) : Option (Nat × Option MvEnd × Disk S) :=
  mainWith (fun interactive src dest => moveFile names interactive answer src dest rs d)
    options args d

/-! ## What status 0 should say -/

/-- The destination holds the source's bytes. -/
def CpDone (d : Disk S) (src dest : Pathname) (d' : Disk S) : Prop :=
  contents names d src ≠ none ∧
    contents names d' (destPath names d src dest) = contents names d src

/-- The destination holds the source's former bytes, and the source's entry is gone. -/
def MvDone (d : Disk S) (src dest : Pathname) (d' : Disk S) : Prop :=
  contents names d src ≠ none ∧
    contents names d' (destPath names d src dest) = contents names d src ∧
    (names.slot src).bind d'.entry = none

def AllOk (rs : List Reply) : Prop := ∀ r ∈ rs, r.isOk = true

/-- No call fails but the `rename`, which is between two file systems. -/
def Across : List Reply → Prop
  | .exdev :: rs => AllOk rs
  | _ => False

/-- Status 0 of `custom_cp` is truthful in every run without a failing call, a declined
overwrite apart. -/
def CpTruthful (d : Disk S) (src dest : Pathname) : Prop :=
  ∀ interactive answer rs e d', AllOk rs →
    cpMain names (some interactive) [src, dest] answer rs d = some (0, some e, d') →
    e ≠ .declined → CpDone names d src dest d'

/-- The same of `custom_mv`, in runs of one kind. -/
def MvTruthful (kind : List Reply → Prop) (d : Disk S) (src dest : Pathname) : Prop :=
  ∀ interactive answer rs e d', kind rs →
    mvMain names (some interactive) [src, dest] answer rs d = some (0, some e, d') →
    e ≠ .declined → MvDone names d src dest d'

/-! ## When it says so -/

/-- A path can be opened for writing: it leads to a file, or to where one can be made. -/
def Writable (d : Disk S) (p : Pathname) : Prop :=
  ∃ t, lead names d p = some t ∧ (d.entry t = none ∨ ∃ j, d.entry t = some (.file j))

/-- The source is a file, the destination can be written, and it is not an overlong name that
leads back to the source's bytes. -/
def CpReady (d : Disk S) (src dest : Pathname) : Prop :=
  ∃ i, fileAt names d src = some i ∧ Writable names d (destPath names d src dest) ∧
    (PATH_MAX ≤ dest.length → fileAt names d (destPath names d src dest) = some i →
      (d.inode i).bytes = [])

/-- The source is a file and is not found to be the destination, which is another entry and no
directory. A source that is itself a symbolic link still leads to its bytes from its new place. -/
def RenameReady (d : Disk S) (src dest : Pathname) : Prop :=
  ∃ i s t, fileAt names d src = some i ∧ names.slot src = some s ∧
    names.slot (destPath names d src dest) = some t ∧
    (destination names d ⟨false, i, (d.inode i).perm⟩ src dest).2 = false ∧
    (∀ k, d.entry t ≠ some (.dir k)) ∧ sameEntry d s t = false ∧
    ∀ text, d.entry s = some (.link text) →
      contents names (d.move s t) (destPath names d src dest) = contents names d src

/-- The source is a file and is not found to be the destination, which can be written. If it leads
to the source's file all the same, this is empty and has another entry. -/
def CrossReady (d : Disk S) (src dest : Pathname) : Prop :=
  ∃ i s, fileAt names d src = some i ∧ names.slot src = some s ∧
    (destination names d ⟨false, i, (d.inode i).perm⟩ src dest).2 = false ∧
    Writable names d (destPath names d src dest) ∧
    (fileAt names d (destPath names d src dest) = some i → (d.inode i).bytes = [] ∧
      fileAt names (d.remove s) (destPath names d src dest) = some i)

end

section
variable {S : Type} [DecidableEq S] {names : Names S} {d d' : Disk S} {src dest p : Pathname}
  {rs : List Reply} {i : Nat}

omit [DecidableEq S] in
theorem mainWith_eq {ε : Type} {run : Bool → Pathname → Pathname → Option (ε × List Reply × Disk S)}
    {interactive : Bool} {e : ε} :
    mainWith run (some interactive) [src, dest] d = some (0, some e, d') ↔
      ∃ rs', run interactive src dest = some (e, rs', d') := by
  show (run interactive src dest).map _ = _ ↔ _
  rw [Option.map_eq_some_iff]
  constructor
  · rintro ⟨⟨e', rs', d2⟩, hrun, heq⟩
    cases heq
    exact ⟨rs', hrun⟩
  · rintro ⟨rs', hrun⟩
    exact ⟨_, hrun, rfl⟩

theorem openTrunc_writable {perm : BitVec 9} :
    (∃ x, openTrunc names d p perm = some x) ↔ Writable names d p := by
  unfold openTrunc Writable
  cases lead names d p with
  | none => simp
  | some t =>
      cases he : d.entry t with
      | none => simp [he]
      | some e => cases e <;> simp [he]

omit [DecidableEq S] in
theorem writable_of_fileAt (h : fileAt names d p = some i) : Writable names d p := by
  obtain ⟨t, ht, he⟩ := fileAt_eq_some.1 h
  exact ⟨t, ht, .inr ⟨i, he⟩⟩

omit [DecidableEq S] in
theorem fileAt_of_contents (h : contents names d p ≠ none) : ∃ i, fileAt names d p = some i := by
  obtain ⟨b, hb⟩ := Option.ne_none_iff_exists'.1 h
  obtain ⟨i, hi, -⟩ := contents_eq_some.1 hb
  exact ⟨i, hi⟩

omit [DecidableEq S] in
theorem contents_of_fileAt (h : fileAt names d p = some i) :
    contents names d p = some (d.inode i).bytes :=
  contents_eq_some.2 ⟨i, h, rfl⟩

omit [DecidableEq S] in
theorem Writable.fileAt_of_stat {st : Stat} (hw : Writable names d p)
    (hst : stat names d p = some st) : fileAt names d p = some st.ino := by
  obtain ⟨t, ht, he⟩ := hw
  rw [stat, ht, Option.bind_some] at hst
  rcases he with hnone | ⟨j, hj⟩
  · rw [hnone] at hst
    cases hst
  · rw [hj] at hst
    cases hst
    exact fileAt_eq_some.2 ⟨t, ht, hj⟩

omit [DecidableEq S] in
theorem openRead_dir {st : Stat} (hst : stat names d p = some st) (h : fileAt names d p = none) :
    openRead names d p = some .dir := by
  unfold fileAt at h
  unfold stat at hst
  unfold openRead
  split at h
  · cases h
  · rename_i hne
    split at hst
    · rename_i i he
      exact absurd he (hne i)
    · rfl
    · cases hst

/-! ## `custom_cp` -/

/-- Some run without a failing call comes to an end if the source is no file. -/
theorem copyFile_noFile (h : fileAt names d src = none) (dest : Pathname) :
    ∃ rs e rs' d', AllOk rs ∧ e ≠ .declined ∧
      copyFile names false none src dest rs d = some (e, rs', d') := by
  cases hst : stat names d src with
  | none => exact ⟨[], .sourceStatFailed, [], d, by simp [AllOk], by simp, by simp [copyFile, hst]⟩
  | some st =>
      have hread := openRead_dir hst h
      cases hsame : (destination names d st src dest).2 with
      | true =>
          exact ⟨[], .sameFile, [], d, by simp [AllOk], by simp, by simp [copyFile, hst, hsame]⟩
      | false =>
          cases hopen : openTrunc names d (destPath names d src dest) st.perm with
          | none =>
              refine ⟨[.ok 0, .ok 0], .destOpenFailed, [], d, by simp [AllOk, Reply.isOk],
                by simp, ?_⟩
              simp [copyFile, hst, hsame, declines, Reply.gives, hread, destination_fst, hopen]
          | some x =>
              refine ⟨[.ok 0, .ok 0, .ok 0], .readError, [], x.2, by simp [AllOk, Reply.isOk],
                by simp, ?_⟩
              simp [copyFile, hst, hsame, declines, Reply.gives, hread, destination_fst, hopen,
                copyLoop, readChunk, CopyEnd.cpEnd]

theorem CpTruthful.ready (h : CpTruthful names d src dest) : CpReady names d src dest := by
  have hrun : ∀ rs e rs' d', copyFile names false none src dest rs d = some (e, rs', d') →
      AllOk rs → e ≠ .declined → CpDone names d src dest d' := fun rs e rs' d' hr hok he =>
    h false none rs e d' hok (mainWith_eq.2 ⟨rs', hr⟩) he
  obtain ⟨i, hi⟩ : ∃ i, fileAt names d src = some i := by
    by_contra hno
    obtain ⟨rs, e, rs', d', hok, he, hr⟩ :=
      copyFile_noFile (Option.eq_none_iff_forall_ne_some.2 fun i hi => hno ⟨i, hi⟩) dest
    exact hno (fileAt_of_contents (hrun rs e rs' d' hr hok he).1)
  have hst := stat_of_fileAt hi
  have hread := openRead_of_fileAt hi
  refine ⟨i, hi, ?_⟩
  cases hsame : (destination names d ⟨false, i, (d.inode i).perm⟩ src dest).2 with
  | true =>
      have hdone : CpDone names d src dest d :=
        hrun [] .sameFile [] d (by simp [copyFile, hst, hsame]) (by simp [AllOk]) (by simp)
      obtain ⟨j, hj⟩ := fileAt_of_contents (hdone.2 ▸ hdone.1)
      exact ⟨writable_of_fileAt hj, fun hlong => absurd (destination_found hsame).1 hlong.not_gt⟩
  | false =>
      cases hopen : openTrunc names d (destPath names d src dest) (d.inode i).perm with
      | none =>
          have hdone : CpDone names d src dest d := by
            refine hrun [.ok 0, .ok 0] .destOpenFailed [] d ?_ (by simp [AllOk, Reply.isOk])
              (by simp)
            simp [copyFile, hst, hsame, declines, Reply.gives, hread, destination_fst, hopen]
          obtain ⟨j, hj⟩ := fileAt_of_contents (hdone.2 ▸ hdone.1)
          obtain ⟨x, hx⟩ := openTrunc_writable.2 (writable_of_fileAt hj)
          rw [hopen] at hx
          cases hx
      | some x =>
          refine ⟨openTrunc_writable.1 ⟨x, hopen⟩, fun hlong hback => ?_⟩
          -- the source is truncated, so that there is nothing to read
          obtain ⟨t, ht, he⟩ := fileAt_eq_some.1 hback
          have hx : x = (i, d.setBytes i []) := by
            rw [openTrunc, ht] at hopen
            dsimp only at hopen
            rw [he] at hopen
            exact (Option.some.inj hopen).symm
          subst hx
          have hdone : CpDone names d src dest (d.setBytes i []) := by
            refine hrun [.ok 0, .ok 0, .ok 0] .copied [] _ ?_ (by simp [AllOk, Reply.isOk])
              (by simp)
            simp [copyFile, hst, hsame, declines, Reply.gives, hread, destination_fst, hopen,
              copyLoop, readChunk, CopyEnd.cpEnd]
          have hempty : contents names (d.setBytes i []) (destPath names d src dest) = some [] := by
            refine contents_eq_some.2 ⟨i, ?_, by simp⟩
            rw [← hback]
            exact fileAt_congr rfl
          have heq := hempty.symm.trans (hdone.2.trans (contents_of_fileAt hi))
          exact (Option.some.inj heq).symm

theorem CpReady.truthful (h : CpReady names d src dest) : CpTruthful names d src dest := by
  intro interactive answer rs e d' hok hmain he
  obtain ⟨i, hi, hw, hback⟩ := h
  obtain ⟨rs', hrun⟩ := mainWith_eq.1 hmain
  have hsrc := contents_of_fileAt hi
  refine ⟨by simp [hsrc], ?_⟩
  rw [hsrc]
  cases copyFile_exit hrun with
  | noSource hst =>
      rw [stat_of_fileAt hi] at hst
      cases hst
  | same hst hsame =>
      rw [stat_of_fileAt hi] at hst
      cases hst
      obtain ⟨-, st', hst', hino⟩ := destination_found hsame
      have hfile := hw.fileAt_of_stat hst'
      rw [hino] at hfile
      exact contents_of_fileAt hfile
  | declined => exact absurd rfl he
  | noRead hst hsame hopen =>
      rw [Reply.gives_isOk (hok _ List.mem_cons_self), openRead_of_fileAt hi] at hopen
      cases hopen
  | noWrite hst hsame hopen =>
      rw [Reply.gives_isOk (hok _ (by simp))] at hopen
      obtain ⟨x, hx⟩ := openTrunc_writable.2 hw
      rw [hopen] at hx
      cases hx
  | @looped _ _ _ _ _ _ j _ _ e hst hsame hread hwrite hloop =>
      rw [stat_of_fileAt hi] at hst
      cases hst
      rw [openRead_of_fileAt hi] at hread
      cases hread
      have hdone : e = .done := copyLoop_fine (fun r hr => hok r (by simp [hr])) hloop
      obtain ⟨t, f, ht, hc⟩ := copied_of_copyLoop hwrite hloop
      rw [hc.wrote.contents ht]
      by_cases hji : j = i
      · obtain ⟨u, -, hu⟩ := fileAt_eq_some.1 hi
        have hdest : fileAt names d (destPath names d src dest) = some i :=
          fileAt_eq_some.2 ⟨t, ht, hc.itself_entry hu hji⟩
        rcases Nat.lt_or_ge dest.length PATH_MAX with hshort | hlong
        · rw [destination_snd hshort hdest] at hsame
          cases hsame
        · rw [hc.itself hji, hback hlong hdest]
      · rw [hc.other hdone hji]

/-! ## `custom_mv` -/

variable {s t : S} {kind : List Reply → Prop}

theorem Across.exdev {r : Reply} (h : Across (r :: rs)) : r = .exdev := by
  cases r with
  | ok count => exact h.elim
  | exdev => rfl
  | fail => exact h.elim

theorem MvTruthful.run (h : MvTruthful names kind d src dest) (hkind : kind rs) (e : MvEnd)
    (rs' : List Reply) (he : e ≠ .declined)
    (hrun : moveFile names false none src dest rs d = some (e, rs', d')) :
    MvDone names d src dest d' :=
  h false none rs e d' hkind (mainWith_eq.2 ⟨rs', hrun⟩) he

omit [DecidableEq S] in
theorem not_mvDone_self (hs : names.slot src = some s) (hi : fileAt names d src = some i) :
    ¬ MvDone names d src dest d := by
  rintro ⟨-, -, hgone⟩
  rw [hs, Option.bind_some] at hgone
  rcases entry_of_fileAt hs hi with hfile | ⟨text, hlink⟩
  · rw [hfile] at hgone
    cases hgone
  · rw [hlink] at hgone
    cases hgone

theorem moveFile_ends (names : Names S) (d : Disk S) (src dest : Pathname) :
    (∃ e rs' d', e ≠ .declined ∧
      moveFile names false none src dest [.ok 0] d = some (e, rs', d')) ∧
    (fileAt names d src = none → ∃ e rs' d', e ≠ .declined ∧
      moveFile names false none src dest [.exdev, .ok 0, .ok 0, .ok 0, .ok 0] d =
        some (e, rs', d')) := by
  cases hst : stat names d src with
  | none => simp [moveFile, hst]
  | some st =>
      cases hsame : (destination names d st src dest).2 with
      | true => simp [moveFile, hst, hsame]
      | false =>
          refine ⟨?_, fun hno => ?_⟩
          · cases hren : rename names d src (destPath names d src dest) with
            | none => simp [moveFile, hst, hsame, declines, destination_fst, Reply.gives, hren]
            | some d1 => simp [moveFile, hst, hsame, declines, destination_fst, Reply.gives, hren]
          · have hread := openRead_dir hst hno
            cases hopen : openTrunc names d (destPath names d src dest) st.perm with
            | none =>
                simp [moveFile, hst, hsame, declines, destination_fst, Reply.gives, hread,
                  copyAndUnlink, hopen]
            | some x =>
                simp [moveFile, hst, hsame, declines, destination_fst, Reply.gives, hread,
                  copyAndUnlink, hopen, copyLoop, readChunk]

theorem MvTruthful.other (h : MvTruthful names kind d src dest) (hkind : kind rs)
    (hs : names.slot src = some s) (hi : fileAt names d src = some i) :
    (destination names d ⟨false, i, (d.inode i).perm⟩ src dest).2 = false := by
  cases hsame : (destination names d ⟨false, i, (d.inode i).perm⟩ src dest).2 with
  | false => rfl
  | true =>
      have hdone : MvDone names d src dest d := h.run hkind .sameFile rs
        (by simp) (by simp [moveFile, stat_of_fileAt hi, hsame])
      exact absurd hdone (not_mvDone_self hs hi)

omit [DecidableEq S] in
theorem slot_of_fileAt (hi : fileAt names d src = some i) : ∃ s, names.slot src = some s := by
  obtain ⟨u, hu, -⟩ := fileAt_eq_some.1 hi
  obtain ⟨s, hs, -⟩ := Option.bind_eq_some_iff.1 hu
  exact ⟨s, hs⟩

omit [DecidableEq S] in
theorem mayReplace_not_dir {a b : Option Entry} (h : mayReplace a b = true)
    (ha : ∀ k, a ≠ some (.dir k)) (k : Nat) : b ≠ some (.dir k) := by
  rintro rfl
  match a with
  | none => cases h
  | some (.file i) => cases h
  | some (.link text) => cases h
  | some (.dir i) => exact ha i rfl

omit [DecidableEq S] in
theorem not_dir_of_fileAt (hs : names.slot src = some s) (hi : fileAt names d src = some i)
    (k : Nat) : d.entry s ≠ some (.dir k) := by
  rcases entry_of_fileAt hs hi with hfile | ⟨text, hlink⟩
  · simp [hfile]
  · simp [hlink]

/-- On one file system, the rename replaces another entry, and the moved one is read. -/
theorem MvTruthful.renameReady (h : MvTruthful names AllOk d src dest) :
    RenameReady names d src dest := by
  have hok : AllOk [.ok 0] := by simp [AllOk, Reply.isOk]
  obtain ⟨e, rs', d', he, hrun⟩ := (moveFile_ends names d src dest).1
  obtain ⟨i, hi⟩ := fileAt_of_contents (h.run hok e rs' he hrun).1
  obtain ⟨s, hs⟩ := slot_of_fileAt hi
  have hst := stat_of_fileAt hi
  have hsame := h.other hok hs hi
  cases hren : rename names d src (destPath names d src dest) with
  | none =>
      have hdone : MvDone names d src dest d := h.run hok .renameError [] (by simp) (by
        simp [moveFile, hst, hsame, declines, destination_fst, Reply.gives, hren])
      exact absurd hdone (not_mvDone_self hs hi)
  | some d1 =>
      have hdone : MvDone names d src dest d1 := h.run hok .moved [] (by simp) (by
        simp [moveFile, hst, hsame, declines, destination_fst, Reply.gives, hren])
      obtain ⟨s', t, hs', ht, hmay, hd1⟩ := rename_spec hren
      rw [hs] at hs'
      cases hs'
      cases heq : sameEntry d s t with
      | true =>
          rw [heq, if_pos rfl] at hd1
          exact absurd (hd1 ▸ hdone) (not_mvDone_self hs hi)
      | false =>
          rw [heq, if_neg Bool.false_ne_true] at hd1
          exact ⟨i, s, t, hi, hs, ht, hsame,
            fun k => mayReplace_not_dir hmay (not_dir_of_fileAt hs hi) k, heq,
            fun _ _ => hd1 ▸ hdone.2.1⟩

/-- Between two, the destination can be opened, and the source is read before it is unlinked. -/
theorem MvTruthful.crossReady (h : MvTruthful names Across d src dest) :
    CrossReady names d src dest := by
  have hok : Across [.exdev, .ok 0, .ok 0, .ok 0, .ok 0] := by simp [Across, AllOk, Reply.isOk]
  obtain ⟨i, hi⟩ : ∃ i, fileAt names d src = some i := by
    by_contra hno
    have hnone := Option.eq_none_iff_forall_ne_some.2 fun i hi => hno ⟨i, hi⟩
    obtain ⟨e, rs', d', he, hrun⟩ := (moveFile_ends names d src dest).2 hnone
    exact hno (fileAt_of_contents (h.run hok e rs' he hrun).1)
  obtain ⟨s, hs⟩ := slot_of_fileAt hi
  have hsame := h.other hok hs hi
  have hw : Writable names d (destPath names d src dest) := by
    cases hopen : openTrunc names d (destPath names d src dest) (d.inode i).perm with
    | some x => exact openTrunc_writable.1 ⟨x, hopen⟩
    | none =>
        have hdone : MvDone names d src dest d := h.run hok .crossFailed
          [.ok 0, .ok 0] (by simp) (by
          simp [moveFile, stat_of_fileAt hi, hsame, declines, destination_fst, copyAndUnlink,
            Reply.gives, openRead_of_fileAt hi, hopen])
        exact absurd hdone (not_mvDone_self hs hi)
  refine ⟨i, s, hi, hs, hsame, hw, fun hback => ?_⟩
  have hlong : PATH_MAX ≤ dest.length := by
    by_contra hshort
    rw [destination_snd (not_le.1 hshort) hback] at hsame
    cases hsame
  have hpath : destPath names d src dest = cut dest := by rw [destPath, stat_tooLong hlong]
  rw [hpath] at hback ⊢
  have hdone := h.run hok _ _ (by simp) (moveFile_clobbers hs hi hlong hback)
  have hread := hdone.2.1
  rw [hpath, contents_of_fileAt hi] at hread
  exact contents_clobbered hback hread

theorem copyAndUnlink_fine {ok : Bool} {rs' : List Reply} (hi : fileAt names d src = some i)
    (hw : Writable names d p) (hok : AllOk rs)
    (h : copyAndUnlink names src p rs d = some (ok, rs', d')) : ok = true := by
  rw [copyAndUnlink, stat_of_fileAt hi] at h
  rcases rs with _ | ⟨r, _ | ⟨r2, rs⟩⟩
  · cases h
  · dsimp only at h
    rw [Reply.gives_isOk (hok r (by simp)), openRead_of_fileAt hi] at h
    cases h
  · dsimp only at h
    rw [Reply.gives_isOk (hok r (by simp)), openRead_of_fileAt hi] at h
    dsimp only at h
    obtain ⟨x, hx⟩ := openTrunc_writable.2 hw
    rw [Reply.gives_isOk (hok r2 (by simp)), hx] at h
    dsimp only at h
    split at h
    · cases h
    · cases h
    · cases h
      rfl
    · rename_i hne hloop
      have hdone := copyLoop_fine (fun r hr => hok r (by simp [hr])) hloop
      exact absurd hdone hne

theorem rename_ready (hs : names.slot src = some s) (hi : fileAt names d src = some i)
    (ht : names.slot p = some t) (hdir : ∀ k, d.entry t ≠ some (.dir k))
    (hdiff : sameEntry d s t = false) : rename names d src p = some (d.move s t) := by
  have hmay : mayReplace (d.entry s) (d.entry t) = true :=
    mayReplace_of ((entry_of_fileAt hs hi).imp_left fun hfile => ⟨i, hfile⟩) hdir
  rw [rename, hs, ht]
  dsimp only
  rw [if_pos hmay, hdiff, if_neg Bool.false_ne_true]

theorem ne_of_sameEntry (h : sameEntry d s t = false) : s ≠ t := by
  rintro rfl
  unfold sameEntry at h
  split at h
  · rename_i h1 h2
    rw [h1] at h2
    cases h2
    simp at h
  · simp at h

/-- A complete run of the fallback between two entries: the destination is read, and the
source is gone. -/
theorem copyAndUnlink_moved {rs' : List Reply} (hs : names.slot src = some s)
    (hi : fileAt names d src = some i) (hok : AllOk rs)
    (hback : fileAt names d p = some i → (d.inode i).bytes = [] ∧
      fileAt names (d.remove s) p = some i)
    (h : copyAndUnlink names src p rs d = some (true, rs', d')) :
    contents names d' p = some (d.inode i).bytes ∧ d'.entry s = none := by
  rcases copyAndUnlink_copied hi h with ⟨hno, -⟩ | ⟨t, j, f, e, d2, r, hr, ht, hc, hdone, rfl⟩
  · cases hno
  obtain ⟨u, hu, hui⟩ := fileAt_eq_some.1 hi
  rw [lead, hs, Option.bind_some] at hu
  have hunlink : tryUnlink names r src d2 = d2.remove s := by
    refine tryUnlink_ok (hok r hr) hs ?_
    rw [hc.wrote.entry_eq]
    split
    · exact .inl ⟨j, rfl⟩
    · exact (entry_of_fileAt hs hi).imp_left fun hfile => ⟨i, hfile⟩
  rw [if_pos rfl, hunlink]
  refine ⟨?_, by simp⟩
  by_cases hji : j = i
  · have hentry := hc.itself_entry hui hji
    obtain ⟨hb, hother⟩ := hback (fileAt_eq_some.2 ⟨t, ht, hentry⟩)
    refine contents_eq_some.2 ⟨i, ?_, ?_⟩
    · rw [← hother]
      refine fileAt_congr ?_
      show Function.update d2.entry s none = Function.update d.entry s none
      rw [hc.wrote.entry, hji, ← hentry, Function.update_eq_self]
    · rw [inode_remove, hc.wrote.inode_eq, if_pos hji.symm, hc.itself hji, hb]
  · -- the destination's chain does not run through the source, or it would end at its file
    have hoff : ∀ m, follow names d m s ≠ some t := by
      intro m hm
      obtain rfl := follow_unique hu hm
      exact hc.ne_slot hui hji rfl
    rw [hc.wrote.contents_remove ht hoff, hc.other (hdone rfl) hji]

theorem RenameReady.truthful (h : RenameReady names d src dest) :
    MvTruthful names AllOk d src dest := by
  intro interactive answer rs e d' hok hmain he
  obtain ⟨i, s, t, hi, hs, ht, hother, hdir, hdiff, hlink⟩ := h
  obtain ⟨rs', hrun⟩ := mainWith_eq.1 hmain
  have hsrc := contents_of_fileAt hi
  have hst0 := stat_of_fileAt hi
  refine ⟨by simp [hsrc], ?_⟩
  rw [hs, Option.bind_some]
  cases moveFile_exit hrun with
  | noSource hst =>
      rw [hst0] at hst
      cases hst
  | same hst hsame =>
      rw [hst0] at hst
      cases hst
      rw [hother] at hsame
      cases hsame
  | declined => exact absurd rfl he
  | refused hst hsame hr hrename =>
      rw [Reply.gives_isOk (hok _ List.mem_cons_self), rename_ready hs hi ht hdir hdiff] at hrename
      cases hrename
  | renamed hst hsame hr hrename =>
      rw [rename_ready hs hi ht hdir hdiff] at hrename
      cases hrename
      constructor
      · rcases entry_of_fileAt hs hi with hfile | ⟨text, htext⟩
        · rw [hsrc]
          exact contents_entry ht (by rw [entry_move, if_pos rfl, hfile]) rfl
        · exact hlink text htext
      · rw [entry_move, if_neg (ne_of_sameEntry hdiff), if_pos rfl]
  | crossed hst hsame hcopy =>
      have hcross := hok _ List.mem_cons_self
      cases hcross

theorem CrossReady.truthful (h : CrossReady names d src dest) :
    MvTruthful names Across d src dest := by
  intro interactive answer rs e d' hok hmain he
  obtain ⟨i, s, hi, hs, hother, hw, hback⟩ := h
  obtain ⟨rs', hrun⟩ := mainWith_eq.1 hmain
  have hsrc := contents_of_fileAt hi
  have hst0 := stat_of_fileAt hi
  refine ⟨by simp [hsrc], ?_⟩
  rw [hs, Option.bind_some]
  cases moveFile_exit hrun with
  | noSource hst =>
      rw [hst0] at hst
      cases hst
  | same hst hsame =>
      rw [hst0] at hst
      cases hst
      rw [hother] at hsame
      cases hsame
  | declined => exact absurd rfl he
  | refused hst hsame hr hrename => exact absurd hok.exdev hr
  | renamed hst hsame hr hrename => exact absurd hok.exdev hr
  | crossed hst hsame hcopy =>
      have hfine := copyAndUnlink_fine hi hw hok hcopy
      rw [hfine] at hcopy
      rw [hsrc]
      exact copyAndUnlink_moved hs hi hok hback hcopy

/-- If no call fails, then status 0 of `custom_cp` is truthful if and only if source and
destination are what they have to be for the work to be done at all. So is status 0 of `custom_mv`,
where the rename has its conditions and the fallback, after an `EXDEV`, others. -/
theorem exit_truthful_iff (names : Names S) (d : Disk S) (src dest : Pathname) :
    (CpTruthful names d src dest ↔ CpReady names d src dest) ∧
      (MvTruthful names AllOk d src dest ↔ RenameReady names d src dest) ∧
      (MvTruthful names Across d src dest ↔ CrossReady names d src dest) :=
  ⟨⟨CpTruthful.ready, CpReady.truthful⟩, ⟨MvTruthful.renameReady, RenameReady.truthful⟩,
    ⟨MvTruthful.crossReady, CrossReady.truthful⟩⟩

end

/-- `custom_cp a c` with a full disk, and `custom_mv a c` with a `rename` that fails: both exit
with status 0. -/
theorem failure_exits_zero :
    (∃ d', cpMain threeNames (some false) [[97], [99]] none [.ok 0, .ok 0, .ok 4096, .fail]
        danglingDisk = some (0, some .writeError, d') ∧
      ¬ CpDone threeNames danglingDisk [97] [99] d') ∧
    ∃ d', mvMain threeNames (some false) [[97], [99]] none [.fail] danglingDisk =
        some (0, some .renameError, d') ∧
      ¬ MvDone threeNames danglingDisk [97] [99] d' := by
  have hcp : ((cpMain threeNames (some false) [[97], [99]] none [.ok 0, .ok 0, .ok 4096, .fail]
      danglingDisk).any fun x => x.1 == 0 && x.2.1 == some .writeError &&
        contents threeNames x.2.2 (destPath threeNames danglingDisk [97] [99]) !=
          contents threeNames danglingDisk [97]) = true := by
    decide +kernel
  obtain ⟨⟨n, e, d'⟩, hrun, htest⟩ := (Option.any_eq_true _ _).1 hcp
  simp only [Bool.and_eq_true, beq_iff_eq, bne_iff_ne] at htest
  obtain ⟨⟨rfl, rfl⟩, hne⟩ := htest
  refine ⟨⟨d', hrun, fun hdone => hne hdone.2⟩, danglingDisk, rfl, fun hdone => ?_⟩
  exact absurd hdone.2.2 (by decide)

end G9OS.Tools
