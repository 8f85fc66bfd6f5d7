import G9OS.Tools.Copy

/-! # `custom_mv.c`

`move_file` renames, and copies and unlinks where the two names are not on one file system.
The results of the system calls come as a list; `stat` and `access` tell the state.
-/

namespace G9OS.Tools

open Lib

inductive MvEnd
  | sourceStatFailed
  | sameFile
  | declined
  | crossFailed
  | renameError
  | moved
deriving DecidableEq, Repr

/-- What it writes to `stderr`, less the names of the files and of the error. -/
def MvEnd.message : MvEnd → Option String
  | .sourceStatFailed => some "custom_mv: Source stat failed"
  | .sameFile => some "custom_mv: are the same file"
  | .crossFailed => some "custom_mv: Failed to move file across mounts"
  | .renameError => some "custom_mv: Rename error"
  | .declined => none
  | .moved => none

section
variable {S : Type} [DecidableEq S] (names : Names S)

/-- `unlink` whose result is ignored. -/
def tryUnlink (r : Reply) (p : Pathname) (d : Disk S) : Disk S :=
  (r.gives (unlink names d p)).getD d

/-- `copy_and_unlink`, and whether it returns 0. -/
def copyAndUnlink (src dest : Pathname) (rs : List Reply) (d : Disk S) :
    Option (Bool × List Reply × Disk S) :=
  match stat names d src with
  | none => some (false, rs, d)
  | some stSrc =>
      match rs with
      | [] => none
      | r :: rs =>
          match r.gives (openRead names d src) with
          | none => some (false, rs, d)
          | some srcfd =>
              match rs with
              | [] => none
              | r :: rs =>
                  match r.gives (openTrunc names d dest stSrc.perm) with
                  | none => some (false, rs, d)
                  | some (destfd, d) =>
                      match copyLoop srcfd destfd rs [] 0 0 d with
                      | none => none
                      | some (_, [], _) => none
                      | some (.done, r :: rs, d) => some (true, rs, tryUnlink names r src d)
                      | some (_, r :: rs, d) => some (false, rs, tryUnlink names r dest d)

def moveFile (interactive : Bool) (answer : Option UInt8) (src dest : Pathname)
    (rs : List Reply) (d : Disk S) : Option (MvEnd × List Reply × Disk S) :=
  match stat names d src with
  | none => some (.sourceStatFailed, rs, d)
  | some stSrc =>
      let (path, same) := destination names d stSrc src dest
      if same then some (.sameFile, rs, d)
      else if declines names d interactive answer path then some (.declined, rs, d)
      else
        match rs with
        | [] => none
        | .exdev :: rs =>
            (copyAndUnlink names src path rs d).map fun x =>
              (if x.1 then .moved else .crossFailed, x.2)
        | r :: rs =>
            match r.gives (rename names d src path) with
            | none => some (.renameError, rs, d)
            | some d => some (.moved, rs, d)

end

section
variable {S : Type} [DecidableEq S] {names : Names S} {d d' : Disk S} {src dest p : Pathname}
  {rs rs' : List Reply} {i j : Nat} {s t : S} {ok : Bool}

/-! ## The fallback -/

theorem tryUnlink_cases (names : Names S) (r : Reply) (p : Pathname) (d : Disk S) :
    tryUnlink names r p d = d ∨
      ∃ s, names.slot p = some s ∧ tryUnlink names r p d = d.remove s := by
  unfold tryUnlink
  cases h : r.gives (unlink names d p) with
  | none => exact .inl rfl
  | some d' =>
      obtain ⟨s, hs, rfl⟩ := unlink_spec (r.gives_some h)
      exact .inr ⟨s, hs, rfl⟩

theorem tryUnlink_ok {r : Reply} (hr : r.isOk = true) (hs : names.slot p = some s)
    (h : (∃ i, d.entry s = some (.file i)) ∨ ∃ text, d.entry s = some (.link text)) :
    tryUnlink names r p d = d.remove s := by
  rw [tryUnlink, Reply.gives_isOk hr, unlink_of_entry hs h]
  rfl

/-- Everything that the fallback can do: nothing, or open the destination, run the loop and
unlink one of the two. -/
theorem copyAndUnlink_cases
    (h : copyAndUnlink names src dest rs d = some (ok, rs', d')) :
    (ok = false ∧ d' = d) ∨
      ∃ st srcfd destfd d1 rs1 e r d2, stat names d src = some st ∧
        openRead names d src = some srcfd ∧
        openTrunc names d dest st.perm = some (destfd, d1) ∧
        rs1 <:+ rs ∧ copyLoop srcfd destfd rs1 [] 0 0 d1 = some (e, r :: rs', d2) ∧
        (e = .done ∧ ok = true ∧ d' = tryUnlink names r src d2 ∨
          e ≠ .done ∧ ok = false ∧ d' = tryUnlink names r dest d2) := by
  unfold copyAndUnlink at h
  split at h
  · cases h
    exact .inl ⟨rfl, rfl⟩
  · rename_i st hst
    split at h
    · cases h
    · rename_i r0 _
      split at h
      · cases h
        exact .inl ⟨rfl, rfl⟩
      · rename_i srcfd hsrc
        split at h
        · cases h
        · split at h
          · cases h
            exact .inl ⟨rfl, rfl⟩
          · rename_i r1 rs1 _ destfd d1 hdest
            have hopen := Reply.gives_some hsrc
            have htrunc := Reply.gives_some hdest
            have hsuffix : rs1 <:+ r0 :: r1 :: rs1 := ⟨[r0, r1], rfl⟩
            split at h
            · cases h
            · cases h
            · rename_i hloop
              cases h
              exact .inr ⟨st, srcfd, destfd, d1, rs1, _, _, _, hst, hopen, htrunc,
                hsuffix, hloop,
                .inl ⟨rfl, rfl, rfl⟩⟩
            · rename_i hne hloop
              cases h
              exact .inr ⟨st, srcfd, destfd, d1, rs1, _, _, _, hst, hopen, htrunc,
                hsuffix, hloop,
                .inr ⟨hne, rfl, rfl⟩⟩

theorem copyAndUnlink_copied (hi : fileAt names d src = some i)
    (h : copyAndUnlink names src dest rs d = some (ok, rs', d')) :
    (ok = false ∧ d' = d) ∨
      ∃ t j f e d2, ∃ r ∈ rs, lead names d dest = some t ∧ Copied d i t j f e d2 ∧
        (ok = true → e = .done) ∧ d' = tryUnlink names r (if ok then src else dest) d2 := by
  rcases copyAndUnlink_cases h with hnone |
    ⟨st, srcfd, j, d1, rs1, e, r, d2, hst, hopen, htrunc, hsuffix, hloop, hend⟩
  · exact .inl hnone
  · rw [stat_of_fileAt hi] at hst
    cases hst
    rw [openRead_of_fileAt hi] at hopen
    cases hopen
    have hr : r ∈ rs :=
      hsuffix.subset ((copyLoop_suffix hloop).subset List.mem_cons_self)
    obtain ⟨t, f, ht, hcopied⟩ := copied_of_copyLoop htrunc hloop
    refine .inr ⟨t, j, f, e, d2, r, hr, ht, hcopied, ?_⟩
    rcases hend with ⟨he, rfl, hd'⟩ | ⟨-, rfl, hd'⟩
    · exact ⟨fun _ => he, hd'⟩
    · exact ⟨fun hok => absurd hok Bool.false_ne_true, hd'⟩

/-! ## No bytes are lost -/

/-- Writing under the path `p` destroys the file `i` of slot `s`: the path leads to that very
file, which is not empty or has no other entry on the way. -/
def Clobbers (names : Names S) (d : Disk S) (s : S) (i : Nat) (p : Pathname) : Prop :=
  fileAt names d p = some i ∧
    ((d.inode i).bytes = [] → fileAt names (d.remove s) p ≠ some i)

theorem copyAndUnlink_keeps (hs : names.slot src = some s) (hi : d.entry s = some (.file i))
    (hsafe : ¬ Clobbers names d s i dest)
    (h : copyAndUnlink names src dest rs d = some (ok, rs', d')) :
    contents names d' src = some (d.inode i).bytes ∨
      contents names d' dest = some (d.inode i).bytes := by
  rcases copyAndUnlink_copied (fileAt_file hs hi) h with ⟨-, rfl⟩ |
    ⟨t, j, f, e, d2, r, -, ht, hc, hdone, rfl⟩
  · exact .inl (contents_entry hs hi rfl)
  · by_cases hji : j = i
    · -- the destination is the source itself, which is empty and has another entry
      subst hji
      have hentry := hc.itself_entry hi rfl
      have hsame : d2.entry = d.entry := by
        rw [hc.wrote.entry, ← hentry, Function.update_eq_self]
      have hback : fileAt names d dest = some j := fileAt_eq_some.2 ⟨t, ht, hentry⟩
      have hempty : (d2.inode j).bytes = [] := by
        rw [hc.wrote.inode_eq, if_pos rfl, hc.itself rfl]
      obtain ⟨hb, hother⟩ : (d.inode j).bytes = [] ∧ fileAt names (d.remove s) dest = some j := by
        by_contra hno
        exact hsafe ⟨hback, fun hb hrem => hno ⟨hb, hrem⟩⟩
      rw [hb]
      rcases tryUnlink_cases names r (if ok then src else dest) d2 with hd | ⟨u, hu, hd⟩
      · rw [hd]
        exact .inl (contents_entry hs (by rw [hsame, hi]) hempty)
      · rw [hd]
        by_cases hus : u = s
        · subst hus
          refine .inr (contents_eq_some.2 ⟨j, ?_, hempty⟩)
          rw [← hother]
          refine fileAt_congr ?_
          show Function.update d2.entry u none = Function.update d.entry u none
          rw [hsame]
        · refine .inl (contents_entry hs ?_ hempty)
          rw [entry_remove, if_neg (Ne.symm hus), hsame, hi]
    · have hst := hc.ne_slot hi hji
      have hentry : d2.entry s = some (.file i) := by rw [hc.wrote.entry_eq, if_neg hst, hi]
      have hbytes : (d2.inode i).bytes = (d.inode i).bytes := by
        rw [hc.wrote.inode_eq, if_neg (Ne.symm hji)]
      rcases tryUnlink_cases names r (if ok then src else dest) d2 with hd | ⟨u, hu, hd⟩
      · rw [hd]
        exact .inl (contents_entry hs hentry hbytes)
      · rw [hd]
        by_cases hus : u = s
        · -- only the source is removed from its slot, and only after a complete copy
          subst hus
          have hok : ok = true := by
            by_contra hno
            rw [if_neg hno] at hu
            have hlead := lead_file hu hi
            exact hst (Option.some.inj (hlead.symm.trans ht))
          refine .inr ?_
          rw [← hc.other (hdone hok) hji]
          refine hc.wrote.contents_remove ht fun m hm => ?_
          have hhere : follow names d 1 u = some u := follow_here fun text => by rw [hi]; simp
          exact hst (follow_unique hhere hm)
        · refine .inl (contents_entry hs ?_ hbytes)
          rw [entry_remove, if_neg (Ne.symm hus)]
          exact hentry

theorem rename_keeps (hs : names.slot src = some s) (hi : d.entry s = some (.file i))
    (h : rename names d src dest = some d') :
    contents names d' src = some (d.inode i).bytes ∨
      contents names d' dest = some (d.inode i).bytes := by
  obtain ⟨s', t, hs', ht, -, rfl⟩ := rename_spec h
  rw [hs] at hs'
  cases hs'
  split
  · exact .inl (contents_entry hs hi rfl)
  · exact .inr (contents_entry ht (by rw [entry_move, if_pos rfl, hi]) rfl)

inductive MoveExit (names : Names S) (d : Disk S) (src dest : Pathname) (interactive : Bool)
    (answer : Option UInt8) : List Reply → MvEnd → List Reply → Disk S → Prop
  | noSource {rs : List Reply} (hst : stat names d src = none) :
      MoveExit names d src dest interactive answer rs .sourceStatFailed rs d
  | same {rs : List Reply} {st : Stat} (hst : stat names d src = some st)
      (hsame : (destination names d st src dest).2 = true) :
      MoveExit names d src dest interactive answer rs .sameFile rs d
  | declined {rs : List Reply} {st : Stat} (hst : stat names d src = some st)
      (hsame : (destination names d st src dest).2 = false)
      (hno : declines names d interactive answer (destPath names d src dest) = true) :
      MoveExit names d src dest interactive answer rs .declined rs d
  | crossed {rs rs' : List Reply} {st : Stat} {ok : Bool} {d' : Disk S}
      (hst : stat names d src = some st)
      (hsame : (destination names d st src dest).2 = false)
      (hcopy : copyAndUnlink names src (destPath names d src dest) rs d = some (ok, rs', d')) :
      MoveExit names d src dest interactive answer (.exdev :: rs)
        (if ok then .moved else .crossFailed) rs' d'
  | refused {r : Reply} {rs : List Reply} {st : Stat} (hst : stat names d src = some st)
      (hsame : (destination names d st src dest).2 = false) (hr : r ≠ .exdev)
      (hrename : r.gives (rename names d src (destPath names d src dest)) = none) :
      MoveExit names d src dest interactive answer (r :: rs) .renameError rs d
  | renamed {r : Reply} {rs : List Reply} {st : Stat} {d' : Disk S}
      (hst : stat names d src = some st)
      (hsame : (destination names d st src dest).2 = false) (hr : r ≠ .exdev)
      (hrename : rename names d src (destPath names d src dest) = some d') :
      MoveExit names d src dest interactive answer (r :: rs) .moved rs d'

theorem moveFile_exit {interactive : Bool} {answer : Option UInt8} {e : MvEnd}
    (h : moveFile names interactive answer src dest rs d = some (e, rs', d')) :
    MoveExit names d src dest interactive answer rs e rs' d' := by
  unfold moveFile at h
  split at h
  · rename_i hst
    cases h
    exact .noSource hst
  · rename_i st hst
    dsimp only at h
    rw [destination_fst] at h
    split at h
    · rename_i hsame
      cases h
      exact .same hst hsame
    · rename_i hsame
      rw [Bool.not_eq_true] at hsame
      split at h
      · rename_i hno
        cases h
        exact .declined hst hsame hno
      · split at h
        · cases h
        · obtain ⟨⟨ok, rs2, d2⟩, hcopy, heq⟩ := Option.map_eq_some_iff.1 h
          cases heq
          exact .crossed hst hsame hcopy
        · rename_i hr
          split at h
          · rename_i hrename
            cases h
            exact .refused hst hsame hr hrename
          · rename_i hrename
            cases h
            exact .renamed hst hsame hr (Reply.gives_some hrename)

/-- The run in which an overlong name leads the fallback back to the source. -/
theorem moveFile_clobbers (hs : names.slot src = some s) (hfile : fileAt names d src = some i)
    (hlong : PATH_MAX ≤ dest.length) (hback : fileAt names d (cut dest) = some i) :
    moveFile names false none src dest [.exdev, .ok 0, .ok 0, .ok 0, .ok 0] d =
      some (.moved, [], (d.setBytes i []).remove s) := by
  obtain ⟨t, ht, he⟩ := fileAt_eq_some.1 hback
  have htrunc : openTrunc names d (cut dest) (d.inode i).perm = some (i, d.setBytes i []) := by
    rw [openTrunc, ht]
    dsimp only
    rw [he]
  have hread : readChunk (d.setBytes i []) (.file i) 0 (.ok 0) = some [] := by
    simp [readChunk]
  have hunlink : unlink names (d.setBytes i []) src = some ((d.setBytes i []).remove s) :=
    unlink_of_entry hs ((entry_of_fileAt hs hfile).imp_left fun hi => ⟨i, hi⟩)
  simp [moveFile, stat_of_fileAt hfile, destination, stat_tooLong hlong, declines, copyAndUnlink,
    Reply.gives, openRead_of_fileAt hfile, htrunc, copyLoop, hread, tryUnlink, hunlink]

/-- What that run leaves under the overlong name: the empty file, if another entry leads there. -/
theorem contents_clobbered {b : List UInt8} (hback : fileAt names d p = some i)
    (h : contents names ((d.setBytes i []).remove s) p = some b) :
    b = [] ∧ fileAt names (d.remove s) p = some i := by
  obtain ⟨k, hk, hb⟩ := contents_eq_some.1 h
  have hk' : fileAt names (d.remove s) p = some k := by
    rw [← hk]
    exact fileAt_congr rfl
  obtain rfl : k = i := Option.some.inj ((fileAt_remove hk').symm.trans hback)
  rw [inode_remove, inode_setBytes, if_pos rfl] at hb
  exact ⟨hb.symm, hk'⟩

/-- The source's bytes are under its own name or under the destination. -/
def Kept (names : Names S) (d : Disk S) (src dest : Pathname) (d' : Disk S) : Prop :=
  contents names d' src = contents names d src ∨
    contents names d' (destPath names d src dest) = contents names d src

/-- Moving a file never loses its bytes, whatever the system calls answer, if and only if the
destination is no overlong name whose beginning leads back to the file. -/
theorem moveFile_keeps_iff (names : Names S) (d : Disk S) {src : Pathname} {s : S} {i : Nat}
    (hs : names.slot src = some s) (hi : d.entry s = some (.file i)) (dest : Pathname) :
    (∀ interactive answer rs e rs' d',
        moveFile names interactive answer src dest rs d = some (e, rs', d') →
          Kept names d src dest d') ↔
      ¬ (PATH_MAX ≤ dest.length ∧ Clobbers names d s i (cut dest)) := by
  have hfile := fileAt_file hs hi
  have hbytes : contents names d src = some (d.inode i).bytes := contents_entry hs hi rfl
  constructor
  · rintro hall ⟨hlong, hback, hrem⟩
    have hkept := hall _ _ _ _ _ _ (moveFile_clobbers hs hfile hlong hback)
    have hpath : destPath names d src dest = cut dest := by rw [destPath, stat_tooLong hlong]
    rw [Kept, hbytes, hpath] at hkept
    rcases hkept with hsrc | hdest
    · -- the source's entry is gone
      obtain ⟨k, hk, -⟩ := contents_eq_some.1 hsrc
      obtain ⟨u, hu, he⟩ := fileAt_eq_some.1 hk
      rw [lead, hs, Option.bind_some, follow_here fun text => by simp] at hu
      cases hu
      simp at he
    · obtain ⟨hb, hother⟩ := contents_clobbered hback hdest
      exact hrem hb hother
  · intro hsafe interactive answer rs e rs' d' h
    rw [Kept, hbytes]
    cases moveFile_exit h with
    | noSource hst => exact .inl hbytes
    | same hst hsame => exact .inl hbytes
    | declined hst hsame hno => exact .inl hbytes
    | refused hst hsame hr hrename => exact .inl hbytes
    | renamed hst hsame hr hrename => exact rename_keeps hs hi hrename
    | crossed hst hsame hcopy =>
        refine copyAndUnlink_keeps hs hi (fun hclob => ?_) hcopy
        rcases Nat.lt_or_ge dest.length PATH_MAX with hshort | hlong
        · rw [stat_of_fileAt hfile] at hst
          cases hst
          rw [destination_snd hshort hclob.1] at hsame
          cases hsame
        · have hpath : destPath names d src dest = cut dest := by
            rw [destPath, stat_tooLong hlong]
          exact hsafe ⟨hlong, hpath ▸ hclob⟩

instance (names : Names S) (d : Disk S) (src dest : Pathname) (d' : Disk S) :
    Decidable (Kept names d src dest d') := inferInstanceAs (Decidable (_ ∨ _))

end

/-- `a` moved to `c` on another file system, a byte at a time. -/
theorem moveFile_keeps_iff_short :
    ∃ e rs' d', moveFile threeNames false none [97] [99]
        [.exdev, .ok 0, .ok 0, .ok 1, .ok 1, .ok 1, .ok 1, .ok 0, .ok 0] danglingDisk =
          some (e, rs', d') ∧
      Kept threeNames danglingDisk [97] [99] d' := by
  have hrun : (moveFile threeNames false none [97] [99]
      [.exdev, .ok 0, .ok 0, .ok 1, .ok 1, .ok 1, .ok 1, .ok 0, .ok 0] danglingDisk).isSome =
        true := by
    decide +kernel
  obtain ⟨⟨e, rs', d'⟩, hx⟩ := Option.isSome_iff_exists.1 hrun
  have hs : threeNames.slot [97] = some 0 := rfl
  have hi : danglingDisk.entry 0 = some (.file 0) := rfl
  have hkeeps := (moveFile_keeps_iff threeNames danglingDisk hs hi [99]).2
    fun hbad => absurd hbad.1 (by decide)
  exact ⟨e, rs', d', hx, hkeeps _ _ _ _ _ _ hx⟩

/-- The path `a`, and a path of 4095 bytes for an entry elsewhere. -/
def twoNames : Names Bool where
  slot := fun p => if p = [97] then some false else if p.length = 4095 then some true else none
  target := fun _ text => if text = [97] then some false else none
  tooLong := fun p h => by
    have hlen : 4096 ≤ p.length := h
    have h1 : p ≠ [97] := by
      rintro rfl
      exact absurd hlen (by decide)
    rw [if_neg h1, if_neg (by omega)]

def linkedDisk : Disk Bool where
  entry := fun s => if s then some (.link [97]) else some (.file 0)
  inode := fun _ => ⟨[104, 105], 0o644⟩
  next := 1
  umask := 0o022
  used := fun s i h => by
    cases s with
    | true => cases h
    | false =>
        cases h
        exact Nat.one_pos

/-- The file `a` moved to a name of 4096 bytes, of which the first 4095 are a link to `a` on
another file system: the file is truncated, copied to itself and removed. -/
theorem overlong_name_loses_bytes :
    ∃ e rs' d', moveFile twoNames false none [97] (List.replicate 4096 120)
        [.exdev, .ok 0, .ok 0, .ok 0, .ok 0] linkedDisk = some (e, rs', d') ∧
      ¬ Kept twoNames linkedDisk [97] (List.replicate 4096 120) d' := by
  have hlost : ((moveFile twoNames false none [97] (List.replicate 4096 120)
      [.exdev, .ok 0, .ok 0, .ok 0, .ok 0] linkedDisk).any fun x =>
        !decide (Kept twoNames linkedDisk [97] (List.replicate 4096 120) x.2.2)) = true := by
    decide +kernel
  obtain ⟨⟨e, rs', d'⟩, hrun, hno⟩ := (Option.any_eq_true _ _).1 hlost
  exact ⟨e, rs', d', hrun, of_decide_eq_false ((Bool.not_eq_true' _).mp hno)⟩

section
variable {S : Type} [DecidableEq S] {names : Names S} {d d' : Disk S} {src dest : Pathname}
  {rs rs' : List Reply} {i j : Nat} {s t : S}

/-! ## The fallback beside a rename -/

inductive View
  | file (f : Inode)
  | dir (ino : Nat)
  | link (text : Pathname)
deriving DecidableEq, Repr

def view (d : Disk S) (u : S) : Option View :=
  (d.entry u).map fun
    | .file i => .file (d.inode i)
    | .dir i => .dir i
    | .link text => .link text

/-- The fallback onto slot `t` does what a rename does: the new file gets all permission bits
of the source, or the file there is another one that has the same bits and either the same
bytes or no other entry. -/
def LikeRename (d : Disk S) (i : Nat) (t : S) : Prop :=
  match d.entry t with
  | none => (d.inode i).perm &&& ~~~ d.umask = (d.inode i).perm
  | some (.file j) =>
      j ≠ i ∧ (d.inode j).perm = (d.inode i).perm ∧
        ((d.inode j).bytes = (d.inode i).bytes ∨ ∀ u, d.entry u = some (.file j) → u = t)
  | some (.dir _) => False
  | some (.link _) => False

theorem view_remove (u : S) : view (d.remove s) u = if u = s then none else view d u := by
  unfold view
  rw [entry_remove]
  split
  · rfl
  · rfl

theorem view_move (u : S) :
    view (d.move s t) u = if u = t then view d s else if u = s then none else view d u := by
  unfold view
  rw [entry_move]
  split
  · rfl
  · split
    · rfl
    · rfl

omit [DecidableEq S] in
theorem view_file (hi : d.entry s = some (.file i)) : view d s = some (.file (d.inode i)) := by
  rw [view, hi]
  rfl

/-- A file that is written is seen at all its entries. -/
theorem view_wrote {f : Inode} (h : Wrote d t j f d') (u : S) :
    view d' u =
      if u = t ∨ d.entry u = some (.file j) then some (.file f) else view d u := by
  by_cases hu : u = t
  · have hj : d'.entry u = some (.file j) := by rw [h.entry_eq, if_pos hu]
    rw [if_pos (.inl hu), view_file hj, h.inode_eq, if_pos rfl]
  · have hsame : d'.entry u = d.entry u := by rw [h.entry_eq, if_neg hu]
    by_cases hj : d.entry u = some (.file j)
    · rw [if_pos (.inr hj), view_file (hsame.trans hj), h.inode_eq, if_pos rfl]
    · rw [if_neg (not_or_intro hu hj)]
      cases he : d.entry u with
      | none =>
          rw [view, view, hsame, he]
          rfl
      | some e =>
          cases e with
          | file k =>
              have hk : k ≠ j := by
                rintro rfl
                exact hj he
              rw [view_file (hsame.trans he), view_file he, h.inode_eq, if_neg hk]
          | dir k =>
              rw [view, view, hsame, he]
              rfl
          | link text =>
              rw [view, view, hsame, he]
              rfl

/-- Nothing tells a written and a moved file apart but the file itself and the other entries
of the file that was written. -/
theorem sameView_iff {f : Inode} (h : Wrote d t j f d') (hst : s ≠ t)
    (hi : d.entry s = some (.file i)) :
    (∀ u, view (d'.remove s) u = view (d.move s t) u) ↔
      f = d.inode i ∧ ∀ u, u ≠ s → u ≠ t → d.entry u = some (.file j) → f = d.inode j := by
  constructor
  · intro hall
    constructor
    · have ht := hall t
      rw [view_remove, if_neg hst.symm, view_wrote h, if_pos (.inl rfl), view_move, if_pos rfl,
        view_file hi] at ht
      cases ht
      rfl
    · intro u hus hut hu
      have hview := hall u
      rw [view_remove, if_neg hus, view_wrote h, if_pos (.inr hu), view_move, if_neg hut,
        if_neg hus, view_file hu] at hview
      cases hview
      rfl
  · rintro ⟨hf, hother⟩ u
    rw [view_remove, view_wrote h, view_move]
    by_cases hus : u = s
    · rw [if_pos hus, if_neg (hus ▸ hst), if_pos hus]
    · rw [if_neg hus, if_neg hus]
      by_cases hut : u = t
      · rw [if_pos (.inl hut), if_pos hut, view_file hi, hf]
      · rw [if_neg hut]
        by_cases hu : d.entry u = some (.file j)
        · rw [if_pos (.inr hu), view_file hu, hother u hus hut hu]
        · rw [if_neg (not_or_intro hut hu)]

/-- Onto nothing: a new file, which no other entry has. -/
theorem likeRename_absent {f : Inode} {d2 : Disk S} (hc : Copied d i t j f .done d2)
    (hi : d.entry s = some (.file i)) (he : d.entry t = none) :
    (f = d.inode i ∧ ∀ u, u ≠ s → u ≠ t → d.entry u = some (.file j) → f = d.inode j) ↔
      LikeRename d i t := by
  rw [LikeRename, he]
  rcases hc.opened with ⟨-, hnext, hperm⟩ | ⟨hfile, -⟩
  · have hused := d.used s i hi
    have hbytes := hc.other rfl (by omega)
    constructor
    · rintro ⟨hf, -⟩
      rw [← hperm, hf]
    · intro hp
      exact ⟨Inode.ext hbytes (hperm.trans hp),
        fun u _ _ hu => absurd (d.used u j hu) (by omega)⟩
  · rw [he] at hfile
    cases hfile

/-- Onto another file: it keeps its permission bits, and all its entries show the bytes. -/
theorem likeRename_file {f : Inode} {d2 : Disk S} (hc : Copied d i t j f .done d2)
    (hi : d.entry s = some (.file i)) (he : d.entry t = some (.file j)) (hji : j ≠ i) :
    (f = d.inode i ∧ ∀ u, u ≠ s → u ≠ t → d.entry u = some (.file j) → f = d.inode j) ↔
      LikeRename d i t := by
  rw [LikeRename, he]
  have hbytes := hc.other rfl hji
  rcases hc.opened with ⟨hnone, -, -⟩ | ⟨-, hperm⟩
  · rw [he] at hnone
    cases hnone
  · constructor
    · rintro ⟨hf, hother⟩
      refine ⟨hji, by rw [← hperm, hf], ?_⟩
      by_cases hb : (d.inode j).bytes = (d.inode i).bytes
      · exact .inl hb
      · refine .inr fun u hu => ?_
        by_contra hut
        have hus : u ≠ s := by
          rintro rfl
          rw [hi] at hu
          cases hu
          exact hji rfl
        have hfj := hother u hus hut hu
        exact hb (by rw [← hbytes, hfj])
    · rintro ⟨-, hp, hb⟩
      have hf : f = d.inode i := Inode.ext hbytes (hperm.trans hp)
      refine ⟨hf, fun u hus hut hu => ?_⟩
      rcases hb with hb | honly
      · rw [hf]
        exact Inode.ext hb.symm hp.symm
      · exact absurd (honly u hu) hut

/-- Onto a link: it stays, where a rename puts the file. -/
theorem not_sameView_link {f : Inode} {u : S} {text : Pathname} (h : Wrote d u j f d')
    (hne : t ≠ u) (hst : t ≠ s) (hi : d.entry s = some (.file i))
    (he : d.entry t = some (.link text)) :
    ¬ ∀ v, view (d'.remove s) v = view (d.move s t) v := by
  intro hall
  have hview := hall t
  rw [view_remove, if_neg hst, view_wrote h, if_neg (by simp [hne, he]), view_move, if_pos rfl,
    view_file hi, view, he] at hview
  cases hview

/-- A complete run of the fallback leaves what a rename would have left, as seen at every
entry, if and only if the destination is not a symbolic link, keeps the source's permission
bits and shares its bytes with no other entry. -/
theorem copyAndUnlink_sameView_iff (hs : names.slot src = some s)
    (hi : d.entry s = some (.file i)) (hok : ∀ r ∈ rs, r.isOk = true)
    (h : copyAndUnlink names src dest rs d = some (true, rs', d')) :
    ∃ t dr, names.slot dest = some t ∧ rename names d src dest = some dr ∧
      ((∀ u, view d' u = view dr u) ↔ LikeRename d i t) := by
  rcases copyAndUnlink_copied (fileAt_file hs hi) h with ⟨hno, -⟩ |
    ⟨u, j, f, e, d2, r, hr, hlead, hc, hdone, rfl⟩
  · cases hno
  cases hdone rfl
  obtain ⟨t, ht, hu⟩ := Option.bind_eq_some_iff.1 hlead
  -- the source's slot holds a file, its own or the one that was written
  have hunlink : tryUnlink names r src d2 = d2.remove s := by
    refine tryUnlink_ok (hok r hr) hs (.inl ?_)
    rw [hc.wrote.entry_eq]
    split
    · exact ⟨j, rfl⟩
    · exact ⟨i, hi⟩
  rw [if_pos rfl, hunlink]
  have hhere : (∀ text, d.entry t ≠ some (.link text)) → u = t := fun hlink =>
    follow_unique hu (follow_here (n := 0) hlink)
  have hrename : mayReplace (d.entry s) (d.entry t) = true →
      rename names d src dest = some (if sameEntry d s t then d else d.move s t) := by
    intro hmay
    rw [rename, hs, ht]
    exact if_pos hmay
  refine ⟨t, if sameEntry d s t then d else d.move s t, ht, ?_⟩
  cases he : d.entry t with
  | none =>
      obtain rfl : u = t := hhere fun text => by rw [he]; simp
      have hst : s ≠ u := by
        rintro rfl
        rw [hi] at he
        cases he
      have hdiff : sameEntry d s u = false := by simp [sameEntry, hi, he, hst]
      refine ⟨hrename (by rw [hi, he]; rfl), ?_⟩
      rw [hdiff, if_neg Bool.false_ne_true, sameView_iff hc.wrote hst hi]
      exact likeRename_absent hc hi he
  | some e =>
      cases e with
      | dir k =>
          -- a directory is not opened for writing
          obtain rfl : u = t := hhere fun text => by rw [he]; simp
          cases hc.was_file he
      | link text =>
          have hne : t ≠ u := by
            rintro rfl
            exact follow_end hu text he
          have hst : t ≠ s := by
            rintro rfl
            rw [hi] at he
            cases he
          have hdiff : sameEntry d s t = false := by simp [sameEntry, hi, he, hst.symm]
          refine ⟨hrename (by rw [hi, he]; rfl), ?_⟩
          rw [hdiff, if_neg Bool.false_ne_true, LikeRename, he]
          exact iff_of_false (not_sameView_link hc.wrote hne hst hi he) not_false
      | file k =>
          obtain rfl : u = t := hhere fun text => by rw [he]; simp
          cases hc.was_file he
          refine ⟨hrename (by rw [hi, he]; rfl), ?_⟩
          by_cases hji : j = i
          · -- one file: a rename does nothing, and the fallback removes the source
            have hsame : sameEntry d s u = true := by simp [sameEntry, hi, he, hji]
            rw [hsame, if_pos rfl, LikeRename, he]
            refine iff_of_false (fun hall => ?_) (fun hlike => hlike.1 hji)
            have hview := hall s
            rw [view_remove, if_pos rfl, view_file hi] at hview
            cases hview
          · have hdiff : sameEntry d s u = false := by simp [sameEntry, hi, he, Ne.symm hji]
            rw [hdiff, if_neg Bool.false_ne_true, sameView_iff hc.wrote (hc.ne_slot hi hji) hi]
            exact likeRename_file hc hi he hji

end

/-- Two calls of `open`, `read`, `write`, `read` and `unlink`. -/
def sixCalls : List Reply := List.replicate 6 (.ok 4096)

/-- Onto the absent `c`. -/
theorem copyAndUnlink_sameView_iff_absent :
    ∃ rs' d' t dr, copyAndUnlink threeNames [97] [99] sixCalls danglingDisk =
        some (true, rs', d') ∧
      threeNames.slot [99] = some t ∧ rename threeNames danglingDisk [97] [99] = some dr ∧
      ∀ u, view d' u = view dr u := by
  have hrun : ((copyAndUnlink threeNames [97] [99] sixCalls danglingDisk).any fun x => x.1) =
      true := by
    decide +kernel
  obtain ⟨⟨ok, rs', d'⟩, hx, rfl⟩ := (Option.any_eq_true _ _).1 hrun
  have hs : threeNames.slot [97] = some 0 := rfl
  have hi : danglingDisk.entry 0 = some (.file 0) := rfl
  obtain ⟨t, dr, ht, hdr, hiff⟩ := copyAndUnlink_sameView_iff hs hi (by decide) hx
  have hlike : LikeRename danglingDisk 0 t := by
    cases ht
    show (0o644 : BitVec 9) &&& ~~~ 0o022 = 0o644
    decide
  exact ⟨rs', d', t, dr, hx, ht, hdr, hiff.2 hlike⟩

/-- Onto the link `b`: it stays a link, and the bytes are in `c`. -/
theorem fallback_writes_through_link :
    ∃ rs' d' dr, copyAndUnlink threeNames [97] [98] sixCalls danglingDisk =
        some (true, rs', d') ∧
      rename threeNames danglingDisk [97] [98] = some dr ∧
      view d' 1 = some (.link [99]) ∧ view dr 1 = some (.file ⟨[104, 105], 0o644⟩) ∧
      view d' 2 = some (.file ⟨[104, 105], 0o644⟩) ∧ view dr 2 = none := by
  have hrun : ((copyAndUnlink threeNames [97] [98] sixCalls danglingDisk).any fun x =>
      x.1 && (rename threeNames danglingDisk [97] [98]).any fun dr =>
        decide (view x.2.2 1 = some (.link [99]) ∧
          view dr 1 = some (.file ⟨[104, 105], 0o644⟩) ∧
          view x.2.2 2 = some (.file ⟨[104, 105], 0o644⟩) ∧ view dr 2 = none)) = true := by
    decide +kernel
  obtain ⟨⟨ok, rs', d'⟩, hx, hboth⟩ := (Option.any_eq_true _ _).1 hrun
  obtain ⟨hok, hdr⟩ := (Bool.and_eq_true _ _).mp hboth
  obtain ⟨dr, hren, hviews⟩ := (Option.any_eq_true _ _).1 hdr
  cases hok
  exact ⟨rs', d', dr, hx, hren, of_decide_eq_true hviews⟩

end G9OS.Tools
