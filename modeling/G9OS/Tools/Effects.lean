import G9OS.Tools.ExitStatus

/-! # What the two programs write to, and what a failed move leaves

`dest_path` holds `PATH_MAX - 1` bytes of the name it is given, and what it holds is again a
path. The fallback of `move_file` empties its destination before it has read anything.
-/

namespace G9OS.Tools

open Lib

/-! ## The entries and files that are written -/

section
variable {S : Type} (names : Names S)

def IsDirectory (d : Disk S) (p : Pathname) : Prop :=
  ∃ st, stat names d p = some st ∧ st.isDir = true

/-- The path that the caller means: the destination itself, or the source's name in the directory
that it is. -/
def Named (d : Disk S) (src dest p : Pathname) : Prop :=
  p = dest ∨ IsDirectory names d dest ∧ p = dest ++ slash :: basename src

def Aimed (d : Disk S) (src dest : Pathname) (u : S) : Prop :=
  ∃ p, Named names d src dest p ∧ names.slot p = some u

/-- The entry is as it was, and so is the file that it names. -/
def Untouched (d d' : Disk S) (u : S) : Prop :=
  d'.entry u = d.entry u ∧ ∀ j, d.entry u = some (.file j) → d'.inode j = d.inode j

variable [DecidableEq S]

/-- Whatever happens, `custom_cp` changes no other entry and no file of another entry. -/
def CpConfined (d : Disk S) (src dest : Pathname) : Prop :=
  ∀ interactive answer rs e rs' d',
    copyFile names interactive answer src dest rs d = some (e, rs', d') →
    ∀ u, Untouched d d' u ∨ Aimed names d src dest u

/-- Nor does `custom_mv`, but that it removes the entry of the source. -/
def MvConfined (d : Disk S) (src dest : Pathname) : Prop :=
  ∀ interactive answer rs e rs' d',
    moveFile names interactive answer src dest rs d = some (e, rs', d') →
    ∀ u, Untouched d d' u ∨ Aimed names d src dest u ∨
      names.slot src = some u ∧ d'.entry u = none

/-! When they do. -/

def NoBytes (d : Disk S) (src : Pathname) : Prop := ∀ b, contents names d src = some b → b = []

/-- `dest_path` leads to the entry that is meant, if a file is made there. All entries of a file
that is there are meant, unless the file is empty and nothing is copied. -/
def OpensAimed (d : Disk S) (src dest : Pathname) : Prop :=
  ∀ t, lead names d (destPath names d src dest) = some t →
    (d.entry t = none → Aimed names d src dest t) ∧
    ∀ j u, d.entry t = some (.file j) → d.entry u = some (.file j) →
      Aimed names d src dest u ∨ (d.inode j).bytes = [] ∧ NoBytes names d src

/-- The entry of `dest_path` itself is meant, if the source can be renamed to it, or is the same as
that of the source. -/
def RenamesAimed (d : Disk S) (src dest : Pathname) : Prop :=
  ∀ s t, names.slot src = some s → names.slot (destPath names d src dest) = some t →
    mayReplace (d.entry s) (d.entry t) = true →
    Aimed names d src dest t ∨ d.entry t = d.entry s

/-- It is meant if a fallback that fails can unlink it, or is the source's own. -/
def UnlinksAimed (d : Disk S) (src dest : Pathname) : Prop :=
  ∀ t, Writable names d (destPath names d src dest) →
    names.slot (destPath names d src dest) = some t →
    Aimed names d src dest t ∨ names.slot src = some t

/-- The source exists and is not found to be the destination. -/
def Proceeds (d : Disk S) (src dest : Pathname) : Prop :=
  ∃ st, stat names d src = some st ∧ (destination names d st src dest).2 = false

/-- And `dest_path` can be opened for writing. -/
def CpWrites (d : Disk S) (src dest : Pathname) : Prop :=
  ∃ st, stat names d src = some st ∧ (destination names d st src dest).2 = false ∧
    Writable names d (destPath names d src dest)

/-- The name fits into `dest_path`, or the directory's name fills it. -/
def Fits (d : Disk S) (src dest : Pathname) : Prop :=
  dest.length < PATH_MAX ∧ (IsDirectory names d dest →
    dest.length = PATH_MAX - 1 ∨ (dest ++ slash :: basename src).length < PATH_MAX)

/-- The path is no symbolic link, and no other entry has its file. -/
def Sole (d : Disk S) (p : Pathname) : Prop :=
  ∀ t, names.slot p = some t → (∀ text, d.entry t ≠ some (.link text)) ∧
    ∀ j u, d.entry t = some (.file j) → d.entry u = some (.file j) → u = t

end

section
variable {S : Type} [DecidableEq S] {names : Names S} {d d' d1 : Disk S} {src dest p : Pathname}
  {rs rs' : List Reply} {interactive : Bool} {answer : Option UInt8} {perm : BitVec 9}
  {s t u : S} {fd : Handle} {j : Nat} {e : CopyEnd}

/-! ### What a run changes -/

omit [DecidableEq S] in
theorem Untouched.refl (d : Disk S) (u : S) : Untouched d d u := ⟨rfl, fun _ _ => rfl⟩

omit [DecidableEq S] in
theorem contents_of_openRead {i : Nat} (h : openRead names d p = some (.file i)) :
    contents names d p = some (d.inode i).bytes := by
  unfold openRead at h
  unfold contents fileAt
  split at h
  · rename_i k hk
    cases h
    rw [hk]
    rfl
  · cases h
  · cases h

/-- What the copy leaves from the opening of the destination to the end of the loop. -/
theorem wrote_of_copyLoop (hread : openRead names d src = some fd)
    (hopen : openTrunc names d p perm = some (j, d1))
    (hloop : copyLoop fd j rs [] 0 0 d1 = some (e, rs', d')) :
    ∃ t f, lead names d p = some t ∧ Wrote d t j f d' ∧
      (d.entry t = none ∧ j = d.next ∨ d.entry t = some (.file j) ∧
        ((d.inode j).bytes = [] → NoBytes names d src → f = d.inode j)) := by
  obtain ⟨t, ht, hwrote⟩ := openTrunc_spec hopen
  obtain ⟨q, hwrote, hopened⟩ : ∃ q, Wrote d t j ⟨[], q⟩ d1 ∧
      (d.entry t = none ∧ j = d.next ∨ d.entry t = some (.file j) ∧ q = (d.inode j).perm) := by
    rcases hwrote with ⟨hnone, hnext, hw⟩ | ⟨hfile, hw⟩
    · exact ⟨_, hw, .inl ⟨hnone, hnext⟩⟩
    · exact ⟨_, hw, .inr ⟨hfile, rfl⟩⟩
  by_cases hnothing : ∀ i, fd = .file i → (d1.inode i).bytes = []
  · have hsame : d' = d1 := copyLoop_nothing hnothing hloop
    subst hsame
    refine ⟨t, _, ht, hwrote, hopened.imp_right fun ⟨hfile, hq⟩ => ⟨hfile, fun hempty _ => ?_⟩⟩
    exact Inode.ext hempty.symm hq
  · obtain ⟨i, rfl, hbytes⟩ : ∃ i, fd = .file i ∧ (d1.inode i).bytes ≠ [] := by
      simpa using hnothing
    have hij : i ≠ j := by
      rintro rfl
      rw [hwrote.inode_eq, if_pos rfl] at hbytes
      exact hbytes rfl
    rw [hwrote.inode_eq, if_neg hij] at hbytes
    have hempty : (d1.inode j).bytes = [] := by rw [hwrote.inode_eq, if_pos rfl]
    obtain ⟨w, rfl, -⟩ := copyLoop_spec hij (by rw [hempty]; rfl) hloop
    refine ⟨t, _, ht, hwrote.setBytes _, hopened.imp_right fun ⟨hfile, _⟩ => ⟨hfile, ?_⟩⟩
    intro _ hno
    exact absurd (hno _ (contents_of_openRead hread)) hbytes

theorem OpensAimed.untouched (h : OpensAimed names d src dest)
    (hread : openRead names d src = some fd)
    (hopen : openTrunc names d (destPath names d src dest) perm = some (j, d1))
    (hloop : copyLoop fd j rs [] 0 0 d1 = some (e, rs', d')) (u : S) :
    Untouched d d' u ∨ Aimed names d src dest u := by
  obtain ⟨t, f, ht, hwrote, hopened⟩ := wrote_of_copyLoop hread hopen hloop
  obtain ⟨hnew, hold⟩ := h t ht
  by_cases haimed : Aimed names d src dest u
  · exact .inr haimed
  · refine .inl ⟨?_, fun k hk => ?_⟩
    · rw [hwrote.entry_eq]
      split
      · rename_i hut
        subst hut
        rcases hopened with ⟨hnone, -⟩ | ⟨hfile, -⟩
        · exact absurd (hnew hnone) haimed
        · exact hfile.symm
      · rfl
    · rw [hwrote.inode_eq]
      split
      · rename_i hkj
        subst hkj
        rcases hopened with ⟨-, hnext⟩ | ⟨hfile, hsame⟩
        · exact absurd (d.used u k hk) (by omega)
        · obtain ⟨hempty, hno⟩ := (hold k u hfile hk).resolve_left haimed
          exact hsame hempty hno
      · rfl

theorem cpConfined_of (h : Proceeds names d src dest → OpensAimed names d src dest) :
    CpConfined names d src dest := by
  intro interactive answer rs e rs' d' hrun u
  cases copyFile_exit hrun with
  | noSource hst => exact .inl (.refl d u)
  | same hst hsame => exact .inl (.refl d u)
  | declined hst hsame hno => exact .inl (.refl d u)
  | noRead hst hsame hopen => exact .inl (.refl d u)
  | noWrite hst hsame hopen => exact .inl (.refl d u)
  | looped hst hsame hread hwrite hloop => exact (h ⟨_, hst, hsame⟩).untouched hread hwrite hloop u

theorem Untouched.remove (h : Untouched d d' u) (hne : u ≠ s) : Untouched d (d'.remove s) u := by
  refine ⟨?_, h.2⟩
  rw [entry_remove, if_neg hne]
  exact h.1

theorem mvConfined_of (h : Proceeds names d src dest → OpensAimed names d src dest ∧
    RenamesAimed names d src dest ∧ UnlinksAimed names d src dest) :
    MvConfined names d src dest := by
  intro interactive answer rs e rs' d' hrun u
  cases moveFile_exit hrun with
  | noSource hst => exact .inl (.refl d u)
  | same hst hsame => exact .inl (.refl d u)
  | declined hst hsame hno => exact .inl (.refl d u)
  | refused hst hsame hr hrename => exact .inl (.refl d u)
  | renamed hst hsame hr hrename =>
      obtain ⟨-, hren, -⟩ := h ⟨_, hst, hsame⟩
      obtain ⟨s, t, hs, ht, hmay, rfl⟩ := rename_spec hrename
      split
      · exact .inl (.refl d u)
      · by_cases hut : u = t
        · subst hut
          rcases hren s u hs ht hmay with haimed | heq
          · exact .inr (.inl haimed)
          · refine .inl ⟨?_, fun _ _ => rfl⟩
            rw [entry_move, if_pos rfl, heq]
        · by_cases hus : u = s
          · subst hus
            refine .inr (.inr ⟨hs, ?_⟩)
            rw [entry_move, if_neg hut, if_pos rfl]
          · refine .inl ⟨?_, fun _ _ => rfl⟩
            rw [entry_move, if_neg hut, if_neg hus]
  | crossed hst hsame hcopy =>
      obtain ⟨hopens, -, hunlinks⟩ := h ⟨_, hst, hsame⟩
      rcases copyAndUnlink_cases hcopy with ⟨-, rfl⟩ |
        ⟨st, srcfd, destfd, d1, rs1, e, r, d2, hst', hread, hopen, -, hloop, hend⟩
      · exact .inl (.refl _ u)
      · have hcopied := hopens.untouched hread hopen hloop u
        -- the entry that is removed at the end is the source's, or that of the destination
        have hremoved : ∀ q, d' = tryUnlink names r q d2 →
            (∀ s, names.slot q = some s → Aimed names d src dest s ∨ names.slot src = some s) →
            Untouched d d' u ∨ Aimed names d src dest u ∨
              names.slot src = some u ∧ d'.entry u = none := by
          intro q hq hslot
          rcases tryUnlink_cases names r q d2 with hno | ⟨s, hs, hyes⟩
          · rw [hq, hno]
            exact hcopied.imp_right .inl
          · rw [hq, hyes]
            by_cases hus : u = s
            · subst hus
              rcases hslot u hs with haimed | hsrc
              · exact .inr (.inl haimed)
              · exact .inr (.inr ⟨hsrc, by rw [entry_remove, if_pos rfl]⟩)
            · exact hcopied.imp (fun h => h.remove hus) .inl
        rcases hend with ⟨-, -, hd⟩ | ⟨-, -, hd⟩
        · exact hremoved src hd fun s hs => .inr hs
        · exact hremoved _ hd fun s hs => hunlinks s (openTrunc_writable.1 ⟨_, hopen⟩) hs

/-! ### The runs that show it -/

omit [DecidableEq S] in
theorem openRead_of_stat {st : Stat} (h : stat names d p = some st) :
    ∃ fd, openRead names d p = some fd := by
  unfold stat at h
  unfold openRead
  split at h
  · exact ⟨_, rfl⟩
  · exact ⟨_, rfl⟩
  · cases h

omit [DecidableEq S] in
theorem copyLoop_fail (hr : List Reply) : copyLoop fd j (.fail :: hr) [] 0 0 d =
    some (.readError, hr, d) := by
  cases fd with
  | file i => rfl
  | dir => rfl

/-- The loop can change a file that is not empty or for which there are bytes. -/
theorem copyLoop_changes (hread : openRead names d src = some fd)
    (hopen : openTrunc names d p perm = some (j, d1)) (ht : lead names d p = some t)
    (hfile : d.entry t = some (.file j))
    (hchange : ¬ ((d.inode j).bytes = [] ∧ NoBytes names d src)) (rest : List Reply) :
    ∃ rs e d2, e ≠ .done ∧ copyLoop fd j (rs ++ rest) [] 0 0 d1 = some (e, rest, d2) ∧
      d2.entry = d.entry ∧ d2.inode j ≠ d.inode j := by
  have hd1 : d1 = d.setBytes j [] := by
    rw [openTrunc, ht] at hopen
    dsimp only at hopen
    rw [hfile] at hopen
    exact (congrArg Prod.snd (Option.some.inj hopen)).symm
  subst hd1
  by_cases hempty : (d.inode j).bytes = []
  · -- the source has a byte, which is read and written before the next `read` fails
    have hsome : ∃ b, contents names d src = some b ∧ b ≠ [] := by
      by_contra hno
      exact hchange ⟨hempty, fun b hb => by_contra fun hne => hno ⟨b, hb, hne⟩⟩
    obtain ⟨b, hb, hne⟩ := hsome
    obtain ⟨i, hi, rfl⟩ := contents_eq_some.1 hb
    rw [openRead_of_fileAt hi] at hread
    cases hread
    have hij : i ≠ j := by
      rintro rfl
      exact hne hempty
    obtain ⟨c, bs, hbs⟩ := List.exists_cons_of_ne_nil hne
    refine ⟨[.ok 1, .ok 1, .fail], .readError, (d.setBytes j []).setBytes j [c], by simp, ?_, rfl,
      ?_⟩
    · simp [copyLoop, readChunk, hij, hbs, writeAt]
    · rw [inode_setBytes, if_pos rfl]
      intro heq
      rw [← heq] at hempty
      cases hempty
  · refine ⟨[.fail], .readError, d.setBytes j [], by simp, copyLoop_fail rest, rfl, ?_⟩
    rw [inode_setBytes, if_pos rfl]
    intro heq
    exact hempty (by rw [← heq])

theorem copyFile_opened {st : Stat} (rs : List Reply) (hst : stat names d src = some st)
    (hother : (destination names d st src dest).2 = false)
    (hread : openRead names d src = some fd)
    (hopen : openTrunc names d (destPath names d src dest) st.perm = some (j, d1)) :
    copyFile names false none src dest (.ok 0 :: .ok 0 :: rs) d =
      (copyLoop fd j rs [] 0 0 d1).map fun x => (x.1.cpEnd, x.2) := by
  simp [copyFile, hst, hother, declines, Reply.gives, hread, destination_fst, hopen]

/-- A run of `move_file` in which the fallback opens both files and does not come to the end. -/
theorem moveFile_opened {st : Stat} {r : Reply} (hst : stat names d src = some st)
    (hother : (destination names d st src dest).2 = false)
    (hread : openRead names d src = some fd)
    (hopen : openTrunc names d (destPath names d src dest) st.perm = some (j, d1))
    (hloop : copyLoop fd j rs [] 0 0 d1 = some (e, [r], d')) (he : e ≠ .done) :
    moveFile names false none src dest (.exdev :: .ok 0 :: .ok 0 :: rs) d =
      some (.crossFailed, [], tryUnlink names r (destPath names d src dest) d') := by
  cases e with
  | done => exact absurd rfl he
  | readError | writeError =>
      simp [moveFile, hst, hother, declines, copyAndUnlink, Reply.gives, hread, destination_fst,
        hopen, hloop]

theorem CpConfined.opens (h : CpConfined names d src dest) (hp : Proceeds names d src dest) :
    OpensAimed names d src dest := by
  obtain ⟨st, hst, hother⟩ := hp
  obtain ⟨fd, hread⟩ := openRead_of_stat hst
  intro t ht
  refine ⟨fun hnone => ?_, fun j u hfile hu => ?_⟩
  · have hopen : openTrunc names d (destPath names d src dest) st.perm =
        some (d.next, d.create t st.perm) := by rw [openTrunc, ht]; dsimp only; rw [hnone]
    have hrun := copyFile_opened [.fail] hst hother hread hopen
    rw [copyLoop_fail] at hrun
    refine (h _ _ _ _ _ _ hrun t).resolve_left fun hsame => ?_
    have hentry : (d.create t st.perm).entry t = some (.file d.next) := Function.update_self ..
    rw [Untouched, hentry, hnone] at hsame
    cases hsame.1
  · have hopen : openTrunc names d (destPath names d src dest) st.perm =
        some (j, d.setBytes j []) := by rw [openTrunc, ht]; dsimp only; rw [hfile]
    by_contra hno
    obtain ⟨haimed, hchange⟩ := not_or.1 hno
    obtain ⟨rs, e, d2, -, hloop, -, hne⟩ := copyLoop_changes hread hopen ht hfile hchange []
    have hrun := copyFile_opened (rs ++ []) hst hother hread hopen
    rw [hloop] at hrun
    exact hne (((h _ _ _ _ _ _ hrun u).resolve_right haimed).2 j hu)

theorem MvConfined.opens (h : MvConfined names d src dest) (hp : Proceeds names d src dest) :
    OpensAimed names d src dest := by
  obtain ⟨st, hst, hother⟩ := hp
  obtain ⟨fd, hread⟩ := openRead_of_stat hst
  intro t ht
  refine ⟨fun hnone => ?_, fun j u hfile hu => ?_⟩
  · have hopen : openTrunc names d (destPath names d src dest) st.perm =
        some (d.next, d.create t st.perm) := by rw [openTrunc, ht]; dsimp only; rw [hnone]
    have hrun := moveFile_opened (r := .fail) hst hother hread hopen
      (copyLoop_fail [.fail]) (by simp)
    have hentry : (tryUnlink names .fail (destPath names d src dest)
        (d.create t st.perm)).entry t = some (.file d.next) := Function.update_self ..
    rcases h _ _ _ _ _ _ hrun t with hsame | haimed | ⟨-, hgone⟩
    · rw [Untouched, hentry, hnone] at hsame
      cases hsame.1
    · exact haimed
    · rw [hentry] at hgone
      cases hgone
  · have hopen : openTrunc names d (destPath names d src dest) st.perm =
        some (j, d.setBytes j []) := by rw [openTrunc, ht]; dsimp only; rw [hfile]
    by_contra hno
    obtain ⟨haimed, hchange⟩ := not_or.1 hno
    obtain ⟨rs, e, d2, he, hloop, hentry, hne⟩ :=
      copyLoop_changes hread hopen ht hfile hchange [.fail]
    have hrun := moveFile_opened hst hother hread hopen hloop he
    rcases h _ _ _ _ _ _ hrun u with hsame | hmeant | ⟨-, hgone⟩
    · exact hne (hsame.2 j hu)
    · exact haimed hmeant
    · have hgone' : d2.entry u = none := hgone
      rw [hentry, hu] at hgone'
      cases hgone'

theorem MvConfined.renames (h : MvConfined names d src dest) (hp : Proceeds names d src dest) :
    RenamesAimed names d src dest := by
  obtain ⟨st, hst, hother⟩ := hp
  intro s t hs ht hmay
  cases hentry : sameEntry d s t with
  | true =>
      right
      unfold sameEntry at hentry
      split at hentry
      · rename_i i j hi hj
        rw [hi, hj, beq_iff_eq.1 hentry]
      · rw [of_decide_eq_true hentry]
  | false =>
      have hrun : moveFile names false none src dest [.ok 0] d =
          some (.moved, [], d.move s t) := by
        simp [moveFile, hst, hother, declines, Reply.gives, destination_fst, rename, hs, ht, hmay,
          hentry]
      rcases h _ _ _ _ _ _ hrun t with hsame | haimed | ⟨hsrc, -⟩
      · have hmoved := hsame.1
        rw [entry_move, if_pos rfl] at hmoved
        exact .inr hmoved.symm
      · exact .inl haimed
      · rw [hs] at hsrc
        cases hsrc
        exact .inr rfl

omit [DecidableEq S] in
theorem Writable.slot (hw : Writable names d p) : ∃ t, names.slot p = some t := by
  obtain ⟨u, hu, -⟩ := hw
  obtain ⟨t, ht, -⟩ := Option.bind_eq_some_iff.1 hu
  exact ⟨t, ht⟩

/-- The run that opens an existing destination, fails to read and unlinks it. -/
theorem moveFile_destroys {st : Stat} {t : S} {x : Entry} (hst : stat names d src = some st)
    (hother : (destination names d st src dest).2 = false)
    (hw : Writable names d (destPath names d src dest))
    (ht : names.slot (destPath names d src dest) = some t) (hx : d.entry t = some x) :
    ∃ d1, moveFile names false none src dest [.exdev, .ok 0, .ok 0, .fail, .ok 0] d =
      some (.crossFailed, [], Disk.remove d1 t) := by
  obtain ⟨fd, hread⟩ := openRead_of_stat hst
  have hopens : ∃ x, openTrunc names d (destPath names d src dest) st.perm = some x :=
    openTrunc_writable.2 hw
  obtain ⟨⟨j, d1⟩, hopen⟩ := hopens
  obtain ⟨u, hu, hwrote⟩ := openTrunc_spec hopen
  obtain ⟨f, hwrote, hfile⟩ : ∃ f, Wrote d u j f d1 ∧ ∀ y, d.entry u = some y → y = .file j := by
    rcases hwrote with ⟨hnone, -, hw⟩ | ⟨hfile, hw⟩
    · exact ⟨_, hw, fun y hy => by rw [hnone] at hy; cases hy⟩
    · exact ⟨_, hw, fun y hy => Option.some.inj (hy.symm.trans hfile)⟩
  -- its own entry is still a file or a link, which can be unlinked
  have hentry : (∃ i, d1.entry t = some (.file i)) ∨ ∃ text, d1.entry t = some (.link text) := by
    by_cases hut : t = u
    · exact .inl ⟨j, by rw [hwrote.entry_eq, if_pos hut]⟩
    · rw [hwrote.entry_eq, if_neg hut, hx]
      have hlink : ∃ text, d.entry t = some (.link text) := by
        by_contra hno
        rw [lead, ht, Option.bind_some, follow_here fun text he => hno ⟨text, he⟩] at hu
        exact hut (Option.some.inj hu)
      obtain ⟨text, htext⟩ := hlink
      exact .inr ⟨text, hx ▸ htext⟩
  have hread0 : readChunk d1 fd 0 .fail = none := by
    cases fd with
    | file i => rfl
    | dir => rfl
  refine ⟨d1, ?_⟩
  simp [moveFile, hst, hother, declines, destination_fst, copyAndUnlink, Reply.gives, hread, hopen,
    copyLoop, hread0, tryUnlink, unlink_of_entry ht hentry]

theorem MvConfined.unlinks (h : MvConfined names d src dest) (hp : Proceeds names d src dest) :
    UnlinksAimed names d src dest := by
  have hopens := h.opens hp
  obtain ⟨st, hst, hother⟩ := hp
  intro t hw ht
  cases hx : d.entry t with
  | none =>
      have hlead : lead names d (destPath names d src dest) = some t := by
        rw [lead, ht, Option.bind_some]
        exact follow_here fun text => by rw [hx]; simp
      exact .inl ((hopens t hlead).1 hx)
  | some x =>
      obtain ⟨d1, hrun⟩ := moveFile_destroys hst hother hw ht hx
      have hgone : (d1.remove t).entry t = none := by rw [entry_remove, if_pos rfl]
      rcases h _ _ _ _ _ _ hrun t with hsame | haimed | ⟨hsrc, -⟩
      · rw [Untouched, hgone, hx] at hsame
        cases hsame.1
      · exact .inl haimed
      · exact .inr hsrc

/-! ### Names that fit -/

theorem cut_eq_self_iff : cut p = p ↔ p.length < PATH_MAX := by
  constructor
  · intro h
    have hlen : (cut p).length ≤ PATH_MAX - 1 := List.length_take_le ..
    rw [h] at hlen
    exact Nat.lt_succ_of_le hlen
  · exact cut_short

omit [DecidableEq S] in
theorem destPath_named_iff :
    Named names d src dest (destPath names d src dest) ↔ Fits names d src dest := by
  unfold Named Fits IsDirectory destPath
  cases hst : stat names d dest with
  | none => simp [cut_eq_self_iff]
  | some st =>
      have hlen : dest.length < PATH_MAX := by
        by_contra hlong
        rw [stat_tooLong (not_lt.1 hlong)] at hst
        cases hst
      by_cases hdir : st.isDir = true
      · -- the directory's own name is what is left only if it fills the buffer
        have hself : cut (dest ++ slash :: basename src) = dest ↔ dest.length = PATH_MAX - 1 := by
          constructor
          · intro h
            have hcut := congrArg List.length h
            rw [cut, List.length_take, List.length_append, List.length_cons] at hcut
            omega
          · exact fun h => List.take_left' h
        simp [hdir, hlen, hself, cut_eq_self_iff]
      · simp [hdir, hlen, cut_eq_self_iff]

omit [DecidableEq S] in
theorem opensAimed_of_fits (hfits : Fits names d src dest)
    (hsole : Sole names d (destPath names d src dest)) : OpensAimed names d src dest := by
  intro t ht
  obtain ⟨t', ht', hfollow⟩ := Option.bind_eq_some_iff.1 ht
  obtain ⟨hlink, halone⟩ := hsole t' ht'
  rw [follow_here hlink] at hfollow
  cases hfollow
  have haimed : Aimed names d src dest t := ⟨_, destPath_named_iff.2 hfits, ht'⟩
  refine ⟨fun _ => haimed, fun j u hfile hu => .inl ?_⟩
  rwa [halone j u hfile hu]

/-- What the programs change on the disk is confined to the entry that the caller means and to its
file, in every run, exactly under the conditions on the right. It is enough that the name fits into
`dest_path`, and is neither a symbolic link nor one of several names of a file. -/
theorem confined_iff (names : Names S) (d : Disk S) (src dest : Pathname) :
    (CpConfined names d src dest ↔
      (Proceeds names d src dest → OpensAimed names d src dest)) ∧
    (MvConfined names d src dest ↔
      (Proceeds names d src dest → OpensAimed names d src dest ∧
        RenamesAimed names d src dest ∧ UnlinksAimed names d src dest)) ∧
    (Fits names d src dest → Sole names d (destPath names d src dest) →
      CpConfined names d src dest ∧ MvConfined names d src dest) := by
  refine ⟨⟨fun h => h.opens, cpConfined_of⟩,
    ⟨fun h hp => ⟨h.opens hp, h.renames hp, h.unlinks hp⟩, mvConfined_of⟩, fun hfits hsole => ?_⟩
  have haimed : ∀ t, names.slot (destPath names d src dest) = some t →
      Aimed names d src dest t := fun t ht => ⟨_, destPath_named_iff.2 hfits, ht⟩
  have hopens := opensAimed_of_fits hfits hsole
  exact ⟨cpConfined_of fun _ => hopens, mvConfined_of fun _ =>
    ⟨hopens, fun s t _ ht _ => .inl (haimed t ht), fun t _ ht => .inl (haimed t ht)⟩⟩

end

/-- `./` as often as it fits, and `xx`: 4096 bytes. -/
def longName : Pathname := (List.replicate 2047 [dot, slash]).flatten ++ [120, 120]

/-- The file at the first 4095 bytes of the name is emptied. -/
theorem overlong_name_writes_elsewhere :
    ∃ e rs' d' u, copyFile twoNames false none [97] longName [.ok 0, .ok 0, .ok 0] linkedDisk =
        some (e, rs', d') ∧ ¬ Untouched linkedDisk d' u ∧
      ¬ Aimed twoNames linkedDisk [97] longName u := by
  have hlong : longName.length = PATH_MAX := by decide +kernel
  have hrun : (copyFile twoNames false none [97] longName [.ok 0, .ok 0, .ok 0] linkedDisk).map
      (fun x => (x.2.2.inode 0).bytes) = some [] := by
    set_option maxRecDepth 100000 in decide +kernel
  obtain ⟨⟨e, rs', d'⟩, hx, hempty⟩ := Option.map_eq_some_iff.1 hrun
  refine ⟨e, rs', d', false, hx, fun hsame => ?_, ?_⟩
  · have hinode := hsame.2 0 rfl
    dsimp only at hempty
    rw [hinode] at hempty
    cases hempty
  · rintro ⟨p, rfl | ⟨⟨st, hst, -⟩, -⟩, hp⟩
    · rw [twoNames.tooLong _ hlong.ge] at hp
      cases hp
    · rw [stat_tooLong hlong.ge] at hst
      cases hst

-- a copy to `b`, which is a symbolic link to `c`, makes the file `c`
example : ∃ d', copyFile threeNames false none [97] [98] [.ok 0, .ok 0, .fail] danglingDisk =
    some (.readError, [], d') ∧ danglingDisk.entry 2 = none ∧ d'.entry 2 = some (.file 1) :=
  ⟨_, rfl, rfl, rfl⟩

/-! ## What a failed move leaves -/

section
variable {S : Type} [DecidableEq S] (names : Names S)

/-- What is seen under a path: its own entry, and the file that it leads to. -/
def shows (d : Disk S) (p : Pathname) : Option View × Option Inode :=
  ((names.slot p).bind (view d), (fileAt names d p).map d.inode)

/-- The path has no entry, not even a link. -/
def Absent (d : Disk S) (p : Pathname) : Prop := (names.slot p).bind d.entry = none

/-- The reply to the `unlink(dest)` of a copy that fails. -/
def cleanupReply (src path : Pathname) (rs : List Reply) (d : Disk S) : Option Reply :=
  match stat names d src, rs with
  | some stSrc, r1 :: r2 :: rs =>
      match r1.gives (openRead names d src), r2.gives (openTrunc names d path stSrc.perm) with
      | some srcfd, some (destfd, d1) =>
          match copyLoop srcfd destfd rs [] 0 0 d1 with
          | some (.done, _, _) => none
          | some (_, r :: _, _) => some r
          | _ => none
      | _, _ => none
  | _, _ => none

/-- If the run has created the destination, then it can unlink it. -/
def Unlinks (d : Disk S) (src dest : Pathname) : List Reply → Prop
  | .exdev :: rs => Absent names d (destPath names d src dest) →
      ∀ r, cleanupReply names src (destPath names d src dest) rs d = some r → r.isOk = true
  | _ => True

/-- A move that reports an error leaves both paths as they were. -/
def Atomic (d : Disk S) (src dest : Pathname) : Prop :=
  ∀ interactive answer rs e rs' d',
    moveFile names interactive answer src dest rs d = some (e, rs', d') →
    e.message ≠ none → Unlinks names d src dest rs →
    shows names d' src = shows names d src ∧
      shows names d' (destPath names d src dest) = shows names d (destPath names d src dest)

end

section
variable {S : Type} [DecidableEq S] {names : Names S} {d d' : Disk S} {src dest p : Pathname}
  {rs rs' : List Reply}

omit [DecidableEq S] in
/-- Only the entries and the files that are in use are seen. -/
theorem shows_congr (hentry : d'.entry = d.entry)
    (hinode : ∀ i < d.next, d'.inode i = d.inode i) : shows names d' p = shows names d p := by
  have hview : view d' = view d := by
    funext u
    unfold view
    rw [hentry]
    cases he : d.entry u with
    | none => rfl
    | some x =>
        cases x with
        | file i => simp [hinode i (d.used u i he)]
        | dir i => rfl
        | link text => rfl
  unfold shows
  rw [hview, fileAt_congr hentry]
  cases hf : fileAt names d p with
  | none => rfl
  | some i =>
      obtain ⟨t, -, ht⟩ := fileAt_eq_some.1 hf
      rw [Option.map_some, Option.map_some, hinode i (d.used t i ht)]

omit [DecidableEq S] in
theorem copyLoop_confined {h : Handle} {j : Nat} {e : CopyEnd} (hj : ∀ i, h = .file i → i ≠ j)
    (hempty : (d.inode j).bytes = [])
    (hloop : copyLoop h j rs [] 0 0 d = some (e, rs', d')) : ∃ w, d' = d.setBytes j w := by
  cases h with
  | dir =>
      have hsame : d' = d := copyLoop_nothing (fun i hi => by cases hi) hloop
      exact ⟨[], by rw [hsame, ← hempty, setBytes_self]⟩
  | file i =>
      obtain ⟨w, hw, -⟩ := copyLoop_spec (hj i rfl) (by rw [hempty]; rfl) hloop
      exact ⟨_, hw⟩

/-- A fallback that fails has changed nothing, or it has opened the destination and ends with
the `unlink` of it. -/
theorem copyAndUnlink_failed (h : copyAndUnlink names src p rs d = some (false, rs', d')) :
    d' = d ∨ ∃ st fd j d1 rs1 e r d2, stat names d src = some st ∧
      openRead names d src = some fd ∧ openTrunc names d p st.perm = some (j, d1) ∧
      copyLoop fd j rs1 [] 0 0 d1 = some (e, r :: rs', d2) ∧
      cleanupReply names src p rs d = some r ∧ d' = tryUnlink names r p d2 := by
  unfold copyAndUnlink at h
  split at h
  · cases h
    exact .inl rfl
  · rename_i st hst
    split at h
    · cases h
    · split at h
      · cases h
        exact .inl rfl
      · rename_i fd hread
        split at h
        · cases h
        · split at h
          · cases h
            exact .inl rfl
          · rename_i j d1 hwrite
            split at h
            · cases h
            · cases h
            · cases h
            · rename_i e r rs2 d2 hne hloop
              cases h
              refine .inr ⟨st, fd, j, d1, _, e, r, d2, hst, Reply.gives_some hread,
                Reply.gives_some hwrite, hloop, ?_, rfl⟩
              unfold cleanupReply
              rw [hst]
              dsimp only
              rw [hread, hwrite]
              dsimp only
              rw [hloop]
              cases e with
              | done => exact absurd rfl hne
              | readError => rfl
              | writeError => rfl

omit [DecidableEq S] in
theorem openRead_lt {i : Nat} (h : openRead names d p = some (.file i)) : i < d.next := by
  unfold openRead at h
  split at h
  · rename_i k hk
    cases h
    obtain ⟨t, -, ht⟩ := Option.bind_eq_some_iff.1 hk
    exact d.used t i ht
  · cases h
  · cases h

/-- A file that did not exist before is created, filled and unlinked again. -/
theorem copyAndUnlink_undone {t : S} (ht : names.slot p = some t) (he : d.entry t = none)
    (hunlinks : ∀ r, cleanupReply names src p rs d = some r → r.isOk = true)
    (h : copyAndUnlink names src p rs d = some (false, rs', d')) (q : Pathname) :
    shows names d' q = shows names d q := by
  rcases copyAndUnlink_failed h with rfl |
    ⟨st, fd, j, d1, rs1, e, r, d2, hst, hread, hwrite, hloop, hr, rfl⟩
  · rfl
  · have hlead : lead names d p = some t := by
      rw [lead, ht, Option.bind_some]
      exact follow_here fun text => by rw [he]; simp
    obtain ⟨hj, hd1⟩ : j = d.next ∧ d1 = d.create t st.perm := by
      rw [openTrunc, hlead] at hwrite
      dsimp only at hwrite
      rw [he] at hwrite
      cases hwrite
      exact ⟨rfl, rfl⟩
    subst hj hd1
    have hconfined : ∃ w, d2 = (d.create t st.perm).setBytes d.next w := by
      refine copyLoop_confined (fun i hi => ?_) ?_ hloop
      · subst hi
        exact (openRead_lt hread).ne
      · show (Function.update d.inode d.next _ d.next).bytes = []
        rw [Function.update_self]
    obtain ⟨w, rfl⟩ := hconfined
    have hentry : ((d.create t st.perm).setBytes d.next w).entry =
        Function.update d.entry t (some (.file d.next)) := rfl
    rw [tryUnlink_ok (hunlinks r hr) ht (.inl ⟨d.next, by rw [hentry, Function.update_self]⟩)]
    refine shows_congr ?_ fun i hi => ?_
    · show Function.update (Function.update d.entry t _) t none = d.entry
      rw [Function.update_idem, ← he, Function.update_eq_self]
    · show Function.update (Function.update d.inode d.next _) d.next _ i = d.inode i
      rw [Function.update_of_ne hi.ne, Function.update_of_ne hi.ne]

/-- A failed move leaves both paths as they were, whatever the system calls answer, if and only
if the destination does not exist, unless it cannot be written at all. -/
theorem moveFile_atomic_iff (names : Names S) (d : Disk S) (src dest : Pathname) :
    Atomic names d src dest ↔
      (CpWrites names d src dest → Absent names d (destPath names d src dest)) := by
  constructor
  · rintro hall ⟨st, hst, hother, hw⟩
    obtain ⟨t, ht⟩ := hw.slot
    rw [Absent, ht, Option.bind_some]
    by_contra hsome
    obtain ⟨x, hx⟩ := Option.ne_none_iff_exists'.1 hsome
    obtain ⟨d1, hrun⟩ := moveFile_destroys hst hother hw ht hx
    have hunlinks : Unlinks names d src dest [.exdev, .ok 0, .ok 0, .fail, .ok 0] := by
      intro habsent
      rw [Absent, ht, Option.bind_some, hx] at habsent
      cases habsent
    have hdest := (hall _ _ _ _ _ _ hrun (by simp [MvEnd.message]) hunlinks).2
    have hview := congrArg Prod.fst hdest
    simp only [shows, ht, Option.bind_some, view_remove, if_pos] at hview
    rw [view, hx] at hview
    cases hview
  · intro hcond interactive answer rs e rs' d' hrun herr hunlinks
    cases moveFile_exit hrun with
    | noSource hst => exact ⟨rfl, rfl⟩
    | same hst hsame => exact ⟨rfl, rfl⟩
    | declined hst hsame hno => exact absurd rfl herr
    | refused hst hsame hr hrename => exact ⟨rfl, rfl⟩
    | renamed hst hsame hr hrename => exact absurd rfl herr
    | @crossed rs1 _ st ok _ hst hsame hcopy =>
        cases ok with
        | true => exact absurd rfl herr
        | false =>
            rcases copyAndUnlink_failed hcopy with
              rfl | ⟨st', fd, j, d1, _, _, _, _, -, -, hwrite, -⟩
            · exact ⟨rfl, rfl⟩
            · have hw : Writable names d (destPath names d src dest) :=
                openTrunc_writable.1 ⟨_, hwrite⟩
              have habsent := hcond ⟨st, hst, hsame, hw⟩
              obtain ⟨t, ht⟩ := hw.slot
              have he : d.entry t = none := by
                rw [Absent, ht, Option.bind_some] at habsent
                exact habsent
              exact ⟨copyAndUnlink_undone ht he (hunlinks habsent) hcopy _,
                copyAndUnlink_undone ht he (hunlinks habsent) hcopy _⟩

end

def twoFiles : Disk (Fin 3) where
  entry := ![some (.file 0), some (.file 1), none]
  inode := fun i => if i = 0 then ⟨[104, 105], 0o644⟩ else ⟨[104, 111], 0o600⟩
  next := 2
  umask := 0o022
  used := fun s i h => by
    fin_cases s
    · cases h
      exact Nat.two_pos
    · cases h
      exact Nat.one_lt_two
    · cases h

/-- `a` moved onto `b` on another file system, with an error of the first `read`: `b` is gone. -/
theorem failed_move_removes_destination :
    ∃ e rs' d', moveFile threeNames false none [97] [98]
        [.exdev, .ok 0, .ok 0, .fail, .ok 0] twoFiles = some (e, rs', d') ∧
      e.message ≠ none ∧ shows threeNames twoFiles [98] ≠ (none, none) ∧
      shows threeNames d' [98] = (none, none) := by
  have hrun : ((moveFile threeNames false none [97] [98]
      [.exdev, .ok 0, .ok 0, .fail, .ok 0] twoFiles).any fun x =>
        decide (x.1.message ≠ none ∧ shows threeNames twoFiles [98] ≠ (none, none) ∧
          shows threeNames x.2.2 [98] = (none, none))) = true := by
    decide +kernel
  obtain ⟨⟨e, rs', d'⟩, hx, hgone⟩ := (Option.any_eq_true _ _).1 hrun
  exact ⟨e, rs', d', hx, of_decide_eq_true hgone⟩

end G9OS.Tools
