import Mathlib

/-! # Files behind names

A path names a slot, which is an entry of some directory. An entry is a file, a directory or
a symbolic link, and one file may have several entries. What the directories make of a path
or of the text of a link is a parameter: the calls here add, replace and remove files and
links, and move no directory that a path runs through.
-/

namespace G9OS.Lib

variable {f : Inode} {j : Nat}

abbrev Pathname : Type := List UInt8

abbrev PATH_MAX : Nat := 4096

/-- The number of links that one path may run through. -/
abbrev MAXSYMLINKS : Nat := 40

structure Names (S : Type) where
  slot : Pathname → Option S
  /-- where the text of a link leads that stands in the slot -/
  target : S → Pathname → Option S
  /-- the longest path leaves room for its terminating zero -/
  tooLong : ∀ p, PATH_MAX ≤ p.length → slot p = none

/-- A directory entry. Inodes are numbered over all devices. -/
inductive Entry
  | file (ino : Nat)
  | dir (ino : Nat)
  | link (text : Pathname)
deriving DecidableEq, Repr

@[ext]
structure Inode where
  bytes : List UInt8
  perm : BitVec 9
deriving DecidableEq, Repr

/-- The entries and the inodes. Numbers from `next` on are not in use. -/
@[ext]
structure Disk (S : Type) where
  entry : S → Option Entry
  inode : Nat → Inode
  next : Nat
  umask : BitVec 9
  used : ∀ s i, entry s = some (.file i) → i < next

/-- The result that a system call is given: success, with a count where it transfers bytes,
or a failure. -/
inductive Reply
  | ok (count : Nat)
  | exdev
  | fail
deriving DecidableEq, Repr

/-- A call takes effect if the reply is success and the state permits it. -/
def Reply.gives {α : Type} : Reply → Option α → Option α
  | .ok _, x => x
  | _, _ => none

def Reply.isOk : Reply → Bool
  | .ok _ => true
  | _ => false

theorem Reply.gives_some {α : Type} {r : Reply} {x : Option α} {a : α}
    (h : r.gives x = some a) : x = some a := by
  cases r with
  | ok _ => exact h
  | exdev => cases h
  | fail => cases h

theorem Reply.gives_isOk {α : Type} {r : Reply} (h : r.isOk = true) (x : Option α) :
    r.gives x = x := by
  cases r with
  | ok _ => rfl
  | exdev => cases h
  | fail => cases h

namespace Disk

variable {S : Type}

def setBytes (d : Disk S) (i : Nat) (bytes : List UInt8) : Disk S :=
  { d with inode := Function.update d.inode i ⟨bytes, (d.inode i).perm⟩ }

variable [DecidableEq S]

def remove (d : Disk S) (s : S) : Disk S :=
  { d with
    entry := Function.update d.entry s none
    used := fun u i h => by
      by_cases hu : u = s
      · rw [hu, Function.update_self] at h
        cases h
      · rw [Function.update_of_ne hu] at h
        exact d.used u i h }

def move (d : Disk S) (s t : S) : Disk S :=
  { d with
    entry := Function.update (Function.update d.entry s none) t (d.entry s)
    used := fun u i h => by
      by_cases ht : u = t
      · rw [ht, Function.update_self] at h
        exact d.used s i h
      · rw [Function.update_of_ne ht] at h
        exact (d.remove s).used u i h }

def create (d : Disk S) (s : S) (perm : BitVec 9) : Disk S where
  entry := Function.update d.entry s (some (.file d.next))
  inode := Function.update d.inode d.next ⟨[], perm &&& ~~~ d.umask⟩
  next := d.next + 1
  umask := d.umask
  used := fun u i h => by
    by_cases hu : u = s
    · rw [hu, Function.update_self] at h
      cases h
      exact Nat.lt_succ_self _
    · rw [Function.update_of_ne hu] at h
      exact (d.used u i h).trans (Nat.lt_succ_self _)

end Disk

section
variable {S : Type} (names : Names S) (d : Disk S)

/-- The slot behind a chain of at most `n - 1` links. -/
def follow : Nat → S → Option S
  | 0, _ => none
  | n + 1, s =>
      match d.entry s with
      | some (.link text) => (names.target s text).bind (follow n)
      | _ => some s

def lead (p : Pathname) : Option S := (names.slot p).bind (follow names d (MAXSYMLINKS + 1))

def fileAt (p : Pathname) : Option Nat :=
  match (lead names d p).bind d.entry with
  | some (.file i) => some i
  | _ => none

def contents (p : Pathname) : Option (List UInt8) :=
  (fileAt names d p).map fun i => (d.inode i).bytes

structure Stat where
  isDir : Bool
  ino : Nat
  perm : BitVec 9
deriving DecidableEq, Repr

def stat (p : Pathname) : Option Stat :=
  match (lead names d p).bind d.entry with
  | some (.file i) => some ⟨false, i, (d.inode i).perm⟩
  | some (.dir i) => some ⟨true, i, (d.inode i).perm⟩
  | _ => none

inductive Handle
  | file (ino : Nat)
  | dir
deriving DecidableEq, Repr

/-- `open` with `O_RDONLY` -/
def openRead (p : Pathname) : Option Handle :=
  match (lead names d p).bind d.entry with
  | some (.file i) => some (.file i)
  | some (.dir _) => some .dir
  | _ => none

variable [DecidableEq S]

/-- `open` with `O_WRONLY | O_CREAT | O_TRUNC`: the inode and the disk. -/
def openTrunc (p : Pathname) (perm : BitVec 9) : Option (Nat × Disk S) :=
  match lead names d p with
  | none => none
  | some t =>
      match d.entry t with
      | none => some (d.next, d.create t perm)
      | some (.file j) => some (j, d.setBytes j [])
      | _ => none

def unlink (p : Pathname) : Option (Disk S) :=
  match names.slot p with
  | none => none
  | some s =>
      match d.entry s with
      | some (.file _) | some (.link _) => some (d.remove s)
      | _ => none

def sameEntry (s t : S) : Bool :=
  match d.entry s, d.entry t with
  | some (.file i), some (.file j) => i == j
  | _, _ => s = t

/-- A directory takes the place of no file or link, and gives its own to none. -/
def mayReplace : Option Entry → Option Entry → Bool
  | none, _ => false
  | some _, none => true
  | some (.dir _), some (.dir _) => true
  | some (.dir _), some _ => false
  | some _, some (.dir _) => false
  | some _, some _ => true

/-- `rename`, which does nothing if both names are the same file. -/
def rename (p q : Pathname) : Option (Disk S) :=
  match names.slot p, names.slot q with
  | some s, some t =>
      if mayReplace (d.entry s) (d.entry t) then
        some (if sameEntry d s t then d else d.move s t)
      else none
  | _, _ => none

end

/-- A file or a link takes the place of anything but a directory. -/
theorem mayReplace_of {a b : Option Entry}
    (ha : (∃ i, a = some (.file i)) ∨ ∃ text, a = some (.link text))
    (hb : ∀ i, b ≠ some (.dir i)) : mayReplace a b = true := by
  rcases ha with ⟨i, rfl⟩ | ⟨text, rfl⟩
  · match b with
    | none => rfl
    | some (.file j) => rfl
    | some (.link x) => rfl
    | some (.dir j) => exact absurd rfl (hb j)
  · match b with
    | none => rfl
    | some (.file j) => rfl
    | some (.link x) => rfl
    | some (.dir j) => exact absurd rfl (hb j)

section
variable {S : Type} {names : Names S} {d d' : Disk S} {n m i : Nat} {s t u v : S} {p : Pathname}

/-! ## Following links -/

theorem follow_here (h : ∀ text, d.entry s ≠ some (.link text)) :
    follow names d (n + 1) s = some s := by
  rw [follow]
  split
  · rename_i text ht
    exact absurd ht (h text)
  · rfl

theorem follow_end (h : follow names d n s = some u) (text : Pathname) :
    d.entry u ≠ some (.link text) := by
  induction n generalizing s with
  | zero => cases h
  | succ n ih =>
      rw [follow] at h
      split at h
      · rename_i x _
        obtain ⟨v, -, hv⟩ := Option.bind_eq_some_iff.1 h
        exact ih hv
      · rename_i hlink
        cases h
        exact fun he => hlink text he

theorem follow_unique (hu : follow names d n s = some u) (hv : follow names d m s = some v) :
    u = v := by
  induction n generalizing m s with
  | zero => cases hu
  | succ n ih =>
      cases m with
      | zero => cases hv
      | succ m =>
          rw [follow] at hu hv
          cases he : d.entry s with
          | none =>
              rw [he] at hu hv
              exact Option.some.inj (hu.symm.trans hv)
          | some e =>
              rw [he] at hu hv
              cases e with
              | file j => exact Option.some.inj (hu.symm.trans hv)
              | dir j => exact Option.some.inj (hu.symm.trans hv)
              | link text =>
                  obtain ⟨w, hw, hwu⟩ := Option.bind_eq_some_iff.1 hu
                  obtain ⟨w', hw', hwv⟩ := Option.bind_eq_some_iff.1 hv
                  rw [hw] at hw'
                  cases hw'
                  exact ih hwu hwv

/-- The chain is the same on a disk with the same links, but for slots that it does not
run through. -/
theorem follow_off (off : S → Prop) (hlinks : ∀ w, ¬ off w → ∀ text,
      d'.entry w = some (.link text) ↔ d.entry w = some (.link text))
    (hoff : ∀ w, off w → ∀ m, follow names d m w ≠ some u) (h : follow names d n t = some u) :
    follow names d' n t = some u := by
  induction n generalizing t with
  | zero => cases h
  | succ n ih =>
      have hts : ¬ off t := fun ht => hoff t ht _ h
      rw [follow] at h ⊢
      split at h
      · rename_i text htext
        obtain ⟨w, hw, hwu⟩ := Option.bind_eq_some_iff.1 h
        rw [(hlinks t hts text).2 htext]
        exact Option.bind_eq_some_iff.2 ⟨w, hw, ih hwu⟩
      · rename_i hlink
        split
        · rename_i text htext
          exact absurd ((hlinks t hts text).1 htext) (hlink text)
        · exact h

theorem lead_off (off : S → Prop) (hlinks : ∀ w, ¬ off w → ∀ text,
      d'.entry w = some (.link text) ↔ d.entry w = some (.link text))
    (hoff : ∀ w, off w → ∀ m, follow names d m w ≠ some u) (h : lead names d p = some u) :
    lead names d' p = some u := by
  obtain ⟨t, ht, hu⟩ := Option.bind_eq_some_iff.1 h
  exact Option.bind_eq_some_iff.2 ⟨t, ht, follow_off off hlinks hoff hu⟩

theorem fileAt_eq_some :
    fileAt names d p = some i ↔ ∃ t, lead names d p = some t ∧ d.entry t = some (.file i) := by
  unfold fileAt
  cases lead names d p with
  | none => simp
  | some t =>
      rw [Option.bind_some]
      cases he : d.entry t with
      | none => simp [he]
      | some e => cases e <;> simp [he]

theorem lead_file (hp : names.slot p = some s) (hs : d.entry s = some (.file i)) :
    lead names d p = some s := by
  rw [lead, hp]
  exact follow_here fun text => by rw [hs]; simp

theorem fileAt_file (hp : names.slot p = some s) (hs : d.entry s = some (.file i)) :
    fileAt names d p = some i :=
  fileAt_eq_some.2 ⟨s, lead_file hp hs, hs⟩

theorem contents_eq_some {b : List UInt8} :
    contents names d p = some b ↔ ∃ i, fileAt names d p = some i ∧ (d.inode i).bytes = b :=
  Option.map_eq_some_iff

theorem contents_entry {b : List UInt8} (hs : names.slot p = some s)
    (hi : d.entry s = some (.file i)) (hb : (d.inode i).bytes = b) :
    contents names d p = some b :=
  contents_eq_some.2 ⟨i, fileAt_file hs hi, hb⟩

theorem stat_of_fileAt (h : fileAt names d p = some i) :
    stat names d p = some ⟨false, i, (d.inode i).perm⟩ := by
  obtain ⟨t, ht, he⟩ := fileAt_eq_some.1 h
  rw [stat, ht, Option.bind_some, he]

theorem openRead_of_fileAt (h : fileAt names d p = some i) :
    openRead names d p = some (.file i) := by
  obtain ⟨t, ht, he⟩ := fileAt_eq_some.1 h
  rw [openRead, ht, Option.bind_some, he]

theorem lead_tooLong (h : PATH_MAX ≤ p.length) : lead names d p = none := by
  rw [lead, names.tooLong p h]
  rfl

theorem stat_tooLong (h : PATH_MAX ≤ p.length) : stat names d p = none := by
  rw [stat, lead_tooLong h]
  rfl

/-! ## What the calls leave -/

variable [DecidableEq S]

/-- The disk `d'` is `d` with a file in slot `t`, whose inode `j` is `f`. -/
structure Wrote (d : Disk S) (t : S) (j : Nat) (f : Inode) (d' : Disk S) : Prop where
  entry : d'.entry = Function.update d.entry t (some (.file j))
  inode : d'.inode = Function.update d.inode j f

/-- A file is opened for writing at the end of the chain: a new one, or the one there. -/
theorem openTrunc_spec {perm : BitVec 9} (h : openTrunc names d p perm = some (j, d')) :
    ∃ t, lead names d p = some t ∧
      (d.entry t = none ∧ j = d.next ∧ Wrote d t j ⟨[], perm &&& ~~~ d.umask⟩ d' ∨
        d.entry t = some (.file j) ∧ Wrote d t j ⟨[], (d.inode j).perm⟩ d') := by
  unfold openTrunc at h
  split at h
  · cases h
  · rename_i t ht
    refine ⟨t, ht, ?_⟩
    split at h
    · rename_i he
      cases h
      exact .inl ⟨he, rfl, rfl, rfl⟩
    · rename_i j' he
      cases h
      refine .inr ⟨he, ?_, rfl⟩
      rw [← he, Function.update_eq_self]
      rfl
    · cases h

theorem Wrote.setBytes (h : Wrote d t j f d') (b : List UInt8) :
    Wrote d t j ⟨b, f.perm⟩ (d'.setBytes j b) where
  entry := h.entry
  inode := by
    show Function.update d'.inode j _ = _
    rw [h.inode, Function.update_idem, Function.update_self]

theorem unlink_spec (h : unlink names d p = some d') :
    ∃ s, names.slot p = some s ∧ d' = d.remove s := by
  unfold unlink at h
  split at h
  · cases h
  · rename_i s hs
    split at h
    · cases h
      exact ⟨s, hs, rfl⟩
    · cases h
      exact ⟨s, hs, rfl⟩
    · cases h

omit [DecidableEq S] in
theorem entry_of_fileAt (hs : names.slot p = some s) (h : fileAt names d p = some i) :
    d.entry s = some (.file i) ∨ ∃ text, d.entry s = some (.link text) := by
  obtain ⟨t, ht, he⟩ := fileAt_eq_some.1 h
  rw [lead, hs, Option.bind_some] at ht
  by_cases hlink : ∃ text, d.entry s = some (.link text)
  · exact .inr hlink
  · have hts : t = s := follow_unique ht (follow_here (n := 0) fun text he => hlink ⟨text, he⟩)
    exact .inl (hts ▸ he)

theorem unlink_of_entry (hs : names.slot p = some s)
    (h : (∃ i, d.entry s = some (.file i)) ∨ ∃ text, d.entry s = some (.link text)) :
    unlink names d p = some (d.remove s) := by
  rw [unlink, hs]
  dsimp only
  rcases h with ⟨i, hi⟩ | ⟨text, htext⟩
  · rw [hi]
  · rw [htext]

theorem rename_spec {q : Pathname} (h : rename names d p q = some d') :
    ∃ s t, names.slot p = some s ∧ names.slot q = some t ∧
      mayReplace (d.entry s) (d.entry t) = true ∧
      d' = if sameEntry d s t then d else d.move s t := by
  unfold rename at h
  split at h
  · rename_i s t hs ht
    split at h
    · rename_i hmay
      cases h
      exact ⟨s, t, hs, ht, hmay, rfl⟩
    · cases h
  · cases h

@[simp] theorem entry_remove : (d.remove s).entry u = if u = s then none else d.entry u :=
  Function.update_apply ..

@[simp] theorem inode_remove : (d.remove s).inode = d.inode := rfl

theorem entry_move : (d.move s t).entry u =
    if u = t then d.entry s else if u = s then none else d.entry u := by
  show Function.update (Function.update d.entry s none) t (d.entry s) u = _
  rw [Function.update_apply, Function.update_apply]

theorem Wrote.entry_eq (h : Wrote d t j f d') (u : S) :
    d'.entry u = if u = t then some (.file j) else d.entry u := by
  rw [h.entry, Function.update_apply]

theorem Wrote.inode_eq (h : Wrote d t j f d') (k : Nat) :
    d'.inode k = if k = j then f else d.inode k := by
  rw [h.inode, Function.update_apply]

theorem Wrote.link_iff (h : Wrote d t j f d') (ht : lead names d p = some t) (w : S)
    (text : Pathname) :
    d'.entry w = some (.link text) ↔ d.entry w = some (.link text) := by
  obtain ⟨u, -, hu⟩ := Option.bind_eq_some_iff.1 ht
  rw [h.entry_eq]
  split
  · rename_i hw
    subst hw
    exact iff_of_false (by simp) (follow_end hu text)
  · rfl

theorem Wrote.contents (h : Wrote d t j f d') (ht : lead names d p = some t) : contents names d' p =
    some f.bytes := by
  have hlead : lead names d' p = some t :=
    lead_off (fun _ => False) (fun w _ => h.link_iff ht w) (fun _ hw => hw.elim) ht
  have hfile : fileAt names d' p = some j :=
    fileAt_eq_some.2 ⟨t, hlead, by rw [h.entry_eq, if_pos rfl]⟩
  rw [Lib.contents, hfile, Option.map_some, h.inode_eq, if_pos rfl]

theorem Wrote.contents_remove (h : Wrote d t j f d') (ht : lead names d p = some t)
    (hoff : ∀ m, follow names d m s ≠ some t) :
    Lib.contents names (d'.remove s) p = some f.bytes := by
  have hne : t ≠ s := by
    rintro rfl
    obtain ⟨u, -, hu⟩ := Option.bind_eq_some_iff.1 ht
    exact hoff 1 (follow_here (follow_end hu))
  have hlead : lead names (d'.remove s) p = some t := by
    refine lead_off (fun w => w = s) (fun w hw text => ?_) (fun w hw => hw ▸ hoff) ht
    rw [entry_remove, if_neg hw]
    exact h.link_iff ht w text
  have hfile : fileAt names (d'.remove s) p = some j :=
    fileAt_eq_some.2 ⟨t, hlead, by rw [entry_remove, if_neg hne, h.entry_eq, if_pos rfl]⟩
  rw [Lib.contents, hfile, Option.map_some, inode_remove, h.inode_eq, if_pos rfl]

omit [DecidableEq S] in
theorem fileAt_congr (h : d'.entry = d.entry) : fileAt names d' p = fileAt names d p := by
  have hfollow : ∀ n t, follow names d' n t = follow names d n t := by
    intro n
    induction n with
    | zero => exact fun _ => rfl
    | succ n ih =>
        intro t
        rw [follow, follow, h, funext ih]
  have hlead : lead names d' p = lead names d p := by
    unfold lead
    rw [funext (hfollow _)]
  unfold fileAt
  rw [hlead, h]

theorem follow_remove (h : follow names (d.remove s) n t = some u) :
    u = s ∨ follow names d n t = some u := by
  induction n generalizing t with
  | zero => cases h
  | succ n ih =>
      by_cases hts : t = s
      · subst hts
        have hgap : follow names (d.remove t) (n + 1) t = some t :=
          follow_here fun text => by simp
        exact .inl (Option.some.inj (h.symm.trans hgap))
      · rw [follow, entry_remove, if_neg hts] at h
        rw [follow]
        split at h
        · obtain ⟨w, hw, hwu⟩ := Option.bind_eq_some_iff.1 h
          rcases ih hwu with hgap | hsame
          · exact .inl hgap
          · exact .inr (Option.bind_eq_some_iff.2 ⟨w, hw, hsame⟩)
        · exact .inr h

theorem fileAt_remove (h : fileAt names (d.remove s) p = some i) : fileAt names d p = some i := by
  obtain ⟨u, hu, he⟩ := fileAt_eq_some.1 h
  rw [entry_remove] at he
  split at he
  · cases he
  · rename_i hne
    obtain ⟨t, ht, hfollow⟩ := Option.bind_eq_some_iff.1 hu
    rcases follow_remove hfollow with hgap | hsame
    · exact absurd hgap hne
    · exact fileAt_eq_some.2 ⟨u, Option.bind_eq_some_iff.2 ⟨t, ht, hsame⟩, he⟩

end

end G9OS.Lib
