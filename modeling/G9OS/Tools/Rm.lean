import G9OS.Lib.Hierarchy
import G9OS.Tools.Copy

/-! # `custom_rm`

`rm_path` and `rm_dir_recursive` call each other with path strings, which are built in a buffer
of 4096 bytes. A run is given the argument, the place that it names, and the places where a
system call fails although the tree would permit it; it is bounded by the depth of the calls.
Every component of a path but the last has been found to be a directory by `lstat`, so that no
link is followed on the way.

Beside what the code keeps, the state has the directories that were opened, and for every
recursive call the directory it is made from and the place it is made on.
-/

namespace G9OS.Tools

open Lib

/-- The system calls that may fail. -/
inductive Sys
  | unlink
  | rmdir
  | opendir
deriving DecidableEq, Repr

/-- The argument, the place it names, and the calls that fail. -/
structure Site where
  base : Pathname
  root : Place
  fault : Sys → Place → Bool
  top : fault .rmdir [] = true               -- nobody removes the root directory

inductive RmLine
  | deleted (path : Pathname)
  | warned (path : Pathname)                 -- with the text of `errno`
  | isDirectory (path : Pathname)
deriving DecidableEq, Repr

structure RmState where
  tree : Hierarchy
  entered : List Place := []
  calls : List (Place × Option Place) := []
  out : List RmLine := []

@[simps] def RmState.print (s : RmState) (line : RmLine) : RmState :=
  { s with out := s.out ++ [line] }

@[simps] def RmState.setTree (s : RmState) (tree : Hierarchy) : RmState := { s with tree := tree }

@[simps] def RmState.enter (s : RmState) (l : Place) : RmState :=
  { s with entered := l :: s.entered }

@[simps] def RmState.logCall (s : RmState) (l : Place) (m : Option Place) : RmState :=
  { s with calls := (l, m) :: s.calls }

section
variable (g : Site)

def Site.locate (t : Hierarchy) (path : Pathname) : Option Place := t.locate g.base g.root path

def lstat (t : Hierarchy) (path : Pathname) : Option Kind := (g.locate t path).map t.kind

def unlinkAt (t : Hierarchy) (path : Pathname) : Option Hierarchy :=
  match g.locate t path with
  | none => none
  | some l =>
      if h : t.kind l ≠ .dir ∧ g.fault .unlink l = false then
        some (t.remove l (Hierarchy.ne_nil_of_kind h.1) (Hierarchy.entries_of_kind h.1))
      else none

theorem Site.ne_nil {l : Place} (h : g.fault .rmdir l = false) : l ≠ [] := by
  rintro rfl
  cases g.top.symm.trans h

def rmdirAt (t : Hierarchy) (path : Pathname) : Option Hierarchy :=
  match g.locate t path with
  | none => none
  | some l =>
      if h : t.kind l = .dir ∧ t.entries l = [] ∧ g.fault .rmdir l = false then
        some (t.remove l (g.ne_nil h.2.2) h.2.1)
      else none

def opendir (t : Hierarchy) (path : Pathname) : Option Place :=
  match g.locate t path with
  | none => none
  | some l => if t.kind l = .dir ∧ g.fault .opendir l = false then some l else none

/-- All that `readdir` returns until the end of the directory. -/
def readdir (t : Hierarchy) (l : Place) : List Name := selfName :: upName :: t.entries l

/-- What `snprintf` leaves in `child`. -/
def childPath (path : Pathname) (n : Name) : Pathname := cut (path ++ slash :: n)

/-- The loop of `rm_dir_recursive` over the entries of the directory `here`, with `err`. -/
def rmEntries (rmPath : RmState → Pathname → Option (Int × RmState)) (path : Pathname)
    (here : Place) : List Name → Bool → RmState → Option (Bool × RmState)
  | [], err, s => some (err, s)
  | n :: ns, err, s =>
      if n = selfName ∨ n = upName then rmEntries rmPath path here ns err s
      else
        let child := childPath path n
        match rmPath (s.logCall here (g.locate s.tree child)) child with
        | none => none
        | some (r, s) => rmEntries rmPath path here ns (err || decide (r < 0)) s

def rmDirRecursive (rmPath : RmState → Pathname → Option (Int × RmState)) (s : RmState)
    (path : Pathname) : Option (Int × RmState) :=
  match opendir g s.tree path with
  | none => some (-1, s.print (.warned path))
  | some here =>
      match rmEntries g rmPath path here (readdir s.tree here) false (s.enter here) with
      | none => none
      | some (err, s) =>
          match rmdirAt g s.tree path with
          | none => some (-1, s.print (.warned path))
          | some tree => some (if err then -1 else 0, s.setTree tree)

/-- `rm_path`, with `flag_recursive`; `none` if the calls go deeper than the bound. -/
def rmPath (recursive : Bool) : Nat → RmState → Pathname → Option (Int × RmState)
  | 0, _, _ => none
  | fuel + 1, s, path =>
      match lstat g s.tree path with
      | none => some (-1, s.print (.warned path))
      | some .dir =>
          if recursive then rmDirRecursive g (rmPath recursive fuel) s path
          else some (-1, s.print (.isDirectory path))
      | some _ =>
          match unlinkAt g s.tree path with
          | none => some (-1, s.print (.warned path))
          | some tree => some (0, (s.setTree tree).print (.deleted path))

/-! ## What remains -/

def RemovalFails (t : Hierarchy) (m : Place) : Prop :=
  if t.kind m = .dir then g.fault .rmdir m = true else g.fault .unlink m = true

def Unopened (t : Hierarchy) (m : Place) : Prop := t.kind m = .dir ∧ g.fault .opendir m = true

/-- A node that remains on its own account: its removal fails, or it is, or is below, a directory
that cannot be opened. -/
def Resists (t : Hierarchy) (m : Place) : Prop :=
  RemovalFails g t m ∨ ∃ c, g.root <:+ c ∧ c <:+ m ∧ Unopened g t c

/-- Such a node, or one with such a node below it. -/
def Stays (t : Hierarchy) (l : Place) : Prop := ∃ m ∈ t.nodes, l <:+ m ∧ Resists g t m

end

section
variable {g : Site} {t u v : Hierarchy} {s s' : RmState} {x l m y : Place} {n : Name}

theorem Stays.above (h : Stays g t m) (hl : l <:+ m) : Stays g t l := by
  obtain ⟨k, hk, hm, hr⟩ := h
  exact ⟨k, hk, hl.trans hm, hr⟩

theorem stays_of_unopened (hroot : g.root <:+ y) (hy : Unopened g t y) (hl : y <:+ l)
    (hmem : l ∈ t.nodes) : Stays g t l :=
  ⟨l, hmem, List.suffix_refl l, .inr ⟨y, hroot, hl, hy⟩⟩

theorem below_cases (hl : y <:+ l) : l = y ∨ ∃ n, n :: y <:+ l := by
  obtain ⟨p, rfl⟩ := hl
  rcases List.eq_nil_or_concat p with rfl | ⟨q, n, rfl⟩
  · exact .inl rfl
  · exact .inr ⟨n, q, by simp⟩

/-- A directory that can be opened stays if it cannot be removed or if one of its entries stays. -/
theorem stays_dir (hroot : g.root <:+ y) (hmem : y ∈ t.nodes) (hdir : t.kind y = .dir)
    (hup : ∀ c, g.root <:+ c → c <:+ y → ¬ Unopened g t c) :
    Stays g t y ↔ g.fault .rmdir y = true ∨ ∃ n, n :: y ∈ t.nodes ∧ Stays g t (n :: y) := by
  constructor
  · rintro ⟨m, hm, hy, hr⟩
    rcases below_cases hy with rfl | ⟨n, hn⟩
    · rcases hr with hr | ⟨c, hc, hcy, hcl⟩
      · rw [RemovalFails, if_pos hdir] at hr
        exact .inl hr
      · exact absurd hcl (hup c hc hcy)
    · exact .inr ⟨n, t.mem_of_below hm hn, m, hm, hn, hr⟩
  · rintro (hf | ⟨n, -, hs⟩)
    · refine ⟨y, hmem, List.suffix_refl y, .inl ?_⟩
      rwa [RemovalFails, if_pos hdir]
    · exact hs.above (List.suffix_cons n y)

theorem stays_file (hmem : y ∈ t.nodes) (hdir : t.kind y ≠ .dir)
    (hup : ∀ c, g.root <:+ c → c <:+ y → ¬ Unopened g t c) :
    Stays g t y ↔ g.fault .unlink y = true := by
  constructor
  · rintro ⟨m, hm, hy, hr⟩
    have hmy : y = m := by
      by_contra hne
      exact hdir (t.dir_of_below hm hy hne)
    subst hmy
    rcases hr with hr | ⟨c, hc, hcy, hcl⟩
    · rwa [RemovalFails, if_neg hdir] at hr
    · exact absurd hcl (hup c hc hcy)
  · intro hf
    refine ⟨y, hmem, List.suffix_refl y, .inl ?_⟩
    rwa [RemovalFails, if_neg hdir]

/-! ## One call -/

def finishDir (g : Site) (path : Pathname) (err : Bool) (s : RmState) : Int × RmState :=
  match rmdirAt g s.tree path with
  | none => (-1, s.print (.warned path))
  | some tree => (if err then -1 else 0, s.setTree tree)

section
variable {recursive : Bool} {fuel : Nat} {path : Pathname}
  {rm : RmState → Pathname → Option (Int × RmState)}

theorem rmPath_missing (h : g.locate s.tree path = none) :
    rmPath g recursive (fuel + 1) s path = some (-1, s.print (.warned path)) := by
  rw [rmPath, lstat, h]
  rfl

theorem rmPath_dir (h : g.locate s.tree path = some l) (hdir : s.tree.kind l = .dir) :
    rmPath g true (fuel + 1) s path = rmDirRecursive g (rmPath g true fuel) s path := by
  rw [rmPath, lstat, h, Option.map_some, hdir]
  rfl

theorem rmPath_leaf (h : g.locate s.tree path = some l) (hdir : s.tree.kind l ≠ .dir) :
    rmPath g recursive (fuel + 1) s path =
      if g.fault .unlink l = true then some (-1, s.print (.warned path))
      else some (0, (s.setTree (s.tree.remove l (Hierarchy.ne_nil_of_kind hdir)
        (Hierarchy.entries_of_kind hdir))).print (.deleted path)) := by
  have hleaf : rmPath g recursive (fuel + 1) s path =
      match unlinkAt g s.tree path with
      | none => some (-1, s.print (.warned path))
      | some tree => some (0, (s.setTree tree).print (.deleted path)) := by
    rw [rmPath, lstat, h, Option.map_some]
    cases hk : s.tree.kind l with
    | dir => exact absurd hk hdir
    | file | link => rfl
  rw [hleaf, unlinkAt, h]
  by_cases hf : g.fault .unlink l = true
  · simp [hf]
  · simp [hf, hdir]

theorem rmDirRecursive_unopened (h : g.locate s.tree path = some l)
    (hf : g.fault .opendir l = true) :
    rmDirRecursive g rm s path = some (-1, s.print (.warned path)) := by
  have hopen : opendir g s.tree path = none := by simp [opendir, h, hf]
  rw [rmDirRecursive, hopen]

theorem rmDirRecursive_opened (h : g.locate s.tree path = some l) (hdir : s.tree.kind l = .dir)
    (hf : g.fault .opendir l = false) :
    rmDirRecursive g rm s path =
      (rmEntries g rm path l (s.tree.entries l) false (s.enter l)).map fun x =>
        finishDir g path x.1 x.2 := by
  have hopen : opendir g s.tree path = some l := by simp [opendir, h, hdir, hf]
  have hskip : rmEntries g rm path l (readdir s.tree l) false (s.enter l) =
      rmEntries g rm path l (s.tree.entries l) false (s.enter l) := by
    rw [readdir, rmEntries, if_pos (.inl rfl), rmEntries, if_pos (.inr rfl)]
  rw [rmDirRecursive, hopen]
  dsimp only
  rw [hskip]
  cases rmEntries g rm path l (s.tree.entries l) false (s.enter l) with
  | none => rfl
  | some x =>
      simp only [finishDir, Option.map_some]
      cases rmdirAt g x.2.tree path <;> rfl

theorem rmEntries_cons {ns : List Name} {err : Bool} (hn : ValidName n) :
    rmEntries g rm path l (n :: ns) err s =
      match rm (s.logCall l (g.locate s.tree (childPath path n))) (childPath path n) with
      | none => none
      | some (r, s) => rmEntries g rm path l ns (err || decide (r < 0)) s := by
  rw [rmEntries, if_neg (not_or.2 ⟨hn.notSelf, hn.notUp⟩)]

theorem rmdirAt_empty (h : g.locate t path = some l) (hdir : t.kind l = .dir)
    (he : t.entries l = []) (hf : g.fault .rmdir l = false) :
    rmdirAt g t path = some (t.remove l (g.ne_nil hf) he) := by
  rw [rmdirAt, h]
  exact dif_pos ⟨hdir, he, hf⟩

theorem rmdirAt_fails (h : g.locate t path = some l)
    (hno : t.entries l ≠ [] ∨ g.fault .rmdir l = true) : rmdirAt g t path = none := by
  rw [rmdirAt, h]
  refine dif_neg fun hall => ?_
  rcases hno with he | hf
  · exact he hall.2.1
  · cases hf.symm.trans hall.2.2

end

/-! ## Trees whose paths fit -/

/-- Nothing is missing at and below `y`. -/
structure Intact (t u : Hierarchy) (y : Place) : Prop where
  kind : u.kind = t.kind
  old : ∀ l ∈ u.nodes, l ∈ t.nodes
  whole : ∀ l ∈ t.nodes, y <:+ l → l ∈ u.nodes

/-- What stays at and below `y` is all that is left there, and the rest is as it was. The call
has returned 0 if that is nothing. -/
structure Prunes (g : Site) (t u v : Hierarchy) (y : Place) (r : Int) : Prop where
  kind : v.kind = u.kind
  mem : ∀ l, l ∈ v.nodes ↔ l ∈ u.nodes ∧ (y <:+ l → Stays g t l)
  result : r = 0 ∧ ¬ Stays g t y ∨ r = -1 ∧ Stays g t y

/-- No two children of a place have a place in common below them. -/
theorem child_unique {k : Name} (h1 : n :: y <:+ l) (h2 : k :: y <:+ l) : n = k := by
  have h := List.suffix_of_suffix_length_le h1 h2 (by simp)
  exact (List.cons.inj (h.eq_of_length (by simp))).1

theorem not_below_child (n : Name) (y : Place) : ¬ n :: y <:+ y := fun h => by
  have hle := h.length_le
  simp at hle

/-- The loop over the entries, given what the call does on each of them. -/
theorem rmEntries_prunes (rm : RmState → Pathname → Option (Int × RmState)) (path : Pathname)
    (err : Bool) {ns : List Name} (hnodup : ns.Nodup) (hmem : ∀ n ∈ ns, n :: y ∈ t.nodes)
    (hrm : ∀ n ∈ ns, ∀ s, Intact t s.tree (n :: y) →
      ∃ r s', rm s (childPath path n) = some (r, s') ∧ Prunes g t s.tree s'.tree (n :: y) r)
    (hs : ∀ n ∈ ns, Intact t s.tree (n :: y)) :
    ∃ err' s', rmEntries g rm path y ns err s = some (err', s') ∧ s'.tree.kind = s.tree.kind ∧
      (∀ l, l ∈ s'.tree.nodes ↔ l ∈ s.tree.nodes ∧ ∀ n ∈ ns, n :: y <:+ l → Stays g t l) ∧
      (err' = true ↔ err = true ∨ ∃ n ∈ ns, Stays g t (n :: y)) := by
  induction ns generalizing s err with
  | nil => exact ⟨err, s, rfl, rfl, by simp, by simp⟩
  | cons n ns ih =>
      have hn : n ∈ n :: ns := List.mem_cons_self
      obtain ⟨hnot, hnodup⟩ := List.nodup_cons.1 hnodup
      obtain ⟨r, s1, hr, hp⟩ :=
        hrm n hn (s.logCall y (g.locate s.tree (childPath path n))) (hs n hn)
      have hs1 : ∀ k ∈ ns, Intact t s1.tree (k :: y) := by
        intro k hk
        have hk' := hs k (List.mem_cons_of_mem n hk)
        refine ⟨hp.kind.trans hk'.kind, fun l hl => hk'.old l ((hp.mem l).1 hl).1, ?_⟩
        intro l hl hkl
        refine (hp.mem l).2 ⟨hk'.whole l hl hkl, fun hnl => ?_⟩
        rw [child_unique hnl hkl] at hnot
        exact absurd hk hnot
      obtain ⟨err', s2, hloop, hkind, hnodes, herr⟩ := ih (err || decide (r < 0)) hnodup
        (fun k hk => hmem k (List.mem_cons_of_mem n hk))
        (fun k hk => hrm k (List.mem_cons_of_mem n hk)) hs1
      refine ⟨err', s2, ?_, hkind.trans hp.kind, fun l => ?_, ?_⟩
      · rw [rmEntries_cons (t.valid (hmem n hn)), hr]
        exact hloop
      · rw [hnodes, hp.mem, List.forall_mem_cons]
        exact and_assoc
      · have hneg : r < 0 ↔ Stays g t (n :: y) := by
          rcases hp.result with ⟨rfl, hst⟩ | ⟨rfl, hst⟩
          · exact iff_of_false (by decide) hst
          · exact iff_of_true (by decide) hst
        rw [herr]
        simp [hneg, or_assoc]

def ShortPaths (g : Site) (t : Hierarchy) : Prop :=
  ∀ x, x ++ g.root ∈ t.nodes → (pathOf g.base x).length < PATH_MAX

theorem valid_of_mem (h : x ++ l ∈ t.nodes) : ∀ n ∈ x, ValidName n := by
  induction x with
  | nil => simp
  | cons n x ih =>
      rw [List.cons_append] at h
      exact List.forall_mem_cons.2 ⟨t.valid h, ih (t.parent_mem h)⟩

theorem ShortPaths.locate (h : ShortPaths g t) (hx : x ++ g.root ∈ t.nodes) (u : Hierarchy) :
    g.locate u (pathOf g.base x) = if x ++ g.root ∈ u.nodes then some (x ++ g.root) else none :=
  Hierarchy.locate_pathOf (valid_of_mem hx) (h x hx)

theorem ShortPaths.childPath (h : ShortPaths g t) (hx : n :: x ++ g.root ∈ t.nodes) :
    childPath (pathOf g.base x) n = pathOf g.base (n :: x) := by
  have hlen := h (n :: x) hx
  rw [pathOf_cons] at hlen ⊢
  exact cut_short hlen

/-- No directory above `y` fails to open. -/
def OpenedTo (g : Site) (t : Hierarchy) (y : Place) : Prop :=
  ∀ c, g.root <:+ c → c <:+ y → c ≠ y → ¬ Unopened g t c

theorem openedTo_root : OpenedTo g t g.root := fun _ hc hcr hne =>
  absurd (hcr.eq_of_length_le hc.length_le) hne

theorem OpenedTo.child (h : OpenedTo g t y) (hy : ¬ Unopened g t y) (n : Name) :
    OpenedTo g t (n :: y) := by
  intro c hroot hc hne
  rcases List.suffix_cons_iff.1 hc with rfl | hc
  · exact absurd rfl hne
  · by_cases he : c = y
    · rwa [he]
    · exact h c hroot hc he

theorem Intact.child (h : Intact t u y) (n : Name) : Intact t u (n :: y) :=
  ⟨h.kind, h.old, fun l hl hn => h.whole l hl ((List.suffix_cons n y).trans hn)⟩

theorem Intact.mem_entries (h : Intact t u y) : n ∈ u.entries y ↔ n :: y ∈ t.nodes := by
  rw [u.mem_entries]
  exact ⟨h.old _, fun hn => h.whole _ hn (List.suffix_cons n y)⟩

theorem Intact.leaf (h : Intact t u y) (hdir : u.kind y ≠ .dir)
    (hst : ¬ Stays g t y) : Prunes g t u
      (u.remove y (Hierarchy.ne_nil_of_kind hdir) (Hierarchy.entries_of_kind hdir)) y 0 := by
  refine ⟨rfl, fun l => ?_, .inl ⟨rfl, hst⟩⟩
  rw [u.mem_remove]
  refine and_congr_right fun hl => ⟨fun hne hyl => ?_, fun hyl he => ?_⟩
  · have hbelow := t.dir_of_below (h.old l hl) hyl (Ne.symm hne)
    rw [h.kind] at hdir
    exact absurd hbelow hdir
  · rw [he] at hyl
    exact hst (hyl (List.suffix_refl y))

theorem prunes_nothing (hst : ∀ l ∈ u.nodes, y <:+ l → Stays g t l) (hy : Stays g t y) :
    Prunes g t u u y (-1) :=
  ⟨rfl, fun l => ⟨fun hl => ⟨hl, hst l hl⟩, fun hl => hl.1⟩, .inr ⟨rfl, hy⟩⟩

/-- The directory behind the loop: what stays below it is left, and `rmdir` is tried. -/
theorem finishDir_prunes {path : Pathname} {err : Bool} (hroot : g.root <:+ y) (hy : y ∈ t.nodes)
    (hdir : t.kind y = .dir) (hup : ∀ c, g.root <:+ c → c <:+ y → ¬ Unopened g t c)
    (hu : Intact t u y) (hkind : s.tree.kind = u.kind)
    (hmem : ∀ l, l ∈ s.tree.nodes ↔ l ∈ u.nodes ∧ ∀ n ∈ u.entries y, n :: y <:+ l → Stays g t l)
    (herr : err = true ↔ ∃ n ∈ u.entries y, Stays g t (n :: y))
    (hpath : g.locate s.tree path = some y) :
    Prunes g t u (finishDir g path err s).2.tree y (finishDir g path err s).1 := by
  have hbelow : ∀ l ∈ s.tree.nodes, y <:+ l → l ≠ y → Stays g t l := by
    intro l hl hyl hne
    obtain ⟨hlu, hst⟩ := (hmem l).1 hl
    obtain ⟨n, hn⟩ := (below_cases hyl).resolve_left hne
    exact hst n (u.mem_entries.2 (u.mem_of_below hlu hn)) hn
  have hlift : ∀ l, l ∈ u.nodes → (y <:+ l → Stays g t l) → l ∈ s.tree.nodes := fun l hl hst =>
    (hmem l).2 ⟨hl, fun n _ hn => hst ((List.suffix_cons n y).trans hn)⟩
  have hchild : (∃ n ∈ u.entries y, Stays g t (n :: y)) ↔
      ∃ n, n :: y ∈ t.nodes ∧ Stays g t (n :: y) :=
    exists_congr fun n => and_congr_left fun _ => hu.mem_entries
  have hempty : s.tree.entries y = [] ↔ ¬ ∃ n ∈ u.entries y, Stays g t (n :: y) := by
    rw [s.tree.entries_eq_nil, not_exists]
    refine forall_congr' fun n => not_congr ⟨fun hn => ?_, fun ⟨hn, hst⟩ => ?_⟩
    · obtain ⟨hnu, hst⟩ := (hmem _).1 hn
      exact ⟨u.mem_entries.2 hnu, hst n (u.mem_entries.2 hnu) (List.suffix_refl _)⟩
    · exact hlift _ (u.mem_entries.1 hn) fun _ => hst
  have hstays := stays_dir hroot hy hdir hup
  rw [← hchild] at hstays
  by_cases hst : Stays g t y
  · have hfails : rmdirAt g s.tree path = none := by
      refine rmdirAt_fails hpath ?_
      rcases hstays.1 hst with hf | hn
      · exact .inr hf
      · exact .inl fun he => hempty.1 he hn
    rw [finishDir, hfails]
    refine ⟨hkind, fun l => ⟨fun hl => ⟨((hmem l).1 hl).1, fun hyl => ?_⟩, fun hl => ?_⟩,
      .inr ⟨rfl, hst⟩⟩
    · by_cases he : l = y
      · rwa [he]
      · exact hbelow l hl hyl he
    · exact hlift l hl.1 hl.2
  · have hno := fun h => hst (hstays.2 h)
    have hnone : ¬ ∃ n ∈ u.entries y, Stays g t (n :: y) := fun h => hno (.inr h)
    have hf : g.fault .rmdir y = false := by
      simpa using fun h => hno (.inl h)
    have hd : s.tree.kind y = .dir := by rw [hkind, hu.kind, hdir]
    rw [finishDir, rmdirAt_empty hpath hd (hempty.2 hnone) hf]
    obtain rfl : err = false := by simpa using fun h => hnone (herr.1 h)
    refine ⟨hkind, fun l => ?_, .inl ⟨rfl, hst⟩⟩
    rw [RmState.setTree_tree, s.tree.mem_remove]
    refine ⟨fun ⟨hl, hne⟩ => ⟨((hmem l).1 hl).1, fun hyl => hbelow l hl hyl hne⟩, fun hl => ?_⟩
    refine ⟨hlift l hl.1 hl.2, ?_⟩
    rintro rfl
    exact hst (hl.2 (List.suffix_refl l))

/-- A directory that is opened, given what the calls on its entries do. -/
theorem rmDirRecursive_prunes {rm : RmState → Pathname → Option (Int × RmState)}
    (hshort : ShortPaths g t) (hx : x ++ g.root ∈ t.nodes) (hdir : t.kind (x ++ g.root) = .dir)
    (hup : ∀ c, g.root <:+ c → c <:+ x ++ g.root → ¬ Unopened g t c)
    (hs : Intact t s.tree (x ++ g.root))
    (hrm : ∀ n, n :: (x ++ g.root) ∈ t.nodes → ∀ s, Intact t s.tree (n :: (x ++ g.root)) →
      ∃ r s', rm s (childPath (pathOf g.base x) n) = some (r, s') ∧
        Prunes g t s.tree s'.tree (n :: (x ++ g.root)) r) :
    ∃ r s', rmDirRecursive g rm s (pathOf g.base x) = some (r, s') ∧
      Prunes g t s.tree s'.tree (x ++ g.root) r := by
  have hroot : g.root <:+ x ++ g.root := List.suffix_append x g.root
  have hy := hs.whole _ hx (List.suffix_refl _)
  have hloc : g.locate s.tree (pathOf g.base x) = some (x ++ g.root) := by
    rw [hshort.locate hx, if_pos hy]
  have hf : g.fault .opendir (x ++ g.root) = false := by
    simpa using fun h => hup _ hroot (List.suffix_refl _) ⟨hdir, h⟩
  rw [rmDirRecursive_opened hloc (by rw [hs.kind, hdir]) hf]
  obtain ⟨err, s1, hloop, hkind, hmem, herr⟩ := rmEntries_prunes rm (pathOf g.base x) false
    (s.tree.entries_nodup _) (fun n hn => hs.mem_entries.1 hn)
    (fun n hn => hrm n (hs.mem_entries.1 hn)) (s := s.enter (x ++ g.root)) fun n _ => hs.child n
  have hy1 : x ++ g.root ∈ s1.tree.nodes :=
    (hmem _).2 ⟨hy, fun n _ hn => absurd hn (not_below_child n _)⟩
  have hloc1 : g.locate s1.tree (pathOf g.base x) = some (x ++ g.root) := by
    rw [hshort.locate hx, if_pos hy1]
  rw [hloop]
  exact ⟨_, _, rfl, finishDir_prunes hroot hx hdir hup hs hkind hmem (by simpa using herr) hloc1⟩

theorem rmPath_prunes (fuel : Nat) (hshort : ShortPaths g t) (hx : x ++ g.root ∈ t.nodes)
    (hup : OpenedTo g t (x ++ g.root)) (hs : Intact t s.tree (x ++ g.root))
    (hfuel : ∀ l ∈ t.nodes, x ++ g.root <:+ l → l.length < (x ++ g.root).length + fuel) :
    ∃ r s', rmPath g true fuel s (pathOf g.base x) = some (r, s') ∧
      Prunes g t s.tree s'.tree (x ++ g.root) r := by
  induction fuel generalizing x s with
  | zero => exact absurd (hfuel _ hx (List.suffix_refl _)) (lt_irrefl _)
  | succ fuel ih =>
      have hy := hs.whole _ hx (List.suffix_refl _)
      have hloc : g.locate s.tree (pathOf g.base x) = some (x ++ g.root) := by
        rw [hshort.locate hx, if_pos hy]
      by_cases hopen : Unopened g t (x ++ g.root)
      · have hst : ∀ l ∈ s.tree.nodes, x ++ g.root <:+ l → Stays g t l := fun l hl hbelow =>
          stays_of_unopened (List.suffix_append x g.root) hopen hbelow (hs.old l hl)
        rw [rmPath_dir hloc (by rw [hs.kind, hopen.1]), rmDirRecursive_unopened hloc hopen.2]
        exact ⟨-1, _, rfl, prunes_nothing hst (hst _ hy (List.suffix_refl _))⟩
      · have hup' : ∀ c, g.root <:+ c → c <:+ x ++ g.root → ¬ Unopened g t c := by
          intro c hc hcy
          by_cases he : c = x ++ g.root
          · rwa [he]
          · exact hup c hc hcy he
        by_cases hdir : t.kind (x ++ g.root) = .dir
        · rw [rmPath_dir hloc (by rw [hs.kind, hdir])]
          refine rmDirRecursive_prunes hshort hx hdir hup' hs fun n hn s' hs' => ?_
          rw [hshort.childPath hn]
          refine ih hn (hup.child hopen n) hs' fun l hl hbelow => ?_
          have hlt := hfuel l hl ((List.suffix_cons n _).trans hbelow)
          simp only [List.length_cons, List.cons_append] at hlt ⊢
          omega
        · have hd : s.tree.kind (x ++ g.root) ≠ .dir := by rwa [hs.kind]
          rw [rmPath_leaf hloc hd]
          have hstays := stays_file hx hdir hup'
          split
          · rename_i hf
            refine ⟨-1, _, rfl, prunes_nothing (fun l hl hbelow => ?_) (hstays.2 hf)⟩
            have he : x ++ g.root = l := by
              by_contra hne
              exact hdir (t.dir_of_below (hs.old l hl) hbelow hne)
            rw [← he]
            exact hstays.2 hf
          · rename_i hf
            exact ⟨0, _, rfl, hs.leaf hd fun h => hf (hstays.1 h)⟩

theorem exists_depth (t : Hierarchy) : ∃ n, ∀ l ∈ t.nodes, l.length < n :=
  ⟨t.nodes.toFinset.sup List.length + 1, fun _ hl =>
    Nat.lt_succ_of_le (Finset.le_sup (f := List.length) (List.mem_toFinset.2 hl))⟩

/-- With `-r` on a tree whose paths are all shorter than 4096 bytes, and whatever calls of `unlink`,
`rmdir` and `opendir` fail: `rm_path` returns; of the tree remain the nodes whose removal fails,
every directory that cannot be opened with all that is below it, and the directories above them;
0 is returned if nothing remains; and nothing else changes. -/
theorem rmPath_remains (hroot : g.root ∈ t.nodes) (hshort : ShortPaths g t) :
    ∃ n, ∀ fuel, n ≤ fuel → ∃ r s, rmPath g true fuel { tree := t } g.base = some (r, s) ∧
      s.tree.kind = t.kind ∧
      (∀ l, g.root <:+ l → (l ∈ s.tree.nodes ↔ l ∈ t.nodes ∧ Stays g t l)) ∧
      (∀ l, ¬ g.root <:+ l → (l ∈ s.tree.nodes ↔ l ∈ t.nodes)) ∧
      (r = 0 ↔ ∀ l ∈ s.tree.nodes, ¬ g.root <:+ l) := by
  obtain ⟨n, hn⟩ := exists_depth t
  refine ⟨n, fun fuel hfuel => ?_⟩
  obtain ⟨r, s, hrun, hp⟩ := rmPath_prunes fuel (x := []) (s := { tree := t }) hshort hroot
    openedTo_root ⟨rfl, fun _ hl => hl, fun _ hl _ => hl⟩ fun l hl _ => by
      have hlt := hn l hl
      omega
  rw [pathOf_nil] at hrun
  refine ⟨r, s, hrun, hp.kind, fun l hl => ?_, fun l hl => ?_, ?_⟩
  · rw [hp.mem]
    exact and_congr_right fun _ => ⟨fun h => h hl, fun h _ => h⟩
  · rw [hp.mem]
    exact and_iff_left fun h => absurd h hl
  · rcases hp.result with ⟨rfl, hst⟩ | ⟨rfl, hst⟩
    · refine iff_of_true rfl fun l hl hbelow => ?_
      exact hst ((((hp.mem l).1 hl).2 hbelow).above hbelow)
    · refine iff_of_false (by decide) fun hnone => ?_
      exact hnone g.root ((hp.mem _).2 ⟨hroot, fun _ => hst⟩) (List.suffix_refl _)

end

/-! ## A directory that cannot be opened -/

def letterA : Name := [97]

def letterB : Name := [98]

def nestedDirs : Hierarchy where
  nodes := [[], [letterA], [letterB, letterA]]
  kind := fun _ => .dir
  nodup := by decide
  top := by decide
  topDir := rfl
  hangs := by decide

def closedSite : Site where
  base := letterA
  root := [letterA]
  fault := fun call l => (call = .opendir && l = [letterB, letterA]) || (call = .rmdir && l = [])
  top := rfl

/-- The empty directory remains, and the one above it. -/
theorem rmPath_remains_closed : ∃ fuel r s,
    rmPath closedSite true fuel { tree := nestedDirs } letterA = some (r, s) ∧ r ≠ 0 ∧
      [letterB, letterA] ∈ s.tree.nodes ∧ [letterA] ∈ s.tree.nodes := by
  have hshort : ShortPaths closedSite nestedDirs := by
    intro x hx
    have hle : x = [] ∨ x = [letterB] := by
      simpa [nestedDirs, closedSite, List.append_eq_cons_iff] using hx
    rcases hle with rfl | rfl <;> decide
  obtain ⟨n, hn⟩ := rmPath_remains (g := closedSite) (t := nestedDirs) (by decide) hshort
  obtain ⟨r, s, hrun, -, hmem, -, hzero⟩ := hn n le_rfl
  have hstays : Stays closedSite nestedDirs [letterB, letterA] :=
    stays_of_unopened (by decide) ⟨rfl, rfl⟩ (List.suffix_refl _) (by decide)
  have hb : [letterB, letterA] ∈ s.tree.nodes := (hmem _ (by decide)).2 ⟨by decide, hstays⟩
  have ha : [letterA] ∈ s.tree.nodes :=
    (hmem _ (by decide)).2 ⟨by decide, hstays.above (by decide)⟩
  exact ⟨n, r, s, hrun, fun h => hzero.1 h _ hb (by decide), hb, ha⟩

/-- A node that remains on its own account, if a directory that cannot be opened counts for what is
below it only. -/
def ResistsBelow (g : Site) (t : Hierarchy) (m : Place) : Prop :=
  RemovalFails g t m ∨ ∃ c, g.root <:+ c ∧ c <:+ m ∧ c ≠ m ∧ Unopened g t c

/-- `rmdir` is not tried on a directory that cannot be opened: the empty directory remains,
although its removal would not fail and it is below no such directory. -/
theorem unopened_empty_dir_remains :
    ((rmPath closedSite true 3 { tree := nestedDirs } letterA).any fun x =>
        decide ([letterB, letterA] ∈ x.2.tree.nodes)) = true ∧
      ∀ m ∈ nestedDirs.nodes, [letterB, letterA] <:+ m →
        ¬ ResistsBelow closedSite nestedDirs m := by
  refine ⟨by decide +kernel, fun m hm hbelow => ?_⟩
  obtain rfl : m = [letterB, letterA] := by
    have hle := hbelow.length_le
    simp only [nestedDirs, List.mem_cons, List.not_mem_nil, or_false] at hm
    rcases hm with rfl | rfl | rfl
    · cases hle
    · simp at hle
    · rfl
  rintro (hf | ⟨c, -, -, hne, -, hc⟩)
  · have hrmdir : closedSite.fault .rmdir [letterB, letterA] = true := hf
    exact absurd hrmdir (by decide)
  · have hopen : c = [letterB, letterA] := by simpa [closedSite] using hc
    exact hne hopen

end G9OS.Tools
