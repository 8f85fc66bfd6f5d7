import G9OS.Lib.Files

/-! # Trees of directories

A place is the list of the names that lead to it, the last name first: its tail is its parent,
and the places below it are those it is a suffix of. A hierarchy is a finite set of places that
contains the parents of its places, all of them directories. Paths are followed from a place
that some path is known to name.
-/

namespace G9OS.Lib

abbrev Name : Type := List UInt8

abbrev Place : Type := List Name

abbrev separator : UInt8 := 47

abbrev selfName : Name := [46]

abbrev upName : Name := [46, 46]

structure ValidName (n : Name) : Prop where
  nonempty : n ≠ []
  inner : separator ∉ n
  notSelf : n ≠ selfName
  notUp : n ≠ upName

instance (n : Name) : Decidable (ValidName n) :=
  decidable_of_iff (n ≠ [] ∧ separator ∉ n ∧ n ≠ selfName ∧ n ≠ upName)
    ⟨fun h => ⟨h.1, h.2.1, h.2.2.1, h.2.2.2⟩, fun h => ⟨h.1, h.2, h.3, h.4⟩⟩

inductive Kind
  | file
  | link (text : Pathname)
  | dir
deriving DecidableEq, Repr

def Hangs (nodes : List Place) (kind : Place → Kind) : Place → Prop
  | [] => True
  | n :: l => ValidName n ∧ l ∈ nodes ∧ kind l = .dir

instance (nodes : List Place) (kind : Place → Kind) : DecidablePred (Hangs nodes kind)
  | [] => isTrue trivial
  | n :: l => inferInstanceAs (Decidable (ValidName n ∧ l ∈ nodes ∧ kind l = .dir))

structure Hierarchy where
  nodes : List Place
  kind : Place → Kind
  nodup : nodes.Nodup
  top : [] ∈ nodes
  topDir : kind [] = .dir
  hangs : ∀ l ∈ nodes, Hangs nodes kind l

def childName (l : Place) : Place → Option Name
  | [] => none
  | n :: m => if m = l then some n else none

theorem childName_eq_some {l m : Place} {n : Name} : childName l m = some n ↔ m = n :: l := by
  cases m with
  | nil => simp [childName]
  | cons k m =>
      simp only [childName, Option.ite_none_right_eq_some, Option.some.injEq, List.cons.injEq]
      exact and_comm

namespace Hierarchy

variable (t : Hierarchy) {l m : Place} {n : Name}

/-- The names in a directory, as `readdir` finds them, without `.` and `..` -/
def entries (l : Place) : List Name := t.nodes.filterMap (childName l)

@[simp] theorem mem_entries : n ∈ t.entries l ↔ n :: l ∈ t.nodes := by
  simp [entries, childName_eq_some]

theorem entries_nodup (l : Place) : (t.entries l).Nodup := by
  refine List.Nodup.filterMap (fun a b n ha hb => ?_) t.nodup
  rw [childName_eq_some.1 ha, childName_eq_some.1 hb]

theorem entries_eq_nil : t.entries l = [] ↔ ∀ n, n :: l ∉ t.nodes := by
  simp [List.eq_nil_iff_forall_not_mem]

theorem valid (h : n :: l ∈ t.nodes) : ValidName n := (t.hangs _ h).1

theorem parent_mem (h : n :: l ∈ t.nodes) : l ∈ t.nodes := (t.hangs _ h).2.1

theorem parent_dir (h : n :: l ∈ t.nodes) : t.kind l = .dir := (t.hangs _ h).2.2

theorem mem_of_below (h : m ∈ t.nodes) (hl : l <:+ m) : l ∈ t.nodes := by
  induction m with
  | nil => rwa [List.suffix_nil.1 hl]
  | cons n m ih =>
      rcases List.suffix_cons_iff.1 hl with rfl | hl
      · exact h
      · exact ih (t.parent_mem h) hl

theorem dir_of_below (h : m ∈ t.nodes) (hl : l <:+ m) (hne : l ≠ m) : t.kind l = .dir := by
  induction m with
  | nil => exact absurd (List.suffix_nil.1 hl) hne
  | cons n m ih =>
      rcases List.suffix_cons_iff.1 hl with rfl | hl
      · exact absurd rfl hne
      · by_cases he : l = m
        · rw [he]
          exact t.parent_dir h
        · exact ih (t.parent_mem h) hl he

def remove (l : Place) (hl : l ≠ []) (he : t.entries l = []) : Hierarchy where
  nodes := t.nodes.filter (· ≠ l)
  kind := t.kind
  nodup := t.nodup.filter _
  top := by simp [t.top, hl.symm]
  topDir := t.topDir
  hangs := by
    intro m hm
    have hmem : m ∈ t.nodes := (List.mem_filter.1 hm).1
    cases m with
    | nil => trivial
    | cons n m =>
        refine ⟨t.valid hmem, ?_, t.parent_dir hmem⟩
        have hne : m ≠ l := by
          rintro rfl
          exact t.entries_eq_nil.1 he n hmem
        simp [t.parent_mem hmem, hne]

@[simp] theorem mem_remove {hl : l ≠ []} {he : t.entries l = []} :
    m ∈ (t.remove l hl he).nodes ↔ m ∈ t.nodes ∧ m ≠ l := by simp [remove]

variable {t} in
theorem ne_nil_of_kind (h : t.kind l ≠ .dir) : l ≠ [] := by
  rintro rfl
  exact h t.topDir

variable {t} in
theorem entries_of_kind (h : t.kind l ≠ .dir) : t.entries l = [] :=
  t.entries_eq_nil.2 fun _ hn => h (t.parent_dir hn)

/-! ## Paths -/

/-- Where the components of a path lead from a place. An empty component stays at the directory.
No link is followed. -/
def walk : Place → List Name → Option Place
  | l, [] => if l ∈ t.nodes then some l else none
  | l, c :: cs =>
      if l ∈ t.nodes ∧ t.kind l = .dir then
        walk (if c = [] ∨ c = selfName then l else if c = upName then l.tail else c :: l) cs
      else none

/-- Where the rest of a path leads that begins with a separator, or is empty. -/
def proceed (l : Place) : Pathname → Option Place
  | [] => t.walk l []
  | c :: rest => if c = separator then t.walk l (rest.splitOn separator) else none

/-- Where a path leads that begins with `base`, the path of the place `root`. -/
def locate (base : Pathname) (root : Place) (path : Pathname) : Option Place :=
  if PATH_MAX ≤ path.length then none
  else if base <+: path then t.proceed root (path.drop base.length)
  else none

end Hierarchy

/-- What follows the path of the place `root` in the path of `x ++ root`. -/
def tailPath : Place → Pathname
  | [] => []
  | n :: x => tailPath x ++ separator :: n

/-- The path of the place `x ++ root`. -/
def pathOf (base : Pathname) (x : Place) : Pathname := base ++ tailPath x

@[simp] theorem pathOf_nil (base : Pathname) : pathOf base [] = base := List.append_nil base

theorem pathOf_cons (base : Pathname) (n : Name) (x : Place) :
    pathOf base (n :: x) = pathOf base x ++ separator :: n := by
  simp [pathOf, tailPath]

namespace Hierarchy

variable {t : Hierarchy} {l m root : Place} {base : Pathname} {n : Name}

theorem walk_mem {cs : List Name} (h : t.walk l cs = some m) : m ∈ t.nodes := by
  induction cs generalizing l with
  | nil =>
      unfold walk at h
      split at h
      · cases h
        assumption
      · cases h
  | cons c cs ih =>
      unfold walk at h
      split at h
      · exact ih h
      · cases h

theorem walk_append (cs ds : List Name) :
    t.walk l (cs ++ ds) = (t.walk l cs).bind fun m => t.walk m ds := by
  induction cs generalizing l with
  | nil =>
      rw [List.nil_append, walk]
      split
      · rfl
      · rename_i hl
        cases ds with
        | nil => rw [walk, if_neg hl]; rfl
        | cons d ds =>
            rw [walk, if_neg fun h => hl h.1]
            rfl
  | cons c cs ih =>
      rw [List.cons_append, walk, walk]
      split
      · exact ih
      · rfl

theorem walk_name (hn : ValidName n) :
    t.walk l [n] = if n :: l ∈ t.nodes then some (n :: l) else none := by
  rw [walk, if_neg (not_or.2 ⟨hn.nonempty, hn.notSelf⟩), if_neg hn.notUp, walk]
  by_cases h : n :: l ∈ t.nodes
  · rw [if_pos ⟨t.parent_mem h, t.parent_dir h⟩]
  · rw [if_neg h]
    split <;> rfl

theorem walk_self (h : l ∈ t.nodes) (hd : t.kind l = .dir) (hn : n = [] ∨ n = selfName) :
    t.walk l [n] = some l := by
  rw [walk, if_pos ⟨h, hd⟩, if_pos hn, walk, if_pos h]

theorem walk_up (h : l ∈ t.nodes) (hd : t.kind l = .dir) : t.walk l [upName] = some l.tail := by
  have htail : l.tail ∈ t.nodes := t.mem_of_below h (List.tail_suffix l)
  rw [walk, if_pos ⟨h, hd⟩, if_neg (by decide), if_pos rfl, walk, if_pos htail]

theorem proceed_append (p q : Pathname) :
    t.proceed l (p ++ separator :: q) =
      (t.proceed l p).bind fun m => t.walk m (q.splitOn separator) := by
  cases p with
  | nil =>
      simp only [List.nil_append, proceed, if_true]
      rw [← walk_append, List.nil_append]
  | cons c p =>
      simp only [List.cons_append, proceed]
      split
      · rw [← walk_append]
        congr 1
        exact List.splitOnP_append_cons p q (by simp)
      · rfl

theorem splitOn_inner (h : separator ∉ n) : n.splitOn separator = [n] :=
  List.splitOnP_eq_singleton fun x hx => by
    rw [beq_eq_false_iff_ne]
    rintro rfl
    exact h hx

theorem proceed_tailPath {x : Place} (hx : ∀ n ∈ x, ValidName n) :
    t.proceed root (tailPath x) = if x ++ root ∈ t.nodes then some (x ++ root) else none := by
  induction x with
  | nil => rfl
  | cons n x ih =>
      have hn : ValidName n := hx n List.mem_cons_self
      rw [tailPath, proceed_append, splitOn_inner hn.inner,
        ih fun k hk => hx k (List.mem_cons_of_mem n hk)]
      by_cases h : x ++ root ∈ t.nodes
      · rw [if_pos h, Option.bind_some, walk_name hn]
        rfl
      · rw [if_neg h, List.cons_append, if_neg fun h' => h (t.parent_mem h')]
        rfl

/-- A path that is short enough leads to its place. -/
theorem locate_pathOf {x : Place} (hx : ∀ n ∈ x, ValidName n)
    (hlen : (pathOf base x).length < PATH_MAX) :
    t.locate base root (pathOf base x) =
      if x ++ root ∈ t.nodes then some (x ++ root) else none := by
  rw [locate, if_neg (not_le.2 hlen), pathOf, if_pos (List.prefix_append base _), List.drop_left,
    proceed_tailPath hx]

/-- What is appended to the path of a directory is followed from there. -/
theorem locate_append {x : Place} {q : Pathname} (hx : ∀ n ∈ x, ValidName n)
    (h : x ++ root ∈ t.nodes) (hlen : (pathOf base x ++ separator :: q).length < PATH_MAX) :
    t.locate base root (pathOf base x ++ separator :: q) =
      t.walk (x ++ root) (q.splitOn separator) := by
  have hassoc : pathOf base x ++ separator :: q = base ++ (tailPath x ++ separator :: q) := by
    rw [pathOf, List.append_assoc]
  rw [locate, if_neg (not_le.2 hlen), hassoc, if_pos (List.prefix_append base _), List.drop_left,
    proceed_append, proceed_tailPath hx, if_pos h, Option.bind_some]

theorem locate_mem {p : Pathname} (h : t.locate base root p = some l) : l ∈ t.nodes := by
  unfold locate at h
  split at h
  · cases h
  · split at h
    · unfold proceed at h
      split at h
      · exact walk_mem h
      · split at h
        · exact walk_mem h
        · cases h
    · cases h

end Hierarchy

end G9OS.Lib
