import G9OS.Tools.Rm

/-! # How deep `custom_rm -r` goes

The recursion goes down the tree as long as the path in the buffer names the entry that was read.
A path that does not fit is cut: what is left of the last name may be another entry of the same
directory, it may be `.` or `..`, and it may be nothing at all. In the last cases the call is made
on the directory itself or on its parent, and the path that is passed on cannot grow any more.
-/

namespace G9OS.Tools

open Lib

variable {err err' : Bool} {v : Hierarchy} {ns : List Name} {k : Name}

/-- What is left of a name behind a path and a separator. -/
def shortName (path : Pathname) (n : Name) : Name := n.take (PATH_MAX - 2 - path.length)

/-- Every call was made on a node below the directory that it was made from. -/
def Deeper (calls : List (Place × Option Place)) : Prop :=
  ∀ c ∈ calls, ∀ m, c.2 = some m → c.1 <:+ m ∧ c.1 ≠ m

/-- `rm_path` returns, every recursive call is made on a deeper node, and no directory is opened
twice. -/
def Descends (g : Site) (t : Hierarchy) : Prop :=
  ∃ fuel r s, rmPath g true fuel { tree := t } g.base = some (r, s) ∧ Deeper s.calls ∧
    s.entered.Nodup

/-- A directory of the tree whose path is not too long, and which can be opened as all those above
it. -/
structure Reached (g : Site) (t : Hierarchy) (x : Place) : Prop where
  mem : x ++ g.root ∈ t.nodes
  dir : t.kind (x ++ g.root) = .dir
  short : (pathOf g.base x).length < PATH_MAX
  opened : ∀ c, g.root <:+ c → c <:+ x ++ g.root → ¬ Unopened g t c

/-- What is left of the names in a directory are names again. If what is left of one is another one,
which is a directory that can be opened, then that one can be removed. -/
structure Roomy (g : Site) (t : Hierarchy) (x : Place) : Prop where
  names : ∀ n ∈ t.entries (x ++ g.root), ValidName (shortName (pathOf g.base x) n)
  others : ∀ n ∈ t.entries (x ++ g.root), ∀ k ∈ t.entries (x ++ g.root), n ≠ k →
    shortName (pathOf g.base x) n = k → t.kind (k :: (x ++ g.root)) = .dir →
    g.fault .opendir (k :: (x ++ g.root)) = false → g.fault .rmdir (k :: (x ++ g.root)) = false

section
variable {g : Site} {t u : Hierarchy} {s s' s1 s2 : RmState} {x y l : Place} {n : Name}
  {path : Pathname} {r : Int} {rm : RmState → Pathname → Option (Int × RmState)}

/-! ## The path of an entry -/

theorem shortName_inner (hn : ValidName n) : separator ∉ shortName path n := fun h =>
  hn.inner (List.mem_of_mem_take h)

theorem shortName_self (h : (path ++ slash :: n).length < PATH_MAX) : shortName path n = n := by
  refine List.take_of_length_le ?_
  simp only [List.length_append, List.length_cons] at h
  omega

theorem childPath_of_room (h : path.length + 1 < PATH_MAX) :
    childPath path n = path ++ slash :: shortName path n := by
  have hlen : PATH_MAX - 1 - path.length = (PATH_MAX - 2 - path.length) + 1 := by omega
  rw [childPath, cut, List.take_append, List.take_of_length_le (by omega), hlen,
    List.take_succ_cons]
  rfl

theorem childPath_of_full (h : path.length = PATH_MAX - 1) : childPath path n = path := by
  rw [childPath, cut, ← h, List.take_left]

theorem length_childPath_lt (path : Pathname) (n : Name) : (childPath path n).length < PATH_MAX :=
  (List.length_take_le _ _).trans_lt (by decide)

/-- What is left of a name can be a name only if there is room for it. -/
theorem childPath_of_valid (h : ValidName (shortName path n)) :
    childPath path n = path ++ slash :: shortName path n := by
  refine childPath_of_room ?_
  by_contra hno
  refine h.nonempty ?_
  have hzero : PATH_MAX - 2 - path.length = 0 := by omega
  rw [shortName, hzero, List.take_zero]

theorem childPath_pathOf (h : ValidName (shortName (pathOf g.base x) n)) :
    childPath (pathOf g.base x) n = pathOf g.base (shortName (pathOf g.base x) n :: x) := by
  rw [childPath_of_valid h, pathOf_cons]

theorem length_pathOf_short (h : ValidName (shortName (pathOf g.base x) n)) :
    (pathOf g.base (shortName (pathOf g.base x) n :: x)).length < PATH_MAX := by
  rw [← childPath_pathOf h]
  exact length_childPath_lt _ _

theorem Site.locate_pathOf (hx : ∀ n ∈ x, ValidName n)
    (hlen : (pathOf g.base x).length < PATH_MAX) :
    g.locate u (pathOf g.base x) = if x ++ g.root ∈ u.nodes then some (x ++ g.root) else none :=
  Hierarchy.locate_pathOf hx hlen

theorem Site.locate_childPath (hx : ∀ n ∈ x, ValidName n)
    (hvalid : ValidName (shortName (pathOf g.base x) n)) :
    g.locate u (childPath (pathOf g.base x) n) =
      if shortName (pathOf g.base x) n :: (x ++ g.root) ∈ u.nodes then
        some (shortName (pathOf g.base x) n :: (x ++ g.root)) else none := by
  rw [childPath_pathOf hvalid]
  exact g.locate_pathOf (List.forall_mem_cons.2 ⟨hvalid, hx⟩) (length_pathOf_short hvalid)

/-- A call from a directory that is made on a deeper node, or on none, has what is left of the name
as its last name. -/
theorem valid_of_deeper (hx : ∀ n ∈ x, ValidName n) (hlen : (pathOf g.base x).length < PATH_MAX)
    (hy : x ++ g.root ∈ u.nodes) (hdir : u.kind (x ++ g.root) = .dir) (hn : ValidName n)
    (hdeep : ∀ m, g.locate u (childPath (pathOf g.base x) n) = some m →
      x ++ g.root <:+ m ∧ x ++ g.root ≠ m) :
    ValidName (shortName (pathOf g.base x) n) := by
  by_cases hroom : (pathOf g.base x).length + 1 < PATH_MAX
  · have hloc : g.locate u (childPath (pathOf g.base x) n) =
        u.walk (x ++ g.root) [shortName (pathOf g.base x) n] := by
      rw [childPath_of_room hroom]
      have hlt := length_childPath_lt (pathOf g.base x) n
      rw [childPath_of_room hroom] at hlt
      rw [← Hierarchy.splitOn_inner (shortName_inner hn)]
      exact Hierarchy.locate_append hx hy hlt
    refine ⟨fun he => ?_, shortName_inner hn, fun he => ?_, fun he => ?_⟩
    · exact (hdeep _ (hloc.trans (Hierarchy.walk_self hy hdir (.inl he)))).2 rfl
    · exact (hdeep _ (hloc.trans (Hierarchy.walk_self hy hdir (.inr he)))).2 rfl
    · rw [he] at hloc
      obtain ⟨hsuffix, hne⟩ := hdeep _ (hloc.trans (Hierarchy.walk_up hy hdir))
      exact hne (hsuffix.eq_of_length_le (List.tail_suffix _).length_le)
  · have hfull : childPath (pathOf g.base x) n = pathOf g.base x :=
      childPath_of_full (by omega)
    refine absurd rfl (hdeep (x ++ g.root) ?_).2
    rw [hfull, g.locate_pathOf hx hlen, if_pos hy]

/-! ## Going down -/

structure Part (t u : Hierarchy) : Prop where
  kind : u.kind = t.kind
  mem : ∀ l ∈ u.nodes, l ∈ t.nodes

/-- A part of a run that opens the directories `new`, all for the first time. -/
structure Descent (g : Site) (s s' : RmState) (new : List Place) : Prop where
  entered : s'.entered = new ++ s.entered
  calls : ∃ cs, s'.calls = cs ++ s.calls ∧ Deeper cs
  part : Part s.tree s'.tree
  present : ∀ l ∈ new, l ∈ s.tree.nodes
  opened : ∀ l ∈ new, s.tree.kind l = .dir ∧ g.fault .opendir l = false
  nodup : new.Nodup

theorem Part.refl (t : Hierarchy) : Part t t := ⟨rfl, fun _ hl => hl⟩

theorem Part.trans (h : Part t u) (h' : Part u v) : Part t v :=
  ⟨h'.kind.trans h.kind, fun l hl => h.mem l (h'.mem l hl)⟩

theorem Part.remove (hl : l ≠ []) (he : t.entries l = []) : Part t (t.remove l hl he) :=
  ⟨rfl, fun _ hm => (t.mem_remove.1 hm).1⟩

theorem Descent.still (he : s'.entered = s.entered) (hc : s'.calls = s.calls)
    (hp : Part s.tree s'.tree) : Descent g s s' [] :=
  ⟨he, ⟨[], hc, nofun⟩, hp, nofun, nofun, List.nodup_nil⟩

theorem Descent.trans {new new' : List Place} (h : Descent g s s1 new) (h' : Descent g s1 s2 new')
    (hnew : ∀ l ∈ new, l ∉ new') : Descent g s s2 (new' ++ new) := by
  obtain ⟨cs, hcs, hdeep⟩ := h.calls
  obtain ⟨cs', hcs', hdeep'⟩ := h'.calls
  refine ⟨?_, ⟨cs' ++ cs, ?_, ?_⟩, h.part.trans h'.part, ?_, ?_, ?_⟩
  · rw [h'.entered, h.entered, List.append_assoc]
  · rw [hcs', hcs, List.append_assoc]
  · intro c hc
    rcases List.mem_append.1 hc with hc | hc
    · exact hdeep' c hc
    · exact hdeep c hc
  · intro l hl
    rcases List.mem_append.1 hl with hl | hl
    · exact h.part.mem l (h'.present l hl)
    · exact h.present l hl
  · intro l hl
    rcases List.mem_append.1 hl with hl | hl
    · rw [← h.part.kind]
      exact h'.opened l hl
    · exact h.opened l hl
  · refine List.nodup_append.2 ⟨h'.nodup, h.nodup, ?_⟩
    rintro l hl _ hl' rfl
    exact hnew l hl' hl

/-- What a call on the path of `x ++ root` does. At the end of the buffer it opens nothing but the
place itself, and removes it if it can. -/
structure CallDescent (g : Site) (x : Place) (s s' : RmState) (new : List Place) : Prop where
  descent : Descent g s s' new
  below : ∀ l ∈ new, x ++ g.root <:+ l
  full : (pathOf g.base x).length = PATH_MAX - 1 →
    ∀ l ∈ new, l = x ++ g.root ∧ (g.fault .rmdir l = true ∨ l ∉ s'.tree.nodes)

def CallDescends (g : Site) (t : Hierarchy) (x : Place)
    (rm : RmState → Pathname → Option (Int × RmState)) : Prop :=
  ∀ s, Part t s.tree → ∃ r s' new, rm s (pathOf g.base x) = some (r, s') ∧ CallDescent g x s s' new

theorem CallDescent.still (h : Descent g s s' []) : CallDescent g x s s' [] := ⟨h, nofun, nofun⟩

theorem length_pathOf_cons (k : Name) :
    (pathOf g.base (k :: x)).length = (pathOf g.base x).length + 1 + k.length := by
  rw [pathOf_cons, List.length_append, List.length_cons]
  omega

theorem full_of_shortName_eq (hn : ValidName (shortName (pathOf g.base x) n)) (hne : n ≠ k)
    (h : shortName (pathOf g.base x) n = shortName (pathOf g.base x) k) :
    (pathOf g.base (shortName (pathOf g.base x) n :: x)).length = PATH_MAX - 1 := by
  have hroom : 0 < PATH_MAX - 2 - (pathOf g.base x).length := by
    by_contra hno
    refine hn.nonempty ?_
    rw [shortName, Nat.eq_zero_of_not_pos hno, List.take_zero]
  have hlen : (shortName (pathOf g.base x) n).length = PATH_MAX - 2 - (pathOf g.base x).length := by
    by_contra hlt
    -- otherwise both names are there as a whole
    have hwhole : ∀ j, (shortName (pathOf g.base x) j).length ≠
        PATH_MAX - 2 - (pathOf g.base x).length → shortName (pathOf g.base x) j = j := by
      intro j hj
      refine List.take_of_length_le ?_
      rw [shortName, List.length_take] at hj
      omega
    refine hne ?_
    rw [← hwhole n hlt, ← hwhole k (h ▸ hlt), h]
  rw [length_pathOf_cons, hlen]
  omega

theorem Descent.logCall (hx : ∀ n ∈ x, ValidName n)
    (hvalid : ValidName (shortName (pathOf g.base x) n)) :
    Descent g s (s.logCall (x ++ g.root) (g.locate s.tree (childPath (pathOf g.base x) n))) [] := by
  refine ⟨rfl, ⟨[_], rfl, ?_⟩, .refl _, nofun, nofun, List.nodup_nil⟩
  rintro c hc m hm
  obtain rfl := List.mem_singleton.1 hc
  rw [g.locate_childPath hx hvalid] at hm
  split at hm
  · cases hm
    exact ⟨List.suffix_cons _ _, (List.cons_ne_self _ _).symm⟩
  · cases hm

/-- Two entries of which the same name is left: what the call on the first one has opened is gone
when the second one is tried. -/
theorem Roomy.apart {new : List Place} (hroom : Roomy g t x) (hn : n ∈ t.entries (x ++ g.root))
    (hk : k ∈ t.entries (x ++ g.root)) (hne : n ≠ k)
    (h : CallDescent g (shortName (pathOf g.base x) n :: x) s s1 new) (hs : Part t s.tree)
    (hl : l ∈ new) (hleft : l ∈ s1.tree.nodes) :
    ¬ shortName (pathOf g.base x) k :: (x ++ g.root) <:+ l := by
  intro hkl
  have hsame := child_unique (h.below l hl) hkl
  obtain ⟨rfl, hgone⟩ := h.full (full_of_shortName_eq (hroom.names n hn) hne hsame) l hl
  have hfault := hgone.resolve_right (not_not.2 hleft)
  have hentry : shortName (pathOf g.base x) n ∈ t.entries (x ++ g.root) :=
    t.mem_entries.2 (hs.mem _ (h.descent.present _ hl))
  obtain ⟨hdir, hopen⟩ := h.descent.opened _ hl
  have hkind : t.kind (shortName (pathOf g.base x) n :: (x ++ g.root)) = .dir := by
    rw [← hs.kind]
    exact hdir
  -- one of the two names is not the one that is left
  obtain ⟨j, hj, hjne, hjs⟩ : ∃ j ∈ t.entries (x ++ g.root), j ≠ shortName (pathOf g.base x) n ∧
      shortName (pathOf g.base x) j = shortName (pathOf g.base x) n := by
    by_cases he : n = shortName (pathOf g.base x) n
    · exact ⟨k, hk, fun hke => hne (he.trans hke.symm), hsame.symm⟩
    · exact ⟨n, hn, he, rfl⟩
  have hfree := hroom.others j hj _ hentry hjne hjs hkind hopen
  cases hfree.symm.trans hfault

theorem rmEntries_descends (err : Bool) (hx : ∀ n ∈ x, ValidName n) (hnodup : ns.Nodup)
    (hmem : ∀ n ∈ ns, n :: (x ++ g.root) ∈ t.nodes) (hroom : Roomy g t x)
    (hrm : ∀ n ∈ ns, CallDescends g t (shortName (pathOf g.base x) n :: x) rm)
    (hs : Part t s.tree) :
    ∃ err' s' new, rmEntries g rm (pathOf g.base x) (x ++ g.root) ns err s = some (err', s') ∧
      Descent g s s' new ∧
      ∀ l ∈ new, ∃ n ∈ ns, shortName (pathOf g.base x) n :: (x ++ g.root) <:+ l := by
  induction ns generalizing s err with
  | nil => exact ⟨err, s, [], rfl, .still rfl rfl (.refl _), nofun⟩
  | cons n ns ih =>
      have hn : n ∈ n :: ns := List.mem_cons_self
      obtain ⟨hnot, hnodup⟩ := List.nodup_cons.1 hnodup
      have hentry := fun k hk => t.mem_entries.2 (hmem k hk)
      have hvalid := hroom.names n (hentry n hn)
      have hlog : Descent g s _ [] := .logCall hx hvalid
      obtain ⟨r, s1, new1, hr, hcall⟩ := hrm n hn (s.logCall (x ++ g.root)
        (g.locate s.tree (childPath (pathOf g.base x) n))) hs
      obtain ⟨err', s2, new2, hloop, hd2, hbelow2⟩ := ih (err || decide (r < 0)) hnodup
        (fun k hk => hmem k (List.mem_cons_of_mem n hk))
        (fun k hk => hrm k (List.mem_cons_of_mem n hk)) (hs.trans hcall.descent.part)
      have hdisjoint : ∀ l ∈ new1, l ∉ new2 := by
        intro l hl1 hl2
        obtain ⟨k, hk, hkl⟩ := hbelow2 l hl2
        have hne : n ≠ k := by
          rintro rfl
          exact hnot hk
        exact hroom.apart (hentry n hn) (hentry k (List.mem_cons_of_mem n hk)) hne hcall hs hl1
          (hd2.present l hl2) hkl
      refine ⟨err', s2, new2 ++ (new1 ++ []), ?_, (hlog.trans hcall.descent nofun).trans hd2 ?_, ?_⟩
      · rw [rmEntries_cons (t.valid (hmem n hn))]
        rw [childPath_pathOf hvalid] at hr ⊢
        rw [hr]
        exact hloop
      · simpa using hdisjoint
      · intro l hl
        rcases List.mem_append.1 hl with hl | hl
        · obtain ⟨k, hk, hkl⟩ := hbelow2 l hl
          exact ⟨k, List.mem_cons_of_mem n hk, hkl⟩
        · exact ⟨n, hn, hcall.below l (by simpa using hl)⟩

theorem rmdirAt_part (h : rmdirAt g u path = some v) : Part u v := by
  unfold rmdirAt at h
  split at h
  · cases h
  · split at h
    · cases h
      exact .remove _ _
    · cases h

theorem finishDir_still (path : Pathname) (err : Bool) :
    Descent g s (finishDir g path err s).2 [] := by
  unfold finishDir
  split
  · exact .still rfl rfl (.refl _)
  · rename_i tree htree
    exact .still rfl rfl (rmdirAt_part htree)

theorem finishDir_empty (err : Bool) (hloc : g.locate s.tree path = some y)
    (hdir : s.tree.kind y = .dir) (he : s.tree.entries y = []) :
    g.fault .rmdir y = true ∨ y ∉ (finishDir g path err s).2.tree.nodes := by
  by_cases hf : g.fault .rmdir y = true
  · exact .inl hf
  · right
    rw [finishDir, rmdirAt_empty hloc hdir he (by simpa using hf)]
    simp

theorem Roomy.entries_nil (h : Roomy g t x) (hfull : (pathOf g.base x).length = PATH_MAX - 1) :
    t.entries (x ++ g.root) = [] := by
  refine List.eq_nil_iff_forall_not_mem.2 fun n hn => (h.names n hn).nonempty ?_
  rw [shortName, hfull]
  rfl

theorem Part.entries_nil (h : Part t u) (he : t.entries y = []) : u.entries y = [] :=
  u.entries_eq_nil.2 fun n hn => t.entries_eq_nil.1 he n (h.mem _ hn)

/-- A directory that is opened, given what the calls on its entries do. -/
theorem rmDirRecursive_descends (hx : ∀ n ∈ x, ValidName n) (hroom : Roomy g t x)
    (hrm : ∀ n, n :: (x ++ g.root) ∈ t.nodes →
      CallDescends g t (shortName (pathOf g.base x) n :: x) rm)
    (hs : Part t s.tree) (hloc : g.locate s.tree (pathOf g.base x) = some (x ++ g.root))
    (hdir : s.tree.kind (x ++ g.root) = .dir) (hf : g.fault .opendir (x ++ g.root) = false) :
    ∃ r s' new, rmDirRecursive g rm s (pathOf g.base x) = some (r, s') ∧
      CallDescent g x s s' new := by
  have hentry : ∀ n ∈ s.tree.entries (x ++ g.root), n :: (x ++ g.root) ∈ t.nodes :=
    fun n hn => hs.mem _ (s.tree.mem_entries.1 hn)
  obtain ⟨err, s1, new, hloop, hd, hbelow⟩ := rmEntries_descends false hx
    (s.tree.entries_nodup _) hentry hroom (fun n hn => hrm n (hentry n hn))
    (s := s.enter (x ++ g.root)) hs
  have hnew : ∀ l ∈ new, x ++ g.root <:+ l ∧ l ≠ x ++ g.root := by
    intro l hl
    obtain ⟨n, -, hn⟩ := hbelow l hl
    refine ⟨(List.suffix_cons _ _).trans hn, ?_⟩
    rintro rfl
    exact not_below_child _ _ hn
  have henter : Descent g s (s.enter (x ++ g.root)) [x ++ g.root] :=
    ⟨rfl, ⟨[], rfl, nofun⟩, .refl _, by simpa using Hierarchy.locate_mem hloc,
      by simpa using ⟨hdir, hf⟩, List.nodup_singleton _⟩
  have hall : Descent g s (finishDir g (pathOf g.base x) err s1).2
      ([] ++ (new ++ [x ++ g.root])) := by
    refine (henter.trans hd fun l hl hl' => ?_).trans (finishDir_still _ err) fun _ _ => nofun
    rw [List.mem_singleton.1 hl] at hl'
    exact (hnew _ hl').2 rfl
  have hrun : rmDirRecursive g rm s (pathOf g.base x) =
      some (finishDir g (pathOf g.base x) err s1) := by
    rw [rmDirRecursive_opened hloc hdir hf, hloop]
    rfl
  refine ⟨_, _, new ++ [x ++ g.root], hrun, hall, fun l hl => ?_, fun hfull l hl => ?_⟩
  · rcases List.mem_append.1 hl with hl | hl
    · exact (hnew l hl).1
    · rw [List.mem_singleton.1 hl]
  · have hnil := hs.entries_nil (hroom.entries_nil hfull)
    rw [hnil] at hloop hbelow
    cases hloop
    obtain rfl : l = x ++ g.root := by
      rcases List.mem_append.1 hl with hl | hl
      · obtain ⟨n, hn, -⟩ := hbelow l hl
        cases hn
      · exact List.mem_singleton.1 hl
    exact ⟨rfl, finishDir_empty _ hloc hdir hnil⟩

theorem rmPath_file (recursive : Bool) (fuel : Nat) (hloc : g.locate s.tree path = some l)
    (hdir : s.tree.kind l ≠ .dir) :
    ∃ r s', rmPath g recursive (fuel + 1) s path = some (r, s') ∧ s'.entered = s.entered ∧
      s'.calls = s.calls ∧ Part s.tree s'.tree ∧
      ∀ m ∈ s.tree.nodes, m ≠ l → m ∈ s'.tree.nodes := by
  rw [rmPath_leaf hloc hdir]
  split
  · exact ⟨_, _, rfl, rfl, rfl, .refl _, fun m hm _ => hm⟩
  · refine ⟨_, _, rfl, rfl, rfl, ⟨rfl, fun m hm => ?_⟩, fun m hm hne => ?_⟩
    · rw [RmState.print_tree, RmState.setTree_tree, s.tree.mem_remove] at hm
      exact hm.1
    · rw [RmState.print_tree, RmState.setTree_tree, s.tree.mem_remove]
      exact ⟨hm, hne⟩

theorem rmPath_descends (fuel : Nat) (hcond : ∀ x, Reached g t x → Roomy g t x)
    (hx : ∀ n ∈ x, ValidName n) (hlen : (pathOf g.base x).length < PATH_MAX)
    (hup : OpenedTo g t (x ++ g.root)) (hpos : 0 < fuel)
    (hfuel : ∀ l ∈ t.nodes, x ++ g.root <:+ l → l.length < (x ++ g.root).length + fuel) :
    CallDescends g t x (rmPath g true fuel) := by
  induction fuel generalizing x with
  | zero => exact absurd hpos (lt_irrefl 0)
  | succ fuel ih =>
      intro s hs
      have hloc := g.locate_pathOf (u := s.tree) hx hlen
      by_cases hy : x ++ g.root ∈ s.tree.nodes
      · rw [if_pos hy] at hloc
        by_cases hdir : s.tree.kind (x ++ g.root) = .dir
        · rw [rmPath_dir hloc hdir]
          by_cases hf : g.fault .opendir (x ++ g.root) = true
          · rw [rmDirRecursive_unopened hloc hf]
            exact ⟨_, _, [], rfl, .still (.still rfl rfl (.refl _))⟩
          · have hclosed : ¬ Unopened g t (x ++ g.root) := fun h => hf h.2
            have hroom : Roomy g t x := by
              refine hcond x ⟨hs.mem _ hy, hs.kind ▸ hdir, hlen, fun c hc hcy => ?_⟩
              by_cases he : c = x ++ g.root
              · rwa [he]
              · exact hup c hc hcy he
            refine rmDirRecursive_descends hx hroom (fun n hn => ?_) hs hloc hdir
              (by simpa using hf)
            have hvalid := hroom.names n (t.mem_entries.2 hn)
            have hdepth := hfuel _ hn (List.suffix_cons n _)
            rw [List.length_cons] at hdepth
            refine ih (List.forall_mem_cons.2 ⟨hvalid, hx⟩) (length_pathOf_short hvalid)
              (hup.child hclosed _) (by omega) fun l hl hbelow => ?_
            have hlt := hfuel l hl ((List.suffix_cons _ _).trans hbelow)
            rw [List.cons_append, List.length_cons]
            omega
        · obtain ⟨r, s', hrun, he, hc, hp, -⟩ := rmPath_file true fuel hloc hdir
          exact ⟨r, s', [], hrun, .still (.still he hc hp)⟩
      · rw [if_neg hy] at hloc
        rw [rmPath_missing hloc]
        exact ⟨_, _, [], rfl, .still (.still rfl rfl (.refl _))⟩

/-! ## Every run -/

/-- What holds of every part of a run: the records grow, nodes are only removed, and a directory
whose `rmdir` fails is not. -/
structure Extends (g : Site) (s s' : RmState) : Prop where
  part : Part s.tree s'.tree
  calls : s.calls <:+ s'.calls
  entered : s.entered <:+ s'.entered
  stuck : ∀ l ∈ s.tree.nodes, s.tree.kind l = .dir → g.fault .rmdir l = true → l ∈ s'.tree.nodes

theorem Extends.trans (h : Extends g s s1) (h' : Extends g s1 s2) : Extends g s s2 where
  part := h.part.trans h'.part
  calls := h.calls.trans h'.calls
  entered := h.entered.trans h'.entered
  stuck l hl hdir hf := h'.stuck l (h.stuck l hl hdir hf) (h.part.kind ▸ hdir) hf

theorem Extends.same (ht : s'.tree = s.tree) (hc : s.calls <:+ s'.calls)
    (he : s.entered <:+ s'.entered) : Extends g s s' := by
  refine ⟨?_, hc, he, fun l hl _ _ => ?_⟩
  · rw [ht]
    exact .refl _
  · rwa [ht]

theorem Extends.remove (hkind : s'.tree.kind = s.tree.kind)
    (hmem : ∀ m, m ∈ s'.tree.nodes ↔ m ∈ s.tree.nodes ∧ m ≠ l) (hc : s'.calls = s.calls)
    (he : s'.entered = s.entered) (hno : s.tree.kind l = .dir → g.fault .rmdir l = false) :
    Extends g s s' := by
  refine ⟨⟨hkind, fun m hm => ((hmem m).1 hm).1⟩, hc ▸ List.suffix_refl _,
    he ▸ List.suffix_refl _, fun m hm hdir hf => (hmem m).2 ⟨hm, ?_⟩⟩
  rintro rfl
  cases (hno hdir).symm.trans hf

theorem rmdirAt_some (h : rmdirAt g u path = some v) (hloc : g.locate u path = some y) : g.fault
    .rmdir y = false ∧ v.kind = u.kind ∧
      ∀ l, l ∈ v.nodes ↔ l ∈ u.nodes ∧ l ≠ y := by
  unfold rmdirAt at h
  rw [hloc] at h
  dsimp only at h
  split at h
  · rename_i hall
    cases h
    exact ⟨hall.2.2, rfl, fun l => u.mem_remove⟩
  · cases h

theorem finishDir_extends (path : Pathname) (err : Bool) (hloc : g.locate s.tree path = some y) :
    Extends g s (finishDir g path err s).2 ∧
      ∀ l ∈ s.tree.nodes, l ≠ y → l ∈ (finishDir g path err s).2.tree.nodes := by
  unfold finishDir
  split
  · exact ⟨.same rfl (List.suffix_refl _) (List.suffix_refl _), fun l hl _ => hl⟩
  · rename_i tree htree
    obtain ⟨hf, hkind, hmem⟩ := rmdirAt_some htree hloc
    exact ⟨.remove hkind hmem rfl rfl fun _ => hf, fun l hl hne => (hmem l).2 ⟨hl, hne⟩⟩

theorem rmEntries_extends {here : Place} (hrm : ∀ s p r s', rm s p = some (r, s') → Extends g s s')
    (h : rmEntries g rm path here ns err s = some (err', s')) : Extends g s s' := by
  induction ns generalizing s err with
  | nil =>
      cases h
      exact .same rfl (List.suffix_refl _) (List.suffix_refl _)
  | cons n ns ih =>
      rw [rmEntries] at h
      split at h
      · exact ih h
      · dsimp only at h
        split at h
        · cases h
        · rename_i r s1 hr
          have hlog : Extends g s (s.logCall here (g.locate s.tree (childPath path n))) :=
            .same rfl (List.suffix_cons _ _) (List.suffix_refl _)
          exact (hlog.trans (hrm _ _ _ _ hr)).trans (ih h)

theorem rmDirRecursive_some {r : Int} (hloc : g.locate s.tree path = some y)
    (hdir : s.tree.kind y = .dir) (hf : g.fault .opendir y = false)
    (h : rmDirRecursive g rm s path = some (r, s')) : ∃ err s1,
      rmEntries g rm path y (s.tree.entries y) false (s.enter y) = some (err, s1) ∧
        finishDir g path err s1 = (r, s') := by
  rw [rmDirRecursive_opened hloc hdir hf] at h
  obtain ⟨⟨err, s1⟩, hloop, hfin⟩ := Option.map_eq_some_iff.1 h
  exact ⟨err, s1, hloop, hfin⟩

theorem finishDir_grows (path : Pathname) (err : Bool) :
    Extends g s (finishDir g path err s).2 := by
  cases hloc : g.locate s.tree path with
  | some y => exact (finishDir_extends path err hloc).1
  | none =>
      have hnone : rmdirAt g s.tree path = none := by rw [rmdirAt, hloc]
      rw [finishDir, hnone]
      exact .same rfl (List.suffix_refl _) (List.suffix_refl _)

theorem rmPath_extends (fuel : Nat) {r : Int} (h : rmPath g true fuel s path = some (r, s')) :
    Extends g s s' := by
  induction fuel generalizing s path r s' with
  | zero => cases h
  | succ fuel ih =>
      have hsame : ∀ line, Extends g s (s.print line) := fun line =>
        .same rfl (List.suffix_refl _) (List.suffix_refl _)
      cases hloc : g.locate s.tree path with
      | none =>
          rw [rmPath_missing hloc] at h
          cases h
          exact hsame _
      | some l =>
          by_cases hdir : s.tree.kind l = .dir
          · rw [rmPath_dir hloc hdir] at h
            by_cases hf : g.fault .opendir l = true
            · rw [rmDirRecursive_unopened hloc hf] at h
              cases h
              exact hsame _
            · obtain ⟨err, s1, hloop, hfin⟩ := rmDirRecursive_some hloc hdir (by simpa using hf) h
              have henter : Extends g s (s.enter l) :=
                .same rfl (List.suffix_refl _) (List.suffix_cons _ _)
              have hend := finishDir_grows (g := g) (s := s1) path err
              rw [hfin] at hend
              exact (henter.trans (rmEntries_extends (fun _ _ _ _ hr => ih hr) hloop)).trans hend
          · obtain ⟨r', s1, hrun, he, hc, hp, hmem⟩ := rmPath_file true fuel hloc hdir
            rw [hrun] at h
            cases h
            refine ⟨hp, hc ▸ List.suffix_refl _, he ▸ List.suffix_refl _, fun m hm hd _ => ?_⟩
            refine hmem m hm ?_
            rintro rfl
            exact hdir hd

/-- A call that finds a directory it can open writes it down. -/
theorem rmPath_enters (fuel : Nat) {r : Int} (hloc : g.locate s.tree path = some y)
    (hdir : s.tree.kind y = .dir) (hf : g.fault .opendir y = false)
    (h : rmPath g true fuel s path = some (r, s')) : (y :: s.entered) <:+ s'.entered := by
  cases fuel with
  | zero => cases h
  | succ fuel =>
      rw [rmPath_dir hloc hdir] at h
      obtain ⟨err, s1, hloop, hfin⟩ := rmDirRecursive_some hloc hdir hf h
      have hend := finishDir_grows (g := g) (s := s1) path err
      rw [hfin] at hend
      exact (rmEntries_extends (fun _ _ _ _ hr => rmPath_extends fuel hr) hloop).entered.trans
        hend.entered

/-! ## What a run shows -/

/-- All directories at and below `y` that are reached have room for their names. -/
def Known (g : Site) (t : Hierarchy) (y : Place) : Prop :=
  ∀ w, y <:+ w ++ g.root → Reached g t w → Roomy g t w

theorem known_of_not_mem (hy : y ∉ t.nodes) : Known g t y := fun _ hbelow hw =>
  absurd (t.mem_of_below hw.mem hbelow) hy

/-- A call on the path of `x ++ root` that returns, and whose calls have all gone deeper, has
removed nothing elsewhere, and it shows that there is room below. -/
def CallShows (g : Site) (t : Hierarchy) (x : Place)
    (rm : RmState → Pathname → Option (Int × RmState)) : Prop :=
  ∀ s r s', rm s (pathOf g.base x) = some (r, s') → Deeper s'.calls → s'.entered.Nodup →
    (∀ l ∈ s.tree.nodes, ¬ x ++ g.root <:+ l → l ∈ s'.tree.nodes) ∧
    (Intact t s.tree (x ++ g.root) → OpenedTo g t (x ++ g.root) → Known g t (x ++ g.root))

theorem Deeper.suffix {cs cs' : List (Place × Option Place)} (h : Deeper cs') (hs : cs <:+ cs') :
    Deeper cs := fun c hc => h c (hs.subset hc)

theorem rmEntries_shows (hx : ∀ n ∈ x, ValidName n) (hlen : (pathOf g.base x).length < PATH_MAX)
    (hns : ∀ n ∈ ns, ValidName n) (hext : ∀ s p r s', rm s p = some (r, s') → Extends g s s')
    (hrm : ∀ m, ValidName m → (pathOf g.base (m :: x)).length < PATH_MAX → CallShows g t (m :: x) rm)
    (h : rmEntries g rm (pathOf g.base x) (x ++ g.root) ns err s = some (err', s'))
    (hdeep : Deeper s'.calls) (hnodup : s'.entered.Nodup) (hy : x ++ g.root ∈ s.tree.nodes)
    (hdir : s.tree.kind (x ++ g.root) = .dir) :
    (∀ n ∈ ns, ValidName (shortName (pathOf g.base x) n)) ∧
    (∀ l ∈ s.tree.nodes, (∀ n ∈ ns, ¬ shortName (pathOf g.base x) n :: (x ++ g.root) <:+ l) →
      l ∈ s'.tree.nodes) ∧
    ((∀ m, OpenedTo g t (m :: (x ++ g.root))) →
      (∀ n ∈ ns, Intact t s.tree (shortName (pathOf g.base x) n :: (x ++ g.root)) ∨
        Known g t (shortName (pathOf g.base x) n :: (x ++ g.root))) →
      ∀ n ∈ ns, Known g t (shortName (pathOf g.base x) n :: (x ++ g.root))) := by
  induction ns generalizing s err with
  | nil =>
      cases h
      exact ⟨nofun, fun l hl _ => hl, fun _ _ => nofun⟩
  | cons n ns ih =>
      obtain ⟨hn, hns⟩ := List.forall_mem_cons.1 hns
      rw [rmEntries_cons hn] at h
      split at h
      · cases h
      · rename_i r s1 hr
        have hrest := rmEntries_extends hext h
        have hcall := hext _ _ _ _ hr
        have hdeep1 : Deeper s1.calls := hdeep.suffix hrest.calls
        have hvalid : ValidName (shortName (pathOf g.base x) n) := by
          refine valid_of_deeper hx hlen hy hdir hn fun m hm => ?_
          exact hdeep1 _ (hcall.calls.subset List.mem_cons_self) m hm
        rw [childPath_pathOf hvalid] at hr
        obtain ⟨hframe, hknown⟩ := hrm _ hvalid (length_pathOf_short hvalid) _ _ _ hr hdeep1
          (hnodup.sublist hrest.entered.sublist)
        have hy1 : x ++ g.root ∈ s1.tree.nodes := hframe _ hy (not_below_child _ _)
        have hdir1 : s1.tree.kind (x ++ g.root) = .dir := hcall.part.kind ▸ hdir
        obtain ⟨hvalids, hframes, hknowns⟩ := ih hns h hy1 hdir1
        refine ⟨List.forall_mem_cons.2 ⟨hvalid, hvalids⟩, fun l hl hoff => ?_, fun hup hs => ?_⟩
        · obtain ⟨hoff, hoffs⟩ := List.forall_mem_cons.1 hoff
          exact hframes l (hframe l hl hoff) hoffs
        · obtain ⟨hs, hss⟩ := List.forall_mem_cons.1 hs
          have hk : Known g t (shortName (pathOf g.base x) n :: (x ++ g.root)) := by
            rcases hs with hs | hs
            · exact hknown hs (hup _)
            · exact hs
          refine List.forall_mem_cons.2 ⟨hk, hknowns hup fun k hkn => ?_⟩
          by_cases he : shortName (pathOf g.base x) k = shortName (pathOf g.base x) n
          · rw [he]
            exact .inr hk
          · refine (hss k hkn).imp_left fun hi => ?_
            refine ⟨hcall.part.kind.trans hi.kind, fun l hl => hi.old l (hcall.part.mem l hl), ?_⟩
            intro l hl hkl
            exact hframe l (hi.whole l hl hkl) fun hnl => he (child_unique hkl hnl)

/-- A directory that is not removed is opened by every call on it. -/
theorem rmEntries_count (fuel : Nat) (hx : ∀ n ∈ x, ValidName n) (hns : ∀ n ∈ ns, ValidName n)
    (hvalid : ∀ n ∈ ns, ValidName (shortName (pathOf g.base x) n))
    (h : rmEntries g (rmPath g true fuel) (pathOf g.base x) (x ++ g.root) ns err s = some (err', s'))
    (hz : k :: (x ++ g.root) ∈ s.tree.nodes) (hdir : s.tree.kind (k :: (x ++ g.root)) = .dir)
    (hopen : g.fault .opendir (k :: (x ++ g.root)) = false)
    (hf : g.fault .rmdir (k :: (x ++ g.root)) = true) :
    s.entered.count (k :: (x ++ g.root)) +
      ns.countP (fun n => shortName (pathOf g.base x) n = k) ≤
        s'.entered.count (k :: (x ++ g.root)) := by
  induction ns generalizing s err with
  | nil =>
      cases h
      exact le_rfl
  | cons n ns ih =>
      obtain ⟨hn, hns⟩ := List.forall_mem_cons.1 hns
      obtain ⟨hnv, hvalid⟩ := List.forall_mem_cons.1 hvalid
      rw [rmEntries_cons hn] at h
      split at h
      · cases h
      · rename_i r s1 hr
        have hcall := rmPath_extends fuel hr
        have hrest := ih hns hvalid h (hcall.stuck _ hz hdir hf) (hcall.part.kind ▸ hdir)
        rw [List.countP_cons]
        by_cases he : shortName (pathOf g.base x) n = k
        · subst he
          have hloc : g.locate s.tree (childPath (pathOf g.base x) n) =
              some (shortName (pathOf g.base x) n :: (x ++ g.root)) :=
            (g.locate_childPath hx hnv).trans (if_pos hz)
          have henter := rmPath_enters fuel (s := s.logCall _ _) hloc hdir hopen hr
          have hcount := henter.sublist.count_le (shortName (pathOf g.base x) n :: (x ++ g.root))
          rw [List.count_cons_self] at hcount
          simp only [RmState.logCall_entered] at hcount
          simp only [decide_true, if_true]
          omega
        · have hcount := hcall.entered.sublist.count_le (k :: (x ++ g.root))
          simp only [RmState.logCall_entered] at hcount
          simp only [he, decide_false]
          simp only [Bool.false_eq_true, if_false]
          omega

/-- Two names of which the same is left, one of them as a whole. -/
theorem two_le_countP (hn : n ∈ ns) (hk : k ∈ ns) (hne : n ≠ k) (h : shortName path n = k) : 2 ≤
    ns.countP (fun j => shortName path j = k) := by
  have hkk : shortName path k = k := by
    rw [← h, shortName, shortName, List.take_take, min_self]
  have hsub : List.Subperm [n, k] (ns.filter fun j => decide (shortName path j = k)) := by
    refine List.subperm_of_subset (by simpa using hne) ?_
    intro j hj
    rcases List.mem_pair.1 hj with rfl | rfl
    · exact List.mem_filter.2 ⟨hn, by simpa using h⟩
    · exact List.mem_filter.2 ⟨hk, by simpa using hkk⟩
  rw [List.countP_eq_length_filter]
  exact hsub.length_le

theorem length_pathOf_mono {w : Place} (h : x <:+ w) :
    (pathOf g.base x).length ≤ (pathOf g.base w).length := by
  obtain ⟨p, rfl⟩ := h
  induction p with
  | nil => exact le_rfl
  | cons n p ih =>
      rw [List.cons_append, length_pathOf_cons]
      omega

/-- An opened directory whose run shows room for its entries. -/
theorem known_of_entries (hx : Reached g t x → Roomy g t x)
    (hentries : ∀ n, n :: (x ++ g.root) ∈ t.nodes →
      Known g t (shortName (pathOf g.base x) n :: (x ++ g.root))) : Known g t (x ++ g.root) := by
  intro w hbelow hw
  rcases below_cases hbelow with he | ⟨n, hn⟩
  · obtain rfl := List.append_cancel_right he
    exact hx hw
  · have hsuffix : n :: x <:+ w := by
      obtain ⟨p, hp⟩ := hn
      refine ⟨p, (List.append_left_inj g.root).1 ?_⟩
      rw [← hp]
      simp
    have hlen := (length_pathOf_mono (g := g) hsuffix).trans_lt hw.short
    rw [pathOf_cons] at hlen
    have hknown := hentries n (t.mem_of_below hw.mem hn)
    rw [shortName_self hlen] at hknown
    exact hknown w hn hw

/-- A directory that is opened, given what the calls on its entries show. -/
theorem rmDirRecursive_shows (fuel : Nat) (hx : ∀ n ∈ x, ValidName n)
    (hlen : (pathOf g.base x).length < PATH_MAX)
    (hrm : ∀ m, ValidName m → (pathOf g.base (m :: x)).length < PATH_MAX →
      CallShows g t (m :: x) (rmPath g true fuel))
    (hloc : g.locate s.tree (pathOf g.base x) = some (x ++ g.root))
    (hdir : s.tree.kind (x ++ g.root) = .dir) (hf : g.fault .opendir (x ++ g.root) = false)
    (h : rmDirRecursive g (rmPath g true fuel) s (pathOf g.base x) = some (r, s'))
    (hdeep : Deeper s'.calls) (hnodup : s'.entered.Nodup) :
    (∀ l ∈ s.tree.nodes, ¬ x ++ g.root <:+ l → l ∈ s'.tree.nodes) ∧
    (Intact t s.tree (x ++ g.root) → OpenedTo g t (x ++ g.root) → Known g t (x ++ g.root)) := by
  obtain ⟨err, s1, hloop, hfin⟩ := rmDirRecursive_some hloc hdir hf h
  have hend := finishDir_grows (g := g) (s := s1) (pathOf g.base x) err
  rw [hfin] at hend
  have hnodup1 := hnodup.sublist hend.entered.sublist
  have hy := Hierarchy.locate_mem hloc
  have hnames : ∀ n ∈ s.tree.entries (x ++ g.root), ValidName n := fun n hn =>
    s.tree.valid (s.tree.mem_entries.1 hn)
  obtain ⟨hvalid, hframe, hknown⟩ := rmEntries_shows (t := t) hx hlen hnames
    (fun _ _ _ _ hr => rmPath_extends fuel hr) hrm hloop (hdeep.suffix hend.calls) hnodup1 hy hdir
  refine ⟨fun l hl hoff => ?_, fun hi hup => ?_⟩
  · have hy1 : x ++ g.root ∈ s1.tree.nodes := hframe _ hy fun n _ hn => not_below_child _ _ hn
    have hloc1 := g.locate_pathOf (u := s1.tree) hx hlen
    rw [if_pos hy1] at hloc1
    have hl1 := hframe l hl fun n _ hn => hoff ((List.suffix_cons _ _).trans hn)
    have hne : l ≠ x ++ g.root := by
      rintro rfl
      exact hoff (List.suffix_refl _)
    have hl2 := (finishDir_extends (pathOf g.base x) err hloc1).2 l hl1 hne
    rwa [hfin] at hl2
  · have hup' : ∀ m, OpenedTo g t (m :: (x ++ g.root)) :=
      hup.child fun hno => by cases hf.symm.trans hno.2
    have hentry : ∀ {n}, n ∈ t.entries (x ++ g.root) → n ∈ s.tree.entries (x ++ g.root) := fun hn =>
      hi.mem_entries.2 (t.mem_entries.1 hn)
    refine known_of_entries (fun _ => ⟨fun n hn => hvalid n (hentry hn), ?_⟩) fun n hn =>
      hknown hup' (fun n _ => .inl (hi.child _)) n (hi.mem_entries.2 hn)
    intro n hn k hk hne hs hd ho
    by_contra hstuck
    have hcount := rmEntries_count fuel hx hnames hvalid hloop (s.tree.mem_entries.1 (hentry hk))
      (hi.kind ▸ hd) ho (by simpa using hstuck)
    have htwo := two_le_countP (hentry hn) (hentry hk) hne hs
    have hone := List.nodup_iff_count_le_one.1 hnodup1 (k :: (x ++ g.root))
    omega

theorem rmPath_shows (fuel : Nat) (hx : ∀ n ∈ x, ValidName n)
    (hlen : (pathOf g.base x).length < PATH_MAX) : CallShows g t x (rmPath g true fuel) := by
  induction fuel generalizing x with
  | zero =>
      intro s r s' h
      cases h
  | succ fuel ih =>
      intro s r s' h hdeep hnodup
      have hloc := g.locate_pathOf (u := s.tree) hx hlen
      by_cases hy : x ++ g.root ∈ s.tree.nodes
      · rw [if_pos hy] at hloc
        by_cases hdir : s.tree.kind (x ++ g.root) = .dir
        · rw [rmPath_dir hloc hdir] at h
          by_cases hf : g.fault .opendir (x ++ g.root) = true
          · rw [rmDirRecursive_unopened hloc hf] at h
            cases h
            refine ⟨fun l hl _ => hl, fun hi _ w hbelow hw => ?_⟩
            exact absurd ⟨hi.kind ▸ hdir, hf⟩
              (hw.opened _ (List.suffix_append x g.root) hbelow)
          · exact rmDirRecursive_shows fuel hx hlen
              (fun m hm hlen => ih (List.forall_mem_cons.2 ⟨hm, hx⟩) hlen) hloc hdir
              (by simpa using hf) h hdeep hnodup
        · obtain ⟨r', s1, hrun, -, -, -, hmem⟩ := rmPath_file true fuel hloc hdir
          rw [hrun] at h
          cases h
          refine ⟨fun l hl hoff => hmem l hl ?_, fun hi _ w hbelow hw => ?_⟩
          · rintro rfl
            exact hoff (List.suffix_refl _)
          · rw [hi.kind] at hdir
            by_cases he : x ++ g.root = w ++ g.root
            · exact absurd (he ▸ hw.dir) hdir
            · exact absurd (t.dir_of_below hw.mem hbelow he) hdir
      · rw [if_neg hy] at hloc
        rw [rmPath_missing hloc] at h
        cases h
        refine ⟨fun l hl _ => hl, fun hi _ => known_of_not_mem fun hmem => ?_⟩
        exact hy (hi.whole _ hmem (List.suffix_refl _))

/-- The recursion of `custom_rm -r` returns, with every call on a deeper node and no directory
opened twice, exactly if every directory that it reaches has room for the names in it. -/
theorem rmPath_descends_iff (g : Site) (t : Hierarchy) :
    Descends g t ↔ ∀ x, Reached g t x → Roomy g t x := by
  constructor
  · rintro ⟨fuel, r, s, hrun, hdeep, hnodup⟩ x hx
    have hbase : (pathOf g.base []).length < PATH_MAX :=
      (length_pathOf_mono (List.nil_suffix (l := x))).trans_lt hx.short
    rw [← pathOf_nil g.base] at hrun
    have hknown := (rmPath_shows fuel (List.forall_mem_nil _) hbase _ _ _ hrun hdeep hnodup).2
      ⟨rfl, fun _ hl => hl, fun _ hl _ => hl⟩ openedTo_root
    exact hknown x (List.suffix_append x g.root) hx
  · intro hcond
    obtain ⟨n, hn⟩ := exists_depth t
    by_cases hbase : (pathOf g.base []).length < PATH_MAX
    · obtain ⟨r, s, new, hrun, hd, -, -⟩ := rmPath_descends (n + 1) hcond
        (List.forall_mem_nil _) hbase openedTo_root (Nat.succ_pos n)
        (fun l hl _ => by have := hn l hl; omega) { tree := t } (.refl t)
      rw [pathOf_nil] at hrun
      obtain ⟨cs, hcs, hdeep⟩ := hd.calls
      refine ⟨n + 1, r, s, hrun, ?_, ?_⟩
      · rw [hcs, List.append_nil]
        exact hdeep
      · rw [hd.entered, List.append_nil]
        exact hd.nodup
    · rw [pathOf_nil] at hbase
      have hloc : g.locate t g.base = none := if_pos (not_lt.1 hbase)
      exact ⟨1, _, _, rmPath_missing hloc, nofun, List.nodup_nil⟩

/-- With a path that fills the buffer, the call on the first entry of a directory is the same call
again. -/
theorem rmPath_never_returns (hlen : path.length = PATH_MAX - 1)
    (hloc : g.locate s.tree path = some y) (hdir : s.tree.kind y = .dir)
    (hf : g.fault .opendir y = false) (hne : s.tree.entries y ≠ []) (fuel : Nat) :
    rmPath g true fuel s path = none := by
  induction fuel generalizing s with
  | zero => rfl
  | succ fuel ih =>
      rw [rmPath_dir hloc hdir, rmDirRecursive_opened hloc hdir hf]
      cases hentries : s.tree.entries y with
      | nil => exact absurd hentries hne
      | cons n ns =>
          have hn : ValidName n :=
            s.tree.valid (s.tree.mem_entries.1 (hentries ▸ List.mem_cons_self))
          rw [rmEntries_cons hn, childPath_of_full hlen,
            ih (s := (s.enter y).logCall y _) hloc hdir hne]
          rfl

end

/-- `custom_rm -r` on the directory `a`, written as a path of 4095 bytes. -/
def fullSite : Site where
  base := (List.replicate 2047 [dot, slash]).flatten ++ letterA
  root := [letterA]
  fault := fun call l => call = .rmdir && l = []
  top := rfl

/-- The operating system accepts the path. The call for the entry `b` is made on `a` again, and so on
without end. -/
theorem full_path_never_returns :
    fullSite.locate nestedDirs fullSite.base = some [letterA] ∧
      ∀ fuel, rmPath fullSite true fuel { tree := nestedDirs } fullSite.base = none := by
  have hlen : fullSite.base.length = PATH_MAX - 1 := by decide +kernel
  have hshort : (pathOf fullSite.base []).length < PATH_MAX := by
    rw [pathOf_nil, hlen]
    decide
  have hloc := fullSite.locate_pathOf (u := nestedDirs) (List.forall_mem_nil _) hshort
  rw [pathOf_nil, if_pos (by decide)] at hloc
  have hentries : nestedDirs.entries [letterA] ≠ [] := by decide
  refine ⟨hloc, fun fuel => ?_⟩
  exact rmPath_never_returns (s := { tree := nestedDirs }) hlen hloc rfl rfl hentries fuel

end G9OS.Tools
