import G9OS.FileSys.Itable

/-! # What the calls keep

An inode is in at most one entry of the table, its `ref` counts the references that are held, and a
valid copy agrees with the disk.
-/

namespace G9OS.FileSys

open Lib

def Party.weight (i : Fin NINODE) (x : Party) : Nat := x.holds i + hitOpt x.drops i

section
variable {i j : Fin NINODE}

theorem letGo_self {x : Party} : (x.letGo i).holds i = x.holds i - 1 := Function.update_self ..

theorem letGo_of_ne {x : Party} (h : j ≠ i) : (x.letGo i).holds j = x.holds j :=
  Function.update_of_ne h _ _

theorem weight_hold {x : Party} {n : Nat} (h : j ≠ i) :
    Party.weight j { x with holds := Function.update x.holds i n } = x.weight j := by
  simp only [Party.weight, Function.update_of_ne h]

theorem weight_letGo {x : Party} (hidle : x.drops = none) (hx : 0 < x.holds i) :
    (x.letGo i).weight j = x.weight j := by
  rw [Party.weight, Party.weight, hidle, hitOpt_none]
  change _ + hitOpt (some i) j = _
  by_cases hj : j = i
  · subst hj
    rw [letGo_self, hitOpt_some, hit_self]
    omega
  · rw [letGo_of_ne hj, hitOpt_some, hit, if_neg (Ne.symm hj)]

end

section
variable {P : Type} {s : FsState P} {i j : Fin NINODE} {inum : Nat}

theorem lookup_some (h : s.lookup inum = some i) :
    0 < (s.itable i).ref ∧ (s.itable i).inum = inum := by
  simpa using List.find?_some h

theorem lookup_none (h : s.lookup inum = none) (hj : 0 < (s.itable j).ref) :
    (s.itable j).inum ≠ inum := by
  intro heq
  have := List.find?_eq_none.1 h j (List.mem_finRange j)
  simp [hj, heq] at this

theorem empty_some (h : s.empty = some i) : (s.itable i).ref = 0 := by
  simpa using List.find?_some h

theorem empty_none (h : s.empty = none) (i : Fin NINODE) : 0 < (s.itable i).ref := by
  have := List.find?_eq_none.1 h i (List.mem_finRange i)
  exact Nat.pos_of_ne_zero (by simpa using this)

/-- The entries agree with those of `s` but for `ref`, which is positive where it was. -/
structure SameInodes (s t : FsState P) : Prop where
  inum : ∀ i, (t.itable i).inum = (s.itable i).inum
  valid : ∀ i, (t.itable i).valid = (s.itable i).valid
  copy : ∀ i, (t.itable i).copy = (s.itable i).copy
  pos : ∀ i, 0 < (t.itable i).ref → 0 < (s.itable i).ref

theorem SameInodes.setRef {t : FsState P} {n : Nat} (hn : 0 < n → 0 < (s.itable i).ref)
    (ht : t.itable = Function.update s.itable i { s.itable i with ref := n }) : SameInodes s t := by
  have hcase : ∀ j, t.itable j = s.itable j ∨
      j = i ∧ t.itable j = { s.itable j with ref := n } := by
    intro j
    rw [ht]
    by_cases hj : j = i
    · subst hj
      exact .inr ⟨rfl, Function.update_self ..⟩
    · exact .inl (Function.update_of_ne hj _ _)
  refine ⟨fun j => ?_, fun j => ?_, fun j => ?_, fun j => ?_⟩
  all_goals rcases hcase j with h | ⟨hj, h⟩ <;> rw [h]
  · exact id
  · exact hj ▸ hn

end

structure TableOk {P : Type} [Fintype P] (sb : Superblock) (s : FsState P) : Prop where
  disk : FsOk sb s.blocks
  counts : ∀ i, (s.itable i).ref = ∑ p, (s.proc p).weight i
  unique : ∀ i j, 0 < (s.itable i).ref → 0 < (s.itable j).ref →
    (s.itable i).inum = (s.itable j).inum → i = j
  range : ∀ i, 0 < (s.itable i).ref → (s.itable i).inum < sb.ninodes
  copies : ∀ i, 0 < (s.itable i).ref → (s.itable i).valid = true →
    (s.itable i).copy = sb.inodes s.blocks.data (s.itable i).inum ∧ (s.itable i).copy.type ≠ 0
  live : ∀ p i, 0 < (s.proc p).holds i →
    (sb.inodes s.blocks.data (s.itable i).inum).type ≠ 0
  locked : ∀ i p, s.lock i = some p → 0 < (s.proc p).holds i ∧ (s.itable i).valid = true

section
variable {P : Type} [Fintype P] {sb : Superblock} {s : FsState P} {p : P} {i : Fin NINODE}
  {inum : Nat}

theorem TableOk.ref_pos (h : TableOk sb s) (hp : 0 < (s.proc p).weight i) :
    0 < (s.itable i).ref := by
  rw [h.counts i]
  exact hp.trans_le (le_sum (fun p => (s.proc p).weight i) p)

theorem TableOk.held_pos (h : TableOk sb s) (hp : 0 < (s.proc p).holds i) : 0 < (s.itable i).ref :=
  h.ref_pos (p := p) (Nat.add_pos_left hp _)

theorem TableOk.unheld (h : TableOk sb s) (hi : (s.itable i).ref = 0) (p : P) :
    (s.proc p).holds i = 0 := by
  by_contra hne
  exact absurd (h.held_pos (p := p) (Nat.pos_of_ne_zero hne)) (by omega)

theorem TableOk.panic (h : TableOk sb s) (e : FsPanic) : TableOk sb (s.panic e) :=
  ⟨h.disk, h.counts, h.unique, h.range, h.copies, h.live, h.locked⟩

/-- Only references change, and who gets one may use the inode. -/
theorem TableOk.reference {t : FsState P} (h : TableOk sb s) (hsame : SameInodes s t)
    (hblocks : t.blocks = s.blocks) (hcounts : ∀ i, (t.itable i).ref = ∑ p, (t.proc p).weight i)
    (hlive : ∀ p i, 0 < (t.proc p).holds i → 0 < (s.proc p).holds i ∨
      (sb.inodes s.blocks.data (s.itable i).inum).type ≠ 0)
    (hlock : ∀ i p, t.lock i = some p → 0 < (t.proc p).holds i ∧ (s.itable i).valid = true) :
    TableOk sb t where
  disk := by
    rw [hblocks]
    exact h.disk
  counts := hcounts
  unique i j hi hj heq := by
    rw [hsame.inum, hsame.inum] at heq
    exact h.unique i j (hsame.pos i hi) (hsame.pos j hj) heq
  range i hi := by
    rw [hsame.inum]
    exact h.range i (hsame.pos i hi)
  copies i hi hv := by
    rw [hsame.valid] at hv
    rw [hsame.copy, hsame.inum, hblocks]
    exact h.copies i (hsame.pos i hi) hv
  live p i hp := by
    rw [hsame.inum, hblocks]
    exact (hlive p i hp).elim (h.live p i) id
  locked i p hl := by
    rw [hsame.valid]
    exact hlock i p hl

/-- One entry is replaced, and the inodes in the other entries are as before on the disk. -/
theorem TableOk.replace {t : FsState P} {v : Inode} (h : TableOk sb s)
    (ht : t.itable = Function.update s.itable i v) (hdisk : FsOk sb t.blocks)
    (hcounts : ∀ j, (Function.update s.itable i v j).ref = ∑ p, (t.proc p).weight j)
    (hrange : v.inum < sb.ninodes)
    (hother : ∀ j, j ≠ i → 0 < (s.itable j).ref → (s.itable j).inum ≠ v.inum ∧
      sb.inodes t.blocks.data (s.itable j).inum = sb.inodes s.blocks.data (s.itable j).inum)
    (hcopy : v.valid = true → v.copy = sb.inodes t.blocks.data v.inum ∧ v.copy.type ≠ 0)
    (hhold : ∀ q j, j ≠ i → (t.proc q).holds j = (s.proc q).holds j)
    (hlive : ∀ q, 0 < (t.proc q).holds i → (sb.inodes t.blocks.data v.inum).type ≠ 0)
    (hlock : ∀ j, j ≠ i → t.lock j = s.lock j)
    (howner : ∀ q, t.lock i = some q → 0 < (t.proc q).holds i ∧ v.valid = true) :
    TableOk sb t := by
  have hself : t.itable i = v := by rw [ht, Function.update_self]
  have hne : ∀ j, j ≠ i → t.itable j = s.itable j := by
    intro j hj
    rw [ht, Function.update_of_ne hj]
  refine ⟨hdisk, fun j => by rw [ht]; exact hcounts j, fun j k hj hk heq => ?_, fun j hj => ?_,
    fun j hj hv => ?_, fun q j hq => ?_, fun j q hl => ?_⟩
  · by_cases hji : j = i
    · by_cases hki : k = i
      · rw [hji, hki]
      · rw [hji, hself, hne k hki] at heq
        rw [hne k hki] at hk
        exact absurd heq.symm (hother k hki hk).1
    · rw [hne j hji] at hj heq
      by_cases hki : k = i
      · rw [hki, hself] at heq
        exact absurd heq (hother j hji hj).1
      · rw [hne k hki] at hk heq
        exact h.unique j k hj hk heq
  · by_cases hji : j = i
    · rw [hji, hself]
      exact hrange
    · rw [hne j hji] at hj ⊢
      exact h.range j hj
  · by_cases hji : j = i
    · rw [hji, hself] at hv ⊢
      exact hcopy hv
    · rw [hne j hji] at hj hv ⊢
      rw [(hother j hji hj).2]
      exact h.copies j hj hv
  · by_cases hji : j = i
    · rw [hji] at hq
      rw [hji, hself]
      exact hlive q hq
    · rw [hhold q j hji] at hq
      rw [hne j hji, (hother j hji (h.held_pos hq)).2]
      exact h.live q j hq
  · by_cases hji : j = i
    · rw [hji] at hl
      rw [hji, hself]
      exact howner q hl
    · rw [hlock j hji] at hl
      rw [hhold q j hji, hne j hji]
      exact h.locked j q hl

/-! ## Changes on the disk -/

theorem TableOk.apart {b : Blocks} {ip : Dinode} (h : TableOk sb s) (hi : 0 < (s.itable i).ref)
    (hino : sb.inodes b.data = Function.update (sb.inodes s.blocks.data) (s.itable i).inum ip)
    (j : Fin NINODE) (hji : j ≠ i) (hj : 0 < (s.itable j).ref) :
    (s.itable j).inum ≠ (s.itable i).inum ∧
      sb.inodes b.data (s.itable j).inum = sb.inodes s.blocks.data (s.itable j).inum := by
  have hne : (s.itable j).inum ≠ (s.itable i).inum := fun heq => hji (h.unique j i hj hi heq)
  exact ⟨hne, by rw [hino, Function.update_of_ne hne]⟩

theorem TableOk.counts_same (h : TableOk sb s) {v : Inode} (hv : v.ref = (s.itable i).ref)
    (j : Fin NINODE) : (Function.update s.itable i v j).ref = ∑ p, (s.proc p).weight j := by
  rw [← h.counts j]
  by_cases hj : j = i
  · rw [hj, Function.update_self, hv]
  · rw [Function.update_of_ne hj]

/-- The entry of a locked inode and the inode on the disk change together. -/
theorem TableOk.store {b : Blocks} {ip : Dinode} (h : TableOk sb s) (hi : 0 < (s.itable i).ref)
    (hok : FsOk sb b) (hino : sb.inodes b.data =
      Function.update (sb.inodes s.blocks.data) (s.itable i).inum ip) (htype : ip.type ≠ 0) :
    TableOk sb { s.setInode i { s.itable i with copy := ip } with blocks := b } := by
  have hself : sb.inodes b.data (s.itable i).inum = ip := by rw [hino, Function.update_self]
  refine h.replace rfl hok (h.counts_same rfl) (h.range i hi) (h.apart hi hino)
    (fun _ => ⟨hself.symm, htype⟩) (fun _ _ _ => rfl) (fun _ _ => ?_) (fun _ _ => rfl) (h.locked i)
  dsimp only
  rwa [hself]

theorem TableOk.load (h : TableOk sb s) (hp : 0 < (s.proc p).holds i) :
    TableOk sb (load sb { s with lock := Function.update s.lock i (some p) } i) ∧
      (load sb { s with lock := Function.update s.lock i (some p) } i).blocks = s.blocks ∧
      (load sb { s with lock := Function.update s.lock i (some p) } i).panicked = s.panicked := by
  have hpos := h.held_pos hp
  have htype := h.live p i hp
  have hdisk : getDinode (s.blocks.data (sb.iblock (s.itable i).inum)) ((s.itable i).inum % IPB) =
      sb.inodes s.blocks.data (s.itable i).inum := (if_pos (h.range i hpos)).symm
  have hother : ∀ j, j ≠ i → 0 < (s.itable j).ref → (s.itable j).inum ≠ (s.itable i).inum ∧
      sb.inodes s.blocks.data (s.itable j).inum = sb.inodes s.blocks.data (s.itable j).inum :=
    fun j hj hpos' => ⟨fun heq => hj (h.unique j i hpos' hpos heq), rfl⟩
  have hlock : ∀ j, j ≠ i → Function.update s.lock i (some p) j = s.lock j :=
    fun j hj => Function.update_of_ne hj _ _
  have howner : ∀ q, Function.update s.lock i (some p) i = some q → 0 < (s.proc q).holds i := by
    intro q hl
    rw [Function.update_self] at hl
    cases hl
    exact hp
  unfold FileSys.load
  dsimp only
  split
  · rename_i hv
    exact ⟨h.replace (v := s.itable i) (Function.update_eq_self i s.itable).symm h.disk
      (h.counts_same rfl) (h.range i hpos) hother (h.copies i hpos) (fun _ _ _ => rfl)
      (fun _ _ => htype) hlock fun q hl => ⟨howner q hl, hv⟩, rfl, rfl⟩
  · rw [hdisk, if_neg htype]
    exact ⟨h.replace rfl h.disk (h.counts_same rfl) (h.range i hpos) hother
      (fun _ => ⟨rfl, htype⟩) (fun _ _ _ => rfl) (fun _ _ => htype) hlock
      fun q hl => ⟨howner q hl, rfl⟩, rfl, rfl⟩

/-- What `iput` does to an inode that nobody may use any more. -/
theorem TableOk.freeOnDisk (h : TableOk sb s) (hi : 0 < (s.itable i).ref)
    (hvalid : (s.itable i).valid = true) (hnone : ∀ q, (s.proc q).holds i = 0) :
    TableOk sb (freeOnDisk sb s i) ∧ (freeOnDisk sb s i).panicked = s.panicked ∧
      files sb (freeOnDisk sb s i).blocks = Function.update (files sb s.blocks) (s.itable i).inum
        { files sb s.blocks (s.itable i).inum with type := 0, bytes := [] } := by
  have hrange := h.range i hi
  have hcopy := (h.copies i hi hvalid).1
  obtain ⟨b, hrun, hok, hino, hfiles, -⟩ := itrunc_done h.disk hrange hcopy.symm
  have hself : sb.inodes b.data (s.itable i).inum = (s.itable i).copy.cleared := by
    rw [hino, Function.update_self]
  obtain ⟨hok', hino', hfiles'⟩ :=
    setFields_done { (s.itable i).copy.cleared with type := 0 } hok hrange (by rw [hself])
      (by rw [hself]) fun _ => by
      rw [hself]
      exact ⟨rfl, fun x => Dinode.cleared_ref _⟩
  rw [hino, Function.update_idem] at hino'
  unfold FileSys.freeOnDisk
  dsimp only
  rw [hrun]
  dsimp only
  refine ⟨h.replace rfl hok' (h.counts_same rfl) hrange (h.apart hi hino') (fun hv => by cases hv)
    (fun _ _ _ => rfl) (fun q hq => ?_) (fun _ _ => rfl) fun q hl => ?_, rfl, ?_⟩
  · change 0 < (s.proc q).holds i at hq
    rw [hnone q] at hq
    exact absurd hq (Nat.lt_irrefl 0)
  · have hq := (h.locked i q hl).1
    rw [hnone q] at hq
    exact absurd hq (Nat.lt_irrefl 0)
  · rw [hfiles', hfiles, Function.update_idem]
    refine congrArg (Function.update _ _) ?_
    rw [Function.update_self]
    have hfile : files sb s.blocks (s.itable i).inum = (s.itable i).copy.file s.blocks.data := by
      rw [hcopy]
      rfl
    rw [hfile]
    rfl

theorem TableOk.allocate (h : TableOk sb s) {type : Int16} (htype : type ≠ 0)
    (hinum : inum < sb.ninodes) (hfree : (sb.inodes s.blocks.data inum).type = 0) :
    TableOk sb { s with blocks := iupdate sb s.blocks inum (.fresh type) } ∧
      (sb.inodes (iupdate sb s.blocks inum (.fresh type)).data inum).type ≠ 0 ∧
      files sb (iupdate sb s.blocks inum (.fresh type)) =
        Function.update (files sb s.blocks) inum ⟨type, 0, 0, 0, []⟩ := by
  obtain ⟨hsize, hrefs⟩ := h.disk.free inum hfree
  have haddrs : (sb.inodes s.blocks.data inum).addrs = fun _ => 0 := by
    funext k
    exact UInt32.toNat_inj.1 (hrefs (.addr k))
  have hbytes : (files sb s.blocks inum).bytes = [] := by
    apply List.length_eq_zero_iff.1
    refine length_bytes.trans ?_
    rw [hsize]
    rfl
  obtain ⟨hok, hino, hfiles⟩ := setFields_done (.fresh type) h.disk hinum hsize.symm
    haddrs.symm fun h0 => absurd h0 htype
  rw [hbytes] at hfiles
  have hself : (sb.inodes (iupdate sb s.blocks inum (.fresh type)).data inum).type ≠ 0 := by
    rw [hino, Function.update_self]
    exact htype
  refine ⟨⟨hok, h.counts, h.unique, h.range, fun j hj hv => ?_, fun q j hq => ?_, h.locked⟩, hself,
    hfiles⟩
  · obtain ⟨hcopy, hcopy0⟩ := h.copies j hj hv
    have hne : (s.itable j).inum ≠ inum := by
      intro heq
      rw [hcopy, heq] at hcopy0
      exact hcopy0 hfree
    dsimp only
    rw [hino, Function.update_of_ne hne]
    exact ⟨hcopy, hcopy0⟩
  · have hne : (s.itable j).inum ≠ inum := by
      intro heq
      have hlive := h.live q j hq
      rw [heq] at hlive
      exact hlive hfree
    dsimp only
    rw [hino, Function.update_of_ne hne]
    exact h.live q j hq

end

/-! ## References -/

section
variable {P : Type} [DecidableEq P] {s : FsState P} {p q : P} {i j : Fin NINODE}

theorem setParty_self {x : Party} : (s.setParty p x).proc p = x := Function.update_self ..

theorem setParty_of_ne {x : Party} (h : q ≠ p) : (s.setParty p x).proc q = s.proc q :=
  Function.update_of_ne h _ _

theorem hold_self {n : Nat} : ((s.hold p i n).proc p).holds i = n := by
  unfold FsState.hold
  rw [setParty_self]
  exact Function.update_self ..

theorem hold_of_ne {n : Nat} (h : ¬ (q = p ∧ j = i)) :
    ((s.hold p i n).proc q).holds j = (s.proc q).holds j := by
  unfold FsState.hold
  by_cases hq : q = p
  · subst hq
    rw [setParty_self]
    exact Function.update_of_ne (fun hj => h ⟨rfl, hj⟩) _ _
  · rw [setParty_of_ne hq]

end

section
variable {P : Type} [Fintype P] [DecidableEq P] {sb : Superblock} {s : FsState P} {p : P}
  {i : Fin NINODE} {inum : Nat}

theorem sum_setParty (x : Party) (i : Fin NINODE) :
    ∑ q, ((s.setParty p x).proc q).weight i + (s.proc p).weight i =
      ∑ q, (s.proc q).weight i + x.weight i :=
  sum_update_weight s.proc p x (Party.weight i)

theorem counts_setParty {x : Party} {n : Nat} (h : TableOk sb s)
    (hother : ∀ j, j ≠ i → x.weight j = (s.proc p).weight j)
    (hn : n + (s.proc p).weight i = (s.itable i).ref + x.weight i) (v : Inode) (hv : v.ref = n)
    (j : Fin NINODE) :
    (Function.update s.itable i v j).ref = ∑ q, (Function.update s.proc p x q).weight j := by
  have hsum := sum_update_weight s.proc p x (Party.weight j)
  have hcount := h.counts j
  by_cases hj : j = i
  · subst hj
    rw [Function.update_self, hv]
    omega
  · have hw := hother j hj
    rw [Function.update_of_ne hj]
    omega

theorem TableOk.addRef (h : TableOk sb s) (hi : 0 < (s.itable i).ref)
    (htype : (sb.inodes s.blocks.data (s.itable i).inum).type ≠ 0) : TableOk sb (s.addRef p i) := by
  refine h.reference (.setRef (fun _ => hi) rfl) rfl
    (counts_setParty h (fun j hj => weight_hold hj) ?_ _ rfl) (fun q j hq => ?_) fun j q hl => ?_
  · simp only [Party.weight, Function.update_self]
    omega
  · by_cases hqj : q = p ∧ j = i
    · exact .inr (hqj.2 ▸ htype)
    · exact .inl (by rwa [FsState.addRef, hold_of_ne hqj] at hq)
  · obtain ⟨hq, hv⟩ := h.locked j q hl
    refine ⟨?_, hv⟩
    by_cases hqj : q = p ∧ j = i
    · obtain ⟨rfl, rfl⟩ := hqj
      rw [FsState.addRef, hold_self]
      omega
    · rwa [FsState.addRef, hold_of_ne hqj]

theorem TableOk.subRef (h : TableOk sb s) (hp : 0 < (s.proc p).holds i)
    (hlock : s.lock i = some p → 1 < (s.proc p).holds i) : TableOk sb (s.subRef p i) := by
  have hpos := h.held_pos hp
  refine h.reference (.setRef (fun _ => hpos) rfl) rfl
    (counts_setParty h (fun j hj => weight_hold hj) ?_ _ rfl) (fun q j hq => .inl ?_)
    fun j q hl => ?_
  · simp only [Party.weight, Function.update_self]
    omega
  · by_cases hqj : q = p ∧ j = i
    · obtain ⟨rfl, rfl⟩ := hqj
      exact hp
    · rwa [FsState.subRef, hold_of_ne hqj] at hq
  · obtain ⟨hq, hv⟩ := h.locked j q hl
    refine ⟨?_, hv⟩
    by_cases hqj : q = p ∧ j = i
    · obtain ⟨rfl, rfl⟩ := hqj
      have htwo := hlock hl
      rw [FsState.subRef, hold_self]
      omega
    · rwa [FsState.subRef, hold_of_ne hqj]

/-- An unused entry of the table is given to an inode that is in no other entry. -/
theorem TableOk.recycle (h : TableOk sb s) (hi : (s.itable i).ref = 0) (hinum : inum < sb.ninodes)
    (hnew : ∀ j, 0 < (s.itable j).ref → (s.itable j).inum ≠ inum)
    (htype : (sb.inodes s.blocks.data inum).type ≠ 0) :
    TableOk sb ((s.setInode i { s.itable i with inum := inum, ref := 1, valid := false }).hold p i
      ((s.proc p).holds i + 1)) := by
  have hnone := h.unheld hi
  refine h.replace rfl h.disk (counts_setParty h (fun j hj => weight_hold hj) ?_ _ rfl) hinum
    (fun j _ hj => ⟨hnew j hj, rfl⟩) (fun hv => by cases hv)
    (fun q j hj => hold_of_ne fun hqj => hj hqj.2) (fun _ _ => htype) (fun _ _ => rfl)
    fun q hl => ?_
  · simp only [Party.weight, Function.update_self]
    omega
  · have hq := (h.locked i q hl).1
    rw [hnone q] at hq
    exact absurd hq (Nat.lt_irrefl 0)

theorem TableOk.iget (h : TableOk sb s) (hinum : inum < sb.ninodes)
    (htype : (sb.inodes s.blocks.data inum).type ≠ 0) :
    TableOk sb (iget s p inum) ∧ (iget s p inum).blocks = s.blocks ∧
      ((iget s p inum).panicked = s.panicked ∨
        (iget s p inum).panicked = some .igetNoInodes ∧ ∀ i, 0 < (s.itable i).ref) := by
  unfold FileSys.iget
  cases hfound : s.lookup inum with
  | some i =>
      obtain ⟨hpos, heq⟩ := lookup_some hfound
      exact ⟨h.addRef hpos (by rwa [heq]), rfl, .inl rfl⟩
  | none =>
      cases hempty : s.empty with
      | some i =>
          exact ⟨h.recycle (empty_some hempty) hinum (fun j => lookup_none hfound) htype, rfl,
            .inl rfl⟩
      | none => exact ⟨h.panic _, rfl, .inr ⟨rfl, empty_none hempty⟩⟩

theorem TableOk.release (h : TableOk sb s) (hidle : (s.proc p).drops = none)
    (hp : 0 < (s.proc p).holds i) (hlock : s.lock i = some p → 1 < (s.proc p).holds i) :
    TableOk sb (s.setParty p ((s.proc p).letGo i)) := by
  have hsame : SameInodes s (s.setParty p ((s.proc p).letGo i)) :=
    ⟨fun _ => rfl, fun _ => rfl, fun _ => rfl, fun _ => id⟩
  refine h.reference hsame rfl (fun j => ?_) (fun q j hq => .inl ?_) fun j q hl => ?_
  · have hw := weight_letGo (j := j) hidle hp
    have hsum := sum_setParty (s := s) (p := p) ((s.proc p).letGo i) j
    have hcount := h.counts j
    change (s.itable j).ref = _
    omega
  · by_cases hqp : q = p
    · subst hqp
      rw [setParty_self] at hq
      by_cases hj : j = i
      · exact hj ▸ hp
      · rwa [letGo_of_ne hj] at hq
    · rwa [setParty_of_ne hqp] at hq
  · obtain ⟨hq, hv⟩ := h.locked j q hl
    refine ⟨?_, hv⟩
    by_cases hqp : q = p
    · subst hqp
      rw [setParty_self]
      by_cases hj : j = i
      · subst hj
        rw [letGo_self]
        have := hlock hl
        omega
      · rwa [letGo_of_ne hj]
    · rwa [setParty_of_ne hqp]

theorem TableOk.dropRef (h : TableOk sb s) {t : FsState P} (ht : dropRef s p = some t) :
    TableOk sb t ∧ t.blocks = s.blocks ∧ t.panicked = s.panicked := by
  obtain ⟨i, hi, rfl⟩ := Option.map_eq_some_iff.1 ht
  have hw : (s.proc p).weight i = (s.proc p).holds i + 1 := by
    rw [Party.weight, hi, hitOpt_some, hit_self]
  have hpos := h.ref_pos (p := p) (i := i) (by omega)
  have hsame : ∀ q, ((s.setParty p { s.proc p with drops := none }).proc q).holds =
      (s.proc q).holds := by
    intro q
    by_cases hq : q = p
    · rw [hq, setParty_self]
    · rw [setParty_of_ne hq]
  refine ⟨h.reference (.setRef (fun _ => hpos) rfl) rfl
    (counts_setParty h (fun j hj => ?_) ?_ _ rfl) (fun q j hq => .inl ?_) fun j q hl => ?_,
    rfl, rfl⟩
  · rw [Party.weight, Party.weight, hi, hitOpt_some, hit, if_neg (Ne.symm hj)]
    rfl
  · rw [hw, Party.weight, hitOpt_none]
    dsimp only
    omega
  · change 0 < ((s.setParty p { s.proc p with drops := none }).proc q).holds j at hq
    rwa [hsame] at hq
  · obtain ⟨hq, hv⟩ := h.locked j q hl
    refine ⟨?_, hv⟩
    change 0 < ((s.setParty p { s.proc p with drops := none }).proc q).holds j
    rwa [hsame]

end

end G9OS.FileSys
