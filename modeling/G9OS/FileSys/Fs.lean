import G9OS.FileSys.ItableSteps

/-! # The file system as a store of files

Whatever the processes do with the functions of `fs.c`, the disk stays sound, the only panic is a
full inode table, and each call has the effect on the files that its name says.
-/

namespace G9OS.FileSys

open Lib

inductive FileEvent
  | create (inum : Nat) (type : Int16)
  | remove (inum : Nat)
  | update (inum : Nat) (major minor nlink : Int16)
  | truncate (inum : Nat)
  | write (inum off : Nat) (w : List UInt8) (size : Nat)

inductive FileStep : (Nat → File) → FileEvent → (Nat → File) → Prop
  | create {f : Nat → File} {inum : Nat} {type : Int16} (h : (f inum).type = 0) :
      FileStep f (.create inum type) (Function.update f inum ⟨type, 0, 0, 0, []⟩)
  | remove {f : Nat → File} {inum : Nat} (h : (f inum).nlink = 0) :
      FileStep f (.remove inum) (Function.update f inum { f inum with type := 0, bytes := [] })
  | update {f : Nat → File} {inum : Nat} {major minor nlink : Int16} :
      FileStep f (.update inum major minor nlink)
        (Function.update f inum { f inum with major := major, minor := minor, nlink := nlink })
  | truncate {f : Nat → File} {inum : Nat} :
      FileStep f (.truncate inum) (Function.update f inum { f inum with bytes := [] })
  | write {f : Nat → File} {inum off size : Nat} {w : List UInt8}
      (h : off ≤ (f inum).bytes.length) (hsize : (f inum).bytes.length ≤ size) :
      FileStep f (.write inum off w size)
        (Function.update f inum { f inum with bytes := (overwrite (f inum).bytes off w).take size })

/-- What a call in state `s` does to the files, if `t` is the state behind it. -/
def Effect {P : Type} (sb : Superblock) (s t : FsState P) : FsAct P → Prop
  | .ialloc _ type =>
      (∀ inum, 0 < inum → inum < sb.ninodes → (files sb s.blocks inum).type ≠ 0) ∧
        files sb t.blocks = files sb s.blocks ∨
      ∃ inum, 0 < inum ∧ inum < sb.ninodes ∧
        FileStep (files sb s.blocks) (.create inum type) (files sb t.blocks)
  | .iput _ i =>
      let last := (s.itable i).ref = 1 ∧ (s.itable i).valid = true ∧
        (files sb s.blocks (s.itable i).inum).nlink = 0
      (last → FileStep (files sb s.blocks) (.remove (s.itable i).inum) (files sb t.blocks)) ∧
        (¬ last → files sb t.blocks = files sb s.blocks)
  | .update _ i major minor nlink =>
      FileStep (files sb s.blocks) (.update (s.itable i).inum major minor nlink)
        (files sb t.blocks)
  | .itrunc _ i => FileStep (files sb s.blocks) (.truncate (s.itable i).inum) (files sb t.blocks)
  | .writei _ i src off n =>
      let old := (files sb s.blocks (s.itable i).inum).bytes
      let ret := (writei sb s.blocks (s.itable i).inum (s.itable i).copy src off n).map Prod.fst
      Refused old.length off n ∧ ret = .ok (-1) ∧ files sb t.blocks = files sb s.blocks ∨
      ∃ tot m : Nat, ret = .ok tot ∧ tot ≤ m ∧ m ≤ n.toNat ∧ m ≤ src.length ∧
        (tot < n.toNat → src.length < n.toNat ∨ ∀ b < sb.size, sb.bit t.blocks.data b = true) ∧
        FileStep (files sb s.blocks) (.write (s.itable i).inum off.toNat (src.take m)
          (max old.length (off.toNat + tot))) (files sb t.blocks)
  | .readi _ i room off n =>
      let old := (files sb s.blocks (s.itable i).inum).bytes
      let want := (old.drop off.toNat).take n.toNat
      let ret := (readi sb s.blocks (s.itable i).copy room off n).map fun r => (r.1, r.2.1)
      files sb t.blocks = files sb s.blocks ∧ (off.toNat + n.toNat < 2 ^ 32 →
        ret = .ok (if want.length ≤ room then (want.length : Int) else -1, want.take room))
  | _ => files sb t.blocks = files sb s.blocks

structure CallOk {P : Type} [Fintype P] (sb : Superblock) (s t : FsState P) (a : FsAct P) :
    Prop where
  table : TableOk sb t
  effect : Effect sb s t a
  panics : t.panicked = none ∨ t.panicked = some .igetNoInodes ∧ ∀ i, 0 < (t.itable i).ref

section
variable {P : Type} [Fintype P] {sb : Superblock} {s t : FsState P} {a : FsAct P} {p : P}
  {i : Fin NINODE}

theorem TableOk.locked_entry (h : TableOk sb s) (hl : s.lock i = some p) :
    0 < (s.itable i).ref ∧ (s.itable i).inum < sb.ninodes ∧
      sb.inodes s.blocks.data (s.itable i).inum = (s.itable i).copy ∧
      (s.itable i).copy.type ≠ 0 := by
  obtain ⟨hp, hv⟩ := h.locked i p hl
  have hpos := h.held_pos hp
  obtain ⟨hcopy, htype⟩ := h.copies i hpos hv
  exact ⟨hpos, h.range i hpos, hcopy.symm, htype⟩

theorem file_of_locked (h : TableOk sb s) (hl : s.lock i = some p) :
    files sb s.blocks (s.itable i).inum = (s.itable i).copy.file s.blocks.data := by
  rw [← (h.locked_entry hl).2.2.1]
  rfl

omit [Fintype P] in
theorem back_same : s.back i (.ok (s.blocks, (s.itable i).copy)) = s :=
  congrArg (fun f => ({ s with itable := f } : FsState P)) (Function.update_eq_self i s.itable)

theorem callOk_writei {src : List UInt8} {off n : UInt32} (h : TableOk sb s)
    (hl : s.lock i = some p) (hpanic : s.panicked = none) :
    CallOk sb s (s.back i
      ((writei sb s.blocks (s.itable i).inum (s.itable i).copy src off n).map fun r => r.2))
      (.writei p i src off n) := by
  obtain ⟨hpos, hrange, hino, htype⟩ := h.locked_entry hl
  have hlen : (files sb s.blocks (s.itable i).inum).bytes.length =
      (s.itable i).copy.size.toNat := by
    rw [file_of_locked h hl]
    exact length_bytes
  by_cases hr : Refused (s.itable i).copy.size.toNat off n
  · have hret : writei sb s.blocks (s.itable i).inum (s.itable i).copy src off n =
        .ok (-1, s.blocks, (s.itable i).copy) := writei_refused hr
    have hback : s.back i ((writei sb s.blocks (s.itable i).inum (s.itable i).copy src off
        n).map fun r => r.2) = s := by
      rw [hret]
      exact back_same
    rw [hback]
    refine ⟨h, .inl ⟨by rwa [hlen], ?_, rfl⟩, .inl hpanic⟩
    rw [hret]
    rfl
  · have hoff : off.toNat ≤ (s.itable i).copy.size.toNat :=
      Nat.le_of_not_lt fun hlt => hr (.inl hlt)
    have hmax : off.toNat + n.toNat ≤ MAXFILE * BSIZE := Nat.le_of_not_lt fun hlt => hr (.inr hlt)
    obtain ⟨tot, m, b, ip, hrun, hdone⟩ := writei_done src h.disk hrange hino htype hoff
      hmax
    have hfields : ip.type ≠ 0 := by
      have hfile := congrFun hdone.files (s.itable i).inum
      rw [Function.update_self, file_of_locked h hl] at hfile
      have htypes := congrArg File.type hfile
      unfold files at htypes
      rw [hdone.inodes, Function.update_self] at htypes
      exact fun h0 => htype (htypes.symm.trans h0)
    have hfiles := hdone.files
    rw [hrun]
    refine ⟨h.store hpos hdone.ok hdone.inodes hfields, .inr ⟨tot, m, ?_, hdone.tot_le, hdone.le_n,
      hdone.le_src, hdone.stop, ?_⟩, .inl hpanic⟩
    · rw [hrun]
      rfl
    · change FileStep _ _ (files sb b)
      rw [hfiles]
      exact .write (by rwa [hlen]) (le_max_left _ _)

theorem callOk_readi {room : Nat} {off n : UInt32} (h : TableOk sb s) (hl : s.lock i = some p)
    (hpanic : s.panicked = none) :
    CallOk sb s (s.back i ((readi sb s.blocks (s.itable i).copy room off n).map fun r => r.2.2))
      (.readi p i room off n) := by
  obtain ⟨-, -, hino, -⟩ := h.locked_entry hl
  obtain ⟨r, out, hrun⟩ := readi_same h.disk hino room off n
  rw [hrun]
  have hback : s.back i (.ok (s.blocks, (s.itable i).copy)) = s := back_same
  refine ⟨?_, ?_, .inl hpanic⟩
  · change TableOk sb (s.back i (.ok (s.blocks, (s.itable i).copy)))
    rwa [hback]
  · refine ⟨rfl, fun hsum => ?_⟩
    rw [readi_reads h.disk hino room hsum]
    rfl

theorem callOk_itrunc (h : TableOk sb s) (hl : s.lock i = some p) (hpanic : s.panicked = none) :
    CallOk sb s (s.back i (itrunc sb s.blocks (s.itable i).inum (s.itable i).copy))
      (.itrunc p i) := by
  obtain ⟨hpos, hrange, hino, htype⟩ := h.locked_entry hl
  obtain ⟨b, hrun, hok, hino', hfiles, -⟩ := itrunc_done h.disk hrange hino
  rw [hrun]
  refine ⟨h.store hpos hok hino' htype, ?_, .inl hpanic⟩
  change FileStep _ _ (files sb b)
  rw [hfiles]
  exact .truncate

theorem callOk_update {major minor nlink : Int16} (h : TableOk sb s) (hl : s.lock i = some p)
    (hpanic : s.panicked = none) :
    let copy := { (s.itable i).copy with major := major, minor := minor, nlink := nlink }
    CallOk sb s { s.setInode i { s.itable i with copy := copy } with
      blocks := iupdate sb s.blocks (s.itable i).inum copy } (.update p i major minor nlink) := by
  intro copy
  obtain ⟨hpos, hrange, hino, htype⟩ := h.locked_entry hl
  obtain ⟨hok, hino', hfiles⟩ := setFields_done copy h.disk hrange (by rw [hino])
    (by rw [hino]) fun h0 => absurd h0 htype
  refine ⟨h.store hpos hok hino' htype, ?_, .inl hpanic⟩
  change FileStep _ _ (files sb (iupdate sb s.blocks (s.itable i).inum copy))
  have htypes : copy.type = (files sb s.blocks (s.itable i).inum).type := by
    rw [file_of_locked h hl]
    rfl
  rw [hfiles, htypes]
  exact .update

end

section
variable {sb : Superblock} {d : Nat → Block} {inum : Nat}

theorem freeInode_some (h : freeInode sb d = some inum) :
    0 < inum ∧ inum < sb.ninodes ∧ (sb.inodes d inum).type = 0 := by
  have hmem := List.mem_range'_1.1 (List.mem_of_find?_eq_some h)
  have hlt : inum < sb.ninodes := by omega
  have htype := List.find?_some h
  simp only [decide_eq_true_eq] at htype
  refine ⟨by omega, hlt, ?_⟩
  rw [Superblock.inodes, if_pos hlt]
  exact htype

theorem freeInode_none (h : freeInode sb d = none) (hpos : 0 < inum) (hlt : inum < sb.ninodes) :
    (sb.inodes d inum).type ≠ 0 := by
  have hmem : inum ∈ List.range' 1 (sb.ninodes - 1) := List.mem_range'_1.2 (by omega)
  have hno := List.find?_eq_none.1 h inum hmem
  simp only [decide_eq_true_eq] at hno
  rw [Superblock.inodes, if_pos hlt]
  exact hno

end

section
variable {P : Type} [Fintype P] [DecidableEq P] {sb : Superblock} {s t : FsState P} {a : FsAct P}
  {p : P} {i : Fin NINODE}

omit [Fintype P] in
theorem iget_panics (inum : Nat) (h : (iget s p inum).panicked = some .igetNoInodes)
    (hpanic : s.panicked = none) (i : Fin NINODE) : 0 < ((iget s p inum).itable i).ref := by
  unfold iget at h ⊢
  cases hfound : s.lookup inum with
  | some j =>
      rw [hfound] at h
      exact absurd (hpanic.symm.trans h) (by simp)
  | none =>
      rw [hfound] at h
      cases hempty : s.empty with
      | some j =>
          rw [hempty] at h
          exact absurd (hpanic.symm.trans h) (by simp)
      | none => exact empty_none hempty i

theorem callOk_iget {inum : Nat} (h : TableOk sb s) (hpanic : s.panicked = none)
    (hinum : inum < sb.ninodes) (htype : (sb.inodes s.blocks.data inum).type ≠ 0) :
    CallOk sb s (iget s p inum) (.iget p inum) := by
  obtain ⟨htable, hblocks, hpanics⟩ := h.iget (p := p) hinum htype
  refine ⟨htable, congrArg _ hblocks, ?_⟩
  rcases hpanics with hp | ⟨hp, -⟩
  · exact .inl (hp.trans hpanic)
  · exact .inr ⟨hp, iget_panics inum hp hpanic⟩

theorem callOk_ialloc {type : Int16} (h : TableOk sb s) (hpanic : s.panicked = none)
    (htype : type ≠ 0) : CallOk sb s (ialloc sb s p type) (.ialloc p type) := by
  unfold ialloc
  cases hfree : freeInode sb s.blocks.data with
  | none => exact ⟨h, .inl ⟨fun inum => freeInode_none hfree, rfl⟩, .inl hpanic⟩
  | some inum =>
      obtain ⟨hpos, hlt, hzero⟩ := freeInode_some hfree
      obtain ⟨htable, hnew, hfiles⟩ := h.allocate htype hlt hzero
      obtain ⟨htable', heffect, hpanics⟩ := callOk_iget (p := p) htable hpanic hlt hnew
      refine ⟨htable', .inr ⟨inum, hpos, hlt, ?_⟩, hpanics⟩
      have hsame : files sb (iget { s with
          blocks := iupdate sb s.blocks inum (.fresh type) } p inum).blocks =
          files sb (iupdate sb s.blocks inum (.fresh type)) := heffect
      change FileStep _ _ (files sb (iget { s with
        blocks := iupdate sb s.blocks inum (.fresh type) } p inum).blocks)
      rw [hsame, hfiles]
      exact .create hzero

omit [Fintype P] in
theorem freeOnDisk_setParty {x : Party} :
    freeOnDisk sb (s.setParty p x) i = (freeOnDisk sb s i).setParty p x := by
  unfold freeOnDisk
  dsimp only [FsState.setParty]
  cases itrunc sb s.blocks (s.itable i).inum (s.itable i).copy with
  | error e => rfl
  | ok r => rfl

theorem TableOk.alone (h : TableOk sb s) (hp : 0 < (s.proc p).weight i)
    (hone : (s.itable i).ref = 1) {q : P} (hq : q ≠ p) : (s.proc q).weight i = 0 := by
  have hcount := h.counts i
  exact eq_zero_of_sum_le (fun q => (s.proc q).weight i) (i := p) (by omega) hq

theorem callOk_iput (h : TableOk sb s) (hpanic : s.panicked = none)
    (hidle : (s.proc p).drops = none) (hp : 0 < (s.proc p).holds i)
    (hlock : s.lock i = some p → 1 < (s.proc p).holds i) (ht : iput sb s p i = some t) :
    CallOk sb s t (.iput p i) := by
  have hpos : 0 < (s.itable i).ref := h.held_pos hp
  -- a valid copy has the number of links that is on the disk
  have hlinks : (s.itable i).valid = true →
      (files sb s.blocks (s.itable i).inum).nlink = (s.itable i).copy.nlink := fun hv => by
    rw [(h.copies i hpos hv).1]
    rfl
  unfold iput at ht
  split at ht
  · rename_i hlast
    split at ht
    · cases ht
      have hrelease := h.release hidle hp hlock
      have hself : ((s.setParty p ((s.proc p).letGo i)).proc p).weight i =
          ((s.setParty p ((s.proc p).letGo i)).proc p).holds i + 1 := by
        rw [setParty_self, Party.weight]
        change _ + hitOpt (some i) i = _
        rw [hitOpt_some, hit_self]
      have hsum := hrelease.counts i
      change (s.itable i).ref = _ at hsum
      have hle := le_sum (fun q => ((s.setParty p ((s.proc p).letGo i)).proc q).weight i) p
      have hnone : ∀ q, ((s.setParty p ((s.proc p).letGo i)).proc q).holds i = 0 := by
        intro q
        by_cases hq : q = p
        · subst hq
          omega
        · exact (Nat.add_eq_zero_iff.1 (hrelease.alone (by omega) hlast.1 hq)).1
      obtain ⟨htable, hpanics, hfiles⟩ := hrelease.freeOnDisk (i := i) hpos hlast.2.1 hnone
      rw [freeOnDisk_setParty] at htable hpanics hfiles
      have hzero : (files sb s.blocks (s.itable i).inum).nlink = 0 :=
        (hlinks hlast.2.1).trans hlast.2.2
      refine ⟨htable, ⟨fun _ => ?_, fun hno => absurd ⟨hlast.1, hlast.2.1, hzero⟩ hno⟩,
        .inl (hpanics.trans hpanic)⟩
      rw [hfiles]
      exact .remove hzero
    · cases ht
  · rename_i hmore
    cases ht
    refine ⟨h.subRef hp hlock, ⟨fun hlast => absurd ?_ hmore, fun _ => rfl⟩, .inl hpanic⟩
    exact ⟨hlast.1, hlast.2.1, (hlinks hlast.2.1).symm.trans hlast.2.2⟩

theorem callOk_step (h : TableOk sb s) (hc : Careful sb s a) (hn : s.next sb a = some t) :
    CallOk sb s t a := by
  unfold FsState.next at hn
  split at hn
  · rename_i hguard
    obtain ⟨hpanic, hidle⟩ := hguard
    cases a with
    | iget p inum =>
        cases hn
        exact callOk_iget h hpanic hc.1 hc.2
    | idup p i =>
        cases hn
        exact ⟨h.addRef (h.held_pos hc) (h.live p i hc), rfl, .inl hpanic⟩
    | ialloc p type =>
        cases hn
        exact callOk_ialloc h hpanic hc
    | ilock p i =>
        have hpos := h.held_pos (p := p) hc
        change ilock sb s p i = some t at hn
        unfold ilock at hn
        rw [if_neg (by omega)] at hn
        split at hn
        · cases hn
          obtain ⟨htable, hblocks, hpanics⟩ := h.load hc
          exact ⟨htable, congrArg _ hblocks, .inl (hpanics.trans hpanic)⟩
        · cases hn
    | iunlock p i =>
        have hl : s.lock i = some p := hc
        have hpos := (h.locked_entry hl).1
        cases hn
        unfold iunlock
        rw [if_neg (by rintro (hne | hlt); exacts [hne hl, by omega])]
        refine ⟨⟨h.disk, h.counts, h.unique, h.range, h.copies, h.live, fun j q hj => ?_⟩, rfl,
          .inl hpanic⟩
        by_cases hji : j = i
        · subst hji
          dsimp only at hj
          rw [Function.update_self] at hj
          cases hj
        · dsimp only at hj
          rw [Function.update_of_ne hji] at hj
          exact h.locked j q hj
    | iput p i =>
        exact callOk_iput h hpanic (hidle.resolve_left (by simp [FsAct.isDrop])) hc.1 hc.2 hn
    | drop p =>
        obtain ⟨htable, hblocks, hpanics⟩ := h.dropRef hn
        exact ⟨htable, congrArg _ hblocks, .inl (hpanics.trans hpanic)⟩
    | update p i major minor nlink =>
        cases hn
        exact callOk_update h hc hpanic
    | itrunc p i =>
        cases hn
        exact callOk_itrunc h hc hpanic
    | readi p i room off n =>
        cases hn
        exact callOk_readi h hc hpanic
    | writei p i src off n =>
        cases hn
        exact callOk_writei h hc hpanic
  · cases hn

omit [DecidableEq P] in
theorem Booted.table (h : Booted sb s) : TableOk sb s := by
  obtain ⟨hok, hrefs, hlock, hproc, -⟩ := h
  refine ⟨hok, fun i => ?_, fun i j hi => ?_, fun i hi => ?_, fun i hi => ?_, fun p i hp => ?_,
    fun i p hl => ?_⟩
  · rw [hrefs i]
    symm
    apply Finset.sum_eq_zero
    intro p _
    rw [hproc p]
    rfl
  · exact absurd hi (by rw [hrefs i]; exact Nat.lt_irrefl 0)
  · exact absurd hi (by rw [hrefs i]; exact Nat.lt_irrefl 0)
  · exact absurd hi (by rw [hrefs i]; exact Nat.lt_irrefl 0)
  · rw [hproc p] at hp
    exact absurd hp (Nat.lt_irrefl 0)
  · rw [hlock i] at hl
    cases hl

theorem reach_tableOk (h : Reach (FsState.next sb) (Careful sb) (Booted sb) s) :
    TableOk sb s ∧ (s.panicked = none ∨
      s.panicked = some .igetNoInodes ∧ ∀ i, 0 < (s.itable i).ref) := by
  refine Reach.inv (I := fun s => TableOk sb s ∧ (s.panicked = none ∨
    s.panicked = some .igetNoInodes ∧ ∀ i, 0 < (s.itable i).ref)) (fun s h => ?_)
    (fun s a t hs hc hn => ?_) h
  · exact ⟨h.table, .inl h.2.2.2.2⟩
  · have hcall := callOk_step hs.1 hc hn
    exact ⟨hcall.table, hcall.panics⟩

end

/-! ## A disk without files -/

/-- The superblock of a disk of `FSSIZE` blocks. -/
def sbDefault : Superblock where
  size := 2000
  ninodes := 200
  nlog := 31
  logstart := 2
  inodestart := 33
  bmapstart := 46
  logRoom := by decide
  inodeRoom := by decide
  bmapRoom := by decide
  size_lt := by decide
  ninodes_lt := by decide

def metaBits : Block := fun i => if i < 5 then 255 else if i = 5 then 127 else 0

def blankDisk : Blocks := ⟨fun b => if b = 46 then metaBits else fun _ => 0, []⟩

def rootDisk : Blocks := iupdate sbDefault blankDisk 1 ⟨1, 0, 0, 1, 0, fun _ => 0⟩

theorem getDinode_zero (k : Nat) : getDinode (fun _ => 0) k = .fresh 0 := by
  simp only [getDinode, getShort, getUint, getLE_zero]
  rfl

theorem inodes_blank (inum : Nat) : sbDefault.inodes blankDisk.data inum = .fresh 0 := by
  unfold Superblock.inodes
  split
  · rename_i hlt
    have hne : sbDefault.iblock inum ≠ 46 := (iblock_lt hlt).ne
    change getDinode (if sbDefault.iblock inum = 46 then metaBits else fun _ => 0) _ = _
    rw [if_neg hne, getDinode_zero]
  · exact getDinode_zero 0

theorem fresh_ref {type : Int16} {d : Nat → Block} (x : Slot) : (Dinode.fresh type).ref d x = 0 :=
  (Dinode.fresh type).cleared_ref

theorem bit_blank {b : Nat} (hb : b < 2000) :
    sbDefault.bit blankDisk.data b = getBit metaBits b := by
  have hdiv : b / BPB = 0 := Nat.div_eq_of_lt (hb.trans (by decide))
  have hmod : b % BPB = b := Nat.mod_eq_of_lt (hb.trans (by decide))
  unfold Superblock.bit Superblock.bblock
  rw [hdiv, hmod]
  rfl

theorem metaBits_low : ∀ b < 47, getBit metaBits b = true := by decide

theorem metaBits_high {b : Nat} (hb : 47 ≤ b) : getBit metaBits b = false := by
  by_cases h47 : b = 47
  · subst h47
    decide
  · have hbyte : metaBits (b / 8) = 0 := by
      unfold metaBits
      rw [if_neg (by omega), if_neg (by omega)]
    rw [getBit, hbyte, UInt8.zero_and]
    rfl

theorem fsOk_blank : FsOk sbDefault blankDisk := by
  have hrefs : ∀ x, refs (sbDefault.inodes blankDisk.data) blankDisk.data x = 0 := by
    intro x
    rw [refs, inodes_blank, fresh_ref]
  refine ⟨⟨not_inData_zero, fun x hx => absurd (hrefs x) hx, fun x hx => absurd (hrefs x) hx,
    fun x y hx => absurd (hrefs x) hx, fun b hb hbit => ?_⟩, fun b hb => ?_, fun inum bn hlt => ?_,
    fun inum => ?_, fun inum _ => ?_⟩
  · have hhigh : 47 ≤ b := hb.1
    have hlt : b < 2000 := hb.2
    rw [bit_blank hlt, metaBits_high hhigh] at hbit
    cases hbit
  · have hlt : b < 47 := hb
    rw [bit_blank (by omega)]
    exact metaBits_low b hlt
  · rw [inodes_blank] at hlt
    exact absurd hlt (Nat.not_lt_zero _)
  · rw [inodes_blank]
    exact Nat.zero_le _
  · rw [inodes_blank]
    exact ⟨rfl, fun x => hrefs (inum, x)⟩

theorem rootDisk_ok : FsOk sbDefault rootDisk ∧ (sbDefault.inodes rootDisk.data 1).type = 1 := by
  obtain ⟨hok, hino, -⟩ := setFields_done ⟨1, 0, 0, 1, 0, fun _ => 0⟩ fsOk_blank
    (show 1 < sbDefault.ninodes by decide) (by rw [inodes_blank]; rfl) (by rw [inodes_blank]; rfl)
    fun h0 => absurd h0 (by decide)
  refine ⟨hok, ?_⟩
  unfold rootDisk
  rw [hino, Function.update_self]

def bootState (P : Type) : FsState P where
  blocks := rootDisk
  itable := fun _ => ⟨0, 0, false, .fresh 0⟩
  lock := fun _ => none
  proc := fun _ => ⟨fun _ => 0, none⟩
  panicked := none

theorem booted_bootState (P : Type) : Booted sbDefault (bootState P) :=
  ⟨rootDisk_ok.1, fun _ => rfl, fun _ => rfl, fun _ => rfl, rfl⟩

def firstEntry : Fin NINODE := ⟨0, by decide⟩

def rootLocked : FsState Unit :=
  load sbDefault { iget (bootState Unit) () 1 with
    lock := Function.update (fun _ => none) firstEntry (some ()) } firstEntry

theorem reach_rootHeld : Reach (FsState.next sbDefault) (Careful sbDefault) (Booted sbDefault)
    (iget (bootState Unit) () 1) := by
  refine .step (l := .iget () 1) (.start (booted_bootState Unit)) ⟨by decide, ?_⟩ rfl
  change (sbDefault.inodes rootDisk.data 1).type ≠ 0
  rw [rootDisk_ok.2]
  decide

theorem reach_rootLocked :
    Reach (FsState.next sbDefault) (Careful sbDefault) (Booted sbDefault) rootLocked := by
  have hheld : 0 < ((iget (bootState Unit) () 1).proc ()).holds firstEntry := by decide
  exact .step (l := .ilock () firstEntry) reach_rootHeld hheld rfl

section
variable {P : Type} [Fintype P] [DecidableEq P] {sb : Superblock} {s t : FsState P} {a : FsAct P}

/-- Whatever calls the processes make: every used data block is in one place of one inode, an inode
is in one entry of the table, `ref` counts its references, and a valid copy is that on the disk. -/
theorem fs_stays_sound (h : Reach (FsState.next sb) (Careful sb) (Booted sb) s) : TableOk sb s :=
  (reach_tableOk h).1

theorem fs_stays_sound_rootLocked : TableOk sbDefault rootLocked := fs_stays_sound reach_rootLocked

/-- Every call does to the files what its name says, and to no other file anything. -/
theorem fs_calls_have_effect (h : Reach (FsState.next sb) (Careful sb) (Booted sb) s)
    (hc : Careful sb s a) (hn : s.next sb a = some t) : Effect sb s t a :=
  (callOk_step (reach_tableOk h).1 hc hn).effect

theorem fs_calls_have_effect_write :
    ∃ t, rootLocked.next sbDefault (.writei () firstEntry [7, 8] 0 2) = some t ∧
      Effect sbDefault rootLocked t (.writei () firstEntry [7, 8] 0 2) :=
  ⟨_, rfl, fs_calls_have_effect reach_rootLocked rfl rfl⟩

/-- The only panic is that of `iget` when every entry of the table is in use. -/
theorem fs_panics_only_full (h : Reach (FsState.next sb) (Careful sb) (Booted sb) s) :
    s.panicked = none ∨ s.panicked = some .igetNoInodes ∧ ∀ i, 0 < (s.itable i).ref :=
  (reach_tableOk h).2

theorem fs_panics_only_full_rootLocked : rootLocked.panicked = none ∨
    rootLocked.panicked = some .igetNoInodes ∧ ∀ i, 0 < (rootLocked.itable i).ref :=
  fs_panics_only_full reach_rootLocked

/-- An `iput` that frees the inode does not sleep on its lock: nobody else can hold it, as the
comment in the code says. -/
theorem iput_never_sleeps {p : P} {i : Fin NINODE}
    (h : Reach (FsState.next sb) (Careful sb) (Booted sb) s) (hpanic : s.panicked = none)
    (hidle : (s.proc p).drops = none) (hc : Careful sb s (.iput p i)) :
    (s.next sb (.iput p i)).isSome = true := by
  have htable := (reach_tableOk h).1
  have hcall : s.next sb (.iput p i) = iput sb s p i := if_pos ⟨hpanic, .inr hidle⟩
  rw [hcall]
  unfold iput
  split
  · rename_i hlast
    have hlock : s.lock i = none := by
      cases hl : s.lock i with
      | none => rfl
      | some q =>
          -- the holder of the lock has the one reference there is
          have hq := (htable.locked i q hl).1
          have hweight : (s.proc p).holds i ≤ (s.proc p).weight i := Nat.le_add_right _ _
          by_cases hqp : q = p
          · have htwo := hc.2 (hqp ▸ hl)
            have hcount := htable.counts i
            have hle := le_sum (fun p => (s.proc p).weight i) p
            omega
          · have hzero := htable.alone (hc.1.trans_le hweight) hlast.1 hqp
            have hnone := (Nat.add_eq_zero_iff.1 hzero).1
            omega
    rw [if_pos hlock]
    rfl
  · rfl

/-- A new file without a name is locked, unlocked and given up, so that it is freed. -/
theorem iput_never_sleeps_unlinked : ∃ s : FsState Unit,
    (s.itable firstEntry).ref = 1 ∧ (s.itable firstEntry).valid = true ∧
      (s.itable firstEntry).copy.nlink = 0 ∧
      (s.next sbDefault (.iput () firstEntry)).isSome = true := by
  obtain ⟨s, hs, hP⟩ := (Option.any_eq_true (fun s : FsState Unit =>
    decide (((s.itable firstEntry).ref = 1 ∧ (s.itable firstEntry).valid = true ∧
      (s.itable firstEntry).copy.nlink = 0) ∧ s.panicked = none ∧ (s.proc ()).drops = none ∧
      Careful sbDefault s (.iput () firstEntry)))
    (replay (guarded (FsState.next sbDefault) (Careful sbDefault)) (bootState Unit)
      [.ialloc () 2, .ilock () firstEntry, .iunlock () firstEntry])).1 (by decide +kernel)
  obtain ⟨⟨href, hvalid, hlinks⟩, hpanic, hidle, hc⟩ := of_decide_eq_true hP
  have hr : Reach (FsState.next sbDefault) (Careful sbDefault) (Booted sbDefault) s :=
    replay_guarded_reach (.start (booted_bootState Unit)) hs
  exact ⟨s, href, hvalid, hlinks, iput_never_sleeps hr hpanic hidle hc⟩

end

end G9OS.FileSys
