import G9OS.FileSys.Contents

/-! # Freeing the blocks of a file (`itrunc` in `fs.c`) -/

namespace G9OS.FileSys

open Lib

/-- The first loop, over the direct blocks, for the given number of turns. -/
def truncDirect (sb : Superblock) :
    Nat → Nat → Blocks → Dinode → Except FsPanic (Blocks × Dinode)
  | 0, _, s, ip => .ok (s, ip)
  | turns + 1, i, s, ip =>
      let k := Fin.ofNat (NDIRECT + 1) i
      if ip.addrs k ≠ 0 then do
        let s ← bfree sb s (ip.addrs k).toNat
        truncDirect sb turns (i + 1) s (ip.setAddr k 0)
      else truncDirect sb turns (i + 1) s ip

/-- The second loop, over the numbers in the indirect block `a`, for the given number of turns. -/
def truncEntries (sb : Superblock) (a : Block) : Nat → Nat → Blocks → Except FsPanic Blocks
  | 0, _, s => .ok s
  | turns + 1, j, s =>
      if getLE a 4 (4 * j) ≠ 0 then do
        let s ← bfree sb s (getLE a 4 (4 * j))
        truncEntries sb a turns (j + 1) s
      else truncEntries sb a turns (j + 1) s

/-- The blocks of the indirect block, and the indirect block itself. -/
def truncIndirect (sb : Superblock) (s : Blocks) (ip : Dinode) :
    Except FsPanic (Blocks × Dinode) :=
  if ip.addrs indirect ≠ 0 then do
    let s ← truncEntries sb (s.data (ip.addrs indirect).toNat) NINDIRECT 0 s
    let s ← bfree sb s (ip.addrs indirect).toNat
    .ok (s, ip.setAddr indirect 0)
  else .ok (s, ip)

def itrunc (sb : Superblock) (s : Blocks) (inum : Nat) (ip : Dinode) :
    Except FsPanic (Blocks × Dinode) := do
  let (s, ip) ← truncDirect sb NDIRECT 0 s ip
  let (s, ip) ← truncIndirect sb s ip
  let ip := { ip with size := 0 }
  .ok (iupdate sb s inum ip, ip)

/-! ## Blocks that are given back -/

structure Marks (sb : Superblock) (d : Nat → Block) (R : Nat × Slot → Nat) : Prop where
  owned : Owned sb.InData (sb.bit d) R
  metas : ∀ b < sb.dataStart, sb.bit d b = true

structure Freed (sb : Superblock) (s s' : Blocks) : Prop where
  data : ∀ c, ¬ sb.InBitmap c → s'.data c = s.data c
  logs : ∃ l, s'.logged = l ++ s.logged ∧ ∀ c ∈ l, sb.InBitmap c

section
variable {sb : Superblock} {s s' s'' : Blocks} {R : Nat × Slot → Nat} {inum : Nat}

theorem Freed.refl : Freed sb s s := ⟨fun _ _ => rfl, [], rfl, fun _ h => absurd h List.not_mem_nil⟩

theorem Freed.trans (h : Freed sb s s') (h' : Freed sb s' s'') : Freed sb s s'' := by
  obtain ⟨l, hl, hin⟩ := h.logs
  obtain ⟨l', hl', hin'⟩ := h'.logs
  refine ⟨fun c hc => (h'.data c hc).trans (h.data c hc), l' ++ l, ?_, fun c hc => ?_⟩
  · rw [hl', hl, List.append_assoc]
  · exact (List.mem_append.1 hc).elim (hin' c) (hin c)

theorem Marks.bfree (h : Marks sb s.data R) {x : Nat × Slot} (hx : R x ≠ 0) :
    ∃ s', bfree sb s (R x) = .ok s' ∧ Marks sb s'.data (Function.update R x 0) ∧
      Freed sb s s' := by
  have hin := h.owned.inArea x hx
  refine ⟨release sb s (R x), bfree_of_used (h.owned.marked x hx), ⟨?_, fun b hb => ?_⟩,
    fun c hc => release_data hin.2 hc, [sb.bblock (R x)], rfl, fun c hc => ?_⟩
  · exact (h.owned.drop x).congr fun c _ => release_bit
  · have hne : b ≠ R x := fun heq => absurd hin.1 (Nat.not_le.2 (heq ▸ hb))
    rw [release_bit, Function.update_of_ne hne]
    exact h.metas b hb
  · rw [List.mem_singleton.1 hc]
    exact inBitmap_bblock hin.2

structure Emptied (sb : Superblock) (s : Blocks) (R : Nat × Slot → Nat) (P : Nat × Slot → Prop)
    (s' : Blocks) (R' : Nat × Slot → Nat) : Prop where
  marks : Marks sb s'.data R'
  freed : Freed sb s s'
  empty : ∀ x, P x → R' x = 0
  rest : ∀ x, ¬ P x → R' x = R x

theorem Emptied.nil {P : Nat × Slot → Prop} (h : Marks sb s.data R) (hP : ∀ x, ¬ P x) :
    Emptied sb s R P s R := ⟨h, .refl, fun x hx => absurd hx (hP x), fun _ _ => rfl⟩

theorem Emptied.cons {P Q : Nat × Slot → Prop} {R' : Nat × Slot → Nat} {x : Nat × Slot}
    (hfreed : Freed sb s s') (h : Emptied sb s' (Function.update R x 0) P s'' R')
    (hQ : ∀ y, Q y ↔ y = x ∨ P y) : Emptied sb s R Q s'' R' where
  marks := h.marks
  freed := hfreed.trans h.freed
  empty y hy := by
    by_cases hPy : P y
    · exact h.empty y hPy
    · obtain rfl := ((hQ y).1 hy).resolve_right hPy
      rw [h.rest y hPy, Function.update_self]
  rest y hy := by
    have hne : y ≠ x := fun heq => hy ((hQ y).2 (.inl heq))
    rw [h.rest y fun hPy => hy ((hQ y).2 (.inr hPy)), Function.update_of_ne hne]

theorem update_of_empty {x : Nat × Slot} (h : R x = 0) : Function.update R x 0 = R := by
  rw [← h, Function.update_eq_self]

def PlacesFrom (place : Nat → Slot) (inum j turns : Nat) (x : Nat × Slot) : Prop :=
  ∃ k, j ≤ k ∧ k < j + turns ∧ x = (inum, place k)

theorem placesFrom_succ {place : Nat → Slot} {j turns : Nat} (x : Nat × Slot) :
    PlacesFrom place inum j (turns + 1) x ↔
      x = (inum, place j) ∨ PlacesFrom place inum (j + 1) turns x := by
  constructor
  · rintro ⟨k, hk, hk', rfl⟩
    by_cases hkj : k = j
    · exact .inl (by rw [hkj])
    · exact .inr ⟨k, by omega, by omega, rfl⟩
  · rintro (rfl | ⟨k, hk, hk', rfl⟩)
    · exact ⟨j, le_rfl, by omega, rfl⟩
    · exact ⟨k, by omega, by omega, rfl⟩

theorem truncEntries_emptied (inum : Nat) {a : Block} (turns : Nat) {j : Nat}
    (h : Marks sb s.data R)
    (hR : ∀ k, j ≤ k → k < j + turns → R (inum, .entry k) = getLE a 4 (4 * k)) :
    ∃ s' R', truncEntries sb a turns j s = .ok s' ∧
      Emptied sb s R (PlacesFrom .entry inum j turns) s' R' := by
  induction turns generalizing s R j with
  | zero =>
      refine ⟨s, R, rfl, .nil h ?_⟩
      rintro x ⟨k, hk, hk', -⟩
      omega
  | succ turns ih =>
      have hj := hR j le_rfl (by omega)
      have hnext : ∀ k, j + 1 ≤ k → k < j + 1 + turns →
          Function.update R (inum, .entry j) 0 (inum, .entry k) = getLE a 4 (4 * k) := by
        intro k hk hk'
        have hne : (inum, Slot.entry k) ≠ (inum, .entry j) := by
          intro heq
          have := Slot.entry.inj (Prod.mk.inj heq).2
          omega
        rw [Function.update_of_ne hne]
        exact hR k (by omega) (by omega)
      unfold truncEntries
      by_cases h0 : getLE a 4 (4 * j) = 0
      · rw [← update_of_empty (hj.trans h0)] at h
        obtain ⟨s', R', hrun, hdone⟩ := ih h hnext
        rw [if_neg (not_not.2 h0)]
        exact ⟨s', R', hrun, .cons .refl hdone placesFrom_succ⟩
      · obtain ⟨s1, hfree, hmarks, hfreed⟩ := h.bfree (x := (inum, .entry j)) (by rwa [hj])
        obtain ⟨s', R', hrun, hdone⟩ := ih hmarks hnext
        rw [if_pos h0, ← hj, hfree, ok_bind]
        exact ⟨s', R', hrun, .cons hfreed hdone placesFrom_succ⟩

def directSlot (k : Nat) : Slot := .addr (Fin.ofNat (NDIRECT + 1) k)

def InodeRefs (inum : Nat) (ip : Dinode) (R : Nat × Slot → Nat) : Prop :=
  ∀ k, R (inum, .addr k) = (ip.addrs k).toNat

theorem InodeRefs.setAddr {ip : Dinode} (h : InodeRefs inum ip R) (i : Fin (NDIRECT + 1)) :
    InodeRefs inum (ip.setAddr i 0) (Function.update R (inum, .addr i) 0) := by
  intro k
  by_cases hk : k = i
  · rw [hk, Function.update_self, setAddr_self]
    rfl
  · have hne : (inum, Slot.addr k) ≠ (inum, .addr i) := fun heq =>
      hk (Slot.addr.inj (Prod.mk.inj heq).2)
    rw [Function.update_of_ne hne, setAddr_of_ne hk]
    exact h k

theorem truncDirect_emptied {ip : Dinode} (turns : Nat) {i : Nat} (h : Marks sb s.data R)
    (hR : InodeRefs inum ip R) :
    ∃ s' ip' R', truncDirect sb turns i s ip = .ok (s', ip') ∧ InodeRefs inum ip' R' ∧
      ip' = { ip with addrs := ip'.addrs } ∧
      Emptied sb s R (PlacesFrom directSlot inum i turns) s' R' := by
  induction turns generalizing s R ip i with
  | zero =>
      refine ⟨s, ip, R, rfl, hR, rfl, .nil h ?_⟩
      rintro x ⟨k, hk, hk', -⟩
      omega
  | succ turns ih =>
      have hi := hR (Fin.ofNat (NDIRECT + 1) i)
      have hnext := hR.setAddr (Fin.ofNat (NDIRECT + 1) i)
      unfold truncDirect
      dsimp only
      by_cases h0 : ip.addrs (Fin.ofNat (NDIRECT + 1) i) = 0
      · have hempty : R (inum, .addr (Fin.ofNat (NDIRECT + 1) i)) = 0 := by
          rw [hi, h0]
          rfl
        obtain ⟨s', ip', R', hrun, hrefs, hfields, hdone⟩ := ih (i := i + 1) h hR
        rw [← update_of_empty hempty] at hdone
        rw [if_neg (not_not.2 h0)]
        exact ⟨s', ip', R', hrun, hrefs, hfields, .cons .refl hdone placesFrom_succ⟩
      · obtain ⟨s1, hfree, hmarks, hfreed⟩ := h.bfree
          (x := (inum, .addr (Fin.ofNat (NDIRECT + 1) i))) (by rw [hi]; exact toNat_ne_zero.2 h0)
        obtain ⟨s', ip', R', hrun, hrefs, hfields, hdone⟩ := ih (i := i + 1) hmarks hnext
        rw [if_pos h0, ← hi, hfree, ok_bind]
        exact ⟨s', ip', R', hrun, hrefs, hfields, .cons hfreed hdone placesFrom_succ⟩

end

/-! ## `itrunc` -/

def Dinode.cleared (ip : Dinode) : Dinode := { ip with size := 0, addrs := fun _ => 0 }

section
variable {sb : Superblock} {s : Blocks} {inum : Nat} {ip : Dinode}

theorem direct_or_indirect (k : Fin (NDIRECT + 1)) :
    (∃ i, i < NDIRECT ∧ k = Fin.ofNat (NDIRECT + 1) i) ∨ k = indirect := by
  by_cases hk : k.val < NDIRECT
  · exact .inl ⟨k.val, hk, (Fin.ofNat_val_eq_self k).symm⟩
  · refine .inr (Fin.ext ?_)
    have hlt : k.val < NDIRECT + 1 := k.isLt
    exact le_antisymm (Nat.lt_succ_iff.1 hlt) (Nat.le_of_not_lt hk)

theorem Dinode.cleared_ref (ip : Dinode) {d : Nat → Block} {x : Slot} :
    ip.cleared.ref d x = 0 := by
  cases x with
  | addr i => rfl
  | entry j =>
      rw [Dinode.ref, if_neg]
      exact fun h => h.1 rfl

theorem Sound.clear {s' : Blocks} {ino : Nat → Dinode} {R : Nat × Slot → Nat}
    (h : Sound sb s.data ino) (hdone : Emptied sb s (refs ino s.data) (fun x => x.1 = inum) s' R) :
    Sound sb s'.data (Function.update ino inum (ino inum).cleared) := by
  have hother : ∀ j, j ≠ inum → ∀ x, (ino j).ref s'.data x = (ino j).ref s.data x := fun j _ x =>
    Dinode.ref_congr fun ha => hdone.freed.data _ (h.indirect_inData ha).not_inBitmap
  have hrefs : refs (Function.update ino inum (ino inum).cleared) s'.data = R := by
    funext ⟨j, x⟩
    by_cases hj : j = inum
    · rw [hj, refs_update_self, Dinode.cleared_ref, hdone.empty _ rfl]
    · rw [refs_update_of_ne hj, hdone.rest _ hj]
      exact hother j hj x
  refine ⟨?_, hdone.marks.metas, fun j bn hlt => ?_, fun j => ?_, fun j hj => ?_⟩
  · rw [hrefs]
    exact hdone.marks.owned
  · by_cases hj : j = inum
    · rw [hj, Function.update_self] at hlt
      exact absurd hlt (Nat.not_lt_zero _)
    · rw [Function.update_of_ne hj] at hlt
      rw [refs_update_of_ne hj, refs, hother j hj]
      exact h.mapped j bn hlt
  · by_cases hj : j = inum
    · rw [hj, Function.update_self]
      exact Nat.zero_le _
    · rw [Function.update_of_ne hj]
      exact h.small j
  · by_cases hji : j = inum
    · rw [hji, Function.update_self]
      exact ⟨rfl, fun x => by rw [refs_update_self, Dinode.cleared_ref]⟩
    · rw [Function.update_of_ne hji] at hj ⊢
      refine ⟨(h.free j hj).1, fun x => ?_⟩
      rw [refs_update_of_ne hji, refs, hother j hji]
      exact (h.free j hj).2 x

theorem not_placesFrom_indirect (inum : Nat) :
    ¬ PlacesFrom directSlot inum 0 NDIRECT (inum, .addr indirect) := by
  rintro ⟨k, -, hk, heq⟩
  have hval := congrArg Fin.val (Slot.addr.inj (Prod.mk.inj heq).2)
  rw [Fin.val_ofNat, Nat.mod_eq_of_lt (by omega)] at hval
  exact absurd hval.symm (by rw [Nat.zero_add] at hk; exact hk.ne)

theorem Emptied.trans {s' s'' : Blocks} {R R' R'' : Nat × Slot → Nat} {P P' Q : Nat × Slot → Prop}
    (h : Emptied sb s R P s' R') (h' : Emptied sb s' R' P' s'' R'')
    (hQ : ∀ x, Q x ↔ P x ∨ P' x) : Emptied sb s R Q s'' R'' where
  marks := h'.marks
  freed := h.freed.trans h'.freed
  empty x hx := by
    by_cases hx' : P' x
    · exact h'.empty x hx'
    · rw [h'.rest x hx']
      exact h.empty x (((hQ x).1 hx).resolve_right hx')
  rest x hx := by
    rw [h'.rest x fun hP => hx ((hQ x).2 (.inr hP)), h.rest x fun hP => hx ((hQ x).2 (.inl hP))]

def IndirectPlace (inum : Nat) (x : Nat × Slot) : Prop :=
  x = (inum, .addr indirect) ∨ ∃ k, x = (inum, .entry k)

theorem truncIndirect_emptied {R : Nat × Slot → Nat} (h : Marks sb s.data R)
    (hR : InodeRefs inum ip R) (hentries : ∀ k, R (inum, .entry k) = ip.ref s.data (.entry k)) :
    ∃ s' ip' R', truncIndirect sb s ip = .ok (s', ip') ∧ InodeRefs inum ip' R' ∧
      ip' = { ip with addrs := ip'.addrs } ∧ Emptied sb s R (IndirectPlace inum) s' R' := by
  have hind := hR indirect
  unfold truncIndirect
  by_cases h0 : ip.addrs indirect = 0
  · rw [if_neg (not_not.2 h0)]
    refine ⟨s, ip, R, rfl, hR, rfl, h, .refl, ?_, fun _ _ => rfl⟩
    rintro x (rfl | ⟨k, rfl⟩)
    · rw [hind, h0]
      rfl
    · rw [hentries, Dinode.ref, if_neg fun hin => hin.1 h0]
  · rw [if_pos h0]
    obtain ⟨s1, R1, hrun, hdone⟩ := truncEntries_emptied inum NINDIRECT
      (j := 0) (a := s.data (ip.addrs indirect).toNat) h fun k _ hk => by
        rw [hentries, Dinode.ref, if_pos ⟨h0, by rwa [Nat.zero_add] at hk⟩]
    have hkeep : ∀ k, R1 (inum, .addr k) = R (inum, .addr k) := by
      intro k
      apply hdone.rest
      rintro ⟨l, -, -, heq⟩
      cases heq
    have hne : R1 (inum, .addr indirect) ≠ 0 := by
      rw [hkeep, hind]
      exact toNat_ne_zero.2 h0
    obtain ⟨s2, hfree, hmarks, hfreed⟩ := hdone.marks.bfree hne
    have hrefs1 : InodeRefs inum ip R1 := fun k => (hkeep k).trans (hR k)
    rw [hrun, ok_bind, ← hind, ← hkeep, hfree, ok_bind]
    refine ⟨s2, _, _, rfl, hrefs1.setAddr indirect, rfl, hmarks, hdone.freed.trans hfreed, ?_,
      fun x hx => ?_⟩
    · rintro x (rfl | ⟨k, rfl⟩)
      · rw [Function.update_self]
      · rw [Function.update_of_ne (by simp)]
        by_cases hk : k < NINDIRECT
        · exact hdone.empty _ ⟨k, Nat.zero_le k, by rwa [Nat.zero_add], rfl⟩
        · rw [hdone.rest, hentries, Dinode.ref, if_neg fun hin => hk hin.2]
          rintro ⟨l, -, hl, heq⟩
          rw [← Slot.entry.inj (Prod.mk.inj heq).2, Nat.zero_add] at hl
          exact hk hl
    · have hx' : x ≠ (inum, .addr indirect) := fun heq => hx (.inl heq)
      rw [Function.update_of_ne hx']
      apply hdone.rest
      rintro ⟨k, -, -, heq⟩
      exact hx (.inr ⟨k, heq⟩)

theorem place_cases (x : Nat × Slot) :
    x.1 = inum ↔ PlacesFrom directSlot inum 0 NDIRECT x ∨ IndirectPlace inum x := by
  obtain ⟨j, y⟩ := x
  constructor
  · rintro rfl
    cases y with
    | entry k => exact .inr (.inr ⟨k, rfl⟩)
    | addr k =>
        rcases direct_or_indirect k with ⟨i, hi, rfl⟩ | rfl
        · exact .inl ⟨i, Nat.zero_le i, by rwa [Nat.zero_add], rfl⟩
        · exact .inr (.inl rfl)
  · rintro (⟨k, -, -, heq⟩ | heq | ⟨k, heq⟩)
    all_goals exact (Prod.mk.inj heq).1

/-- `itrunc` never panics. The file is empty afterwards, its blocks are free, and no other file
changes. -/
theorem itrunc_done (h : FsOk sb s) (hinum : inum < sb.ninodes) (hip : sb.inodes s.data inum = ip) :
    ∃ s', itrunc sb s inum ip = .ok (s', ip.cleared) ∧ FsOk sb s' ∧
      sb.inodes s'.data = Function.update (sb.inodes s.data) inum ip.cleared ∧
      files sb s' = Function.update (files sb s) inum { files sb s inum with bytes := [] } ∧
      ∃ l, s'.logged = l ++ s.logged ∧ ∀ c ∈ l, sb.InBitmap c ∨ c = sb.iblock inum := by
  have hmarks : Marks sb s.data (refs (sb.inodes s.data) s.data) := ⟨h.owned, h.metas⟩
  have hrefs0 : InodeRefs inum ip (refs (sb.inodes s.data) s.data) := by
    intro k
    rw [← hip]
    rfl
  obtain ⟨s1, ip1, R1, hrun1, hrefs1, hfields1, hdone1⟩ :=
    truncDirect_emptied NDIRECT (i := 0) hmarks hrefs0
  have hind : ip1.addrs indirect = ip.addrs indirect := by
    have hkeep := hdone1.rest _ (not_placesFrom_indirect inum)
    rw [hrefs1, hrefs0] at hkeep
    exact UInt32.toNat_inj.1 hkeep
  have hentries : ∀ k, R1 (inum, .entry k) = ip1.ref s1.data (.entry k) := by
    intro k
    have hkeep : R1 (inum, .entry k) = refs (sb.inodes s.data) s.data (inum, .entry k) := by
      apply hdone1.rest
      rintro ⟨l, -, -, heq⟩
      cases heq
    have hsame : ip.ref s1.data (.entry k) = ip.ref s.data (.entry k) :=
      Dinode.ref_congr fun ha => hdone1.freed.data _ (by
        rw [← hip] at ha ⊢
        exact (h.indirect_inData ha).not_inBitmap)
    rw [hkeep, ref_entry_congr hind, hsame, ← hip]
    rfl
  obtain ⟨s2, ip2, R2, hrun2, hrefs2, hfields2, hdone2⟩ :=
    truncIndirect_emptied hdone1.marks hrefs1 hentries
  have hdone := hdone1.trans hdone2 place_cases
  have hcleared : { ip2 with size := 0 } = ip.cleared := by
    have haddrs : ip2.addrs = fun _ => 0 := by
      funext k
      have hzero := hdone.empty (inum, .addr k) rfl
      rw [hrefs2] at hzero
      exact UInt32.toNat_inj.1 hzero
    rw [hfields2, hfields1, haddrs]
    rfl
  have hino2 : sb.inodes s2.data = sb.inodes s.data := inodes_congr fun b hb =>
    hdone.freed.data b fun hbm => absurd hbm.1 (Nat.not_le.2 hb)
  have hsound := h.clear hdone
  rw [hip, ← hino2] at hsound
  obtain ⟨hino, hok, -, hbyte⟩ := hsound.iupdate hinum
  rw [hino2] at hino
  refine ⟨iupdate sb s2 inum ip.cleared, ?_, hok, hino, ?_, ?_⟩
  · unfold itrunc
    rw [hrun1, ok_bind]
    dsimp only
    rw [hrun2, ok_bind]
    dsimp only
    rw [hcleared]
  · rw [files_eq hino]
    · refine congrArg (Function.update _ _) ?_
      unfold files
      rw [hip]
      rfl
    · intro j hj q
      have hj2 := hbyte j q
      rw [Function.update_of_ne hj, hino2] at hj2
      rw [hj2]
      refine Dinode.byte_congr (Dinode.ref_congr fun ha =>
        hdone.freed.data _ (h.indirect_inData ha).not_inBitmap) fun hne => ?_
      exact hdone.freed.data _ (h.owned.inArea (j, slotOf (q / BSIZE)) hne).not_inBitmap
  · obtain ⟨l, hl, hin⟩ := hdone.freed.logs
    refine ⟨sb.iblock inum :: l, ?_, fun c hc => ?_⟩
    · rw [List.cons_append, ← hl]
      rfl
    · rcases List.mem_cons.1 hc with rfl | hc
      · exact .inr rfl
      · exact .inl (hin c hc)

/-! ## Other fields of an inode -/

theorem ref_of_addrs {d : Nat → Block} {ip' : Dinode} (h : ip.addrs = ip'.addrs) (x : Slot) :
    ip.ref d x = ip'.ref d x := by
  cases x with
  | addr i => rw [Dinode.ref, Dinode.ref, h]
  | entry j => exact ref_entry_congr (by rw [h])

theorem Sound.fields {d : Nat → Block} {ino : Nat → Dinode} {ip : Dinode} (h : Sound sb d ino)
    (hsize : ip.size = (ino inum).size) (haddrs : ip.addrs = (ino inum).addrs)
    (hfree : ip.type = 0 → (ino inum).size = 0 ∧ ∀ x, (ino inum).ref d x = 0) :
    Sound sb d (Function.update ino inum ip) := by
  have href : ∀ x, ip.ref d x = (ino inum).ref d x := ref_of_addrs haddrs
  have hrefs : refs (Function.update ino inum ip) d = refs ino d := by
    funext ⟨j, x⟩
    by_cases hj : j = inum
    · rw [hj, refs_update_self, href]
      rfl
    · rw [refs_update_of_ne hj]
  have hsizes : ∀ j, (Function.update ino inum ip j).size = (ino j).size := by
    intro j
    by_cases hj : j = inum
    · rw [hj, Function.update_self, hsize]
    · rw [Function.update_of_ne hj]
  refine ⟨?_, h.metas, fun j bn hlt => ?_, fun j => ?_, fun j hj => ?_⟩
  · rw [hrefs]
    exact h.owned
  · rw [hsizes] at hlt
    rw [hrefs]
    exact h.mapped j bn hlt
  · rw [hsizes]
    exact h.small j
  · rw [hsizes, hrefs]
    by_cases hji : j = inum
    · subst hji
      rw [Function.update_self] at hj
      exact hfree hj
    · rw [Function.update_of_ne hji] at hj
      exact h.free j hj

theorem setFields_done (ip : Dinode) (h : FsOk sb s) (hinum : inum < sb.ninodes)
    (hsize : ip.size = (sb.inodes s.data inum).size)
    (haddrs : ip.addrs = (sb.inodes s.data inum).addrs)
    (hfree : ip.type = 0 → (sb.inodes s.data inum).size = 0 ∧
      ∀ x, (sb.inodes s.data inum).ref s.data x = 0) :
    FsOk sb (iupdate sb s inum ip) ∧
      sb.inodes (iupdate sb s inum ip).data = Function.update (sb.inodes s.data) inum ip ∧
      files sb (iupdate sb s inum ip) = Function.update (files sb s) inum
        ⟨ip.type, ip.major, ip.minor, ip.nlink, (files sb s inum).bytes⟩ := by
  obtain ⟨hino, hok, -, hbyte⟩ := (Sound.fields h hsize haddrs hfree).iupdate hinum
  refine ⟨hok, hino, ?_⟩
  rw [files_eq hino]
  · refine congrArg (Function.update _ _) ?_
    have hbytes : ∀ q, ip.byte (iupdate sb s inum ip).data q =
        (sb.inodes s.data inum).byte s.data q := by
      intro q
      have hself := hbyte inum q
      rw [Function.update_self] at hself
      rw [hself, Dinode.byte, Dinode.byte]
      rw [ref_of_addrs haddrs]
    unfold Dinode.file files Dinode.file Dinode.bytes
    rw [funext hbytes, hsize]
  · intro j hj q
    have hj' := hbyte j q
    rwa [Function.update_of_ne hj] at hj'

end

end G9OS.FileSys
