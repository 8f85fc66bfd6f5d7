import G9OS.FileSys.Fs

/-! # Writing to a file (`filewrite` in `file.c`)

`filewrite` writes a long text in several transactions, each small enough for what `begin_op`
reserves in the log. Nobody else writes to the file between two of them here.
-/

namespace G9OS.FileSys

open Lib

/-- `max`: how much one transaction writes. -/
def chunkMax : Nat := (MAXOPBLOCKS - 1 - 1 - 2) / 2 * BSIZE

structure Writing where
  off : UInt32
  blocks : Blocks
  ip : Dinode
  /-- The blocks given to `log_write` in each transaction, the last transaction first. -/
  groups : List (List Nat)

/-- One transaction: `begin_op` to `end_op`. -/
def writeChunk (sb : Superblock) (inum : Nat) (src : List UInt8) (n1 : Nat) (w : Writing) :
    Except FsPanic (Int × Writing) := do
  let (r, s, ip) ← writei sb { w.blocks with logged := [] } inum w.ip src w.off (UInt32.ofNat n1)
  let off := if r > 0 then w.off + UInt32.ofNat r.toNat else w.off
  .ok (r, ⟨off, s, ip, s.logged :: w.groups⟩)

/-- The loop, for the given number of turns; it gives the last value of `i` too. -/
def filewriteLoop (sb : Superblock) (inum : Nat) (src : List UInt8) (n : Int) :
    Nat → Nat → Writing → Except FsPanic (Nat × Writing)
  | 0, i, w => .ok (i, w)
  | turns + 1, i, w =>
      if (i : Int) < n then do
        let n1 := min (n.toNat - i) chunkMax
        let (r, w) ← writeChunk sb inum (src.drop i) n1 w
        if r ≠ n1 then .ok (i, w) else filewriteLoop sb inum src n turns (i + n1) w
      else .ok (i, w)

/-- `filewrite` on a file that is not a pipe and not a device: `src` is what can be read at the
address, `w` the file when it is called. -/
def filewrite (sb : Superblock) (writable : Bool) (inum : Nat) (src : List UInt8) (n : Int)
    (w : Writing) : Except FsPanic (Int × Writing) :=
  if writable = false then .ok (-1, w)
  else do
    let (i, w) ← filewriteLoop sb inum src n n.toNat 0 w
    .ok (if (i : Int) = n then n else -1, w)

/-! ## The blocks of a transaction -/

section
variable {sb : Superblock} {s s' : Blocks} {inum off n tot m : Nat} {ip' : Dinode}
  {src : List UInt8}

theorem blocks_of_chunk (hn : n ≤ chunkMax) :
    (Finset.Icc (off / BSIZE) ((off + n - 1) / BSIZE)).card ≤ 4 := by
  have hmax : chunkMax = 3 * BSIZE := rfl
  have hlast : (off + n - 1) / BSIZE ≤ off / BSIZE + 3 := by
    have hmod := Nat.div_add_mod off BSIZE
    have hlt : off % BSIZE < BSIZE := Nat.mod_lt _ (by decide)
    have hfour : (off / BSIZE + 3 + 1) * BSIZE = BSIZE * (off / BSIZE) + 4 * BSIZE := by ring
    apply Nat.le_of_lt_succ
    rw [Nat.div_lt_iff_lt_mul (by decide), hfour]
    omega
  rw [Nat.card_Icc]
  omega

/-- What a transaction logs fits into what `begin_op` has reserved for it, if the bitmap has no more
than four blocks. -/
theorem WriteDone.fits (h : WriteDone sb s inum src off n tot m s' ip') (hlogged : s.logged = [])
    (hn : n ≤ chunkMax) (hbitmap : sb.size / BPB < 4) :
    s'.logged.toFinset.card ≤ MAXOPBLOCKS := by
  obtain ⟨l, hl, hin⟩ := h.logs
  rw [hlogged, List.append_nil] at hl
  let bitmap := Finset.Ico sb.bmapstart sb.dataStart
  let data := (Finset.Icc (off / BSIZE) ((off + n - 1) / BSIZE)).image fun bn =>
    ip'.ref s'.data (slotOf bn)
  have hsub : s'.logged.toFinset ⊆
      bitmap ∪ ({sb.iblock inum, ip'.ref s'.data (.addr indirect)} ∪ data) := by
    intro c hc
    rw [List.mem_toFinset, hl] at hc
    simp only [bitmap, data, Finset.mem_union, Finset.mem_Ico, Finset.mem_insert,
      Finset.mem_singleton, Finset.mem_image, Finset.mem_Icc]
    rcases hin c hc with hbm | hino | hind | ⟨q, hq, hlt, hfile⟩
    · exact .inl hbm
    · exact .inr (.inl (.inl hino))
    · exact .inr (.inl (.inr hind))
    · have hle : q ≤ off + n - 1 := by omega
      exact .inr (.inr ⟨q / BSIZE,
        ⟨Nat.div_le_div_right hq, Nat.div_le_div_right hle⟩, hfile.symm⟩)
  have hbits : bitmap.card ≤ 4 := by
    simp only [bitmap, Nat.card_Ico, Superblock.dataStart]
    omega
  have hdata : data.card ≤ 4 := Finset.card_image_le.trans (blocks_of_chunk hn)
  have htwo := Finset.card_le_two (a := sb.iblock inum) (b := ip'.ref s'.data (.addr indirect))
  have hall := Finset.card_le_card hsub
  have hunion := Finset.card_union_le bitmap
    ({sb.iblock inum, ip'.ref s'.data (.addr indirect)} ∪ data)
  have hunion' := Finset.card_union_le
    {sb.iblock inum, ip'.ref s'.data (.addr indirect)} data
  change _ ≤ 10
  omega

end

/-! ## The loop -/

/-- The beginning of `u` has been written to the file: `k` bytes count, and `m` are over those of
the file, of which those behind its end do not show. -/
structure Extended (sb : Superblock) (inum : Nat) (u : List UInt8) (n k m : Nat)
    (w w' : Writing) : Prop where
  ok : FsOk sb w'.blocks
  inode : sb.inodes w'.blocks.data inum = w'.ip
  le_m : k ≤ m
  le_n : m ≤ n
  le_src : m ≤ u.length
  off : w'.off.toNat = w.off.toNat + k
  effect : files sb w'.blocks = Function.update (files sb w.blocks) inum
    { files sb w.blocks inum with
      bytes := (overwrite (files sb w.blocks inum).bytes w.off.toNat (u.take m)).take
        (max (files sb w.blocks inum).bytes.length (w.off.toNat + k)) }
  groups : sb.size / BPB < 4 → ∀ g ∈ w'.groups, g ∈ w.groups ∨ g.toFinset.card ≤ MAXOPBLOCKS

structure Opened (sb : Superblock) (inum : Nat) (w : Writing) : Prop where
  ok : FsOk sb w.blocks
  range : inum < sb.ninodes
  inode : sb.inodes w.blocks.data inum = w.ip
  type : (files sb w.blocks inum).type ≠ 0

/-- A file that can be written at the offset. After an `O_TRUNC` of another process the offset is
behind the end. -/
structure Writable (sb : Superblock) (inum : Nat) (w : Writing) : Prop extends
    Opened sb inum w where
  off : w.off.toNat ≤ (files sb w.blocks inum).bytes.length

/-- Why `filewrite` writes less than it was asked to. -/
def Stopped (sb : Superblock) (inum : Nat) (u : List UInt8) (n : Nat) (w w' : Writing) : Prop :=
  (files sb w.blocks inum).bytes.length < w.off.toNat ∨ u.length < n ∨
    (∀ b < sb.size, sb.bit w'.blocks.data b = true) ∨ MAXFILE * BSIZE < w.off.toNat + n

section
variable {sb : Superblock} {inum n k m n1 : Nat} {u src : List UInt8} {w w' w'' : Writing}

theorem Extended.none (h : Opened sb inum w) : Extended sb inum u n 0 0 w w where
  ok := h.ok
  inode := h.inode
  le_m := le_rfl
  le_n := Nat.zero_le n
  le_src := Nat.zero_le _
  off := rfl
  effect := by
    have hsame : (overwrite (files sb w.blocks inum).bytes w.off.toNat (u.take 0)).take
        (max (files sb w.blocks inum).bytes.length (w.off.toNat + 0)) =
        (files sb w.blocks inum).bytes := by
      simp [overwrite]
    rw [hsame, Function.update_eq_self]
  groups _ g hg := .inl hg

theorem Extended.length (h : Extended sb inum u n k k w w') (hw : Writable sb inum w) :
    (files sb w'.blocks inum).bytes =
        overwrite (files sb w.blocks inum).bytes w.off.toNat (u.take k) ∧
      (files sb w'.blocks inum).bytes.length =
        max (files sb w.blocks inum).bytes.length (w.off.toNat + k) := by
  have hlen : (u.take k).length = k := List.length_take_of_le h.le_src
  have hover := length_overwrite (w := u.take k) hw.off
  rw [hlen] at hover
  have hfile : (files sb w'.blocks inum).bytes =
      overwrite (files sb w.blocks inum).bytes w.off.toNat (u.take k) := by
    rw [h.effect, Function.update_self]
    exact List.take_of_length_le hover.le
  exact ⟨hfile, hfile ▸ hover⟩

theorem Extended.writable (h : Extended sb inum u n k k w w') (hw : Writable sb inum w) :
    Writable sb inum w' where
  ok := h.ok
  range := hw.range
  inode := h.inode
  type := by
    rw [h.effect, Function.update_self]
    exact hw.type
  off := by
    rw [(h.length hw).2, h.off]
    exact le_max_right _ _

theorem Extended.trans (hw : Writable sb inum w) (h : Extended sb inum u n1 n1 n1 w w')
    (h' : Extended sb inum (u.drop n1) n k m w' w'') :
    Extended sb inum u (n1 + n) (n1 + k) (n1 + m) w w'' where
  ok := h'.ok
  inode := h'.inode
  le_m := Nat.add_le_add_left h'.le_m n1
  le_n := Nat.add_le_add_left h'.le_n n1
  le_src := by
    have hsrc := h.le_src
    have hrest := h'.le_src
    rw [List.length_drop] at hrest
    omega
  off := by rw [h'.off, h.off, Nat.add_assoc]
  effect := by
    obtain ⟨hbytes, hlen⟩ := h.length hw
    have htake : (u.take n1).length = n1 := List.length_take_of_le h.le_src
    have hjoin := overwrite_append (u := u.take n1) (v := (u.drop n1).take m) hw.off
    rw [htake, ← List.take_add] at hjoin
    have hmax : max (max (files sb w.blocks inum).bytes.length (w.off.toNat + n1))
        (w.off.toNat + n1 + k) =
        max (files sb w.blocks inum).bytes.length (w.off.toNat + (n1 + k)) := by omega
    rw [h'.effect, hlen, hbytes, h.off, hmax, hjoin, h.effect, Function.update_idem,
      Function.update_self]
  groups hbitmap g hg := by
    rcases h'.groups hbitmap g hg with hg | hg
    · exact h.groups hbitmap g hg
    · exact .inr hg

theorem toNat_ofNat_chunk (hn1 : n1 ≤ chunkMax) : (UInt32.ofNat n1).toNat = n1 :=
  UInt32.toNat_ofNat_of_lt (hn1.trans_lt (by decide))

theorem writeChunk_refused (hw : Opened sb inum w)
    (hr : Refused w.ip.size.toNat w.off (UInt32.ofNat n1)) :
    ∃ w', writeChunk sb inum u n1 w = .ok (-1, w') ∧ Extended sb inum u n1 0 0 w w' := by
  have hrun : writei sb { w.blocks with logged := [] } inum w.ip u w.off (UInt32.ofNat n1) =
      .ok (-1, { w.blocks with logged := [] }, w.ip) := writei_refused hr
  have hsame : Extended sb inum u n1 0 0 w w := .none hw
  unfold writeChunk
  rw [hrun, ok_bind]
  refine ⟨_, rfl, hsame.ok, hsame.inode, le_rfl, hsame.le_n, hsame.le_src, rfl, hsame.effect, ?_⟩
  intro _ g hg
  rcases List.mem_cons.1 hg with rfl | hg
  · exact .inr (Nat.zero_le _)
  · exact .inl hg

theorem writeChunk_extended (hw : Opened sb inum w) (hn1 : n1 ≤ chunkMax) :
    ∃ r w' k m, writeChunk sb inum u n1 w = .ok (r, w') ∧ Extended sb inum u n1 k m w w' ∧
      (r = n1 ∧ k = n1 ∧ Writable sb inum w ∨ r ≠ n1 ∧ Stopped sb inum u n1 w w') := by
  have hcast := toNat_ofNat_chunk hn1
  have hsize : (files sb w.blocks inum).bytes.length = w.ip.size.toNat := by
    rw [← hw.inode]
    exact length_bytes
  by_cases hr : Refused w.ip.size.toNat w.off (UInt32.ofNat n1)
  · obtain ⟨w', hrun, hext⟩ := writeChunk_refused (u := u) hw hr
    refine ⟨-1, w', 0, 0, hrun, hext, .inr ⟨by omega, ?_⟩⟩
    rcases hr with hoff | hmax
    · rw [← hsize] at hoff
      exact .inl hoff
    · rw [hcast] at hmax
      exact .inr (.inr (.inr hmax))
  · have hoff : w.off.toNat ≤ w.ip.size.toNat := Nat.le_of_not_lt fun hlt => hr (.inl hlt)
    have hmax : w.off.toNat + (UInt32.ofNat n1).toNat ≤ MAXFILE * BSIZE :=
      Nat.le_of_not_lt fun hlt => hr (.inr hlt)
    have htype : w.ip.type ≠ 0 := by
      rw [← hw.inode]
      exact hw.type
    obtain ⟨tot, m, s', ip', hrun, hdone⟩ :=
      writei_done (s := { w.blocks with logged := [] }) u hw.ok hw.range hw.inode htype hoff hmax
    rw [hcast] at hdone hmax
    have htot : tot ≤ n1 := hdone.tot_le.trans hdone.le_n
    have hnew : (if (tot : Int) > 0 then w.off + UInt32.ofNat (tot : Int).toNat
        else w.off).toNat = w.off.toNat + tot := by
      have hcast' := toNat_ofNat_chunk (htot.trans hn1)
      split
      · rw [Int.toNat_natCast, toNat_add_of_le, hcast']
        rw [hcast']
        omega
      · omega
    unfold writeChunk
    rw [hrun, ok_bind]
    refine ⟨tot, _, tot, m, rfl, ⟨hdone.ok, ?_, hdone.tot_le, hdone.le_n, hdone.le_src, hnew,
      hdone.files, ?_⟩, ?_⟩
    · rw [hdone.inodes, Function.update_self]
    · intro hbitmap g hg
      rcases List.mem_cons.1 hg with rfl | hg
      · exact .inr (hdone.fits rfl hn1 hbitmap)
      · exact .inl hg
    · by_cases hall : tot = n1
      · exact .inl ⟨congrArg _ hall, hall, hw, hsize.symm ▸ hoff⟩
      · refine .inr ⟨fun heq => hall (Int.ofNat.inj heq), ?_⟩
        rcases hdone.stop (by omega) with hshort | hfull
        · exact .inr (.inl hshort)
        · exact .inr (.inr (.inl hfull))

theorem Stopped.widen {w0 : Writing} (h : Stopped sb inum (u.drop n1) n w w')
    (hw : Writable sb inum w) (hoff : w.off.toNat = w0.off.toNat + n1) :
    Stopped sb inum u (n1 + n) w0 w' := by
  rcases h with hback | hshort | hfull | hmax
  · exact absurd hw.off (Nat.not_le.2 hback)
  · rw [List.length_drop] at hshort
    exact .inr (.inl (by omega))
  · exact .inr (.inr (.inl hfull))
  · exact .inr (.inr (.inr (by omega)))

/-- What the loop has done when it ends: the parts it has written are one write. The turns suffice
because each of them but the last writes something. -/
theorem filewriteLoop_extended (src : List UInt8) {turns i : Nat} (hw : Opened sb inum w)
    (hi : i ≤ n) (hturns : n - i ≤ turns) :
    ∃ j w' k m, filewriteLoop sb inum src n turns i w = .ok (j, w') ∧
      Extended sb inum (src.drop i) (n - i) k m w w' ∧
      (j = n ∧ k = n - i ∧ (i < n → Writable sb inum w) ∨
        j < n ∧ Stopped sb inum (src.drop i) (n - i) w w') := by
  induction turns generalizing i w with
  | zero =>
      have hend : i = n := by omega
      exact ⟨i, w, 0, 0, rfl, .none hw, .inl ⟨hend, by omega, fun hlt => absurd hlt (by omega)⟩⟩
  | succ turns ih =>
      unfold filewriteLoop
      by_cases hlt : i < n
      · have hcond : (i : Int) < (n : Int) := Int.ofNat_lt.2 hlt
        rw [if_pos hcond]
        dsimp only
        rw [Int.toNat_natCast]
        have hpos : 0 < chunkMax := by decide
        obtain ⟨n1, hn1⟩ : ∃ n1, min (n - i) chunkMax = n1 := ⟨_, rfl⟩
        rw [hn1]
        obtain ⟨r, w1, k, m, hrun, hext, hcase⟩ :=
          writeChunk_extended (u := src.drop i) hw (hn1 ▸ min_le_right _ _)
        rw [hrun, ok_bind]
        dsimp only
        rcases hcase with ⟨hr, rfl, hopen⟩ | ⟨hr, hstop⟩
        · have hm : m = k := le_antisymm hext.le_n hext.le_m
          subst hm
          have hnext := hext.writable hopen
          obtain ⟨j, w2, k2, m2, hrun2, hext2, hcase2⟩ :=
            ih (i := i + m) hnext.toOpened (by omega) (by omega)
          have hsplit : n - i = m + (n - (i + m)) := by omega
          rw [← List.drop_drop] at hext2 hcase2
          rw [if_neg (not_not.2 hr), hsplit]
          refine ⟨j, w2, m + k2, m + m2, hrun2, hext.trans hopen hext2, ?_⟩
          rcases hcase2 with ⟨hj, hk, -⟩ | ⟨hj, hstop⟩
          · exact .inl ⟨hj, by omega, fun _ => hopen⟩
          · exact .inr ⟨hj, hstop.widen hnext hext.off⟩
        · have hle : n1 ≤ n - i := hn1 ▸ min_le_left _ _
          rw [if_pos hr]
          refine ⟨i, w1, k, m, rfl, ⟨hext.ok, hext.inode, hext.le_m, hext.le_n.trans hle,
            hext.le_src, hext.off, hext.effect, hext.groups⟩, .inr ⟨hlt, ?_⟩⟩
          rcases hstop with hback | hshort | hfull | hmax
          · exact .inl hback
          · exact .inr (.inl (by omega))
          · exact .inr (.inr (.inl hfull))
          · exact .inr (.inr (.inr (by omega)))
      · have hend : i = n := by omega
        have hcond : ¬ (i : Int) < (n : Int) := fun h => hlt (Int.ofNat_lt.1 h)
        rw [if_neg hcond]
        exact ⟨i, w, 0, 0, rfl, .none hw, .inl ⟨hend, by omega, fun h => absurd h hlt⟩⟩

theorem filewrite_extended (hw : Opened sb inum w) (src : List UInt8) (n : Nat) :
    ∃ r w' k m, filewrite sb true inum src n w = .ok (r, w') ∧ Extended sb inum src n k m w w' ∧
      (r = n ∧ k = n ∧ (0 < n → Writable sb inum w) ∨ r = -1 ∧ Stopped sb inum src n w w') := by
  obtain ⟨j, w', k, m, hrun, hext, hcase⟩ :=
    filewriteLoop_extended src (n := n) hw (Nat.zero_le n) le_rfl
  rw [List.drop_zero, Nat.sub_zero] at hext hcase
  have hcall : filewrite sb true inum src n w =
      .ok (if (j : Int) = n then (n : Int) else -1, w') := by
    unfold filewrite
    rw [if_neg (by decide), Int.toNat_natCast]
    rw [Nat.sub_zero] at hrun
    rw [hrun, ok_bind]
  refine ⟨_, w', k, m, hcall, hext, ?_⟩
  rcases hcase with ⟨hj, hk, hopen⟩ | ⟨hj, hstop⟩
  · exact .inl ⟨if_pos (congrArg _ hj), hk, hopen⟩
  · exact .inr ⟨if_neg fun heq => hj.ne (Int.ofNat.inj heq), hstop⟩

theorem Extended.of_return {r : Int} (hrun : filewrite sb true inum src n w = .ok (r, w'))
    (hw : Opened sb inum w) (hr : r = n) : Extended sb inum src n n n w w' := by
  obtain ⟨r', w1, k, m, hrun', hext, hcase⟩ := filewrite_extended hw src n
  obtain ⟨rfl, rfl⟩ := Prod.mk.inj (Except.ok.inj (hrun'.symm.trans hrun))
  rcases hcase with ⟨-, rfl, -⟩ | ⟨hneg, -⟩
  · have hm : m = k := le_antisymm hext.le_n hext.le_m
    exact hm ▸ hext
  · omega

theorem filewrite_nothing {writable : Bool} {n : Int} (h : writable = false ∨ n < 0) :
    filewrite sb writable inum src n w = .ok (-1, w) := by
  unfold filewrite
  by_cases hwr : writable = false
  · rw [if_pos hwr]
  · have hneg : n < 0 := h.resolve_left hwr
    have hturns : n.toNat = 0 := Int.toNat_of_nonpos hneg.le
    have hne : ¬ ((0 : Nat) : Int) = n := by omega
    rw [if_neg hwr, hturns]
    change Except.ok (if ((0 : Nat) : Int) = n then n else -1, w) = _
    rw [if_neg hne]

end

/-! ## `filewrite` and `fileread` -/

/-- `fileread` on a file that is not a pipe and not a device: what it returns, the bytes it has
copied if there is room for so many, and `f->off`. -/
def fileread (sb : Superblock) (readable : Bool) (room : Nat) (n : Int) (s : Blocks) (ip : Dinode)
    (off : UInt32) : Except FsPanic (Int × List UInt8 × UInt32 × Blocks × Dinode) :=
  if readable = false then .ok (-1, [], off, s, ip)
  else do
    let (r, out, s, ip) ← readi sb s ip room off (UInt32.ofInt n)
    .ok (r, out, if r > 0 then off + UInt32.ofNat r.toNat else off, s, ip)

/-- A text one byte short of five blocks, more than one transaction writes. -/
def longText : List UInt8 := List.replicate 5119 7

def rootOpen : Writing := ⟨0, rootDisk, sbDefault.inodes rootDisk.data 1, []⟩

theorem writable_rootOpen : Writable sbDefault 1 rootOpen where
  ok := rootDisk_ok.1
  range := by decide
  inode := rfl
  type := by
    change (sbDefault.inodes rootDisk.data 1).type ≠ 0
    rw [rootDisk_ok.2]
    decide
  off := Nat.zero_le _

section
variable {sb : Superblock} {inum n : Nat} {src : List UInt8} {w w' : Writing}

/-- `filewrite` writes the text over the bytes of its file as one write would, and changes no other
file. If it returns -1, the file is not open for writing, the count is negative, the offset is behind
the end, the text could not be read to its end, the disk is full, or the file would be too long; the
beginning that is written by then stays. -/
theorem filewrite_writes (hw : Opened sb inum w) (writable : Bool) (src : List UInt8) (n : Int) :
    ∃ r w', filewrite sb writable inum src n w = .ok (r, w') ∧ FsOk sb w'.blocks ∧
      (r = n ∧ 0 ≤ n ∧ w'.off.toNat = w.off.toNat + n.toNat ∧
          files sb w'.blocks = Function.update (files sb w.blocks) inum
            { files sb w.blocks inum with
              bytes := overwrite (files sb w.blocks inum).bytes w.off.toNat (src.take n.toNat) } ∨
        r = -1 ∧ (writable = false ∨ n < 0 ∨ Stopped sb inum src n.toNat w w') ∧
          ∃ k m, Extended sb inum src n.toNat k m w w') := by
  by_cases hno : writable = false ∨ n < 0
  · exact ⟨-1, w, filewrite_nothing hno, hw.ok, .inr ⟨rfl, hno.imp_right .inl, 0, 0, .none hw⟩⟩
  obtain ⟨hwr, hpos⟩ : writable = true ∧ 0 ≤ n := by simpa using hno
  obtain ⟨n, rfl⟩ := Int.eq_ofNat_of_zero_le hpos
  subst hwr
  obtain ⟨r, w', k, m, hrun, hext, hcase⟩ := filewrite_extended hw src n
  refine ⟨r, w', hrun, hext.ok, ?_⟩
  rw [Int.toNat_natCast]
  rcases hcase with ⟨hr, rfl, hopen⟩ | ⟨hr, hstop⟩
  · have hm : m = k := le_antisymm hext.le_n hext.le_m
    subst hm
    refine .inl ⟨hr, hpos, hext.off, ?_⟩
    by_cases hzero : m = 0
    · subst hzero
      rw [hext.effect, List.take_of_length_le]
      simp [overwrite]
    · rw [← (hext.length (hopen (Nat.pos_of_ne_zero hzero))).1, hext.effect, Function.update_self]
  · exact .inr ⟨hr, .inr (.inr hstop), k, m, hext⟩

/-- The long text is written in two transactions. -/
theorem filewrite_writes_longText :
    ∃ w', filewrite sbDefault true 1 longText 5119 rootOpen = .ok (5119, w') ∧
      FsOk sbDefault w'.blocks ∧ w'.off.toNat = 5119 ∧
      files sbDefault w'.blocks = Function.update (files sbDefault rootDisk) 1
        { files sbDefault rootDisk 1 with
          bytes := overwrite (files sbDefault rootDisk 1).bytes 0 (longText.take 5119) } := by
  have hfirst : (filewrite sbDefault true 1 longText 5119 rootOpen).map Prod.fst = .ok 5119 := by
    decide +kernel
  obtain ⟨r, w', hrun, hok, hcase⟩ :=
    filewrite_writes writable_rootOpen.toOpened true longText 5119
  rw [hrun] at hfirst
  obtain rfl : r = 5119 := Except.ok.inj hfirst
  rcases hcase with ⟨-, -, hoff, hfiles⟩ | ⟨hneg, -⟩
  · exact ⟨w', hrun, hok, hoff, hfiles⟩
  · cases hneg

/-- No transaction of `filewrite` logs more blocks than `begin_op` has reserved for it, if the
bitmap of the disk has no more than four blocks. -/
theorem filewrite_fits_log (hw : Opened sb inum w) (hbitmap : sb.size / BPB < 4)
    (hnew : w.groups = []) (writable : Bool) (src : List UInt8) (n : Int) :
    ∃ r w', filewrite sb writable inum src n w = .ok (r, w') ∧
      ∀ g ∈ w'.groups, g.toFinset.card ≤ MAXOPBLOCKS := by
  by_cases hno : writable = false ∨ n < 0
  · refine ⟨-1, w, filewrite_nothing hno, ?_⟩
    rw [hnew]
    exact List.forall_mem_nil _
  obtain ⟨hwr, hpos⟩ : writable = true ∧ 0 ≤ n := by simpa using hno
  obtain ⟨n, rfl⟩ := Int.eq_ofNat_of_zero_le hpos
  subst hwr
  obtain ⟨r, w', k, m, hrun, hext, -⟩ := filewrite_extended hw src n
  refine ⟨r, w', hrun, fun g hg => ?_⟩
  apply (hext.groups hbitmap g hg).resolve_left
  rw [hnew]
  exact List.not_mem_nil

theorem filewrite_fits_log_longText :
    ∃ r w', filewrite sbDefault true 1 longText 5119 rootOpen = .ok (r, w') ∧
      ∀ g ∈ w'.groups, g.toFinset.card ≤ MAXOPBLOCKS :=
  filewrite_fits_log writable_rootOpen.toOpened (by decide) rfl true longText 5119

/-- What `filewrite` has written, `fileread` reads from the same offset. -/
theorem filewrite_fileread (hw : Writable sb inum w)
    (hrun : filewrite sb true inum src n w = .ok ((n : Int), w')) {room : Nat} (hroom : n ≤ room) :
    fileread sb true room n w'.blocks w'.ip w.off =
      .ok ((n : Int), src.take n, w'.off, w'.blocks, w'.ip) := by
  have hext := Extended.of_return hrun hw.toOpened rfl
  have hsum : w.off.toNat + n < 2 ^ 32 := hext.off ▸ w'.off.toNat_lt
  have hn : n < 2 ^ 32 := Nat.lt_of_le_of_lt (Nat.le_add_left n _) hsum
  have hcast : (UInt32.ofNat n).toNat = n := UInt32.toNat_ofNat_of_lt hn
  have hint : UInt32.ofInt (n : Int) = UInt32.ofNat n := by
    rw [UInt32.ofInt, Int.emod_eq_of_lt (Int.natCast_nonneg n) (by exact_mod_cast hn),
      Int.toNat_natCast]
  have hlen : (src.take n).length = n := List.length_take_of_le hext.le_src
  have hwant : ((files sb w'.blocks inum).bytes.drop w.off.toNat).take n = src.take n := by
    have hslice := slice_overwrite (w := src.take n) hw.off
    rwa [hlen, ← (hext.length hw).1] at hslice
  have hsum' : w.off.toNat + (UInt32.ofNat n).toNat < 2 ^ 32 := hcast.symm ▸ hsum
  have hread := readi_reads hext.ok hext.inode room hsum'
  dsimp only at hread
  rw [hcast, hwant, hlen, if_pos hroom, List.take_of_length_le (hlen.le.trans hroom)] at hread
  have hoff : (if (n : Int) > 0 then w.off + UInt32.ofNat (n : Int).toNat else w.off) = w'.off := by
    apply UInt32.toNat_inj.1
    rw [hext.off]
    split
    · rw [Int.toNat_natCast, UInt32.toNat_add, hcast, Nat.mod_eq_of_lt hsum]
    · omega
  unfold fileread
  rw [if_neg (by decide), hint, hread, ok_bind]
  dsimp only
  rw [hoff]

theorem filewrite_fileread_root :
    ∃ w', filewrite sbDefault true 1 [7, 8] 2 rootOpen = .ok (2, w') ∧
      fileread sbDefault true 2 2 w'.blocks w'.ip 0 =
        .ok (2, [7, 8], w'.off, w'.blocks, w'.ip) := by
  have hfirst : (filewrite sbDefault true 1 [7, 8] 2 rootOpen).map Prod.fst = .ok 2 := by
    decide +kernel
  cases hrun : filewrite sbDefault true 1 [7, 8] 2 rootOpen with
  | error e =>
      rw [hrun] at hfirst
      cases hfirst
  | ok x =>
      obtain ⟨r, w'⟩ := x
      rw [hrun] at hfirst
      obtain rfl : r = 2 := Except.ok.inj hfirst
      exact ⟨w', rfl, filewrite_fileread writable_rootOpen hrun le_rfl⟩

end

end G9OS.FileSys
