import G9OS.Lib.Bitmap
import G9OS.FileSys.Log

/-! # The format of the disk (`fs.h`)

The blocks of the disk are the boot block and the superblock, the log, the inodes, the bitmap of the
blocks, and data. The superblock says where each part begins.
-/

namespace G9OS.FileSys

open Lib Kernel

abbrev NDIRECT : Nat := 12
abbrev NINDIRECT : Nat := 256         -- BSIZE / sizeof(uint)
abbrev MAXFILE : Nat := NDIRECT + NINDIRECT
abbrev IPB : Nat := 16                -- BSIZE / sizeof(struct dinode)
abbrev BPB : Nat := 8192              -- BSIZE * 8

instance (priority := 2000) neZeroAddrs : NeZero (NDIRECT + 1) := ⟨Nat.succ_ne_zero NDIRECT⟩

/-- The superblock of a disk as `mkfs` lays it out. -/
structure Superblock where
  size : Nat
  ninodes : Nat
  nlog : Nat
  logstart : Nat
  inodestart : Nat
  bmapstart : Nat
  logRoom : 2 ≤ logstart ∧ logstart + nlog ≤ inodestart
  inodeRoom : inodestart + (ninodes / IPB + 1) ≤ bmapstart
  bmapRoom : bmapstart + (size / BPB + 1) ≤ size
  size_lt : size < 2 ^ 31
  ninodes_lt : ninodes < 2 ^ 16

def Superblock.iblock (sb : Superblock) (i : Nat) : Nat := i / IPB + sb.inodestart

def Superblock.bblock (sb : Superblock) (b : Nat) : Nat := b / BPB + sb.bmapstart

def Superblock.dataStart (sb : Superblock) : Nat := sb.bmapstart + (sb.size / BPB + 1)

def Superblock.InBitmap (sb : Superblock) (b : Nat) : Prop :=
  sb.bmapstart ≤ b ∧ b < sb.dataStart

def Superblock.InData (sb : Superblock) (b : Nat) : Prop := sb.dataStart ≤ b ∧ b < sb.size

section
variable {sb : Superblock} {i b : Nat}

theorem iblock_lt (h : i < sb.ninodes) : sb.iblock i < sb.bmapstart := by
  have hroom := sb.inodeRoom
  have hdiv : i / IPB ≤ sb.ninodes / IPB := Nat.div_le_div_right h.le
  unfold Superblock.iblock
  omega

theorem inBitmap_bblock (h : b < sb.size) : sb.InBitmap (sb.bblock b) := by
  have hdiv : b / BPB ≤ sb.size / BPB := Nat.div_le_div_right h.le
  refine ⟨Nat.le_add_left _ _, ?_⟩
  rw [Superblock.bblock, Superblock.dataStart, Nat.add_comm]
  exact Nat.add_lt_add_left (Nat.lt_succ_of_le hdiv) _

theorem dataStart_pos : 0 < sb.dataStart := Nat.add_pos_right _ (Nat.succ_pos _)

theorem dataStart_le : sb.dataStart ≤ sb.size := sb.bmapRoom

theorem not_inData_zero : ¬ sb.InData 0 := fun h => absurd h.1 (Nat.not_le.2 dataStart_pos)

theorem Superblock.InData.not_inBitmap (h : sb.InData b) : ¬ sb.InBitmap b :=
  fun hb => absurd hb.2 (Nat.not_lt.2 h.1)

end

/-! ## The bitmap -/

def Superblock.bit (sb : Superblock) (d : Nat → Block) (b : Nat) : Bool :=
  getBit (d (sb.bblock b)) (b % BPB)

section
variable {sb : Superblock} {d d' : Nat → Block} {b c : Nat}

theorem bit_congr (hb : b < sb.size) (h : ∀ c, sb.InBitmap c → d' c = d c) :
    sb.bit d' b = sb.bit d b := by
  unfold Superblock.bit
  rw [h _ (inBitmap_bblock hb)]

theorem bit_place (h : sb.bblock b = sb.bblock c) : b % BPB = c % BPB ↔ b = c := by
  constructor
  · intro hmod
    have hdiv : b / BPB = c / BPB := Nat.add_right_cancel h
    rw [← Nat.div_add_mod b BPB, ← Nat.div_add_mod c BPB, hdiv, hmod]
  · rintro rfl
    rfl

theorem bit_setBit :
    sb.bit (Function.update d (sb.bblock b) (setBit (d (sb.bblock b)) (b % BPB))) c =
    Function.update (sb.bit d) b true c := by
  unfold Superblock.bit
  by_cases hblock : sb.bblock c = sb.bblock b
  · rw [hblock, Function.update_self, getBit_setBit]
    by_cases hcb : c = b
    · subst hcb
      simp
    · have hmod : ¬ c % BPB = b % BPB := fun h => hcb ((bit_place hblock).1 h)
      simp [hcb, hmod, hblock]
  · have hcb : c ≠ b := fun h => hblock (by rw [h])
    rw [Function.update_of_ne hblock, Function.update_of_ne hcb]

theorem bit_clearBit :
    sb.bit (Function.update d (sb.bblock b) (clearBit (d (sb.bblock b)) (b % BPB))) c =
      Function.update (sb.bit d) b false c := by
  unfold Superblock.bit
  by_cases hblock : sb.bblock c = sb.bblock b
  · rw [hblock, Function.update_self, getBit_clearBit]
    by_cases hcb : c = b
    · subst hcb
      simp
    · have hmod : ¬ c % BPB = b % BPB := fun h => hcb ((bit_place hblock).1 h)
      simp [hcb, hmod, hblock]
  · have hcb : c ≠ b := fun h => hblock (by rw [h])
    rw [Function.update_of_ne hblock, Function.update_of_ne hcb]

end

/-! ## Inodes -/

structure Dinode where
  type : Int16
  major : Int16
  minor : Int16
  nlink : Int16
  size : UInt32
  addrs : Fin (NDIRECT + 1) → UInt32
deriving DecidableEq

def getShort (b : Block) (p : Nat) : Int16 := (UInt16.ofNat (getLE b 2 p)).toInt16

def getUint (b : Block) (p : Nat) : UInt32 := UInt32.ofNat (getLE b 4 p)

def getDinode (b : Block) (k : Nat) : Dinode where
  type := getShort b (64 * k)
  major := getShort b (64 * k + 2)
  minor := getShort b (64 * k + 4)
  nlink := getShort b (64 * k + 6)
  size := getUint b (64 * k + 8)
  addrs i := getUint b (64 * k + 12 + 4 * i.val)

/-- The assignments of `iupdate`. -/
def putDinode (b : Block) (k : Nat) (ip : Dinode) : Block :=
  let b := putLE b 2 (64 * k) ip.type.toUInt16.toNat
  let b := putLE b 2 (64 * k + 2) ip.major.toUInt16.toNat
  let b := putLE b 2 (64 * k + 4) ip.minor.toUInt16.toNat
  let b := putLE b 2 (64 * k + 6) ip.nlink.toUInt16.toNat
  let b := putLE b 4 (64 * k + 8) ip.size.toNat
  putWords b (64 * k + 12) ((List.ofFn ip.addrs).map UInt32.toNat)

section
variable {b : Block} {k l : Nat} {ip : Dinode}

theorem toInt16_mod (x : Int16) : (UInt16.ofNat (x.toUInt16.toNat % 256 ^ 2)).toInt16 = x := by
  have hlt : x.toUInt16.toNat < 256 ^ 2 := x.toUInt16.toNat_lt
  rw [Nat.mod_eq_of_lt hlt, UInt16.ofNat_toNat, Int16.toInt16_toUInt16]

theorem uint_mod (x : UInt32) : UInt32.ofNat (x.toNat % 256 ^ 4) = x := by
  have hlt : x.toNat < 256 ^ 4 := x.toNat_lt
  rw [Nat.mod_eq_of_lt hlt, UInt32.ofNat_toNat]

theorem getDinode_putDinode : getDinode (putDinode b k ip) k = ip := by
  have hlen : ((List.ofFn ip.addrs).map UInt32.toNat).length = 13 := by simp
  obtain ⟨type, major, minor, nlink, size, addrs⟩ := ip
  simp only [getDinode, putDinode, getShort, getUint, Dinode.mk.injEq]
  refine ⟨?_, ?_, ?_, ?_, ?_, funext fun i => ?_⟩
  iterate 5
    simp (disch := omega) only [getLE_putWords_of_disjoint, getLE_putLE_of_disjoint, getLE_putLE,
      toInt16_mod, uint_mod]
  have hi : i.val < ((List.ofFn addrs).map UInt32.toNat).length := by simp
  rw [getLE_putWords hi, List.getElem_map, List.getElem_ofFn]
  exact uint_mod _

theorem putDinode_outside {i : Nat} (h : i < 64 * k ∨ 64 * k + 64 ≤ i) :
    putDinode b k ip i = b i := by
  have hlen : ((List.ofFn ip.addrs).map UInt32.toNat).length = 13 := by simp
  unfold putDinode
  simp (disch := omega) only [putWords_outside, putLE_outside]

theorem getDinode_congr {b' : Block} (h : ∀ i, 64 * k ≤ i → i < 64 * k + 64 → b' i = b i) :
    getDinode b' k = getDinode b k := by
  have hpart : ∀ w p, 64 * k ≤ p → p + w ≤ 64 * k + 64 → getLE b' w p = getLE b w p :=
    fun w p hp hw => getLE_congr fun i hi hlt => h i (hp.trans hi) (hlt.trans_le hw)
  simp only [getDinode, getShort, getUint, Dinode.mk.injEq]
  refine ⟨?_, ?_, ?_, ?_, ?_, funext fun i => ?_⟩
  iterate 5 rw [hpart _ _ (by omega) (by omega)]
  have hi : i.val < 13 := i.isLt
  rw [hpart _ _ (by omega) (by omega)]

theorem getDinode_putDinode_of_ne (h : l ≠ k) : getDinode (putDinode b k ip) l = getDinode b l :=
  getDinode_congr fun _ _ _ => putDinode_outside (by omega)

end

def Superblock.inodes (sb : Superblock) (d : Nat → Block) (inum : Nat) : Dinode :=
  if inum < sb.ninodes then getDinode (d (sb.iblock inum)) (inum % IPB)
  else getDinode (fun _ => 0) 0

section
variable {sb : Superblock} {d d' : Nat → Block} {inum : Nat} {ip : Dinode}

theorem inodes_congr (h : ∀ b < sb.bmapstart, d' b = d b) : sb.inodes d' = sb.inodes d := by
  funext inum
  unfold Superblock.inodes
  split
  · rename_i hlt
    rw [h _ (iblock_lt hlt)]
  · rfl

theorem inodes_putDinode (hlt : inum < sb.ninodes) :
    sb.inodes (Function.update d (sb.iblock inum)
      (putDinode (d (sb.iblock inum)) (inum % IPB) ip)) =
      Function.update (sb.inodes d) inum ip := by
  funext j
  by_cases hj : j = inum
  · subst hj
    rw [Function.update_self, Superblock.inodes, if_pos hlt, Function.update_self,
      getDinode_putDinode]
  · rw [Function.update_of_ne hj, Superblock.inodes, Superblock.inodes]
    split
    · by_cases hblock : sb.iblock j = sb.iblock inum
      · have hmod : j % IPB ≠ inum % IPB := by
          intro hmod
          have hdiv : j / IPB = inum / IPB := Nat.add_right_cancel hblock
          exact hj (by rw [← Nat.div_add_mod j IPB, ← Nat.div_add_mod inum IPB, hdiv, hmod])
        rw [hblock, Function.update_self, getDinode_putDinode_of_ne hmod]
      · rw [Function.update_of_ne hblock]
    · rfl

end

end G9OS.FileSys
