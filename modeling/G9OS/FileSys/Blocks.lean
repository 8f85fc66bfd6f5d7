import G9OS.FileSys.Disk

/-! # The block allocator (`fs.c`)

The functions of `fs.c` see the disk through the buffer cache, inside a transaction. What they give
to `log_write` is recorded.
-/

namespace G9OS.FileSys

open Lib

/-- The blocks as the buffer cache shows them, and those given to `log_write`, the last one
first. -/
structure Blocks where
  data : Nat → Block
  logged : List Nat

/-- A buffer is changed, given to `log_write` and released. -/
def Blocks.logWrite (s : Blocks) (b : Nat) (d : Block) : Blocks :=
  ⟨Function.update s.data b d, b :: s.logged⟩

inductive FsPanic
  | freeingFreeBlock     -- "freeing free block"
  | bmapOutOfRange       -- "bmap: out of range"
  | igetNoInodes         -- "iget: no inodes"
  | ilock                -- "ilock"
  | ilockNoType          -- "ilock: no type"
  | iunlock              -- "iunlock"
  | dirlookupNotDir      -- "dirlookup not DIR"
  | dirlookupRead        -- "dirlookup read"
  | dirlinkRead          -- "dirlink read"
  | unlinkWritei         -- "unlink: writei"
deriving DecidableEq, Repr

def bzero (s : Blocks) (bno : Nat) : Blocks := s.logWrite bno fun _ => 0

/-- The inner loop of `balloc`, for at most the given number of turns. -/
def freeBit (bp : Block) (size b : Nat) : Nat → Nat → Option Nat
  | 0, _ => none
  | n + 1, bi =>
      if bi < BPB ∧ b + bi < size then
        if getBit bp bi then freeBit bp size b n (bi + 1) else some bi
      else none

/-- The outer loop of `balloc`. -/
def ballocFrom (sb : Superblock) (s : Blocks) : Nat → Nat → Nat × Blocks
  | 0, _ => (0, s)
  | n + 1, b =>
      if b < sb.size then
        match freeBit (s.data (sb.bblock b)) sb.size b BPB 0 with
        | some bi =>
            let s := s.logWrite (sb.bblock b) (setBit (s.data (sb.bblock b)) bi)
            (b + bi, bzero s (b + bi))
        | none => ballocFrom sb s n (b + BPB)
      else (0, s)

def balloc (sb : Superblock) (s : Blocks) : Nat × Blocks := ballocFrom sb s (sb.size / BPB + 1) 0

def bfree (sb : Superblock) (s : Blocks) (b : Nat) : Except FsPanic Blocks :=
  if getBit (s.data (sb.bblock b)) (b % BPB) then
    .ok (s.logWrite (sb.bblock b) (clearBit (s.data (sb.bblock b)) (b % BPB)))
  else .error .freeingFreeBlock

section
variable {sb : Superblock} {s : Blocks} {bp : Block} {size b n bi : Nat}

theorem freeBit_some {r : Nat} (h : freeBit bp size b n bi = some r) :
    r < BPB ∧ b + r < size ∧ getBit bp r = false := by
  induction n generalizing bi with
  | zero => cases h
  | succ n ih =>
      unfold freeBit at h
      split at h
      · rename_i hin
        split at h
        · exact ih h
        · rename_i hbit
          cases h
          exact ⟨hin.1, hin.2, Bool.eq_false_iff.2 hbit⟩
      · cases h

theorem freeBit_none (h : freeBit bp size b n bi = none) (hn : BPB ≤ bi + n) {r : Nat}
    (hbi : bi ≤ r) (hr : r < BPB) (hsize : b + r < size) : getBit bp r = true := by
  induction n generalizing bi with
  | zero => omega
  | succ n ih =>
      unfold freeBit at h
      rw [if_pos ⟨hbi.trans_lt hr, by omega⟩] at h
      split at h
      · rename_i hbit
        by_cases hr' : bi = r
        · exact hr' ▸ hbit
        · exact ih h (by omega) (by omega)
      · cases h

/-- The block is marked in the bitmap and filled with zeros. -/
def take (sb : Superblock) (s : Blocks) (b : Nat) : Blocks :=
  bzero (s.logWrite (sb.bblock b) (setBit (s.data (sb.bblock b)) (b % BPB))) b

inductive BallocCase (sb : Superblock) (s : Blocks) : Nat × Blocks → Prop
  | noRoom (h : ∀ b < sb.size, sb.bit s.data b = true) : BallocCase sb s (0, s)
  | takes {b : Nat} (hlt : b < sb.size) (h : sb.bit s.data b = false) :
      BallocCase sb s (b, take sb s b)

theorem bblock_mul_add (sb : Superblock) (k : Nat) {r : Nat} (hr : r < BPB) :
    sb.bblock (BPB * k + r) = sb.bblock (BPB * k) ∧ (BPB * k + r) % BPB = r := by
  have hpos : 0 < BPB := by decide
  constructor
  · unfold Superblock.bblock
    rw [Nat.mul_add_div hpos, Nat.div_eq_of_lt hr, Nat.mul_div_cancel_left k hpos, Nat.add_zero]
  · rw [Nat.mul_add_mod, Nat.mod_eq_of_lt hr]

theorem ballocFrom_case {k : Nat} (hn : sb.size < BPB * (k + n))
    (hbefore : ∀ c < BPB * k, c < sb.size → sb.bit s.data c = true) :
    BallocCase sb s (ballocFrom sb s n (BPB * k)) := by
  induction n generalizing k with
  | zero => exact .noRoom fun b hb => hbefore b (hb.trans hn) hb
  | succ n ih =>
      unfold ballocFrom
      split
      · split
        · rename_i bi hfound
          obtain ⟨hbi, hlt, hfree⟩ := freeBit_some hfound
          obtain ⟨hblock, hmod⟩ := bblock_mul_add sb k hbi
          have hcase : BallocCase sb s (BPB * k + bi, take sb s (BPB * k + bi)) := by
            refine .takes hlt ?_
            unfold Superblock.bit
            rwa [hblock, hmod]
          unfold take at hcase
          rwa [hblock, hmod] at hcase
        · rename_i hnone
          have hnext : BPB * k + BPB = BPB * (k + 1) := (Nat.mul_succ BPB k).symm
          rw [hnext]
          apply ih
          · rwa [Nat.add_right_comm, Nat.add_assoc]
          · intro c hc hsize
            by_cases hck : c < BPB * k
            · exact hbefore c hck hsize
            · obtain ⟨r, rfl⟩ := Nat.exists_eq_add_of_le (Nat.le_of_not_lt hck)
              have hr : r < BPB := by
                rw [← hnext] at hc
                exact Nat.lt_of_add_lt_add_left hc
              obtain ⟨hblock, hmod⟩ := bblock_mul_add sb k hr
              unfold Superblock.bit
              rw [hblock, hmod]
              exact freeBit_none hnone (Nat.le_add_left _ _) (Nat.zero_le r) hr hsize
      · rename_i hend
        exact .noRoom fun b hb => hbefore b (hb.trans_le (Nat.le_of_not_lt hend)) hb

theorem balloc_case : BallocCase sb s (balloc sb s) := by
  refine ballocFrom_case (k := 0) ?_ fun c hc => absurd hc (Nat.not_lt_zero c)
  rw [Nat.zero_add]
  exact Nat.lt_mul_div_succ sb.size (by decide)

end

/-! ## What the allocator changes -/

def release (sb : Superblock) (s : Blocks) (b : Nat) : Blocks :=
  s.logWrite (sb.bblock b) (clearBit (s.data (sb.bblock b)) (b % BPB))

section
variable {sb : Superblock} {s : Blocks} {b c : Nat}

theorem bfree_of_used (h : sb.bit s.data b = true) : bfree sb s b = .ok (release sb s b) := if_pos h

theorem take_data_self : (take sb s b).data b = fun _ => 0 := Function.update_self ..

theorem take_data (hb : b < sb.size) (hc : ¬ sb.InBitmap c) (hcb : c ≠ b) :
    (take sb s b).data c = s.data c := by
  have hne : c ≠ sb.bblock b := fun h => hc (h ▸ inBitmap_bblock hb)
  exact (Function.update_of_ne hcb _ _).trans (Function.update_of_ne hne _ _)

theorem take_bit (hb : sb.InData b) (hc : c < sb.size) :
    sb.bit (take sb s b).data c = Function.update (sb.bit s.data) b true c := by
  rw [← bit_setBit (d := s.data)]
  apply bit_congr hc
  intro e he
  have hne : e ≠ b := fun h => hb.not_inBitmap (h ▸ he)
  exact Function.update_of_ne hne _ _

theorem release_data (hb : b < sb.size) (hc : ¬ sb.InBitmap c) :
    (release sb s b).data c = s.data c := by
  have hne : c ≠ sb.bblock b := fun h => hc (h ▸ inBitmap_bblock hb)
  exact Function.update_of_ne hne _ _

theorem release_bit : sb.bit (release sb s b).data c = Function.update (sb.bit s.data) b false c :=
  bit_clearBit

end

end G9OS.FileSys
