import G9OS.Lib.CString

/-! # Bits of a byte buffer

Bit number `i` of a buffer is bit `i % 8` of byte `i / 8`. A bit that is set or cleared is the only
one that changes.
-/

namespace G9OS.Lib

def bitMask (i : Nat) : UInt8 := 1 <<< UInt8.ofNat (i % 8)

def getBit (buf : Buf) (i : Nat) : Bool := buf (i / 8) &&& bitMask i != 0

def setBit (buf : Buf) (i : Nat) : Buf :=
  Function.update buf (i / 8) (buf (i / 8) ||| bitMask i)

def clearBit (buf : Buf) (i : Nat) : Buf :=
  Function.update buf (i / 8) (buf (i / 8) &&& ~~~bitMask i)

variable {buf : Buf} {i j : Nat}

theorem toBitVec_bitMask (i : Nat) : (bitMask i).toBitVec = BitVec.twoPow 8 (i % 8) := by
  have hall : ∀ k < 8, ((1 : UInt8) <<< UInt8.ofNat k).toBitVec = BitVec.twoPow 8 k := by decide
  exact hall _ (Nat.mod_lt i (by decide))

theorem and_bitMask (x : UInt8) (i : Nat) :
    (x &&& bitMask i != 0) = x.toBitVec.getLsbD (i % 8) := by
  have hi : i % 8 < 8 := Nat.mod_lt i (by decide)
  have hand : (x &&& bitMask i).toBitVec =
      if x.toBitVec.getLsbD (i % 8) then BitVec.twoPow 8 (i % 8) else 0#8 := by
    rw [UInt8.toBitVec_and, toBitVec_bitMask, BitVec.and_twoPow]
  have hzero : (x &&& bitMask i = 0) ↔ (x &&& bitMask i).toBitVec = 0#8 :=
    UInt8.toBitVec_inj.symm
  have hpow : BitVec.twoPow 8 (i % 8) ≠ 0#8 := by
    intro h
    have := congrArg (fun v => v.getLsbD (i % 8)) h
    simp [hi] at this
  cases hx : x.toBitVec.getLsbD (i % 8) with
  | true => simp [bne_iff_ne, hzero, hand, hx, hpow]
  | false => simp [hzero, hand, hx]

theorem getBit_eq (buf : Buf) (i : Nat) :
    getBit buf i = (buf (i / 8)).toBitVec.getLsbD (i % 8) := and_bitMask _ _

theorem getLsbD_bitMask (hij : i / 8 = j / 8) :
    (bitMask i).toBitVec.getLsbD (j % 8) = decide (j = i) := by
  have hj : j % 8 < 8 := Nat.mod_lt j (by decide)
  rw [toBitVec_bitMask, BitVec.getLsbD_twoPow]
  by_cases h : j = i
  · subst h
    simp [hj]
  · have hne : ¬ i % 8 = j % 8 := by omega
    simp [h, hne]

theorem getBit_setBit : getBit (setBit buf i) j = (getBit buf j || decide (j = i)) := by
  rw [getBit_eq, getBit_eq, setBit]
  by_cases hij : i / 8 = j / 8
  · rw [← hij, Function.update_self, UInt8.toBitVec_or, BitVec.getLsbD_or, getLsbD_bitMask hij]
  · have hne : j ≠ i := fun h => hij (by rw [h])
    rw [Function.update_of_ne (Ne.symm hij)]
    simp [hne]

theorem getBit_clearBit : getBit (clearBit buf i) j = (getBit buf j && !decide (j = i)) := by
  have hj : j % 8 < 8 := Nat.mod_lt j (by decide)
  rw [getBit_eq, getBit_eq, clearBit]
  by_cases hij : i / 8 = j / 8
  · rw [← hij, Function.update_self, UInt8.toBitVec_and, UInt8.toBitVec_not, BitVec.getLsbD_and,
      BitVec.getLsbD_not, getLsbD_bitMask hij]
    simp [hj]
  · have hne : j ≠ i := fun h => hij (by rw [h])
    rw [Function.update_of_ne (Ne.symm hij)]
    simp [hne]

end G9OS.Lib
