import Mathlib

/-! # Machine words and address-space layout

The constants of `param.h`, `riscv.h`, `memlayout.h`, `shm.h` and `vm.h` that the
modelled functions read, with the rounding macros. A `uint64` is a natural
number and its sums are taken modulo `2 ^ 64`; an `int` is an integer and its
arithmetic is reduced to 32-bit two's complement.
-/

namespace G9OS.Kernel

abbrev PA := Nat

abbrev NPROC : Nat := 64
abbrev NOFILE : Nat := 16
abbrev MAXARG : Nat := 32
abbrev USERSTACK : Nat := 1

abbrev PGSIZE : Nat := 4096
abbrev MAXVA : Nat := 2 ^ 38
abbrev TRAMPOLINE : Nat := MAXVA - PGSIZE
abbrev TRAPFRAME : Nat := TRAMPOLINE - PGSIZE

abbrev KERNBASE : Nat := 0x80000000
abbrev PHYSTOP : Nat := KERNBASE + 128 * 1024 * 1024

abbrev SHM_SLOTS : Nat := 8
abbrev SHM_MAXPGS : Nat := 4
abbrev PROC_SHM_SLOTS : Nat := 8

abbrev SBRK_EAGER : Int := 1

instance : NeZero NPROC := ⟨by decide⟩

def int32 (x : Int) : Int := Int.bmod x (2 ^ 32)

theorem int32_range (x : Int) : -2 ^ 31 ≤ int32 x ∧ int32 x < 2 ^ 31 := by
  unfold int32
  have h1 := Int.le_bmod (x := x) (m := 2 ^ 32) (by decide)
  have h2 := Int.bmod_lt (x := x) (m := 2 ^ 32) (by decide)
  norm_num at h1 h2 ⊢
  omega

theorem int32_of_range {x : Int} (h : -2 ^ 31 ≤ x) (h' : x < 2 ^ 31) : int32 x = x := by
  unfold int32
  rw [Int.bmod_eq_of_le_mul_two] <;> norm_num at h h' ⊢ <;> omega

def toU64 (x : Int) : Nat := (x % 2 ^ 64).toNat

def addU64 (a b : Nat) : Nat := (a + b) % 2 ^ 64

/-- The value `-1` returned through a `uint64`. -/
def MINUS1 : Nat := 2 ^ 64 - 1

/-- `PGROUNDUP`: add one byte less than a page, then clear the low bits. -/
def pgroundup (sz : Nat) : Nat := addU64 sz (PGSIZE - 1) / PGSIZE * PGSIZE

def pgrounddown (a : Nat) : Nat := a / PGSIZE * PGSIZE

/-- `PX(level, va)`: one of the three nine-bit indices of a virtual address. -/
def px (level va : Nat) : Fin 512 :=
  ⟨va / 2 ^ (12 + 9 * level) % 512, Nat.mod_lt _ (by decide)⟩

/-- Addresses fixed when the kernel is linked: `end`, the first address after
the kernel, and the `trampoline` page inside its text. -/
class Link where
  kend : PA
  trampoline : PA
  trampoline_lt : trampoline < kend

inductive Panic
  | kfree           -- "kfree"
  | walk            -- "walk"
  | mappagesVa      -- "mappages: va not aligned"
  | mappagesSize    -- "mappages: size not aligned"
  | mappagesEmpty   -- "mappages: size"
  | mappagesRemap   -- "mappages: remap"
  | uvmunmap        -- "uvmunmap: not aligned"
  | freewalkLeaf    -- "freewalk: leaf"
  | uvmclear        -- "uvmclear"
  | loadseg         -- "loadseg: address should exist"
  | initExiting     -- "init exiting"
  | nullPointer     -- a fault on a null pointer: "kerneltrap"
deriving DecidableEq, Repr

end G9OS.Kernel
