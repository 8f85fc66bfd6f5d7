import G9OS.Lib.Occurrence
import G9OS.Lib.Runs
import G9OS.FileSys.Trunc

/-! # The inode table (`fs.c`)

Any number of processes call the functions of `fs.c` on the inodes. A step of the machine is one
call; only an `iput` that frees the inode is two, since it gives `itable.lock` back while it does so
and takes it again to count down `ref`, and another process may use the inode number in between.

Kept beside the code's own data: which references a process holds, in its variables, its open files
and as its current directory.
-/

namespace G9OS.FileSys

open Lib

abbrev NINODE : Nat := 50

/-- An entry of the table; `copy` is its copy of the disk inode. -/
structure Inode where
  inum : Nat
  ref : Nat
  valid : Bool
  copy : Dinode

structure Party where
  holds : Fin NINODE → Nat
  drops : Option (Fin NINODE)        -- in `iput`, between the freeing and `ip->ref--`

/-- One reference less, which `ip->ref` still counts. -/
def Party.letGo (x : Party) (i : Fin NINODE) : Party :=
  ⟨Function.update x.holds i (x.holds i - 1), some i⟩

structure FsState (P : Type) where
  blocks : Blocks
  itable : Fin NINODE → Inode
  lock : Fin NINODE → Option P       -- `ip->lock`
  proc : P → Party
  panicked : Option FsPanic

inductive FsAct (P : Type)
  | iget (p : P) (inum : Nat)
  | idup (p : P) (i : Fin NINODE)
  | ialloc (p : P) (type : Int16)
  | ilock (p : P) (i : Fin NINODE)
  | iunlock (p : P) (i : Fin NINODE)
  | iput (p : P) (i : Fin NINODE)
  | drop (p : P)
  | update (p : P) (i : Fin NINODE) (major minor nlink : Int16)
  | itrunc (p : P) (i : Fin NINODE)
  | readi (p : P) (i : Fin NINODE) (room : Nat) (off n : UInt32)
  | writei (p : P) (i : Fin NINODE) (src : List UInt8) (off n : UInt32)

section
variable {P : Type}

def FsState.panic (s : FsState P) (e : FsPanic) : FsState P := { s with panicked := some e }

def FsState.setInode (s : FsState P) (i : Fin NINODE) (v : Inode) : FsState P :=
  { s with itable := Function.update s.itable i v }

/-- The entry that `iget` finds for an inode in use. -/
def FsState.lookup (s : FsState P) (inum : Nat) : Option (Fin NINODE) :=
  (List.finRange NINODE).find? fun i => 0 < (s.itable i).ref ∧ (s.itable i).inum = inum

def FsState.empty (s : FsState P) : Option (Fin NINODE) :=
  (List.finRange NINODE).find? fun i => (s.itable i).ref = 0

def Dinode.fresh (type : Int16) : Dinode := ⟨type, 0, 0, 0, 0, fun _ => 0⟩

def freeInode (sb : Superblock) (d : Nat → Block) : Option Nat :=
  (List.range' 1 (sb.ninodes - 1)).find? fun inum =>
    (getDinode (d (sb.iblock inum)) (inum % IPB)).type = 0

/-- The call has come back with new blocks and a new copy of the inode, or it has panicked. -/
def FsState.back (s : FsState P) (i : Fin NINODE) : Except FsPanic (Blocks × Dinode) → FsState P
  | .ok (b, ip) => { s.setInode i { s.itable i with copy := ip } with blocks := b }
  | .error e => s.panic e

/-- The part of `ilock` behind `acquiresleep`. -/
def load (sb : Superblock) (s : FsState P) (i : Fin NINODE) : FsState P :=
  let ip := s.itable i
  if ip.valid then s
  else
    let copy := getDinode (s.blocks.data (sb.iblock ip.inum)) (ip.inum % IPB)
    let s := s.setInode i { ip with copy := copy, valid := true }
    if copy.type = 0 then s.panic .ilockNoType else s

/-- What `iput` does to an inode without links and without other references. -/
def freeOnDisk (sb : Superblock) (s : FsState P) (i : Fin NINODE) : FsState P :=
  let ip := s.itable i
  match itrunc sb s.blocks ip.inum ip.copy with
  | .ok (b, copy) =>
      let copy := { copy with type := 0 }
      { s.setInode i { ip with copy := copy, valid := false } with
        blocks := iupdate sb b ip.inum copy }
  | .error e => s.panic e

variable [DecidableEq P]

def FsState.setParty (s : FsState P) (p : P) (x : Party) : FsState P :=
  { s with proc := Function.update s.proc p x }

def FsState.hold (s : FsState P) (p : P) (i : Fin NINODE) (n : Nat) : FsState P :=
  s.setParty p { s.proc p with holds := Function.update (s.proc p).holds i n }

/-- `ip->ref++`, and the process has the new reference. -/
def FsState.addRef (s : FsState P) (p : P) (i : Fin NINODE) : FsState P :=
  (s.setInode i { s.itable i with ref := (s.itable i).ref + 1 }).hold p i ((s.proc p).holds i + 1)

def iget (s : FsState P) (p : P) (inum : Nat) : FsState P :=
  match s.lookup inum with
  | some i => s.addRef p i
  | none =>
      match s.empty with
      | some i =>
          (s.setInode i { s.itable i with inum := inum, ref := 1, valid := false }).hold p i
            ((s.proc p).holds i + 1)
      | none => s.panic .igetNoInodes

def ialloc (sb : Superblock) (s : FsState P) (p : P) (type : Int16) : FsState P :=
  match freeInode sb s.blocks.data with
  | some inum =>
      let bp := s.blocks.data (sb.iblock inum)
      iget { s with
        blocks := s.blocks.logWrite (sb.iblock inum) (putDinode bp (inum % IPB) (.fresh type)) }
        p inum
  | none => s

def ilock (sb : Superblock) (s : FsState P) (p : P) (i : Fin NINODE) : Option (FsState P) :=
  if (s.itable i).ref < 1 then some (s.panic .ilock)
  else if s.lock i = none then
    some (load sb { s with lock := Function.update s.lock i (some p) } i)
  else none

def iunlock (s : FsState P) (p : P) (i : Fin NINODE) : FsState P :=
  if s.lock i ≠ some p ∨ (s.itable i).ref < 1 then s.panic .iunlock
  else { s with lock := Function.update s.lock i none }

/-- `ip->ref--`, and the process has a reference less. -/
def FsState.subRef (s : FsState P) (p : P) (i : Fin NINODE) : FsState P :=
  (s.setInode i { s.itable i with ref := (s.itable i).ref - 1 }).hold p i ((s.proc p).holds i - 1)

/-- `iput`, up to its last lines if it frees the inode. It sleeps if the inode is to be freed and is
locked. -/
def iput (sb : Superblock) (s : FsState P) (p : P) (i : Fin NINODE) : Option (FsState P) :=
  if (s.itable i).ref = 1 ∧ (s.itable i).valid ∧ (s.itable i).copy.nlink = 0 then
    if s.lock i = none then some ((freeOnDisk sb s i).setParty p ((s.proc p).letGo i)) else none
  else some (s.subRef p i)

/-- The last lines of an `iput` that has freed the inode. -/
def dropRef (s : FsState P) (p : P) : Option (FsState P) :=
  (s.proc p).drops.map fun i =>
    (s.setInode i { s.itable i with ref := (s.itable i).ref - 1 }).setParty p
      { s.proc p with drops := none }

def FsState.call (sb : Superblock) (s : FsState P) : FsAct P → Option (FsState P)
  | .iget p inum => some (iget s p inum)
  | .idup p i => some (s.addRef p i)
  | .ialloc p type => some (ialloc sb s p type)
  | .ilock p i => ilock sb s p i
  | .iunlock p i => some (iunlock s p i)
  | .iput p i => iput sb s p i
  | .drop p => dropRef s p
  | .update _ i major minor nlink =>
      let ip := s.itable i
      let copy := { ip.copy with major := major, minor := minor, nlink := nlink }
      some { s.setInode i { ip with copy := copy } with
        blocks := iupdate sb s.blocks ip.inum copy }
  | .itrunc _ i => some (s.back i (itrunc sb s.blocks (s.itable i).inum (s.itable i).copy))
  | .readi _ i room off n =>
      some (s.back i ((readi sb s.blocks (s.itable i).copy room off n).map fun r => r.2.2))
  | .writei _ i src off n =>
      some (s.back i
        ((writei sb s.blocks (s.itable i).inum (s.itable i).copy src off n).map fun r => r.2))

def FsAct.proc : FsAct P → P
  | .iget p _ | .idup p _ | .ialloc p _ | .ilock p _ | .iunlock p _ | .iput p _ | .drop p
  | .update p _ _ _ _ | .itrunc p _ | .readi p _ _ _ _ | .writei p _ _ _ _ => p

def FsAct.isDrop : FsAct P → Bool
  | .drop _ => true
  | _ => false

def FsState.next (sb : Superblock) (s : FsState P) (a : FsAct P) : Option (FsState P) :=
  if s.panicked = none ∧ (a.isDrop = true ∨ (s.proc a.proc).drops = none) then s.call sb a else none

/-- What the callers take care of: they use the references they hold, the inodes they have locked,
and numbers of inodes that are allocated, as those in a directory. -/
def Careful (sb : Superblock) (s : FsState P) : FsAct P → Prop
  | .iget _ inum => inum < sb.ninodes ∧ (sb.inodes s.blocks.data inum).type ≠ 0
  | .idup p i | .ilock p i => 0 < (s.proc p).holds i
  | .ialloc _ type => type ≠ 0
  | .iunlock p i | .itrunc p i | .update p i _ _ _ | .readi p i _ _ _ | .writei p i _ _ _ =>
      s.lock i = some p
  | .iput p i => 0 < (s.proc p).holds i ∧ (s.lock i = some p → 1 < (s.proc p).holds i)
  | .drop _ => True

instance carefulDecidable (sb : Superblock) (s : FsState P) (a : FsAct P) :
    Decidable (Careful sb s a) :=
  match a with
  | .iget _ _ => inferInstanceAs (Decidable (_ ∧ _))
  | .idup _ _ | .ilock _ _ => inferInstanceAs (Decidable (_ < _))
  | .ialloc _ _ => inferInstanceAs (Decidable (_ ≠ _))
  | .iunlock _ _ | .itrunc _ _ | .update _ _ _ _ _ | .readi _ _ _ _ _ | .writei _ _ _ _ _ =>
      inferInstanceAs (Decidable (_ = _))
  | .iput _ _ => inferInstanceAs (Decidable (_ ∧ (_ → _)))
  | .drop _ => inferInstanceAs (Decidable True)

def Booted (sb : Superblock) (s : FsState P) : Prop :=
  FsOk sb s.blocks ∧ (∀ i, (s.itable i).ref = 0) ∧ (∀ i, s.lock i = none) ∧
    (∀ p, s.proc p = ⟨fun _ => 0, none⟩) ∧ s.panicked = none

end

end G9OS.FileSys
