import G9OS.Lib.Dlist
import G9OS.Lib.Refine
import G9OS.Lib.Store
import G9OS.FileSys.Log

/-! # The buffer cache (`bio.c`)

A use of a buffer begins with `bget`: it finds or recycles a buffer under `bcache.lock`, waits for
the sleep-lock of the buffer, reads the block if nobody has, and ends with `brelse`, which gives up
the sleep-lock before it takes `bcache.lock` again. Each of these is a step, and any number of uses
are at any point of it. The disk is one disk: `virtio_disk_rw` looks at `b->blockno` only.

Kept beside the code's own data: the pins that are part of `refcnt`, and when a buffer was last given
back.
-/

namespace G9OS.FileSys

open Lib Kernel

abbrev NBUF : Nat := MAXOPBLOCKS * 3
abbrev ROOTDEV : Nat := 1

/-- `struct buf`, without the links and the sleep-lock. -/
structure CacheBuf where
  valid : Bool
  dev : Nat
  blockno : Nat
  refcnt : Nat
  data : Block

inductive Use
  | idle
  | waits (b : Fin NBUF) (n : Nat)     -- in `acquiresleep`
  | fills (b : Fin NBUF) (n : Nat)     -- in `bread`, with the sleep-lock
  | holds (b : Fin NBUF) (n : Nat)
  | leaves (b : Fin NBUF) (n : Nat)    -- in `brelse`, without the sleep-lock
deriving DecidableEq

inductive BioPanic
  | noBuffers    -- "bget: no buffers"
  | bwrite
  | brelse
deriving DecidableEq, Repr

structure Bcache (U : Type) where
  links : Dlist (Fin NBUF)
  buf : Fin NBUF → CacheBuf
  lock : Fin NBUF → Option U
  disk : Nat → Block
  use : U → Use
  pins : Fin NBUF → Nat
  freed : Fin NBUF → Nat
  time : Nat
  panicked : Option BioPanic

inductive BioAct (U : Type)
  | bget (u : U) (dev blockno : Nat)
  | acquiresleep (u : U)
  | fill (u : U)
  | modify (u : U) (b : Fin NBUF) (d : Block)
  | bwrite (u : U) (b : Fin NBUF)
  | brelse (u : U) (b : Fin NBUF)
  | giveBack (u : U)
  | bpin (u : U) (b : Fin NBUF)
  | bunpin (u : U) (b : Fin NBUF)

section
variable {U : Type}

def binit (disk : Nat → Block) : Bcache U where
  links := (List.finRange NBUF).foldl Dlist.pushFront Dlist.empty
  buf := fun _ => ⟨false, 0, 0, 0, fun _ => 0⟩
  lock := fun _ => none
  disk := disk
  use := fun _ => .idle
  pins := fun _ => 0
  freed := fun _ => 0
  time := 0
  panicked := none

/-- The first loop of `bget`. -/
def Bcache.cached (c : Bcache U) (dev blockno : Nat) : Option (Fin NBUF) :=
  search c.links.next (fun b => (c.buf b).dev = dev ∧ (c.buf b).blockno = blockno) NBUF
    (c.links.next none)

/-- The second loop of `bget`. -/
def Bcache.unused (c : Bcache U) : Option (Fin NBUF) :=
  search c.links.prev (fun b => (c.buf b).refcnt = 0) NBUF (c.links.prev none)

def Bcache.setBuf (c : Bcache U) (b : Fin NBUF) (x : CacheBuf) : Bcache U :=
  { c with buf := Function.update c.buf b x }

variable [DecidableEq U]

def Bcache.setUse (c : Bcache U) (u : U) (x : Use) : Bcache U :=
  { c with use := Function.update c.use u x }

/-- `bget` up to the call of `acquiresleep` -/
def bget (c : Bcache U) (u : U) (dev blockno : Nat) : Bcache U :=
  match c.cached dev blockno with
  | some b =>
      (c.setBuf b { c.buf b with refcnt := (c.buf b).refcnt + 1 }).setUse u (.waits b blockno)
  | none =>
      match c.unused with
      | some b =>
          (c.setBuf b
            { c.buf b with dev := dev, blockno := blockno, valid := false, refcnt := 1 }).setUse u
            (.waits b blockno)
      | none => { c with panicked := some .noBuffers }

/-- `bread` after `bget` -/
def bread (c : Bcache U) (u : U) (b : Fin NBUF) (n : Nat) : Bcache U :=
  if (c.buf b).valid then c.setUse u (.holds b n)
  else
    (c.setBuf b { c.buf b with data := c.disk (c.buf b).blockno, valid := true }).setUse u
      (.holds b n)

def bwrite (c : Bcache U) (u : U) (b : Fin NBUF) : Bcache U :=
  if c.lock b = some u then
    { c with disk := Function.update c.disk (c.buf b).blockno (c.buf b).data }
  else { c with panicked := some .bwrite }

/-- `brelse` up to `releasesleep` -/
def brelse (c : Bcache U) (u : U) (b : Fin NBUF) : Bcache U :=
  if c.lock b = some u then
    { c.setUse u (.leaves b (c.buf b).blockno) with lock := Function.update c.lock b none }
  else { c with panicked := some .brelse }

/-- `brelse` after `releasesleep` -/
def giveBack (c : Bcache U) (u : U) (b : Fin NBUF) : Bcache U :=
  let c := (c.setBuf b { c.buf b with refcnt := (c.buf b).refcnt - 1 }).setUse u .idle
  if (c.buf b).refcnt = 0 then
    { c with
      links := (c.links.unlink b).pushFront b
      freed := Function.update c.freed b (c.time + 1)
      time := c.time + 1 }
  else c

omit [DecidableEq U] in
def bpin (c : Bcache U) (b : Fin NBUF) : Bcache U :=
  { c.setBuf b { c.buf b with refcnt := (c.buf b).refcnt + 1 } with
    pins := Function.update c.pins b (c.pins b + 1) }

omit [DecidableEq U] in
def bunpin (c : Bcache U) (b : Fin NBUF) : Bcache U :=
  { c.setBuf b { c.buf b with refcnt := (c.buf b).refcnt - 1 } with
    pins := Function.update c.pins b (c.pins b - 1) }

def Bcache.run (c : Bcache U) : BioAct U → Option (Bcache U)
  | .bget u dev blockno => if c.use u = .idle then some (bget c u dev blockno) else none
  | .acquiresleep u =>
      match c.use u with
      | .waits b n =>
          if c.lock b = none then
            some { c.setUse u (.fills b n) with lock := Function.update c.lock b (some u) }
          else none
      | _ => none
  | .fill u =>
      match c.use u with
      | .fills b n => some (bread c u b n)
      | _ => none
  | .modify _ b d => some (c.setBuf b { c.buf b with data := d })
  | .bwrite u b => some (bwrite c u b)
  | .brelse u b => some (brelse c u b)
  | .giveBack u =>
      match c.use u with
      | .leaves b _ => some (giveBack c u b)
      | _ => none
  | .bpin _ b => some (bpin c b)
  | .bunpin _ b => some (bunpin c b)

def Bcache.next (c : Bcache U) (a : BioAct U) : Option (Bcache U) :=
  if c.panicked = none then c.run a else none

end

end G9OS.FileSys
