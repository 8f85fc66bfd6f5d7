import G9OS.Lib.Ring
import G9OS.Lib.Runs

/-! # Pipes (`pipe.c`)

Any number of processes read and write one pipe. A step is what a process does between taking
`pi->lock` and giving it back: a turn of `pipewrite` or `piperead` that ends with a return or in
`sleep`, or `pipeclose`. The user memory that is written from is a list in which `none` stands for a
byte that `copyin` cannot read; `copyout` fails at a given byte or never. A kill can set the flag of
a process in the middle of its turn.

Kept beside what the code keeps: the bytes that have gone into the pipe and out of it, with the
process that moved them.
-/

namespace G9OS.Pipes

open Lib

abbrev PIPESIZE : Nat := 512

structure Pipe where
  data : Nat → UInt8
  nread : Nat
  nwrite : Nat
  readopen : Bool
  writeopen : Bool

/-- `pi->nwrite == pi->nread + PIPESIZE` -/
def Pipe.Full (pi : Pipe) : Prop := pi.nwrite = (pi.nread + PIPESIZE) % 2 ^ 32

instance (pi : Pipe) : Decidable pi.Full := inferInstanceAs (Decidable (_ = _))

/-- `pi->nread == pi->nwrite` -/
def Pipe.Empty (pi : Pipe) : Prop := pi.nread = pi.nwrite

instance (pi : Pipe) : Decidable pi.Empty := inferInstanceAs (Decidable (_ = _))

/-- `pi->data[pi->nwrite++ % PIPESIZE] = ch` -/
def Pipe.put (pi : Pipe) (ch : UInt8) : Pipe :=
  { pi with
    data := Function.update pi.data (pi.nwrite % PIPESIZE) ch
    nwrite := (pi.nwrite + 1) % 2 ^ 32 }

/-- `pi->data[pi->nread % PIPESIZE]` -/
def Pipe.first (pi : Pipe) : UInt8 := pi.data (pi.nread % PIPESIZE)

/-- `pi->nread++` -/
def Pipe.skip (pi : Pipe) : Pipe := { pi with nread := (pi.nread + 1) % 2 ^ 32 }

/-! ## The two loops -/

inductive WriteStop
  | done      -- everything is written, or `copyin` fails
  | failed    -- nobody can read, or the process is killed
  | full
deriving DecidableEq, Repr

/-- The loop of `pipewrite` on the bytes from number `i` on, with what it has put into the pipe. -/
def writeLoop (killed : Nat → Bool) :
    List (Option UInt8) → Nat → Pipe → Pipe × List UInt8 × WriteStop
  | [], _, pi => (pi, [], .done)
  | x :: xs, i, pi =>
      if pi.readopen = false ∨ killed i = true then (pi, [], .failed)
      else if pi.Full then (pi, [], .full)
      else
        match x with
        | none => (pi, [], .done)
        | some ch =>
            let (pi', out, stop) := writeLoop killed xs (i + 1) (pi.put ch)
            (pi', ch :: out, stop)

/-- The second loop of `piperead`, with `left` bytes to go: what is copied out, and if `copyout`
has failed. -/
def readLoop (fault : Option Nat) : Nat → Nat → Pipe → Pipe × List UInt8 × Bool
  | 0, _, pi => (pi, [], false)
  | left + 1, i, pi =>
      if pi.Empty then (pi, [], false)
      else if fault = some i then (pi, [], true)
      else
        let (pi', out, bad) := readLoop fault left (i + 1) pi.skip
        (pi', pi.first :: out, bad)

def readResult (out : List UInt8) (bad : Bool) : Int :=
  if bad = true ∧ out.length = 0 then -1 else out.length

/-! ## The machine -/

/-- A process in relation to the pipe; the count of a read is 0 if it is negative. -/
inductive PipeProc
  | idle
  | writing (bs : List (Option UInt8)) (i : Nat)
  | writeSleep (bs : List (Option UInt8)) (i : Nat)    -- on the channel `&pi->nwrite`
  | reading (n : Nat)
  | readSleep (n : Nat)                                -- on the channel `&pi->nread`
  | wrote (bs : List (Option UInt8)) (r : Int)
  | got (n : Nat) (out : List UInt8) (r : Int)
deriving DecidableEq, Repr

structure PipeState (P : Type) where
  pipe : Pipe
  proc : P → PipeProc
  killed : P → Bool
  sent : List (P × UInt8)
  taken : List (P × UInt8)

inductive PipeAct (P : Type)
  | write (p : P) (bs : List (Option UInt8))
  | read (p : P) (n : Nat)
  | turn (p : P) (late fault : Option Nat)
  | kill (p : P)
  | close (writable : Bool)

def PipeProc.wakeReader : PipeProc → PipeProc
  | .readSleep n => .reading n
  | x => x

def PipeProc.wakeWriter : PipeProc → PipeProc
  | .writeSleep bs i => .writing bs i
  | x => x

def PipeProc.Callable : PipeProc → Bool
  | .idle | .wrote _ _ | .got _ _ _ => true
  | _ => false

section
variable {P : Type}

def PipeState.fresh (data : Nat → UInt8) : PipeState P where
  pipe := ⟨data, 0, 0, true, true⟩
  proc := fun _ => .idle
  killed := fun _ => false
  sent := []
  taken := []

def PipeState.wakeReaders (s : PipeState P) : PipeState P :=
  { s with proc := fun q => (s.proc q).wakeReader }

def PipeState.wakeWriters (s : PipeState P) : PipeState P :=
  { s with proc := fun q => (s.proc q).wakeWriter }

def pipeclose (s : PipeState P) (writable : Bool) : PipeState P :=
  if writable then
    ({ s with pipe := { s.pipe with writeopen := false } } : PipeState P).wakeReaders
  else
    ({ s with pipe := { s.pipe with readopen := false } } : PipeState P).wakeWriters

variable [DecidableEq P]

def PipeState.setProc (s : PipeState P) (p : P) (x : PipeProc) : PipeState P :=
  { s with proc := Function.update s.proc p x }

/-- `killed` as a process sees it that is killed when it is at byte number `late`. -/
def PipeState.killedAt (s : PipeState P) (p : P) (late : Option Nat) (j : Nat) : Bool :=
  s.killed p || late.any (· ≤ j)

/-- After the loop of `pipewrite`. -/
def PipeState.send (s : PipeState P) (p : P) (late : Option Nat) (pi : Pipe) (out : List UInt8) :
    PipeState P :=
  { s with
    pipe := pi
    sent := s.sent ++ out.map fun ch => (p, ch)
    killed := Function.update s.killed p (s.killed p || late.isSome) }

/-- After the second loop of `piperead`. -/
def PipeState.take (s : PipeState P) (p : P) (pi : Pipe) (out : List UInt8) : PipeState P :=
  { s with
    pipe := pi
    taken := s.taken ++ out.map fun ch => (p, ch) }

def pipewrite (s : PipeState P) (p : P) (late : Option Nat) (bs : List (Option UInt8)) (i : Nat) :
    PipeState P :=
  let (pi, out, stop) := writeLoop (s.killedAt p late) (bs.drop i) i s.pipe
  let s := s.send p late pi out
  match stop with
  | .done => (s.setProc p (.wrote bs (i + out.length : Nat))).wakeReaders
  | .failed => s.setProc p (.wrote bs (-1))
  | .full => (s.setProc p (.writeSleep bs (i + out.length))).wakeReaders

def piperead (s : PipeState P) (p : P) (fault : Option Nat) (n : Nat) : PipeState P :=
  if s.pipe.Empty ∧ s.pipe.writeopen = true then
    if s.killed p then s.setProc p (.got n [] (-1)) else s.setProc p (.readSleep n)
  else
    let (pi, out, bad) := readLoop fault n 0 s.pipe
    ((s.take p pi out).setProc p (.got n out (readResult out bad))).wakeWriters

/-- `kill` of a process: it does not stay asleep. -/
def kill (s : PipeState P) (p : P) : PipeState P :=
  { s.setProc p (s.proc p).wakeReader.wakeWriter with
    killed := Function.update s.killed p true }

def PipeState.next (s : PipeState P) : PipeAct P → Option (PipeState P)
  | .write p bs => if (s.proc p).Callable then some (s.setProc p (.writing bs 0)) else none
  | .read p n => if (s.proc p).Callable then some (s.setProc p (.reading n)) else none
  | .turn p late fault =>
      match s.proc p with
      | .writing bs i => some (pipewrite s p late bs i)
      | .reading n => some (piperead s p fault n)
      | _ => none
  | .kill p => some (kill s p)
  | .close writable => some (pipeclose s writable)

/-- Kills fall between the turns. -/
def Prompt (_ : PipeState P) : PipeAct P → Prop
  | .turn _ late _ => late = none
  | _ => True

/-! ## What a step does -/

inductive PipeMove (s : PipeState P) : PipeAct P → PipeState P → Prop
  | write {p : P} {bs : List (Option UInt8)} (hp : (s.proc p).Callable = true) :
      PipeMove s (.write p bs) (s.setProc p (.writing bs 0))
  | read {p : P} {n : Nat} (hp : (s.proc p).Callable = true) :
      PipeMove s (.read p n) (s.setProc p (.reading n))
  | wrote {p : P} {late fault : Option Nat} {bs : List (Option UInt8)} {i : Nat} {pi : Pipe}
      {out : List UInt8} (hp : s.proc p = .writing bs i)
      (hl : writeLoop (s.killedAt p late) (bs.drop i) i s.pipe = (pi, out, .done)) :
      PipeMove s (.turn p late fault)
        ((s.send p late pi out).setProc p (.wrote bs (i + out.length : Nat))).wakeReaders
  | writeFails {p : P} {late fault : Option Nat} {bs : List (Option UInt8)} {i : Nat} {pi : Pipe}
      {out : List UInt8} (hp : s.proc p = .writing bs i)
      (hl : writeLoop (s.killedAt p late) (bs.drop i) i s.pipe = (pi, out, .failed)) :
      PipeMove s (.turn p late fault) ((s.send p late pi out).setProc p (.wrote bs (-1)))
  | writeSleeps {p : P} {late fault : Option Nat} {bs : List (Option UInt8)} {i : Nat} {pi : Pipe}
      {out : List UInt8} (hp : s.proc p = .writing bs i)
      (hl : writeLoop (s.killedAt p late) (bs.drop i) i s.pipe = (pi, out, .full)) :
      PipeMove s (.turn p late fault)
        ((s.send p late pi out).setProc p (.writeSleep bs (i + out.length))).wakeReaders
  | readFails {p : P} {late fault : Option Nat} {n : Nat} (hp : s.proc p = .reading n)
      (hwait : s.pipe.Empty ∧ s.pipe.writeopen = true) (hkilled : s.killed p = true) :
      PipeMove s (.turn p late fault) (s.setProc p (.got n [] (-1)))
  | readSleeps {p : P} {late fault : Option Nat} {n : Nat} (hp : s.proc p = .reading n)
      (hwait : s.pipe.Empty ∧ s.pipe.writeopen = true) (hkilled : s.killed p = false) :
      PipeMove s (.turn p late fault) (s.setProc p (.readSleep n))
  | got {p : P} {late fault : Option Nat} {n : Nat} {pi : Pipe} {out : List UInt8} {bad : Bool}
      (hp : s.proc p = .reading n) (hready : ¬ (s.pipe.Empty ∧ s.pipe.writeopen = true))
      (hl : readLoop fault n 0 s.pipe = (pi, out, bad)) :
      PipeMove s (.turn p late fault)
        ((s.take p pi out).setProc p (.got n out (readResult out bad))).wakeWriters
  | kill {p : P} : PipeMove s (.kill p) (kill s p)
  | closeWrite :
      PipeMove s (.close true)
        ({ s with pipe := { s.pipe with writeopen := false } } : PipeState P).wakeReaders
  | closeRead :
      PipeMove s (.close false)
        ({ s with pipe := { s.pipe with readopen := false } } : PipeState P).wakeWriters

theorem next_pipeMove {s t : PipeState P} {a : PipeAct P} (h : s.next a = some t) :
    PipeMove s a t := by
  cases a with
  | write p bs =>
      obtain ⟨hp, h⟩ := Option.ite_none_right_eq_some.1 h
      obtain rfl := Option.some.inj h
      exact .write hp
  | read p n =>
      obtain ⟨hp, h⟩ := Option.ite_none_right_eq_some.1 h
      obtain rfl := Option.some.inj h
      exact .read hp
  | turn p late fault =>
      simp only [PipeState.next] at h
      cases hp : s.proc p with
      | writing bs i =>
          rw [hp] at h
          obtain rfl := Option.some.inj h
          rcases hl : writeLoop (s.killedAt p late) (bs.drop i) i s.pipe with ⟨pi, out, stop⟩
          simp only [pipewrite, hl]
          cases stop with
          | done => exact .wrote hp hl
          | failed => exact .writeFails hp hl
          | full => exact .writeSleeps hp hl
      | reading n =>
          rw [hp] at h
          obtain rfl := Option.some.inj h
          unfold piperead
          by_cases hwait : s.pipe.Empty ∧ s.pipe.writeopen = true
          · rw [if_pos hwait]
            cases hkilled : s.killed p with
            | true => exact .readFails hp hwait hkilled
            | false => exact .readSleeps hp hwait hkilled
          · rw [if_neg hwait]
            rcases hl : readLoop fault n 0 s.pipe with ⟨pi, out, bad⟩
            exact .got hp hwait hl
      | idle | writeSleep | readSleep | wrote | got =>
          rw [hp] at h
          cases h
  | kill p =>
      obtain rfl := Option.some.inj h
      exact .kill
  | close writable =>
      obtain rfl := Option.some.inj h
      cases writable with
      | true => exact .closeWrite
      | false => exact .closeRead

end

end G9OS.Pipes
