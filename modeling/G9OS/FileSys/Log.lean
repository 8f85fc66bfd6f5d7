import G9OS.Lib.LittleEndian
import G9OS.Lib.Redo
import G9OS.Lib.Refine
import G9OS.Kernel.Layout

/-! # The log of the file system (`log.c`)

Any number of processes are inside file-system operations, and the last one that leaves commits
for all of them. A step of the machine is a section under `log.lock`, the use of one buffer, or one
write to the disk. A block is what the buffer cache shows of it (`mem`) and what is on the disk
(`disk`); a crash leaves only the disk, at any moment, also while the log is being recovered.

Two records are kept beside what the code keeps: which buffers have been modified since their last
`log_write`, and how many blocks an operation has added to the log.
-/

namespace G9OS.FileSys

open Lib Kernel

abbrev BSIZE : Nat := 1024
abbrev MAXOPBLOCKS : Nat := 10
abbrev LOGBLOCKS : Nat := MAXOPBLOCKS * 3

/-- The bytes of a block; those from `BSIZE` on are not used. -/
abbrev Block : Type := Buf

/-! ## The header block -/

def headCount (b : Block) : Int := int32 (getLE b 4 0)

/-- `read_head`: the numbers `lh->block[i]` below `lh->n`. -/
@[irreducible]
def readHead (b : Block) : List Nat :=
  (List.range (headCount b).toNat).map fun i => getLE b 4 (4 + 4 * i)

/-- The loop of `write_head` from entry number `i` on. -/
def putBlocks : List Nat → Nat → Block → Block
  | [], _, b => b
  | x :: xs, i, b => putBlocks xs (i + 1) (putLE b 4 (4 + 4 * i) x)

/-- `write_head`: the list over what the buffer of the header holds. -/
def writeHead (lh : List Nat) (b : Block) : Block := putBlocks lh 0 (putLE b 4 0 lh.length)

theorem putBlocks_before {xs : List Nat} {i q : Nat} {b : Block} (h : q + 4 ≤ 4 + 4 * i) :
    getLE (putBlocks xs i b) 4 q = getLE b 4 q := by
  induction xs generalizing i b with
  | nil => rfl
  | cons x xs ih =>
      rw [putBlocks, ih (by omega), getLE_putLE_of_disjoint (by omega)]

theorem putBlocks_entry {xs : List Nat} {i j : Nat} {b : Block} (hxs : ∀ x ∈ xs, x < 2 ^ 32)
    (hj : j < xs.length) : getLE (putBlocks xs i b) 4 (4 + 4 * (i + j)) = xs[j] := by
  induction xs generalizing i j b with
  | nil => exact absurd hj (Nat.not_lt_zero j)
  | cons x xs ih =>
      cases j with
      | zero =>
          rw [putBlocks, putBlocks_before (by omega)]
          exact getLE_putLE_of_lt (hxs x List.mem_cons_self)
      | succ j =>
          have hentry := ih (i := i + 1) (b := putLE b 4 (4 + 4 * i) x)
            (fun y hy => hxs y (List.mem_cons_of_mem x hy)) (Nat.lt_of_succ_lt_succ hj)
          rw [Nat.add_right_comm i 1 j] at hentry
          exact hentry

theorem readHead_writeHead {lh : List Nat} (b : Block) (hlen : lh.length < 2 ^ 31)
    (hlh : ∀ x ∈ lh, x < 2 ^ 32) : readHead (writeHead lh b) = lh := by
  have hcount : headCount (writeHead lh b) = lh.length := by
    rw [headCount, writeHead, putBlocks_before (by omega), getLE_putLE_of_lt (by omega)]
    exact int32_of_range (by omega) (by omega)
  unfold readHead
  rw [hcount, Int.toNat_natCast]
  apply List.ext_getElem
  · rw [List.length_map, List.length_range]
  · intro j hj hj'
    rw [← putBlocks_entry (i := 0) (b := putLE b 4 0 lh.length) hlh hj', Nat.zero_add,
      List.getElem_map, List.getElem_range, writeHead]

/-! ## The machine -/

inductive LogPanic
  | committing       -- "log.committing"
  | tooBig           -- "too big a transaction"
  | outside          -- "log_write outside of trans"
deriving DecidableEq, Repr

inductive OpState
  | outside
  | asleep                -- in `begin_op`, on the channel `&log`
  | woken                 -- in `begin_op`, about to look again
  | inOp (added : Nat)    -- between `begin_op` and `end_op`
  | commits               -- in `commit`
deriving DecidableEq, Repr

/-- Where `commit` is; the numbers are the values of `tail`. -/
inductive Stage
  | start
  | writeLog (tail : Nat)
  | writeHead
  | install (tail : Nat)
  | clear
  | erase
  | finish
deriving DecidableEq, Repr

inductive Boot
  | readHead
  | install (tail : Nat)
  | clear
  | erase
deriving DecidableEq, Repr

structure LogState (P : Type) where
  disk : Nat → Block
  mem : Nat → Block
  pins : Nat → Nat                 -- by `bpin`
  held : Nat → Option P            -- who has the buffer of the block locked
  dirty : Nat → Bool
  outstanding : Nat
  committing : Bool
  lh : List Nat
  proc : P → OpState
  commit : Option (P × Stage)
  boot : Option Boot
  panicked : Option LogPanic

inductive LogAct (P : Type)
  | begin (p : P)
  | bread (p : P) (b : Nat)
  | modify (p : P) (b : Nat) (d : Block)
  | logWrite (p : P) (b : Nat)
  | brelse (p : P) (b : Nat)
  | endOp (p : P)
  | commit
  | recover
  | crash

def logSlot (start tail : Nat) : Nat := start + tail + 1

section
variable {P : Type}

/-- The disk is what a restart finds, before the first line of `recover_from_log`. -/
def LogState.reboot (disk : Nat → Block) : LogState P where
  disk := disk
  mem := disk
  pins := fun _ => 0
  held := fun _ => none
  dirty := fun _ => false
  outstanding := 0
  committing := false
  lh := []
  proc := fun _ => .outside
  commit := none
  boot := some .readHead
  panicked := none

def LogState.bwrite (s : LogState P) (b : Nat) (d : Block) : LogState P :=
  { s with mem := Function.update s.mem b d, disk := Function.update s.disk b d }

def LogState.bunpin (s : LogState P) (b : Nat) : LogState P :=
  { s with pins := Function.update s.pins b (s.pins b - 1) }

def OpState.wakeup : OpState → OpState
  | .asleep => .woken
  | x => x

def LogState.wakeup (s : LogState P) : LogState P := { s with proc := fun q => (s.proc q).wakeup }

def LogState.Free (s : LogState P) (b : Nat) : Prop := s.held b = none

instance (s : LogState P) (b : Nat) : Decidable (s.Free b) :=
  inferInstanceAs (Decidable (_ = none))

variable [DecidableEq P]

def LogState.setProc (s : LogState P) (p : P) (x : OpState) : LogState P :=
  { s with proc := Function.update s.proc p x }

def commitStep (start : Nat) (s : LogState P) (p : P) : Stage → Option (LogState P)
  | .start => some { s with commit := some (p, if s.lh = [] then .finish else .writeLog 0) }
  | .writeLog tail =>
      match s.lh[tail]? with
      | some b =>
          if s.Free (logSlot start tail) ∧ s.Free b then
            some { s.bwrite (logSlot start tail) (s.mem b) with
              commit := some (p, .writeLog (tail + 1)) }
          else none
      | none => some { s with commit := some (p, .writeHead) }
  | .writeHead =>
      if s.Free start then
        some { s.bwrite start (writeHead s.lh (s.mem start)) with
          commit := some (p, .install 0) }
      else none
  | .install tail =>
      match s.lh[tail]? with
      | some b =>
          if s.Free (logSlot start tail) ∧ s.Free b then
            some { (s.bwrite b (s.mem (logSlot start tail))).bunpin b with
              commit := some (p, .install (tail + 1)) }
          else none
      | none => some { s with commit := some (p, .clear) }
  | .clear => some { s with lh := [], commit := some (p, .erase) }
  | .erase =>
      if s.Free start then
        some { s.bwrite start (writeHead s.lh (s.mem start)) with commit := some (p, .finish) }
      else none
  | .finish =>
      some (({ s with committing := false, commit := none } : LogState P).setProc p .outside).wakeup

def recoverStep (start : Nat) (s : LogState P) : Boot → LogState P
  | .readHead => { s with lh := readHead (s.mem start), boot := some (.install 0) }
  | .install tail =>
      match s.lh[tail]? with
      | some b =>
          { s.bwrite b (s.mem (logSlot start tail)) with boot := some (.install (tail + 1)) }
      | none => { s with boot := some .clear }
  | .clear => { s with lh := [], boot := some .erase }
  | .erase => { s.bwrite start (writeHead s.lh (s.mem start)) with boot := none }

/-- `begin_op`, or another turn of its loop. -/
def beginOp (s : LogState P) (p : P) : LogState P :=
  if s.committing then s.setProc p .asleep
  else if LOGBLOCKS < s.lh.length + (s.outstanding + 1) * MAXOPBLOCKS then s.setProc p .asleep
  else { s.setProc p (.inOp 0) with outstanding := s.outstanding + 1 }

/-- `end_op` up to the call of `commit`. -/
def endOp (s : LogState P) (p : P) : LogState P :=
  let s := { s with outstanding := s.outstanding - 1 }
  if s.committing then { s with panicked := some .committing }
  else if s.outstanding = 0 then
    { s.setProc p .commits with committing := true, commit := some (p, .start) }
  else (s.setProc p .outside).wakeup

def OpState.add : OpState → OpState
  | .inOp added => .inOp (added + 1)
  | x => x

def logWrite (s : LogState P) (p : P) (b : Nat) : LogState P :=
  if LOGBLOCKS ≤ s.lh.length then { s with panicked := some .tooBig }
  else if s.outstanding < 1 then { s with panicked := some .outside }
  else if b ∈ s.lh then { s with dirty := Function.update s.dirty b false }
  else
    { s.setProc p (s.proc p).add with
      dirty := Function.update s.dirty b false
      lh := s.lh ++ [b]
      pins := Function.update s.pins b (s.pins b + 1) }

/-- A step of the running system; `none` if it cannot be taken now. -/
def LogState.run (start : Nat) (s : LogState P) : LogAct P → Option (LogState P)
  | .begin p =>
      if s.proc p = .outside ∨ s.proc p = .woken then some (beginOp s p) else none
  | .bread p b =>
      if s.Free b ∧ s.proc p ≠ .asleep ∧ s.proc p ≠ .woken ∧ s.proc p ≠ .commits then
        some { s with held := Function.update s.held b (some p) }
      else none
  | .modify p b d =>
      if s.held b = some p then
        some { s with mem := Function.update s.mem b d, dirty := Function.update s.dirty b true }
      else none
  | .logWrite p b => if s.held b = some p then some (logWrite s p b) else none
  | .brelse p b =>
      if s.held b = some p then some { s with held := Function.update s.held b none } else none
  | .endOp p =>
      match s.proc p with
      | .inOp _ => some (endOp s p)
      | _ => none
  | .commit =>
      match s.commit with
      | some (p, k) => commitStep start s p k
      | none => none
  | .recover | .crash => none

/-- One step of the machine. A crash is possible at any time, also after a panic. -/
def LogState.next (start : Nat) (s : LogState P) : LogAct P → Option (LogState P)
  | .crash => some (LogState.reboot s.disk)
  | .recover => s.boot.map (recoverStep start s)
  | a => if s.panicked = none ∧ s.boot = none then s.run start a else none

/-! ## What a step does -/

inductive CommitMove (start : Nat) (s : LogState P) (p : P) : Stage → LogState P → Prop
  | nothing (hlh : s.lh = []) :
      CommitMove start s p .start { s with commit := some (p, .finish) }
  | begins (hlh : s.lh ≠ []) :
      CommitMove start s p .start { s with commit := some (p, .writeLog 0) }
  | copies {tail b : Nat} (hb : s.lh[tail]? = some b) :
      CommitMove start s p (.writeLog tail)
        { s.bwrite (logSlot start tail) (s.mem b) with commit := some (p, .writeLog (tail + 1)) }
  | copied {tail : Nat} (hn : s.lh[tail]? = none) :
      CommitMove start s p (.writeLog tail) { s with commit := some (p, .writeHead) }
  | heads :
      CommitMove start s p .writeHead
        { s.bwrite start (writeHead s.lh (s.mem start)) with commit := some (p, .install 0) }
  | installs {tail b : Nat} (hb : s.lh[tail]? = some b) :
      CommitMove start s p (.install tail)
        { (s.bwrite b (s.mem (logSlot start tail))).bunpin b with
          commit := some (p, .install (tail + 1)) }
  | installed {tail : Nat} (hn : s.lh[tail]? = none) :
      CommitMove start s p (.install tail) { s with commit := some (p, .clear) }
  | clears : CommitMove start s p .clear { s with lh := [], commit := some (p, .erase) }
  | erases :
      CommitMove start s p .erase
        { s.bwrite start (writeHead s.lh (s.mem start)) with commit := some (p, .finish) }
  | finishes :
      CommitMove start s p .finish
        (({ s with committing := false, commit := none } : LogState P).setProc p .outside).wakeup

inductive BootMove (start : Nat) (s : LogState P) : Boot → LogState P → Prop
  | reads :
      BootMove start s .readHead
        { s with lh := readHead (s.mem start), boot := some (.install 0) }
  | installs {tail b : Nat} (hb : s.lh[tail]? = some b) :
      BootMove start s (.install tail)
        { s.bwrite b (s.mem (logSlot start tail)) with boot := some (.install (tail + 1)) }
  | installed {tail : Nat} (hn : s.lh[tail]? = none) :
      BootMove start s (.install tail) { s with boot := some .clear }
  | clears : BootMove start s .clear { s with lh := [], boot := some .erase }
  | erases :
      BootMove start s .erase
        { s.bwrite start (writeHead s.lh (s.mem start)) with boot := none }

/-- Each branch of a step, with the tests that lead to it. -/
inductive LogMove (start : Nat) (s : LogState P) : LogAct P → LogState P → Prop
  | crash : LogMove start s .crash (LogState.reboot s.disk)
  | recover {k : Boot} {t : LogState P} (hk : s.boot = some k) (ht : BootMove start s k t) :
      LogMove start s .recover t
  | sleeps {p : P} (hboot : s.boot = none) (hp : s.proc p = .outside ∨ s.proc p = .woken)
      (hfull : s.committing = true ∨
        LOGBLOCKS < s.lh.length + (s.outstanding + 1) * MAXOPBLOCKS) :
      LogMove start s (.begin p) (s.setProc p .asleep)
  | enters {p : P} (hboot : s.boot = none) (hp : s.proc p = .outside ∨ s.proc p = .woken)
      (hidle : s.committing = false)
      (hroom : s.lh.length + (s.outstanding + 1) * MAXOPBLOCKS ≤ LOGBLOCKS) :
      LogMove start s (.begin p) { s.setProc p (.inOp 0) with outstanding := s.outstanding + 1 }
  | breads {p : P} {b : Nat} (hboot : s.boot = none) (hfree : s.held b = none) :
      LogMove start s (.bread p b) { s with held := Function.update s.held b (some p) }
  | modifies {p : P} {b : Nat} {d : Block} (hboot : s.boot = none) (hheld : s.held b = some p) :
      LogMove start s (.modify p b d)
        { s with mem := Function.update s.mem b d, dirty := Function.update s.dirty b true }
  | tooBig {p : P} {b : Nat} (hboot : s.boot = none) (hheld : s.held b = some p)
      (hfull : LOGBLOCKS ≤ s.lh.length) :
      LogMove start s (.logWrite p b) { s with panicked := some .tooBig }
  | outsideTrans {p : P} {b : Nat} (hboot : s.boot = none) (hheld : s.held b = some p)
      (hout : s.outstanding = 0) :
      LogMove start s (.logWrite p b) { s with panicked := some .outside }
  | absorbs {p : P} {b : Nat} (hboot : s.boot = none) (hheld : s.held b = some p)
      (hroom : s.lh.length < LOGBLOCKS) (hmem : b ∈ s.lh) :
      LogMove start s (.logWrite p b) { s with dirty := Function.update s.dirty b false }
  | adds {p : P} {b : Nat} (hboot : s.boot = none) (hheld : s.held b = some p)
      (hroom : s.lh.length < LOGBLOCKS) (hmem : b ∉ s.lh) :
      LogMove start s (.logWrite p b)
        { s.setProc p (s.proc p).add with
          dirty := Function.update s.dirty b false
          lh := s.lh ++ [b]
          pins := Function.update s.pins b (s.pins b + 1) }
  | brelses {p : P} {b : Nat} (hboot : s.boot = none) (hheld : s.held b = some p) :
      LogMove start s (.brelse p b) { s with held := Function.update s.held b none }
  | endPanics {p : P} {added : Nat} (hboot : s.boot = none) (hp : s.proc p = .inOp added)
      (hbusy : s.committing = true) :
      LogMove start s (.endOp p)
        { s with outstanding := s.outstanding - 1, panicked := some .committing }
  | endsLast {p : P} {added : Nat} (hboot : s.boot = none) (hp : s.proc p = .inOp added)
      (hidle : s.committing = false) (hlast : s.outstanding - 1 = 0) :
      LogMove start s (.endOp p)
        { s.setProc p .commits with
          outstanding := s.outstanding - 1
          committing := true
          commit := some (p, .start) }
  | ends {p : P} {added : Nat} (hboot : s.boot = none) (hp : s.proc p = .inOp added)
      (hidle : s.committing = false) (hmore : s.outstanding - 1 ≠ 0) :
      LogMove start s (.endOp p)
        (({ s with outstanding := s.outstanding - 1 } : LogState P).setProc p .outside).wakeup
  | commits {p : P} {k : Stage} {t : LogState P} (hboot : s.boot = none)
      (hk : s.commit = some (p, k)) (ht : CommitMove start s p k t) :
      LogMove start s .commit t

variable {start : Nat} {s t : LogState P} {a : LogAct P}

theorem commitStep_move {p : P} {k : Stage} (h : commitStep start s p k = some t) :
    CommitMove start s p k t := by
  cases k with
  | start =>
      obtain rfl := Option.some.inj h
      by_cases hlh : s.lh = []
      · rw [if_pos hlh]
        exact .nothing hlh
      · rw [if_neg hlh]
        exact .begins hlh
  | clear =>
      obtain rfl := Option.some.inj h
      exact .clears
  | finish =>
      obtain rfl := Option.some.inj h
      exact .finishes
  | writeHead =>
      obtain ⟨-, h⟩ := Option.ite_none_right_eq_some.1 h
      obtain rfl := Option.some.inj h
      exact .heads
  | erase =>
      obtain ⟨-, h⟩ := Option.ite_none_right_eq_some.1 h
      obtain rfl := Option.some.inj h
      exact .erases
  | writeLog tail =>
      simp only [commitStep] at h
      cases hb : s.lh[tail]? with
      | none =>
          rw [hb] at h
          obtain rfl := Option.some.inj h
          exact .copied hb
      | some b =>
          rw [hb] at h
          obtain ⟨-, h⟩ := Option.ite_none_right_eq_some.1 h
          obtain rfl := Option.some.inj h
          exact .copies hb
  | install tail =>
      simp only [commitStep] at h
      cases hb : s.lh[tail]? with
      | none =>
          rw [hb] at h
          obtain rfl := Option.some.inj h
          exact .installed hb
      | some b =>
          rw [hb] at h
          obtain ⟨-, h⟩ := Option.ite_none_right_eq_some.1 h
          obtain rfl := Option.some.inj h
          exact .installs hb

omit [DecidableEq P] in
theorem recoverStep_move (start : Nat) (s : LogState P) (k : Boot) :
    BootMove start s k (recoverStep start s k) := by
  cases k with
  | readHead => exact .reads
  | clear => exact .clears
  | erase => exact .erases
  | install tail =>
      cases hb : s.lh[tail]? with
      | none =>
          simp only [recoverStep, hb]
          exact .installed hb
      | some b =>
          simp only [recoverStep, hb]
          exact .installs hb

theorem run_move (hboot : s.boot = none) (h : s.run start a = some t) : LogMove start s a t := by
  cases a with
  | begin p =>
      simp only [LogState.run, Option.ite_none_right_eq_some] at h
      obtain ⟨hp, h⟩ := h
      obtain rfl := Option.some.inj h
      unfold beginOp
      split
      · rename_i hbusy
        exact .sleeps hboot hp (.inl hbusy)
      · rename_i hidle
        split
        · rename_i hfull
          exact .sleeps hboot hp (.inr hfull)
        · rename_i hroom
          exact .enters hboot hp (by simpa using hidle) (Nat.le_of_not_lt hroom)
  | bread p b =>
      simp only [LogState.run, Option.ite_none_right_eq_some] at h
      obtain ⟨⟨hfree, -⟩, h⟩ := h
      obtain rfl := Option.some.inj h
      exact .breads hboot hfree
  | modify p b d =>
      simp only [LogState.run, Option.ite_none_right_eq_some] at h
      obtain ⟨hheld, h⟩ := h
      obtain rfl := Option.some.inj h
      exact .modifies hboot hheld
  | logWrite p b =>
      simp only [LogState.run, Option.ite_none_right_eq_some] at h
      obtain ⟨hheld, h⟩ := h
      obtain rfl := Option.some.inj h
      unfold logWrite
      split
      · rename_i hfull
        exact .tooBig hboot hheld hfull
      · rename_i hroom
        split
        · rename_i hout
          exact .outsideTrans hboot hheld (by omega)
        · split
          · rename_i hmem
            exact .absorbs hboot hheld (by omega) hmem
          · rename_i hmem
            exact .adds hboot hheld (by omega) hmem
  | brelse p b =>
      simp only [LogState.run, Option.ite_none_right_eq_some] at h
      obtain ⟨hheld, h⟩ := h
      obtain rfl := Option.some.inj h
      exact .brelses hboot hheld
  | endOp p =>
      simp only [LogState.run] at h
      cases hp : s.proc p with
      | inOp added =>
          rw [hp] at h
          obtain rfl := Option.some.inj h
          unfold endOp
          dsimp only
          split
          · rename_i hbusy
            exact .endPanics hboot hp hbusy
          · rename_i hidle
            split
            · rename_i hlast
              exact .endsLast hboot hp (by simpa using hidle) hlast
            · rename_i hmore
              exact .ends hboot hp (by simpa using hidle) hmore
      | outside | asleep | woken | commits =>
          rw [hp] at h
          cases h
  | commit =>
      simp only [LogState.run] at h
      cases hk : s.commit with
      | none =>
          rw [hk] at h
          cases h
      | some x =>
          rw [hk] at h
          exact .commits hboot hk (commitStep_move h)
  | recover => cases h
  | crash => cases h

theorem next_logMove (h : s.next start a = some t) : LogMove start s a t := by
  have hrun : ∀ {a : LogAct P}, (if s.panicked = none ∧ s.boot = none then s.run start a
      else none) = some t → LogMove start s a t := by
    intro a h
    rw [Option.ite_none_right_eq_some] at h
    exact run_move h.1.2 h.2
  cases a with
  | crash =>
      obtain rfl := Option.some.inj h
      exact .crash
  | recover =>
      obtain ⟨k, hk, rfl⟩ := Option.map_eq_some_iff.1 h
      exact .recover hk (recoverStep_move start s k)
  | begin | bread | modify | logWrite | brelse | endOp | commit => exact hrun h

end

end G9OS.FileSys
