import G9OS.Pipes.Stream

/-! # Sleeping on a pipe (`pipe.c`)

If no process is killed in the middle of a turn, a reader sleeps only while the pipe is empty and
open for writing, and a writer only while it is full and open for reading. A writer that is killed
in the middle of a turn returns without the wakeup for what it has put into the pipe.
-/

namespace G9OS.Pipes

open Lib

variable {P : Type}

structure Sleepers (s : PipeState P) : Prop where
  readers : ∀ p n, s.proc p = .readSleep n →
    s.pipe.Empty ∧ s.pipe.writeopen = true ∧ s.killed p = false
  writers : ∀ p bs i, s.proc p = .writeSleep bs i →
    s.pipe.Full ∧ s.pipe.readopen = true ∧ s.killed p = false

section
variable {s t : PipeState P} {a : PipeAct P} {p q : P} {r : Nat} {queue out : List UInt8}
  {pi : Pipe} {bs left : List (Option UInt8)} {i : Nat} {x : PipeProc} {stop : WriteStop}

theorem PipeProc.wakeReader_ne {n : Nat} : x.wakeReader ≠ .readSleep n := by
  cases x <;> simp [PipeProc.wakeReader]

theorem PipeProc.wakeWriter_ne :
    x.wakeWriter ≠ .writeSleep bs i := by
  cases x <;> simp [PipeProc.wakeWriter]

theorem PipeProc.wakeReader_eq (h : x.wakeReader = .writeSleep bs i) : x = .writeSleep bs i := by
  cases x <;> simp_all [PipeProc.wakeReader]

theorem PipeProc.wakeWriter_eq {n : Nat} (h : x.wakeWriter = .readSleep n) :
    x = .readSleep n := by
  cases x <;> simp_all [PipeProc.wakeWriter]

theorem WriteSpec.stays_full {killed : Nat → Bool}
    (h : WriteSpec killed left i s.pipe r queue pi out stop) (hstores : Stores s.pipe r queue)
    (hfull : s.pipe.Full) : pi.Full := by
  rw [hstores.full_iff] at hfull
  have hroom := h.stores.room
  rw [h.stores.full_iff]
  rw [List.length_append] at hroom ⊢
  omega

variable [DecidableEq P]

theorem setProc_self (x : PipeProc) : (s.setProc p x).proc p = x := Function.update_self ..

theorem setProc_of_ne (h : q ≠ p) (x : PipeProc) : (s.setProc p x).proc q = s.proc q :=
  Function.update_of_ne h _ _

theorem Sleepers.setProc (h : Sleepers s) (hr : ∀ n, x ≠ .readSleep n)
    (hw : ∀ bs i, x ≠ .writeSleep bs i) : Sleepers (s.setProc p x) := by
  constructor
  · intro q n hq
    by_cases hqp : q = p
    · subst hqp
      rw [setProc_self] at hq
      exact absurd hq (hr n)
    · rw [setProc_of_ne hqp] at hq
      exact h.readers q n hq
  · intro q bs i hq
    by_cases hqp : q = p
    · subst hqp
      rw [setProc_self] at hq
      exact absurd hq (hw bs i)
    · rw [setProc_of_ne hqp] at hq
      exact h.writers q bs i hq

theorem send_killed (p : P) (pi : Pipe) (out : List UInt8) (q : P) :
    (s.send p none pi out).killed q = s.killed q := by
  change Function.update s.killed p (s.killed p || false) q = s.killed q
  rw [Bool.or_false, Function.update_eq_self]

omit [DecidableEq P] in
theorem killedAt_none (j : Nat) : s.killedAt p none j = s.killed p := Bool.or_false _

/-- A writer that sleeps sees nothing of the turns of other writers. -/
theorem Sleepers.send (h : Sleepers s) {killed : Nat → Bool} (hstores : Stores s.pipe r queue)
    (hspec : WriteSpec killed left i s.pipe r queue pi out stop) {j : Nat}
    (hq : s.proc q = .writeSleep bs j) :
    pi.Full ∧ pi.readopen = true ∧ (s.send p none pi out).killed q = false := by
  obtain ⟨hfull, hopen, hkilled⟩ := h.writers q bs j hq
  exact ⟨hspec.stays_full hstores hfull, hspec.ends.1.trans hopen,
    (send_killed p pi out q).trans hkilled⟩

theorem Sleepers.wrote (h : Sleepers s) (hstores : Stores s.pipe r queue)
    (hspec : WriteSpec (s.killedAt p none) left i s.pipe r queue pi out stop)
    (hx : ∀ bs j, x = .writeSleep bs j → pi.Full ∧ pi.readopen = true ∧ s.killed p = false) :
    Sleepers ((s.send p none pi out).setProc p x).wakeReaders := by
  constructor
  · intro q n hq
    exact absurd hq PipeProc.wakeReader_ne
  · intro q bs j hq
    have hsleep := PipeProc.wakeReader_eq hq
    by_cases hqp : q = p
    · subst hqp
      rw [setProc_self] at hsleep
      obtain ⟨hfull, hopen, hkilled⟩ := hx bs j hsleep
      exact ⟨hfull, hopen, (send_killed q pi out q).trans hkilled⟩
    · rw [setProc_of_ne hqp] at hsleep
      exact h.send hstores hspec hsleep

omit [DecidableEq P] in
/-- A write that fails has done nothing if the process was not killed in the meantime. -/
theorem WriteSpec.failed_nothing
    (h : WriteSpec (s.killedAt p none) left i s.pipe r queue pi out .failed) : out = [] := by
  by_contra hne
  obtain ⟨hopen, hkilled⟩ := h.began hne
  rw [killedAt_none] at hkilled
  rcases (h.failed rfl).2 with hclosed | hlate
  · cases hclosed.symm.trans hopen
  · rw [killedAt_none] at hlate
    cases hlate.symm.trans hkilled

theorem Sleepers.step (h : Sleepers s) (hc : Carries s) (hok : Prompt s a)
    (hm : PipeMove s a t) : Sleepers t := by
  obtain ⟨queue, -, hstores⟩ := hc
  cases hm with
  | write hp => exact h.setProc (fun _ => by simp) fun _ _ => by simp
  | read hp => exact h.setProc (fun _ => by simp) fun _ _ => by simp
  | @wrote p late fault bs i pi out hp hl =>
      obtain rfl : late = none := hok
      exact h.wrote hstores (writeLoop_spec hstores hl) fun _ _ hx => by cases hx
  | @writeFails p late fault bs i pi out hp hl =>
      obtain rfl : late = none := hok
      have hspec := writeLoop_spec hstores hl
      have hstores' := hspec.stores
      rw [hspec.failed_nothing, List.append_nil] at hstores'
      constructor
      · intro q n hq
        by_cases hqp : q = p
        · subst hqp
          cases (setProc_self _).symm.trans hq
        · obtain ⟨hempty, hopen, hkilled⟩ := h.readers q n ((setProc_of_ne hqp _).symm.trans hq)
          refine ⟨?_, hspec.ends.2.trans hopen, (send_killed p pi out q).trans hkilled⟩
          exact hstores'.empty_iff.2 (hstores.empty_iff.1 hempty)
      · intro q bs' j hq
        by_cases hqp : q = p
        · subst hqp
          cases (setProc_self _).symm.trans hq
        · exact h.send hstores hspec ((setProc_of_ne hqp _).symm.trans hq)
  | @writeSleeps p late fault bs i pi out hp hl =>
      obtain rfl : late = none := hok
      have hspec := writeLoop_spec hstores hl
      refine h.wrote hstores hspec fun _ _ _ => ?_
      obtain ⟨hfull, hopen, hkilled⟩ := hspec.full rfl
      exact ⟨hfull, hspec.ends.1.trans hopen, (killedAt_none _).symm.trans hkilled⟩
  | readFails hp hwait hkilled => exact h.setProc (fun _ => by simp) fun _ _ => by simp
  | @readSleeps p late fault n hp hwait hkilled =>
      constructor
      · intro q m hq
        by_cases hqp : q = p
        · subst hqp
          exact ⟨hwait.1, hwait.2, hkilled⟩
        · exact h.readers q m ((setProc_of_ne hqp _).symm.trans hq)
      · intro q bs i hq
        by_cases hqp : q = p
        · subst hqp
          cases (setProc_self _).symm.trans hq
        · exact h.writers q bs i ((setProc_of_ne hqp _).symm.trans hq)
  | @got p late fault n pi out bad hp hready hl =>
      constructor
      · intro q m hq
        have hsleep := PipeProc.wakeWriter_eq hq
        by_cases hqp : q = p
        · subst hqp
          cases (setProc_self _).symm.trans hsleep
        · obtain ⟨hempty, hopen, -⟩ := h.readers q m ((setProc_of_ne hqp _).symm.trans hsleep)
          exact absurd ⟨hempty, hopen⟩ hready
      · intro q bs i hq
        exact absurd hq PipeProc.wakeWriter_ne
  | @kill p =>
      constructor
      · intro q n hq
        by_cases hqp : q = p
        · subst hqp
          exact absurd (PipeProc.wakeWriter_eq ((setProc_self _).symm.trans hq))
            PipeProc.wakeReader_ne
        · obtain ⟨hempty, hopen, hkilled⟩ := h.readers q n ((setProc_of_ne hqp _).symm.trans hq)
          exact ⟨hempty, hopen, (Function.update_of_ne hqp _ _).trans hkilled⟩
      · intro q bs i hq
        by_cases hqp : q = p
        · subst hqp
          exact absurd ((setProc_self _).symm.trans hq) PipeProc.wakeWriter_ne
        · obtain ⟨hfull, hopen, hkilled⟩ :=
            h.writers q bs i ((setProc_of_ne hqp _).symm.trans hq)
          exact ⟨hfull, hopen, (Function.update_of_ne hqp _ _).trans hkilled⟩
  | closeWrite =>
      constructor
      · intro q n hq
        exact absurd hq PipeProc.wakeReader_ne
      · intro q bs i hq
        exact h.writers q bs i (PipeProc.wakeReader_eq hq)
  | closeRead =>
      constructor
      · intro q n hq
        exact h.readers q n (PipeProc.wakeWriter_eq hq)
      · intro q bs i hq
        exact absurd hq PipeProc.wakeWriter_ne

/-- No wakeup is lost on a pipe: whoever sleeps has a reason that still holds, so a reader and a
writer never sleep at the same time. -/
theorem pipe_sleepers (h : Reach PipeState.next Prompt Fresh s) :
    (∀ p n, s.proc p = .readSleep n →
      s.pipe.Empty ∧ s.pipe.writeopen = true ∧ s.killed p = false) ∧
    (∀ p bs i, s.proc p = .writeSleep bs i →
      s.pipe.Full ∧ s.pipe.readopen = true ∧ s.killed p = false) ∧
    (∀ p q n bs i, s.proc p = .readSleep n → s.proc q ≠ .writeSleep bs i) := by
  have hi : Carries s ∧ Sleepers s := by
    refine Reach.inv (I := fun s => Carries s ∧ Sleepers s) ?_ ?_ h
    · rintro s ⟨data, rfl⟩
      exact ⟨.fresh data, fun _ _ hq => (by cases hq), fun _ _ _ hq => by cases hq⟩
    · rintro s a t ⟨hc, hs⟩ hok hn
      have hm := next_pipeMove hn
      exact ⟨hc.step hm, hs.step hc hok hm⟩
  obtain ⟨⟨queue, -, hstores⟩, hs⟩ := hi
  refine ⟨hs.readers, hs.writers, fun p q n bs i hp hq => ?_⟩
  have hempty := hstores.empty_iff.1 (hs.readers p n hp).1
  have hfull := hstores.full_iff.1 (hs.writers q bs i hq).1
  rw [hempty] at hfull
  cases hfull

end

theorem pipe_sleepers_twoProcs :
    (∀ p n, twoProcs.proc p = .readSleep n →
      twoProcs.pipe.Empty ∧ twoProcs.pipe.writeopen = true ∧ twoProcs.killed p = false) ∧
    (∀ p bs i, twoProcs.proc p = .writeSleep bs i →
      twoProcs.pipe.Full ∧ twoProcs.pipe.readopen = true ∧ twoProcs.killed p = false) ∧
    (∀ p q n bs i, twoProcs.proc p = .readSleep n → twoProcs.proc q ≠ .writeSleep bs i) :=
  pipe_sleepers reach_twoProcs

-- Killed after its first byte, the writer leaves the reader asleep with a byte in the pipe.
example :
    let s := pipewrite twoProcs true (some 1) [some 104, some 105] 0
    s.proc false = .readSleep 5 ∧ s.pipe.writeopen = true ∧ ¬ s.pipe.Empty :=
  ⟨rfl, rfl, by decide⟩

end G9OS.Pipes
