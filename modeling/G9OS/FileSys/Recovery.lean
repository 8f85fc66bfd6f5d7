import G9OS.FileSys.Crash

/-! # Recovery and commits come to an end (`log.c`)

Left alone, `recover_from_log` and `commit` finish. What is then on the disk is what the storage
has as stable, block by block and with an empty log.
-/

namespace G9OS.FileSys

open Lib Kernel

variable {P : Type} [DecidableEq P] [Fintype P] {start : Nat} {s t : LogState P}

def recoveryLeft (start : Nat) (s : LogState P) : Nat :=
  match s.boot with
  | none => 0
  | some .readHead => (onDisk start s.disk).length + 4
  | some (.install tail) => s.lh.length - tail + 3
  | some .clear => 2
  | some .erase => 1

omit [DecidableEq P] [Fintype P] in
theorem BootMove.left_lt (h : Kept start s) {k : Boot} (hk : s.boot = some k)
    (ht : BootMove start s k t) : recoveryLeft start t < recoveryLeft start s := by
  cases ht with
  | reads =>
      have hread : readHead (s.mem start) = onDisk start s.disk :=
        congrArg readHead (congrFun (h.booting _ hk).1 start)
      simp only [recoveryLeft, hk, hread]
      omega
  | @installs tail b hb =>
      have htail := (List.getElem?_eq_some_iff.1 hb).1
      simp only [recoveryLeft, hk, LogState.bwrite]
      omega
  | installed | clears | erases =>
      simp only [recoveryLeft, hk]
      omega

def commitLeft (s : LogState P) : Nat :=
  match s.commit with
  | none => 0
  | some (_, .start) => 2 * s.lh.length + 7
  | some (_, .writeLog tail) => (s.lh.length - tail) + s.lh.length + 6
  | some (_, .writeHead) => s.lh.length + 5
  | some (_, .install tail) => s.lh.length - tail + 4
  | some (_, .clear) => 3
  | some (_, .erase) => 2
  | some (_, .finish) => 1

omit [Fintype P] in
theorem CommitMove.left_lt {p : P} {k : Stage} (hk : s.commit = some (p, k))
    (ht : CommitMove start s p k t) : commitLeft t < commitLeft s := by
  cases ht with
  | @copies tail b hb =>
      have htail := (List.getElem?_eq_some_iff.1 hb).1
      simp only [commitLeft, hk, LogState.bwrite]
      omega
  | @installs tail b hb =>
      have htail := (List.getElem?_eq_some_iff.1 hb).1
      simp only [commitLeft, hk, LogState.bwrite, LogState.bunpin]
      omega
  | finishes =>
      simp only [commitLeft, hk, LogState.setProc, LogState.wakeup]
      omega
  | nothing | begins | copied | heads | installed | clears | erases =>
      simp only [commitLeft, hk, LogState.bwrite]
      omega

/-! ## Recovery -/

omit [DecidableEq P] [Fintype P] in
theorem BootMove.same (h : Kept start s) {k : Boot} (hk : s.boot = some k)
    (ht : BootMove start s k t) : t.mem = t.disk := by
  have hsame := (h.booting k hk).1
  cases ht with
  | reads | installed | clears => exact hsame
  | installs => exact congrArg (fun f => Function.update f _ _) hsame
  | erases => exact congrArg (fun f => Function.update f _ _) hsame

structure Restoring (start : Nat) (disk : Nat → Block) (s : LogState P) : Prop where
  roles : Roles s
  kept : Kept start s
  quiet : s.commit = none
  same : s.mem = s.disk
  stable : ∀ b, Home start b → recovered start s.disk b = recovered start disk b

theorem Restoring.step {disk : Nat → Block} (h : Restoring start disk s) (hd : s.boot ≠ none) :
    ∃ t, s.next start .recover = some t ∧ Restoring start disk t ∧
      recoveryLeft start t < recoveryLeft start s := by
  obtain ⟨k, hk⟩ := Option.ne_none_iff_exists'.1 hd
  have hn : s.next start .recover = some (recoverStep start s k) :=
    Option.map_eq_some_iff.2 ⟨k, hk, rfl⟩
  have ht := recoverStep_move start s k
  have hroles := h.roles.recover hk ht
  have habs := h.kept.recover_abs hk ht
  refine ⟨_, hn, ⟨hroles, h.kept.recover h.quiet hk ht, ?_, ht.same h.kept hk, ?_⟩,
    ht.left_lt h.kept hk⟩
  · have hcommit : ∀ {k : Boot} {t : LogState P}, BootMove start s k t → t.commit = s.commit := by
      intro k t ht
      cases ht <;> rfl
    rw [hcommit ht, h.quiet]
  · intro b hb
    have hstable := congrFun (congrArg Atomic.stable habs) ⟨b, hb⟩
    exact Eq.trans hstable (h.stable b hb)

/-- Wherever a crash or an earlier recovery has left the disk, recovery comes to its end, and the
home blocks then hold the state of the last commit, with nothing left in the log. -/
theorem recovery_completes
    (h : Reach (LogState.next start) (LogOk start) (Started start) s)
    (hboot : s.boot ≠ none) :
    ∃ n t, replay (LogState.next start) s (List.replicate n .recover) = some t ∧
      t.boot = none ∧ onDisk start t.disk = [] ∧ t.mem = t.disk ∧
      ∀ b, Home start b → t.disk b = recovered start s.disk b := by
  obtain ⟨hroles, hkept⟩ := reach_kept h
  obtain ⟨k, hk⟩ := Option.ne_none_iff_exists'.1 hboot
  have hi : Restoring start s.disk s :=
    ⟨hroles, hkept, (hroles.booting hboot).1, (hkept.booting k hk).1, fun _ _ => rfl⟩
  obtain ⟨n, t, hn, ht, hdone⟩ := replay_ends (fun s => s.boot = none) (recoveryLeft start)
    (fun _ hi hd => hi.step hd) hi
  have hempty := (ht.kept.running hdone ht.quiet).1
  refine ⟨n, t, hn, hdone, hempty, ht.same, fun b hb => ?_⟩
  rw [← ht.stable b hb, recovered_of_nil hempty]

def oneLogged : Nat → Block := Function.update (fun _ _ => 0) 2 (writeHead [46] fun _ => 0)

omit [DecidableEq P] [Fintype P] in
theorem started_oneLogged : Started 2 (LogState.reboot oneLogged : LogState P) := by
  have hl : Listed 2 [46] :=
    ⟨List.nodup_singleton 46, fun b hb => (by rw [List.mem_singleton.1 hb]; decide), by decide⟩
  refine ⟨oneLogged, hl.of_eq ?_, rfl⟩
  exact (congrArg readHead (Function.update_self ..)).trans (hl.readHead_writeHead _)

theorem recovery_completes_oneLogged :
    ∃ n t, replay (LogState.next 2) (LogState.reboot oneLogged : LogState Unit)
        (List.replicate n .recover) = some t ∧
      t.boot = none ∧ onDisk 2 t.disk = [] ∧ t.mem = t.disk ∧
      ∀ b, Home 2 b → t.disk b = recovered 2 oneLogged b :=
  recovery_completes (.start started_oneLogged) (Option.some_ne_none _)

/-! ## Commits -/

omit [Fintype P] in
theorem commitStep_exists (hfree : ∀ b, s.held b = none) (p : P) (k : Stage) :
    ∃ t, commitStep start s p k = some t := by
  have hf : ∀ b, s.Free b := hfree
  cases k with
  | start | clear | finish => exact ⟨_, rfl⟩
  | writeHead | erase => exact ⟨_, if_pos (hf start)⟩
  | writeLog tail | install tail =>
      simp only [commitStep]
      cases s.lh[tail]? with
      | none => exact ⟨_, rfl⟩
      | some b => exact ⟨_, if_pos ⟨hf _, hf b⟩⟩

/-- What one step of a commit keeps, and what is true when it is over. -/
structure Finishing (start : Nat) (mem : Nat → Block) (dirty : Nat → Bool) (s : LogState P) :
    Prop where
  roles : Roles s
  kept : Kept start s
  boot : s.boot = none
  panicked : s.panicked = none
  free : ∀ b, s.held b = none
  same : ∀ b, Home start b → s.mem b = mem b
  dirty : s.dirty = dirty
  ended : s.commit = none → s.lh = [] ∧ Settled s ∧ ∀ p, s.proc p ≠ .asleep

omit [DecidableEq P] [Fintype P] in
theorem OpState.wakeup_ne_asleep (x : OpState) : x.wakeup ≠ .asleep := by cases x <;> simp [wakeup]

omit [Fintype P] in
theorem CommitMove.ended (h : Kept start s) {p : P} {k : Stage} (hk : s.commit = some (p, k))
    (ht : CommitMove start s p k t) (hd : t.commit = none) :
    t.lh = [] ∧ Settled t ∧ ∀ p, t.proc p ≠ .asleep := by
  have hphase := h.committing p k hk
  cases ht with
  | finishes => exact ⟨hphase.1, hphase.2.1, fun q => OpState.wakeup_ne_asleep _⟩
  | nothing | begins | copies | copied | heads | installs | installed | clears | erases =>
      cases hd

omit [Fintype P] in
theorem CommitMove.same (h : Kept start s) {p : P} {k : Stage} (hk : s.commit = some (p, k))
    (ht : CommitMove start s p k t) {b : Nat} (hb : Home start b) : t.mem b = s.mem b := by
  have hstart : b ≠ start := by
    rintro rfl
    exact not_home_start hb
  have hphase := h.committing p k hk
  cases ht with
  | nothing | begins | copied | installed | clears | finishes => rfl
  | heads | erases => exact bwrite_mem_of_ne hstart _
  | @copies n c hc =>
      have hn := (List.getElem?_eq_some_iff.1 hc).1
      refine bwrite_mem_of_ne ?_ _
      rintro rfl
      exact not_home_logSlot (hn.trans_le h.lh.short) hb
  | @installs n c hc =>
      by_cases hbc : b = c
      · subst hbc
        exact (bwrite_mem_self _).trans (h.slot hphase.2.2.1 hc)
      · exact bwrite_mem_of_ne hbc _

theorem Finishing.step {mem : Nat → Block} {dirty : Nat → Bool} (h : Finishing start mem dirty s)
    (hd : s.commit ≠ none) :
    ∃ t, s.next start .commit = some t ∧ Finishing start mem dirty t ∧
      commitLeft t < commitLeft s := by
  obtain ⟨⟨p, k⟩, hk⟩ := Option.ne_none_iff_exists'.1 hd
  obtain ⟨t, hstep⟩ : ∃ t, commitStep start s p k = some t := commitStep_exists h.free p k
  have hn : s.next start .commit = some t := by
    simp only [LogState.next, h.boot, h.panicked, and_self, if_true, LogState.run, hk]
    exact hstep
  have ht := commitStep_move hstep
  have hsame : t.boot = s.boot ∧ t.panicked = s.panicked ∧ t.held = s.held ∧
      t.dirty = s.dirty := by
    cases ht <;> exact ⟨rfl, rfl, rfl, rfl⟩
  obtain ⟨hboot, hpanicked, hheld, hdirty⟩ := hsame
  refine ⟨t, hn, ⟨h.roles.commit h.boot hk ht, h.kept.commit h.boot hk ht, hboot.trans h.boot,
    hpanicked.trans h.panicked, ?_, ?_, hdirty.trans h.dirty, ht.ended h.kept hk⟩, ht.left_lt hk⟩
  · rw [hheld]
    exact h.free
  · intro b hb
    exact (ht.same h.kept hk hb).trans (h.same b hb)

def emptyDisk : Nat → Block := Function.update (fun _ _ => 0) 2 (writeHead [] fun _ => 0)

theorem readHead_emptyDisk : readHead (emptyDisk 2) = [] :=
  (congrArg readHead (Function.update_self ..)).trans ((Listed.nil 2).readHead_writeHead _)

def afterBoot (P : Type) : LogState P :=
  { LogState.reboot (Function.update emptyDisk 2 (writeHead [] (emptyDisk 2))) with boot := none }

omit [Fintype P] in
theorem reach_afterBoot (ok : LogState P → LogAct P → Prop) (hok : ∀ s, ok s .recover) :
    Reach (LogState.next 2) ok (Started 2) (afterBoot P) := by
  have h0 : Reach (LogState.next 2) ok (Started 2) (LogState.reboot emptyDisk) :=
    .start ⟨emptyDisk, (Listed.nil 2).of_eq readHead_emptyDisk, rfl⟩
  have h1 : Reach (LogState.next 2) ok (Started 2)
      { LogState.reboot emptyDisk with boot := some (.install 0) } := by
    refine .step (l := .recover) h0 (hok _) (congrArg some ?_)
    change ({ LogState.reboot emptyDisk with
      lh := readHead (emptyDisk 2), boot := some (.install 0) } : LogState P) = _
    rw [readHead_emptyDisk]
    rfl
  have h2 := Reach.step (l := LogAct.recover) h1 (hok _) rfl
  have h3 := Reach.step (l := LogAct.recover) h2 (hok _) rfl
  exact .step (l := LogAct.recover) h3 (hok _) rfl

/-- Process `()` has logged block 46 and is about to commit. -/
def inCommit : LogState Unit :=
  { afterBoot Unit with
    mem := Function.update (afterBoot Unit).mem 46 fun _ => 7
    pins := Function.update (afterBoot Unit).pins 46 1
    held := Function.update (Function.update (afterBoot Unit).held 46 (some ())) 46 none
    dirty := Function.update (Function.update (afterBoot Unit).dirty 46 true) 46 false
    lh := [46]
    committing := true
    proc := Function.update (Function.update (Function.update (afterBoot Unit).proc () (.inOp 0)) ()
      (.inOp 1)) () .commits
    commit := some ((), .start) }

theorem inCommit_free (b : Nat) : inCommit.held b = none := by
  change Function.update (Function.update (afterBoot Unit).held 46 (some ())) 46 none b = none
  rw [Function.update_idem]
  by_cases hb : b = 46
  · rw [hb, Function.update_self]
  · rw [Function.update_of_ne hb]
    rfl

theorem reach_inCommit : Reach (LogState.next 2) (Disciplined 2) (Started 2) inCommit := by
  have h0 := reach_afterBoot (P := Unit) (Disciplined 2) fun _ => ⟨trivial, trivial⟩
  have h1 := Reach.step (l := LogAct.begin ()) h0 ⟨trivial, trivial⟩ rfl
  have h2 := Reach.step (l := LogAct.bread () 46) h1 ⟨trivial, trivial⟩ rfl
  have h3 := Reach.step (l := LogAct.modify () 46 fun _ => 7) h2 ⟨⟨by decide, rfl⟩, trivial⟩ rfl
  have h4 := Reach.step (l := LogAct.logWrite () 46) h3 ⟨⟨by decide, rfl⟩, trivial⟩ rfl
  have h5 := Reach.step (l := LogAct.brelse () 46) h4 ⟨trivial, rfl⟩ rfl
  refine Reach.step (l := LogAct.endOp ()) h5 ⟨trivial, fun b hb => ?_⟩ rfl
  exact absurd ((inCommit_free b).symm.trans hb) (by simp)

end G9OS.FileSys
