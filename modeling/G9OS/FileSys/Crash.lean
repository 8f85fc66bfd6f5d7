import G9OS.Lib.Occurrence
import G9OS.FileSys.Log

/-! # Crash safety of the log (`log.c`)

The log implements atomic groups of operations: what a restart finds on the disk is, after
recovery, the state at the last commit, and a commit happens only while no operation is under
way. The callers keep to the comment in front of `log_write`.
-/

namespace G9OS.FileSys

open Lib Kernel

variable {d : Block} {l : List Nat} {c : Nat} {disk : Nat → Block} {x : OpState}

variable {P : Type}

/-- A block that is not part of the log. -/
def Home (start b : Nat) : Prop := b < 2 ^ 32 ∧ (b < start ∨ start + LOGBLOCKS < b)

instance (start b : Nat) : Decidable (Home start b) := inferInstanceAs (Decidable (_ ∧ _))

def OpState.isOp : OpState → Bool
  | .inOp _ => true
  | _ => false

/-- How the file system uses the log: it modifies and logs blocks outside of the log and inside of
an operation. -/
def LogOk (start : Nat) (s : LogState P) : LogAct P → Prop
  | .modify p b _ | .logWrite p b => Home start b ∧ (s.proc p).isOp = true
  | _ => True

/-- A modified block is logged before the buffer is given back, and an operation is left without
buffers. `writei` breaks this when `either_copyin` fails after it has copied a part. -/
def Saves (s : LogState P) : LogAct P → Prop
  | .brelse _ b => s.dirty b = false
  | .endOp p => ∀ b, s.held b ≠ some p
  | _ => True

def Disciplined (start : Nat) (s : LogState P) (a : LogAct P) : Prop :=
  LogOk start s a ∧ Saves s a

structure Listed (start : Nat) (l : List Nat) : Prop where
  nodup : l.Nodup
  home : ∀ b ∈ l, Home start b
  short : l.length ≤ LOGBLOCKS

theorem Listed.nil (start : Nat) : Listed start [] :=
  ⟨List.nodup_nil, List.forall_mem_nil _, Nat.zero_le _⟩

def onDisk (start : Nat) (disk : Nat → Block) : List Nat := readHead (disk start)

def Started (start : Nat) (s : LogState P) : Prop :=
  ∃ disk, Listed start (onDisk start disk) ∧ s = LogState.reboot disk

def recovered (start : Nat) (disk : Nat → Block) (b : Nat) : Block :=
  redo (logSlot start) (onDisk start disk) disk b

/-! ## The log as atomic storage -/

/-- What the operations see: the buffers, or, until recovery is over, what it will leave. -/
def shown (start : Nat) (s : LogState P) (b : Nat) : Block :=
  if s.boot = none then s.mem b else recovered start s.disk b

def logAbs (start : Nat) (s : LogState P) : Atomic P {b // Home start b} Block where
  stable := fun b => recovered start s.disk b
  view := fun b => shown start s b
  active := fun p => (s.proc p).isOp

/-- The commit is the write of the header. -/
def logLab (start : Nat) (s : LogState P) :
    LogAct P → Option (AtomicAct P {b // Home start b} Block)
  | .begin p =>
      if s.committing = true ∨ LOGBLOCKS < s.lh.length + (s.outstanding + 1) * MAXOPBLOCKS then
        none
      else some (.enter p)
  | .modify p b d => if h : Home start b then some (.write p ⟨b, h⟩ d) else none
  | .endOp p => some (.leave p)
  | .commit =>
      match s.commit with
      | some (_, .writeHead) => some .commit
      | _ => none
  | .crash => some .crash
  | .bread _ _ | .logWrite _ _ | .brelse _ _ | .recover => none

/-! ## Who does what -/

def OpState.weight (x : OpState) : Nat := if x.isOp then 1 else 0

theorem OpState.wakeup_isOp (x : OpState) : x.wakeup.isOp = x.isOp := by cases x <;> rfl

theorem OpState.add_isOp (x : OpState) : x.add.isOp = x.isOp := by cases x <;> rfl

theorem OpState.wakeup_weight (x : OpState) : x.wakeup.weight = x.weight := by
  rw [weight, weight, wakeup_isOp]

theorem OpState.add_weight (x : OpState) : x.add.weight = x.weight := by
  rw [weight, weight, add_isOp]

structure Roles [Fintype P] (s : LogState P) : Prop where
  booting : s.boot ≠ none → s.commit = none ∧ ∀ p, s.proc p = .outside
  busy : s.committing = s.commit.isSome
  alone : s.commit ≠ none → s.outstanding = 0
  commits : ∀ p k, s.commit = some (p, k) → s.proc p = .commits
  count : ∑ p, (s.proc p).weight = s.outstanding

/-- Who modifies a block is in an operation and has the buffer. -/
def Saved (s : LogState P) : Prop :=
  ∀ b, s.dirty b = true → ∃ p, s.held b = some p ∧ (s.proc p).isOp = true

section
variable [DecidableEq P] [Fintype P] {start : Nat} {s t : LogState P} {a : LogAct P}

omit [DecidableEq P] in
theorem Roles.no_op (h : Roles s) (h0 : s.outstanding = 0) (p : P) : (s.proc p).isOp = false := by
  have hle := le_sum (fun p => (s.proc p).weight) p
  rw [h.count, h0] at hle
  cases hp : (s.proc p).isOp with
  | false => rfl
  | true => simp [OpState.weight, hp] at hle

omit [DecidableEq P] in
theorem Saved.clean (h : Saved s) (hr : Roles s) (hc : s.commit ≠ none) (b : Nat) :
    s.dirty b = false := by
  cases hb : s.dirty b with
  | false => rfl
  | true =>
      obtain ⟨p, -, hp⟩ := h b hb
      rw [hr.no_op (hr.alone hc) p] at hp
      cases hp

omit [DecidableEq P] in
theorem Roles.no_commit (h : Roles s) {p : P} (hp : (s.proc p).isOp = true) : s.commit = none := by
  by_contra hc
  rw [h.no_op (h.alone hc) p] at hp
  cases hp

omit [DecidableEq P] in
theorem Roles.reboot (disk : Nat → Block) : Roles (LogState.reboot disk : LogState P) where
  booting := fun _ => ⟨rfl, fun _ => rfl⟩
  busy := rfl
  alone := fun _ => rfl
  commits := fun _ _ h => by cases h
  count := Finset.sum_eq_zero fun _ _ => rfl

omit [DecidableEq P] in
theorem Roles.recover (h : Roles s) {k : Boot} (hk : s.boot = some k)
    (ht : BootMove start s k t) : Roles t := by
  have hb := h.booting (by simp [hk])
  cases ht with
  | reads | installs | installed | clears | erases =>
      exact ⟨fun _ => hb, h.busy, h.alone, h.commits, h.count⟩

omit [DecidableEq P] in
theorem Roles.proceed (h : Roles s) (hboot : s.boot = none) {p : P} {k k' : Stage}
    (hk : s.commit = some (p, k)) (hcommit : t.commit = some (p, k'))
    (hsame : t.boot = s.boot ∧ t.committing = s.committing ∧ t.outstanding = s.outstanding ∧
      t.proc = s.proc) : Roles t := by
  obtain ⟨hboot', hbusy, hout, hproc⟩ := hsame
  constructor
  · intro hne
    exact absurd (hboot'.trans hboot) hne
  · rw [hbusy, h.busy, hk, hcommit]
    rfl
  · intro _
    rw [hout]
    exact h.alone (by simp [hk])
  · intro q k'' hq
    rw [hcommit] at hq
    cases hq
    rw [hproc]
    exact h.commits p k hk
  · rw [hproc, hout]
    exact h.count

theorem Roles.commit (h : Roles s) (hboot : s.boot = none) {p : P} {k : Stage}
    (hk : s.commit = some (p, k)) (ht : CommitMove start s p k t) : Roles t := by
  cases ht with
  | finishes =>
      have hsum := sum_update_weight s.proc p .outside OpState.weight
      rw [h.commits p _ hk, h.count] at hsum
      constructor
      · intro hne
        exact absurd hboot hne
      · rfl
      · intro hne
        exact absurd rfl hne
      · intro q k' hq
        cases hq
      · exact (Finset.sum_congr rfl fun q _ => OpState.wakeup_weight _).trans hsum
  | nothing | begins | copies | copied | heads | installs | installed | clears | erases =>
      exact h.proceed hboot hk rfl ⟨rfl, rfl, rfl, rfl⟩

theorem Roles.setProc (h : Roles s) (hboot : s.boot = none) {p : P} (hp : (s.proc p).isOp = false)
    (hc : s.proc p ≠ .commits) (hx : x.isOp = false) :
    Roles (s.setProc p x) := by
  have hsum := sum_update_weight s.proc p x OpState.weight
  have hold : ∀ q, q ≠ p → (s.setProc p x).proc q = s.proc q := fun q hq =>
    Function.update_of_ne hq _ _
  constructor
  · intro hne
    exact absurd hboot hne
  · exact h.busy
  · exact h.alone
  · intro q k hq
    have hcommits := h.commits q k hq
    rw [hold q (by rintro rfl; exact hc hcommits)]
    exact hcommits
  · simp only [OpState.weight, hp, hx] at hsum
    exact hsum.trans h.count

theorem Roles.leaves (h : Roles s) {p : P} (hp : (s.proc p).isOp = true) (hx : x.isOp = false) :
    ∑ q, (Function.update s.proc p x q).weight = s.outstanding - 1 := by
  have hsum := sum_update_weight s.proc p x OpState.weight
  rw [h.count] at hsum
  simp only [OpState.weight, hp, hx, if_true] at hsum
  exact Nat.eq_sub_of_add_eq hsum

theorem Roles.step (h : Roles s) (hok : LogOk start s a) (hm : LogMove start s a t) :
    Roles t := by
  cases hm with
  | crash => exact .reboot _
  | recover hk ht => exact h.recover hk ht
  | commits hboot hk ht => exact h.commit hboot hk ht
  | sleeps hboot hp hfull =>
      rcases hp with hp | hp
      · exact h.setProc hboot (by rw [hp]; rfl) (by rw [hp]; simp) rfl
      · exact h.setProc hboot (by rw [hp]; rfl) (by rw [hp]; simp) rfl
  | @enters p hboot hp hidle hroom =>
      have hnone : s.commit = none := by
        rw [h.busy] at hidle
        simpa using hidle
      have hop : (s.proc p).isOp = false := by
        rcases hp with hp | hp <;> rw [hp] <;> rfl
      have hsum := sum_update_weight s.proc p (.inOp 0) OpState.weight
      rw [h.count] at hsum
      constructor
      · intro hne
        exact absurd hboot hne
      · exact h.busy
      · intro hne
        exact absurd hnone hne
      · intro q k hq
        cases hnone.symm.trans hq
      · simp only [OpState.weight, hop] at hsum
        exact hsum
  | breads | modifies | tooBig | outsideTrans | absorbs | brelses =>
      exact ⟨h.booting, h.busy, h.alone, h.commits, h.count⟩
  | @adds p b hboot hheld hroom hmem =>
      have hnone := h.no_commit hok.2
      have hsum := sum_update_weight s.proc p (s.proc p).add OpState.weight
      rw [OpState.add_weight] at hsum
      constructor
      · intro hne
        exact absurd hboot hne
      · exact h.busy
      · exact h.alone
      · intro q k hq
        cases hnone.symm.trans hq
      · exact (Nat.add_right_cancel hsum).trans h.count
  | @endPanics p added hboot hp hbusy =>
      have hnone := h.no_commit (p := p) (by rw [hp]; rfl)
      rw [h.busy, hnone] at hbusy
      cases hbusy
  | @endsLast p added hboot hp hidle hlast =>
      have hsum := h.leaves (p := p) (by rw [hp]; rfl) (x := .commits) rfl
      refine ⟨fun hne => absurd hboot hne, rfl, fun _ => hlast, fun q k hq => ?_, hsum⟩
      cases hq
      exact Function.update_self ..
  | @ends p added hboot hp hidle hmore =>
      have hnone := h.no_commit (p := p) (by rw [hp]; rfl)
      have hsum := h.leaves (p := p) (by rw [hp]; rfl) (x := .outside) rfl
      refine ⟨fun hne => absurd hboot hne, h.busy, fun hne => absurd hnone hne, fun q k hq => ?_,
        ?_⟩
      · cases hnone.symm.trans hq
      · exact (Finset.sum_congr rfl fun q _ => OpState.wakeup_weight _).trans hsum

omit [DecidableEq P] [Fintype P] in
theorem Saved.congr (h : Saved s) (hdirty : ∀ b, t.dirty b = true → s.dirty b = true)
    (hsame : ∀ b p, s.dirty b = true → s.held b = some p → (s.proc p).isOp = true →
      t.held b = some p ∧ (t.proc p).isOp = true) : Saved t := by
  intro b hb
  obtain ⟨p, hheld, hop⟩ := h b (hdirty b hb)
  exact ⟨p, hsame b p (hdirty b hb) hheld hop⟩

omit [DecidableEq P] [Fintype P] in
theorem of_update_false {dirty : Nat → Bool} {b : Nat}
    (h : Function.update dirty b false c = true) : dirty c = true := by
  by_cases hc : c = b
  · rw [hc, Function.update_self] at h
    cases h
  · rwa [Function.update_of_ne hc] at h

omit [Fintype P] in
theorem isOp_update {p q : P} (hop : (s.proc q).isOp = true) (hx : q = p → x.isOp = true) :
    (Function.update s.proc p x q).isOp = true := by
  by_cases hq : q = p
  · subst hq
    rw [Function.update_self]
    exact hx rfl
  · rw [Function.update_of_ne hq]
    exact hop

theorem Saved.step (h : Saved s) (hr : Roles s) (hok : Disciplined start s a)
    (hm : LogMove start s a t) : Saved t := by
  cases hm with
  | crash => exact fun b hb => by cases hb
  | recover hk ht =>
      have hsame : t.dirty = s.dirty ∧ t.held = s.held ∧ t.proc = s.proc := by
        cases ht <;> exact ⟨rfl, rfl, rfl⟩
      unfold Saved
      rw [hsame.1, hsame.2.1, hsame.2.2]
      exact h
  | @commits p k t hboot hk ht =>
      -- nothing is being modified
      have hsame : t.dirty = s.dirty := by cases ht <;> rfl
      intro b hb
      rw [hsame, h.clean hr (by simp [hk]) b] at hb
      cases hb
  | @sleeps p hboot hp hfull =>
      refine h.congr (fun _ hb => hb) fun b q _ hheld hop => ⟨hheld, isOp_update hop ?_⟩
      rintro rfl
      rcases hp with hp | hp <;> rw [hp] at hop <;> cases hop
  | enters => exact h.congr (fun _ hb => hb) fun b q _ hheld hop =>
      ⟨hheld, isOp_update hop fun _ => rfl⟩
  | @breads p b hboot hfree =>
      refine h.congr (fun _ hb => hb) fun c q _ hheld hop => ⟨?_, hop⟩
      have hne : c ≠ b := by
        rintro rfl
        cases hfree.symm.trans hheld
      exact (Function.update_of_ne hne _ _).trans hheld
  | @modifies p b d hboot hheld =>
      intro c hc
      by_cases hcb : c = b
      · subst hcb
        exact ⟨p, hheld, hok.1.2⟩
      · exact h c ((Function.update_of_ne hcb _ _).symm.trans hc)
  | tooBig | outsideTrans | endPanics => exact h
  | absorbs => exact h.congr (fun _ hb => of_update_false hb) fun b q _ hheld hop => ⟨hheld, hop⟩
  | adds =>
      refine h.congr (fun _ hb => of_update_false hb) fun b q _ hheld hop =>
        ⟨hheld, isOp_update hop ?_⟩
      rintro rfl
      rw [OpState.add_isOp]
      exact hop
  | @brelses p b hboot hheld =>
      refine h.congr (fun _ hb => hb) fun c q hdirty hq hop => ⟨?_, hop⟩
      have hne : c ≠ b := by
        rintro rfl
        exact absurd (hok.2.symm.trans hdirty) Bool.false_ne_true
      exact (Function.update_of_ne hne _ _).trans hq
  | endsLast =>
      refine h.congr (fun _ hb => hb) fun b q _ hheld hop => ⟨hheld, isOp_update hop ?_⟩
      rintro rfl
      exact absurd hheld (hok.2 b)
  | ends =>
      refine h.congr (fun _ hb => hb) fun b q _ hheld hop =>
        ⟨hheld, (OpState.wakeup_isOp _).trans (isOp_update hop ?_)⟩
      rintro rfl
      exact absurd hheld (hok.2 b)

end

/-! ## What is on the disk -/

section
variable {start : Nat} {b i n : Nat}

theorem not_home_start : ¬ Home start start := by
  rintro ⟨-, h⟩
  omega

theorem not_home_logSlot (hi : i < LOGBLOCKS) : ¬ Home start (logSlot start i) := by
  rintro ⟨-, h⟩
  rw [logSlot] at h
  omega

theorem Listed.slot_notMem (h : Listed start l) (hi : i < l.length) :
    logSlot start i ∉ l := fun hm => not_home_logSlot (hi.trans_le h.short) (h.home _ hm)

theorem Listed.readHead_writeHead (h : Listed start l) (blk : Block) :
    readHead (writeHead l blk) = l := by
  apply FileSys.readHead_writeHead
  · exact h.short.trans_lt (by decide)
  · intro x hx
    exact (h.home x hx).1

theorem Listed.of_eq {l' : List Nat} (h : Listed start l) (heq : l' = l) : Listed start l' := by
  rw [heq]
  exact h

theorem Listed.ne_of_mem (h : Listed start l) (hb : b ∈ l) :
    b ≠ start ∧ ∀ i, i < LOGBLOCKS → b ≠ logSlot start i := by
  constructor
  · rintro rfl
    exact not_home_start (h.home _ hb)
  · rintro i hi rfl
    exact not_home_logSlot hi (h.home _ hb)

theorem logSlot_ne_start : logSlot start i ≠ start := by
  unfold logSlot
  omega

theorem logSlot_inj {j : Nat} (h : logSlot start i = logSlot start j) : i = j := by
  unfold logSlot at h
  omega

end

/-- A block that is neither logged nor modified since is as on the disk. -/
def Clean (start : Nat) (s : LogState P) : Prop :=
  ∀ b, Home start b → b ∉ s.lh → s.dirty b = false → s.mem b = s.disk b

/-- A block that has not been modified since it was last logged is as on the disk. -/
def Settled (s : LogState P) : Prop := ∀ b, s.dirty b = false → s.mem b = s.disk b

def Logged (start : Nat) (s : LogState P) (n : Nat) : Prop :=
  ∀ i b, i < n → s.lh[i]? = some b → s.disk (logSlot start i) = s.mem b

def Installed (s : LogState P) (n : Nat) : Prop :=
  ∀ i b, i < n → s.lh[i]? = some b → s.disk b = s.mem b

/-- The first `n` entries of a list on the disk are in their home blocks. -/
def Replayed (start : Nat) (disk : Nat → Block) (l : List Nat) (n : Nat) : Prop :=
  ∀ i b, i < n → l[i]? = some b → disk b = disk (logSlot start i)

def CommitPhase (start : Nat) (s : LogState P) : Stage → Prop
  | .start => onDisk start s.disk = [] ∧ Clean start s
  | .writeLog n => onDisk start s.disk = [] ∧ Clean start s ∧ Logged start s n
  | .writeHead => onDisk start s.disk = [] ∧ Clean start s ∧ Logged start s s.lh.length
  | .install n =>
      onDisk start s.disk = s.lh ∧ Clean start s ∧ Logged start s s.lh.length ∧ Installed s n
  | .clear =>
      onDisk start s.disk = s.lh ∧ Clean start s ∧ Logged start s s.lh.length ∧
        Installed s s.lh.length
  | .erase =>
      s.lh = [] ∧ Settled s ∧
        Replayed start s.disk (onDisk start s.disk) (onDisk start s.disk).length
  | .finish => s.lh = [] ∧ Settled s ∧ onDisk start s.disk = []

def BootPhase (start : Nat) (s : LogState P) : Boot → Prop
  | .readHead => True
  | .install n => s.lh = onDisk start s.disk ∧ Replayed start s.disk s.lh n
  | .clear => s.lh = onDisk start s.disk ∧ Replayed start s.disk s.lh s.lh.length
  | .erase =>
      s.lh = [] ∧ Replayed start s.disk (onDisk start s.disk) (onDisk start s.disk).length

structure Kept (start : Nat) (s : LogState P) : Prop where
  lh : Listed start s.lh
  head : Listed start (onDisk start s.disk)
  log : ∀ b, ¬ Home start b → s.mem b = s.disk b
  running : s.boot = none → s.commit = none → onDisk start s.disk = [] ∧ Clean start s
  committing : ∀ p k, s.commit = some (p, k) → CommitPhase start s k
  booting : ∀ k, s.boot = some k → s.mem = s.disk ∧ BootPhase start s k

section
variable {start : Nat} {s t : LogState P} {a : LogAct P} {p : P} {b n : Nat}

theorem Kept.reboot (h : Listed start (onDisk start disk)) :
    Kept start (LogState.reboot disk : LogState P) where
  lh := .nil start
  head := h
  log := fun _ _ => rfl
  running := fun hb _ => by cases hb
  committing := fun _ _ hc => by cases hc
  booting := fun k hk => by
    cases hk
    exact ⟨rfl, trivial⟩

theorem Kept.settled (h : Kept start s) (hclean : Clean start s)
    (hlh : ∀ b ∈ s.lh, s.mem b = s.disk b) : Settled s := by
  intro b hd
  by_cases hb : Home start b
  · by_cases hmem : b ∈ s.lh
    · exact hlh b hmem
    · exact hclean b hb hmem hd
  · exact h.log b hb

theorem Kept.proceed {k : Stage} (hboot : t.boot = none) (hk : t.commit = some (p, k))
    (hlh : Listed start t.lh) (hhead : Listed start (onDisk start t.disk))
    (hlog : ∀ b, ¬ Home start b → t.mem b = t.disk b) (hphase : CommitPhase start t k) :
    Kept start t where
  lh := hlh
  head := hhead
  log := hlog
  running := fun _ hc => by cases hk.symm.trans hc
  committing := fun q k' hq => by
    cases hk.symm.trans hq
    exact hphase
  booting := fun k' hb => by cases hboot.symm.trans hb

theorem bwrite_mem_self (d : Block) : (s.bwrite b d).mem b = d := Function.update_self ..

theorem bwrite_disk_self (d : Block) : (s.bwrite b d).disk b = d := Function.update_self ..

theorem bwrite_mem_of_ne (h : c ≠ b) (d : Block) : (s.bwrite b d).mem c = s.mem c :=
  Function.update_of_ne h _ _

theorem bwrite_disk_of_ne (h : c ≠ b) (d : Block) :
    (s.bwrite b d).disk c = s.disk c :=
  Function.update_of_ne h _ _

theorem log_bwrite (hlog : ∀ b, ¬ Home start b → s.mem b = s.disk b) :
    ∀ c, ¬ Home start c → (s.bwrite b d).mem c = (s.bwrite b d).disk c := by
  intro c hc
  by_cases hcb : c = b
  · rw [hcb, bwrite_mem_self, bwrite_disk_self]
  · rw [bwrite_mem_of_ne hcb, bwrite_disk_of_ne hcb, hlog c hc]

theorem onDisk_bwrite (hb : b ≠ start) :
    onDisk start (s.bwrite b d).disk = onDisk start s.disk :=
  congrArg readHead (Function.update_of_ne hb.symm _ _)

theorem onDisk_writeHead (hl : Listed start l) (blk : Block) :
    onDisk start (s.bwrite start (writeHead l blk)).disk = l :=
  (congrArg readHead (Function.update_self ..)).trans (hl.readHead_writeHead blk)

theorem Kept.copies (h : Kept start s) (hboot : s.boot = none)
    (hk : s.commit = some (p, .writeLog n)) (hb : s.lh[n]? = some b) :
    Kept start { s.bwrite (logSlot start n) (s.mem b) with
      commit := some (p, .writeLog (n + 1)) } := by
  obtain ⟨hdisk, hclean, hlogged⟩ := h.committing p _ hk
  obtain ⟨hn, rfl⟩ := List.getElem?_eq_some_iff.1 hb
  have hslot : ¬ Home start (logSlot start n) := not_home_logSlot (hn.trans_le h.lh.short)
  have hhome : ∀ c, Home start c → c ≠ logSlot start n := by
    rintro c hc rfl
    exact hslot hc
  have hne : logSlot start n ≠ start := logSlot_ne_start
  have hhead := onDisk_bwrite (s := s) (d := s.mem s.lh[n]) hne
  refine .proceed hboot rfl h.lh (h.head.of_eq hhead) (log_bwrite h.log)
    ⟨hhead.trans hdisk, ?_, ?_⟩
  · intro c hc hnot hd
    exact (bwrite_mem_of_ne (hhome c hc) _).trans
      ((hclean c hc hnot hd).trans (bwrite_disk_of_ne (hhome c hc) _).symm)
  · intro i c hi hc
    have hne := hhome c (h.lh.home c (List.mem_of_getElem? hc))
    refine Eq.trans ?_ (bwrite_mem_of_ne hne _).symm
    by_cases hin : i = n
    · subst hin
      cases hb.symm.trans hc
      exact bwrite_disk_self _
    · exact (bwrite_disk_of_ne (fun heq => hin (logSlot_inj heq)) _).trans
        (hlogged i c (by omega) hc)

theorem Kept.heads (h : Kept start s) (hboot : s.boot = none)
    (hk : s.commit = some (p, .writeHead)) :
    Kept start { s.bwrite start (writeHead s.lh (s.mem start)) with
      commit := some (p, .install 0) } := by
  obtain ⟨-, hclean, hlogged⟩ := h.committing p _ hk
  have hhead := onDisk_writeHead (s := s) h.lh (s.mem start)
  have hhome : ∀ c, Home start c → c ≠ start := by
    rintro c hc rfl
    exact not_home_start hc
  refine .proceed hboot rfl h.lh (h.lh.of_eq hhead) (log_bwrite h.log) ⟨hhead, ?_, ?_, ?_⟩
  · intro c hc hnot hd
    exact (bwrite_mem_of_ne (hhome c hc) _).trans
      ((hclean c hc hnot hd).trans (bwrite_disk_of_ne (hhome c hc) _).symm)
  · intro i c hi hc
    have hne := hhome c (h.lh.home c (List.mem_of_getElem? hc))
    exact (bwrite_disk_of_ne logSlot_ne_start _).trans
      ((hlogged i c hi hc).trans (bwrite_mem_of_ne hne _).symm)
  · intro i c hi hc
    exact absurd hi (Nat.not_lt_zero i)

/-- What `install_trans` copies during a commit is what the buffer holds. -/
theorem Kept.slot (h : Kept start s) (hlogged : Logged start s s.lh.length)
    (hb : s.lh[n]? = some b) : s.mem (logSlot start n) = s.mem b := by
  obtain ⟨hn, rfl⟩ := List.getElem?_eq_some_iff.1 hb
  exact (h.log _ (not_home_logSlot (hn.trans_le h.lh.short))).trans (hlogged n _ hn hb)

theorem Kept.installs (h : Kept start s) (hboot : s.boot = none)
    (hk : s.commit = some (p, .install n)) (hb : s.lh[n]? = some b) :
    Kept start { (s.bwrite b (s.mem (logSlot start n))).bunpin b with
      commit := some (p, .install (n + 1)) } := by
  obtain ⟨hdisk, hclean, hlogged, hinst⟩ := h.committing p _ hk
  have hmem : b ∈ s.lh := List.mem_of_getElem? hb
  obtain ⟨hstart, hslots⟩ := h.lh.ne_of_mem hmem
  have hsame := h.slot hlogged hb
  have hhead := onDisk_bwrite (s := s) (d := s.mem (logSlot start n)) hstart
  -- The buffer of `b` gets the contents it has.
  have hbuf : (s.bwrite b (s.mem (logSlot start n))).mem = s.mem := by
    rw [hsame]
    exact Function.update_eq_self b s.mem
  refine .proceed hboot rfl h.lh (h.head.of_eq hhead) (log_bwrite h.log)
    ⟨hhead.trans hdisk, ?_, ?_, ?_⟩
  · intro c hc hnot hd
    have hne : c ≠ b := by
      rintro rfl
      exact hnot hmem
    exact (congrFun hbuf c).trans
      ((hclean c hc hnot hd).trans (bwrite_disk_of_ne hne _).symm)
  · intro i c hi hc
    have hne := (hslots i (Nat.lt_of_lt_of_le hi h.lh.short)).symm
    exact (bwrite_disk_of_ne hne _).trans
      ((hlogged i c hi hc).trans (congrFun hbuf c).symm)
  · intro i c hi hc
    refine Eq.trans ?_ (congrFun hbuf c).symm
    by_cases hcb : c = b
    · subst hcb
      exact (bwrite_disk_self _).trans hsame
    · refine (bwrite_disk_of_ne hcb _).trans (hinst i c ?_ hc)
      by_contra hge
      have hin : i = n := by omega
      subst hin
      exact hcb (Option.some.inj (hc.symm.trans hb))

theorem Kept.erased (h : Kept start s) (hlh : s.lh = []) :
    onDisk start (s.bwrite start (writeHead s.lh (s.mem start))).disk = [] :=
  (onDisk_writeHead h.lh (s.mem start)).trans hlh

theorem Settled.bwrite {d : Block} (h : Settled s) : Settled (s.bwrite b d) := by
  intro c hd
  by_cases hcb : c = b
  · rw [hcb, bwrite_mem_self, bwrite_disk_self]
  · rw [bwrite_mem_of_ne hcb, bwrite_disk_of_ne hcb, h c hd]

theorem Kept.commit [DecidableEq P] (h : Kept start s) (hboot : s.boot = none) {k : Stage}
    (hk : s.commit = some (p, k)) (ht : CommitMove start s p k t) : Kept start t := by
  have hphase := h.committing p k hk
  cases ht with
  | nothing hlh =>
      obtain ⟨hdisk, hclean⟩ := hphase
      refine .proceed hboot rfl h.lh h.head h.log ⟨hlh, h.settled hclean ?_, hdisk⟩
      rw [hlh]
      exact List.forall_mem_nil _
  | begins =>
      exact .proceed hboot rfl h.lh h.head h.log
        ⟨hphase.1, hphase.2, fun i _ hi => absurd hi (Nat.not_lt_zero i)⟩
  | copies hb => exact h.copies hboot hk hb
  | copied hn =>
      obtain ⟨hdisk, hclean, hlogged⟩ := hphase
      refine .proceed hboot rfl h.lh h.head h.log ⟨hdisk, hclean, fun i b hi hb => ?_⟩
      exact hlogged i b (hi.trans_le (List.getElem?_eq_none_iff.1 hn)) hb
  | heads => exact h.heads hboot hk
  | installs hb => exact h.installs hboot hk hb
  | installed hn =>
      obtain ⟨hdisk, hclean, hlogged, hinst⟩ := hphase
      refine .proceed hboot rfl h.lh h.head h.log ⟨hdisk, hclean, hlogged, fun i b hi hb => ?_⟩
      exact hinst i b (hi.trans_le (List.getElem?_eq_none_iff.1 hn)) hb
  | clears =>
      obtain ⟨hdisk, hclean, hlogged, hinst⟩ := hphase
      refine .proceed hboot rfl (.nil start) h.head h.log ⟨rfl, h.settled hclean ?_, ?_⟩
      · intro b hb
        obtain ⟨i, hi, rfl⟩ := List.mem_iff_getElem.1 hb
        exact (hinst i _ hi (List.getElem?_eq_getElem hi)).symm
      · intro i b hi hb
        replace hb : (onDisk start s.disk)[i]? = some b := hb
        replace hi : i < (onDisk start s.disk).length := hi
        rw [hdisk] at hi hb
        exact (hinst i b hi hb).trans (hlogged i b hi hb).symm
  | erases =>
      obtain ⟨hlh, hsettled, -⟩ := hphase
      have hhead := h.erased hlh
      exact .proceed hboot rfl h.lh ((Listed.nil start).of_eq hhead) (log_bwrite h.log)
        ⟨hlh, hsettled.bwrite, hhead⟩
  | finishes =>
      obtain ⟨hlh, hsettled, hdisk⟩ := hphase
      exact ⟨h.lh, h.head, h.log, fun _ _ => ⟨hdisk, fun b _ _ hd => hsettled b hd⟩,
        fun _ _ hc => (by cases hc), fun _ hb => by cases hboot.symm.trans hb⟩

theorem Kept.restore {k : Boot} (hc : t.commit = none) (hk : t.boot = some k)
    (hlh : Listed start t.lh) (hhead : Listed start (onDisk start t.disk))
    (hsame : t.mem = t.disk) (hphase : BootPhase start t k) : Kept start t where
  lh := hlh
  head := hhead
  log := fun b _ => congrFun hsame b
  running := fun hb _ => by cases hk.symm.trans hb
  committing := fun _ _ hcommit => by cases hc.symm.trans hcommit
  booting := fun k' hb => by
    cases hk.symm.trans hb
    exact ⟨hsame, hphase⟩

theorem Kept.recover (h : Kept start s) (hc : s.commit = none) {k : Boot}
    (hk : s.boot = some k) (ht : BootMove start s k t) : Kept start t := by
  obtain ⟨hsame, hphase⟩ := h.booting k hk
  cases ht with
  | reads =>
      have hread : readHead (s.mem start) = onDisk start s.disk :=
        congrArg readHead (congrFun hsame start)
      rw [hread]
      refine .restore hc rfl ?_ h.head hsame ⟨?_, fun i _ hi => absurd hi (Nat.not_lt_zero i)⟩
      · dsimp only
        exact h.head
      · dsimp only
  | @installs n b hb =>
      obtain ⟨hlh, hrep⟩ := hphase
      obtain ⟨hstart, hslots⟩ := h.lh.ne_of_mem (List.mem_of_getElem? hb)
      have hhead := onDisk_bwrite (s := s) (d := s.mem (logSlot start n)) hstart
      refine .restore hc rfl h.lh (h.head.of_eq hhead)
        (congrArg (fun f => Function.update f b _) hsame) ⟨hlh.trans hhead.symm, ?_⟩
      intro i c hi hc'
      obtain ⟨hlt, -⟩ := List.getElem?_eq_some_iff.1 hc'
      have hne := (hslots i (Nat.lt_of_lt_of_le hlt h.lh.short)).symm
      refine Eq.trans ?_ (bwrite_disk_of_ne hne _).symm
      by_cases hcb : c = b
      · subst hcb
        have hin : i = n := (List.getElem?_inj hlt h.lh.nodup).1 (hc'.trans hb.symm)
        subst hin
        exact (bwrite_disk_self _).trans (congrFun hsame _)
      · refine (bwrite_disk_of_ne hcb _).trans (hrep i c ?_ hc')
        by_contra hge
        have hin : i = n := by omega
        subst hin
        exact hcb (Option.some.inj (hc'.symm.trans hb))
  | installed hn =>
      obtain ⟨hlh, hrep⟩ := hphase
      refine .restore hc rfl h.lh h.head hsame ⟨hlh, fun i b hi hb => ?_⟩
      exact hrep i b (hi.trans_le (List.getElem?_eq_none_iff.1 hn)) hb
  | clears =>
      obtain ⟨hlh, hrep⟩ := hphase
      refine .restore hc rfl (.nil start) h.head hsame ⟨rfl, ?_⟩
      rw [hlh] at hrep
      exact hrep
  | erases =>
      obtain ⟨hlh, -⟩ := hphase
      have hhead := h.erased hlh
      have hsettled : Settled s := fun b _ => congrFun hsame b
      exact ⟨h.lh, (Listed.nil start).of_eq hhead, log_bwrite h.log,
        fun _ _ => ⟨hhead, fun b _ _ hd => hsettled.bwrite b hd⟩,
        fun _ _ hcommit => (by cases hc.symm.trans hcommit), fun _ hb => by cases hb⟩

theorem Kept.quiet (hboot : t.boot = none) (hc : t.commit = none) (hlh : Listed start t.lh)
    (hhead : onDisk start t.disk = []) (hlog : ∀ b, ¬ Home start b → t.mem b = t.disk b)
    (hclean : Clean start t) : Kept start t where
  lh := hlh
  head := (Listed.nil start).of_eq hhead
  log := hlog
  running := fun _ _ => ⟨hhead, hclean⟩
  committing := fun _ _ hcommit => by cases hc.symm.trans hcommit
  booting := fun _ hb => by cases hboot.symm.trans hb

theorem Listed.append (h : Listed start l) (hb : Home start b) (hnot : b ∉ l)
    (hroom : l.length < LOGBLOCKS) : Listed start (l ++ [b]) where
  nodup := List.concat_eq_append ▸ h.nodup.concat hnot
  home := by
    intro c hc
    rcases List.mem_append.1 hc with hc | hc
    · exact h.home c hc
    · rw [List.mem_singleton.1 hc]
      exact hb
  short := by
    rw [List.length_append]
    exact hroom

variable [DecidableEq P]

theorem Kept.step [Fintype P] (h : Kept start s) (hr : Roles s) (hok : LogOk start s a)
    (hm : LogMove start s a t) : Kept start t := by
  cases hm with
  | crash => exact .reboot h.head
  | recover hk ht => exact h.recover (hr.booting (by simp [hk])).1 hk ht
  | commits hboot hk ht => exact h.commit hboot hk ht
  | sleeps | enters | breads | brelses | tooBig | outsideTrans | endPanics | ends =>
      exact ⟨h.lh, h.head, h.log, h.running, h.committing, h.booting⟩
  | @modifies p b d hboot hheld =>
      have hc := hr.no_commit hok.2
      obtain ⟨hdisk, hclean⟩ := h.running hboot hc
      refine .quiet hboot hc h.lh hdisk ?_ ?_
      · intro c hnot
        have hne : c ≠ b := by
          rintro rfl
          exact hnot hok.1
        exact (Function.update_of_ne hne _ _).trans (h.log c hnot)
      · intro c hcb hnot hd
        have hne : c ≠ b := by
          rintro rfl
          cases (Function.update_self ..).symm.trans hd
        exact (Function.update_of_ne hne _ _).trans
          (hclean c hcb hnot ((Function.update_of_ne hne _ _).symm.trans hd))
  | @absorbs p b hboot hheld hroom hmem =>
      have hc := hr.no_commit hok.2
      obtain ⟨hdisk, hclean⟩ := h.running hboot hc
      refine .quiet hboot hc h.lh hdisk h.log ?_
      intro c hcb hnot hd
      have hne : c ≠ b := by
        rintro rfl
        exact hnot hmem
      exact hclean c hcb hnot ((Function.update_of_ne hne _ _).symm.trans hd)
  | @adds p b hboot hheld hroom hmem =>
      have hc := hr.no_commit hok.2
      obtain ⟨hdisk, hclean⟩ := h.running hboot hc
      refine .quiet hboot hc (h.lh.append hok.1 hmem hroom) hdisk h.log ?_
      intro c hcb hnot hd
      have hne : c ≠ b := by
        rintro rfl
        exact hnot (List.mem_append_right _ List.mem_cons_self)
      exact hclean c hcb (fun hin => hnot (List.mem_append_left _ hin))
        ((Function.update_of_ne hne _ _).symm.trans hd)
  | @endsLast p added hboot hp hidle hlast =>
      have hc := hr.no_commit (p := p) (by rw [hp]; rfl)
      exact .proceed hboot rfl h.lh h.head h.log (h.running hboot hc)

end

/-! ## The log refines the atomic storage -/

section
variable [DecidableEq P] {start : Nat} {s t : LogState P} {a : LogAct P} {p : P} {b n : Nat}

theorem setProc_self (x : OpState) : (s.setProc p x).proc p = x := Function.update_self ..

theorem setProc_of_ne {q : P} (h : q ≠ p) (x : OpState) : (s.setProc p x).proc q = s.proc q :=
  Function.update_of_ne h _ _

theorem isOp_setProc (x : OpState) : (fun q => ((s.setProc p x).proc q).isOp) =
    Function.update (fun q => (s.proc q).isOp) p x.isOp := by
  funext q
  by_cases hq : q = p
  · subst hq
    rw [setProc_self, Function.update_self]
  · rw [setProc_of_ne hq, Function.update_of_ne hq]

omit [DecidableEq P] in
theorem recovered_of_nil (h : onDisk start disk = []) (b : Nat) :
    recovered start disk b = disk b := by
  rw [recovered, h, redo_nil]

omit [DecidableEq P] in
theorem recovered_of_replayed (hl : Listed start (onDisk start disk))
    (h : Replayed start disk (onDisk start disk) (onDisk start disk).length) (b : Nat) :
    recovered start disk b = disk b := by
  refine redo_installed hl.nodup fun i a hi => h i a ?_ hi
  exact (List.getElem?_eq_some_iff.1 hi).1

omit [DecidableEq P] in
theorem recovered_install (hl : Listed start (onDisk start s.disk))
    (hb : b ∈ onDisk start s.disk) (d : Block) (c : Nat) :
    recovered start (s.bwrite b d).disk c = recovered start s.disk c := by
  rw [recovered, onDisk_bwrite (hl.ne_of_mem hb).1]
  exact redo_install (fun i hi => hl.slot_notMem hi) hb

omit [DecidableEq P] in
theorem shown_running (h : s.boot = none) : shown start s b = s.mem b := if_pos h

omit [DecidableEq P] in
theorem shown_congr (hs : s.boot = none) (ht : t.boot = none) (h : t.mem b = s.mem b) :
    shown start t b = shown start s b := by
  rw [shown_running hs, shown_running ht, h]

omit [DecidableEq P] in
theorem shown_booting {k : Boot} (h : s.boot = some k) :
    shown start s b = recovered start s.disk b := if_neg (by simp [h])

omit [DecidableEq P] in
theorem logAbs_eq
    (hstable : ∀ b, Home start b → recovered start t.disk b = recovered start s.disk b)
    (hview : ∀ b, Home start b → shown start t b = shown start s b)
    (hactive : ∀ p, (t.proc p).isOp = (s.proc p).isOp) :
    logAbs start t = logAbs start s :=
  Atomic.ext (funext fun b => hstable b b.2) (funext fun b => hview b b.2) (funext hactive)

omit [DecidableEq P] in
theorem Kept.recover_abs (h : Kept start s) {k : Boot} (hk : s.boot = some k)
    (ht : BootMove start s k t) : logAbs start t = logAbs start s := by
  obtain ⟨hsame, hphase⟩ := h.booting k hk
  cases ht with
  | reads | installed | clears =>
      refine logAbs_eq (fun _ _ => rfl) (fun b _ => ?_) fun _ => rfl
      rw [shown_booting hk, shown_booting rfl]
  | @installs n b hb =>
      have hmem : b ∈ onDisk start s.disk := by
        rw [← hphase.1]
        exact List.mem_of_getElem? hb
      refine logAbs_eq (fun c _ => ?_) (fun c _ => ?_) fun _ => rfl
      · exact recovered_install h.head hmem _ c
      · rw [shown_booting hk, shown_booting rfl]
        exact recovered_install h.head hmem _ c
  | erases =>
      obtain ⟨hlh, hrep⟩ := hphase
      have hhead := h.erased hlh
      have hdisk : ∀ c, Home start c →
          (s.bwrite start (writeHead s.lh (s.mem start))).disk c = recovered start s.disk c := by
        intro c hc
        have hne : c ≠ start := by
          rintro rfl
          exact not_home_start hc
        rw [bwrite_disk_of_ne hne, recovered_of_replayed h.head hrep]
      refine logAbs_eq (fun c hc => ?_) (fun c hc => ?_) fun _ => rfl
      · exact (recovered_of_nil hhead c).trans (hdisk c hc)
      · rw [shown_booting hk, shown_running rfl]
        refine Eq.trans ?_ (hdisk c hc)
        exact congrFun (congrArg (fun f => Function.update f start _) hsame) c

/-- The steps of a commit before and after the write of the header are no steps of the
storage. -/
theorem Kept.commit_abs [Fintype P] (h : Kept start s) (hr : Roles s) (hboot : s.boot = none)
    {k : Stage} (hk : s.commit = some (p, k)) (hstage : k ≠ .writeHead)
    (ht : CommitMove start s p k t) : logAbs start t = logAbs start s := by
  have hphase := h.committing p k hk
  cases ht with
  | heads => exact absurd rfl hstage
  | nothing | begins | copied | installed | clears => rfl
  | @copies n b hb =>
      obtain ⟨hdisk, -, -⟩ := hphase
      have hn := (List.getElem?_eq_some_iff.1 hb).1
      have hhome : ∀ c, Home start c → c ≠ logSlot start n := by
        rintro c hc rfl
        exact not_home_logSlot (hn.trans_le h.lh.short) hc
      have hne : logSlot start n ≠ start := logSlot_ne_start
      have hhead := onDisk_bwrite (s := s) (d := s.mem b) hne
      refine logAbs_eq (fun c hc => ?_) (fun c hc => ?_) fun _ => rfl
      · rw [recovered_of_nil hdisk]
        exact (recovered_of_nil (hhead.trans hdisk) c).trans (bwrite_disk_of_ne (hhome c hc) _)
      · exact shown_congr hboot hboot (bwrite_mem_of_ne (hhome c hc) _)
  | @installs n b hb =>
      obtain ⟨hdisk, -, hlogged, -⟩ := hphase
      have hmem : b ∈ onDisk start s.disk := by
        rw [hdisk]
        exact List.mem_of_getElem? hb
      refine logAbs_eq (fun c _ => recovered_install h.head hmem _ c) (fun c _ => ?_)
        fun _ => rfl
      refine shown_congr hboot hboot ?_
      by_cases hcb : c = b
      · subst hcb
        exact (bwrite_mem_self _).trans (h.slot hlogged hb)
      · exact bwrite_mem_of_ne hcb _
  | erases =>
      obtain ⟨hlh, -, hrep⟩ := hphase
      have hhead := h.erased hlh
      have hhome : ∀ c, Home start c → c ≠ start := by
        rintro c hc rfl
        exact not_home_start hc
      refine logAbs_eq (fun c hc => ?_) (fun c hc => ?_) fun _ => rfl
      · rw [recovered_of_replayed h.head hrep]
        exact (recovered_of_nil hhead c).trans (bwrite_disk_of_ne (hhome c hc) _)
      · exact shown_congr hboot hboot (bwrite_mem_of_ne (hhome c hc) _)
  | finishes =>
      refine logAbs_eq (fun _ _ => rfl) (fun _ _ => rfl) fun q => ?_
      refine (OpState.wakeup_isOp _).trans ?_
      by_cases hq : q = p
      · subst hq
        refine (congrArg OpState.isOp (setProc_self _)).trans ?_
        rw [hr.commits q _ hk]
        rfl
      · exact congrArg OpState.isOp (Function.update_of_ne hq _ _)

/-- The write of the header makes what the operations see stable. -/
theorem Kept.heads_abs [Fintype P] (h : Kept start s) (hr : Roles s) (hs : Saved s)
    (hboot : s.boot = none) (hk : s.commit = some (p, .writeHead)) :
    Atomic.Step (logAbs start s) .commit
      (logAbs start { s.bwrite start (writeHead s.lh (s.mem start)) with
        commit := some (p, .install 0) }) := by
  obtain ⟨-, hclean, hlogged⟩ := h.committing p _ hk
  have hnone := hs.clean hr (by simp [hk])
  have hhead := onDisk_writeHead (s := s) h.lh (s.mem start)
  have hhome : ∀ c, Home start c → c ≠ start := by
    rintro c hc rfl
    exact not_home_start hc
  have hstable : ∀ c, Home start c →
      recovered start (s.bwrite start (writeHead s.lh (s.mem start))).disk c = s.mem c := by
    intro c hc
    rw [recovered, hhead]
    apply redo_eq h.lh.nodup
    · intro i d hi
      rw [bwrite_disk_of_ne logSlot_ne_start]
      exact hlogged i d (List.getElem?_eq_some_iff.1 hi).1 hi
    · intro hnot
      rw [bwrite_disk_of_ne (hhome c hc), hclean c hc hnot (hnone c)]
  have heq : logAbs start { s.bwrite start (writeHead s.lh (s.mem start)) with
      commit := some (p, .install 0) } =
      { logAbs start s with stable := (logAbs start s).view } := by
    refine Atomic.ext (funext fun c => ?_) (funext fun c => ?_) rfl
    · exact (hstable c c.2).trans (shown_running hboot).symm
    · exact shown_congr hboot hboot (bwrite_mem_of_ne (hhome c c.2) _)
  rw [heq]
  exact .commit (hr.no_op (hr.alone (by simp [hk])))

omit [DecidableEq P] in
theorem shown_reboot (disk : Nat → Block) :
    shown start (LogState.reboot disk : LogState P) b = recovered start disk b :=
  shown_booting (s := LogState.reboot disk) rfl

theorem crash_abs : Atomic.Step (logAbs start s) .crash (logAbs start (.reboot s.disk)) := by
  have heq : logAbs start (LogState.reboot s.disk : LogState P) =
      { logAbs start s with view := (logAbs start s).stable, active := fun _ => false } :=
    Atomic.ext rfl (funext fun _ => shown_reboot s.disk) rfl
  rw [heq]
  exact .crash

theorem enter_abs (hop : (s.proc p).isOp = false) :
    Atomic.Step (logAbs start s) (.enter p)
      (logAbs start { s.setProc p (.inOp 0) with outstanding := s.outstanding + 1 }) := by
  have heq : logAbs start { s.setProc p (.inOp 0) with outstanding := s.outstanding + 1 } =
      { logAbs start s with active := Function.update (logAbs start s).active p true } :=
    Atomic.ext rfl rfl (isOp_setProc _)
  rw [heq]
  exact .enter hop

theorem leave_abs (hop : (s.proc p).isOp = true) (hx : x.isOp = false)
    (hsame : t.disk = s.disk ∧ t.mem = s.mem ∧ t.boot = s.boot)
    (hproc : ∀ q, (t.proc q).isOp = ((s.setProc p x).proc q).isOp) :
    Atomic.Step (logAbs start s) (.leave p) (logAbs start t) := by
  obtain ⟨hdisk, hmem, hboot⟩ := hsame
  have heq : logAbs start t =
      { logAbs start s with active := Function.update (logAbs start s).active p false } := by
    refine Atomic.ext (funext fun b => ?_) (funext fun b => ?_) ?_
    · exact congrArg (recovered start · b) hdisk
    · change shown start t b = shown start s b
      rw [shown, shown, hdisk, hmem, hboot]
    · exact (funext hproc).trans ((isOp_setProc x).trans (by rw [hx]; rfl))
  rw [heq]
  exact .leave hop

theorem modify_abs (hb : Home start b) (hboot : s.boot = none) (hop : (s.proc p).isOp = true) :
    Atomic.Step (logAbs start s) (.write p ⟨b, hb⟩ d)
      (logAbs start { s with
        mem := Function.update s.mem b d, dirty := Function.update s.dirty b true }) := by
  have hview : ∀ c : {b // Home start b},
      shown start { s with
        mem := Function.update s.mem b d, dirty := Function.update s.dirty b true } c =
      Function.update (logAbs start s).view ⟨b, hb⟩ d c := by
    intro c
    by_cases hc : c = ⟨b, hb⟩
    · subst hc
      rw [Function.update_self]
      exact (if_pos hboot).trans (Function.update_self ..)
    · have hne : (c : Nat) ≠ b := fun heq => hc (Subtype.ext heq)
      rw [Function.update_of_ne hc]
      exact shown_congr hboot hboot (Function.update_of_ne hne _ _)
  have heq : logAbs start { s with
        mem := Function.update s.mem b d, dirty := Function.update s.dirty b true } =
      { logAbs start s with view := Function.update (logAbs start s).view ⟨b, hb⟩ d } :=
    Atomic.ext rfl (funext hview) rfl
  rw [heq]
  exact .write hop

theorem Kept.follows [Fintype P] (h : Kept start s) (hr : Roles s) (hs : Saved s)
    (hok : LogOk start s a) (hm : LogMove start s a t) :
    Follows Atomic.Step (logAbs start s) (logLab start s a) (logAbs start t) := by
  cases hm with
  | crash => exact crash_abs
  | recover hk ht => exact h.recover_abs hk ht
  | @commits p k t hboot hk ht =>
      by_cases hstage : k = .writeHead
      · subst hstage
        cases ht with
        | heads =>
            simp only [logLab, hk]
            exact h.heads_abs hr hs hboot hk
      · have hnone : logLab start s .commit = none := by
          simp only [logLab, hk]
          cases k with
          | writeHead => exact absurd rfl hstage
          | start | writeLog | install | clear | erase | finish => rfl
        rw [hnone]
        exact h.commit_abs hr hboot hk hstage ht
  | breads | brelses | tooBig | outsideTrans | absorbs =>
      exact logAbs_eq (fun _ _ => rfl) (fun _ _ => rfl) fun _ => rfl
  | @sleeps p hboot hp hfull =>
      have hnone : logLab start s (.begin p) = none := if_pos hfull
      have hop : (s.proc p).isOp = false := by
        rcases hp with hp | hp <;> rw [hp] <;> rfl
      rw [hnone]
      refine logAbs_eq (fun _ _ => rfl) (fun _ _ => rfl) fun q => ?_
      by_cases hq : q = p
      · subst hq
        rw [setProc_self, hop]
        rfl
      · rw [setProc_of_ne hq]
  | @enters p hboot hp hidle hroom =>
      have hsome : logLab start s (.begin p) = some (.enter p) := by
        refine if_neg ?_
        rw [hidle]
        rintro (h | h)
        · cases h
        · exact Nat.not_lt.2 hroom h
      rw [hsome]
      exact enter_abs (by rcases hp with hp | hp <;> rw [hp] <;> rfl)
  | @modifies p b d hboot hheld =>
      have hsome : logLab start s (.modify p b d) = some (.write p ⟨b, hok.1⟩ d) := dif_pos hok.1
      rw [hsome]
      exact modify_abs hok.1 hboot hok.2
  | @adds p b hboot hheld hroom hmem =>
      refine logAbs_eq (fun _ _ => rfl) (fun _ _ => rfl) fun q => ?_
      by_cases hq : q = p
      · subst hq
        exact (congrArg OpState.isOp (setProc_self _)).trans (OpState.add_isOp _)
      · exact congrArg OpState.isOp (setProc_of_ne hq _)
  | @endPanics p added hboot hp hbusy =>
      have hnone := hr.no_commit (p := p) (by rw [hp]; rfl)
      rw [hr.busy, hnone] at hbusy
      cases hbusy
  | @endsLast p added hboot hp hidle hlast =>
      exact leave_abs (x := .commits) (congrArg OpState.isOp hp) rfl ⟨rfl, rfl, rfl⟩ fun _ => rfl
  | @ends p added hboot hp hidle hmore =>
      exact leave_abs (x := .outside) (congrArg OpState.isOp hp) rfl ⟨rfl, rfl, rfl⟩
        fun _ => OpState.wakeup_isOp _

theorem reach_kept [Fintype P]
    (h : Reach (LogState.next start) (LogOk start) (Started start) s) :
    Roles s ∧ Kept start s := by
  refine Reach.inv (I := fun s => Roles s ∧ Kept start s) ?_ ?_ h
  · rintro s ⟨disk, hdisk, rfl⟩
    exact ⟨.reboot disk, .reboot hdisk⟩
  · intro s a t hi hok hn
    have hm := next_logMove hn
    exact ⟨hi.1.step hok hm, hi.2.step hi.1 hok hm⟩

theorem reach_logOk (h : Reach (LogState.next start) (Disciplined start) (Started start) s) :
    Reach (LogState.next start) (LogOk start) (Started start) s :=
  h.mono fun _ _ hok => hok.1

theorem reach_saved [Fintype P]
    (h : Reach (LogState.next start) (Disciplined start) (Started start) s) : Saved s := by
  induction h with
  | start h0 =>
      obtain ⟨disk, -, rfl⟩ := h0
      exact fun b hb => by cases hb
  | step hr hok hn ih => exact ih.step (reach_kept (reach_logOk hr)).1 hok (next_logMove hn)

/-- The log of `log.c` is storage with atomic groups of operations: its only commit point is the
write of the header, at which no operation is under way, and a crash at any step, also of recovery,
falls back to the last commit. -/
theorem log_refines_atomic [Fintype P] (start : Nat) :
    Refines (LogState.next (P := P) start) (Disciplined start) (Started start) Atomic.Step
      (fun x => x.view = x.stable ∧ ∀ p, x.active p = false) (logAbs start) (logLab start) where
  init := by
    rintro s ⟨disk, hdisk, rfl⟩
    exact ⟨funext fun _ => shown_reboot disk, fun _ => rfl⟩
  follows := by
    intro s a t hs hok hn
    obtain ⟨hr, hk⟩ := reach_kept (reach_logOk hs)
    exact hk.follows hr (reach_saved hs) hok.1 (next_logMove hn)

end

end G9OS.FileSys
