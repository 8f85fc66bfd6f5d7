import G9OS.FileSys.Recovery

/-! # Space in the log (`log.c`)

`begin_op` admits an operation only if the log has room for all that are under way to add
`MAXOPBLOCKS` blocks each. So if they keep to that number, none of the panics of `log.c` is reached;
and whoever sleeps in `begin_op` has somebody who will wake it.
-/

namespace G9OS.FileSys

open Lib Kernel

variable {P : Type}

/-- Blocks that an operation may still add. -/
def OpState.reserve : OpState → Nat
  | .inOp added => MAXOPBLOCKS - added
  | _ => 0

theorem OpState.wakeup_reserve (x : OpState) : x.wakeup.reserve = x.reserve := by cases x <;> rfl

theorem OpState.reserve_le (x : OpState) : x.reserve ≤ x.weight * MAXOPBLOCKS := by
  cases x <;> simp [reserve, weight, isOp]

/-- The callers add no more than `MAXOPBLOCKS` blocks in an operation. They may log a block again,
but not while the log is full: `log_write` panics before it looks for the block. -/
def Thrifty (start : Nat) (s : LogState P) (a : LogAct P) : Prop :=
  LogOk start s a ∧ ∀ p b, a = .logWrite p b →
    0 < (s.proc p).reserve ∨ (b ∈ s.lh ∧ s.lh.length < LOGBLOCKS)

section
variable [DecidableEq P] [Fintype P] {start : Nat} {s t : LogState P} {a : LogAct P} {p : P}

/-- What is in the log and what may still be added fit into it. -/
def Reserved (s : LogState P) : Prop :=
  s.lh.length + ∑ p, (s.proc p).reserve ≤ LOGBLOCKS

omit [DecidableEq P] in
theorem sum_reserve_le (hr : Roles s) :
    ∑ p, (s.proc p).reserve ≤ s.outstanding * MAXOPBLOCKS := by
  rw [← hr.count, Finset.sum_mul]
  exact Finset.sum_le_sum fun p _ => (s.proc p).reserve_le

omit [DecidableEq P] in
theorem Reserved.idle (hr : Roles s) (hk : Kept start s) (h0 : s.outstanding = 0) :
    Reserved s := by
  have hsum := sum_reserve_le hr
  rw [h0, Nat.zero_mul] at hsum
  rw [Reserved, Nat.le_zero.1 hsum]
  exact hk.lh.short

theorem Reserved.lower (h : Reserved s) {x : OpState} (hx : x.reserve ≤ (s.proc p).reserve) :
    s.lh.length + ∑ q, (Function.update s.proc p x q).reserve ≤ LOGBLOCKS := by
  have hsum := sum_update_weight s.proc p x OpState.reserve
  unfold Reserved at h
  omega

omit [DecidableEq P] in
theorem Roles.boot_idle (hr : Roles s) (hb : s.boot ≠ none) : s.outstanding = 0 := by
  rw [← hr.count]
  refine Finset.sum_eq_zero fun p _ => ?_
  rw [(hr.booting hb).2 p]
  rfl

omit [DecidableEq P] in
theorem Roles.outstanding_pos (hr : Roles s) (hp : (s.proc p).isOp = true) :
    0 < s.outstanding := by
  rw [Nat.pos_iff_ne_zero]
  intro h0
  rw [hr.no_op h0 p] at hp
  cases hp

omit [Fintype P] in
theorem CommitMove.outstanding {k : Stage} (ht : CommitMove start s p k t) :
    t.outstanding = s.outstanding := by cases ht <;> rfl

omit [DecidableEq P] [Fintype P] in
theorem OpState.add_reserve {x : OpState} (h : 0 < x.reserve) :
    x.add.reserve + 1 = x.reserve := by
  cases x with
  | inOp added =>
      simp only [add, reserve] at h ⊢
      omega
  | outside | asleep | woken | commits => cases h

theorem Reserved.step (h : Reserved s) (hr : Roles s) (hk : Kept start s)
    (hok : Thrifty start s a) (hm : LogMove start s a t) : Reserved t := by
  have hr' := hr.step hok.1 hm
  have hk' := hk.step hr hok.1 hm
  cases hm with
  | crash => exact .idle hr' hk' rfl
  | recover hboot ht =>
      have hsame : t.outstanding = s.outstanding := by cases ht <;> rfl
      exact .idle hr' hk' (hsame.trans (hr.boot_idle (by simp [hboot])))
  | commits hboot hc ht =>
      exact .idle hr' hk' (ht.outstanding.trans (hr.alone (by simp [hc])))
  | breads | modifies | brelses | tooBig | outsideTrans | absorbs | endPanics => exact h
  | sleeps hboot hp hfull => exact h.lower (Nat.zero_le _)
  | @enters p hboot hp hidle hroom =>
      have hsum := sum_update_weight s.proc p (.inOp 0) OpState.reserve
      have hle := sum_reserve_le hr
      have hnew : OpState.reserve (.inOp 0) = MAXOPBLOCKS := rfl
      change s.lh.length + ∑ q, (Function.update s.proc p (.inOp 0) q).reserve ≤ LOGBLOCKS
      rw [hnew] at hsum
      rw [Nat.add_mul, Nat.one_mul] at hroom
      omega
  | @adds p b hboot hheld hroom hmem =>
      have hsum := sum_update_weight s.proc p (s.proc p).add OpState.reserve
      have hadd := OpState.add_reserve ((hok.2 p b rfl).resolve_right fun hin => hmem hin.1)
      change (s.lh ++ [b]).length + ∑ q, (Function.update s.proc p (s.proc p).add q).reserve ≤
        LOGBLOCKS
      rw [List.length_append, List.length_singleton]
      unfold Reserved at h
      omega
  | endsLast hboot hp hidle hlast => exact h.lower (Nat.zero_le _)
  | @ends p added hboot hp hidle hmore =>
      refine le_of_eq_of_le ?_ (h.lower (p := p) (x := .outside) (Nat.zero_le _))
      exact congrArg _ (Finset.sum_congr rfl fun q _ => OpState.wakeup_reserve _)

/-- If every operation keeps to what it may log, none of the panics of the log is reached, in any
interleaving and through any crashes. -/
theorem log_never_panics (h : Reach (LogState.next start) (Thrifty start) (Started start) s) :
    s.panicked = none := by
  have hi : Roles s ∧ Kept start s ∧ Reserved s ∧ s.panicked = none := by
    refine Reach.inv (I := fun s => Roles s ∧ Kept start s ∧ Reserved s ∧ s.panicked = none)
      ?_ ?_ h
    · rintro s ⟨disk, hdisk, rfl⟩
      exact ⟨.reboot disk, .reboot hdisk, .idle (.reboot disk) (.reboot hdisk) rfl, rfl⟩
    · rintro s a t ⟨hr, hk, hres, hnone⟩ hok hn
      have hm := next_logMove hn
      refine ⟨hr.step hok.1 hm, hk.step hr hok.1 hm, hres.step hr hk hok hm, ?_⟩
      cases hm with
      | crash => rfl
      | recover hboot ht => cases ht <;> exact hnone
      | commits hboot hc ht => cases ht <;> exact hnone
      | sleeps | enters | breads | modifies | absorbs | adds | brelses | endsLast | ends =>
          exact hnone
      | @tooBig p b hboot hheld hfull =>
          rcases hok.2 p b rfl with hp | hp
          · have hle := le_sum (fun p => (s.proc p).reserve) p
            unfold Reserved at hres
            omega
          · exact absurd hp.2 (Nat.not_lt.2 hfull)
      | @outsideTrans p b hboot hheld hout =>
          exact absurd hout (Nat.pos_iff_ne_zero.1 (hr.outstanding_pos hok.1.2))
      | @endPanics p added hboot hp hbusy =>
          have hc := hr.no_commit (p := p) (by rw [hp]; rfl)
          rw [hr.busy, hc] at hbusy
          cases hbusy
  exact hi.2.2.2

/-- One block is in the log, in the middle of an operation, and is logged again. -/
theorem log_never_panics_logged :
    (logWrite (logWrite { beginOp (afterBoot Unit) () with
      held := Function.update (beginOp (afterBoot Unit) ()).held 46 (some ()) } () 46) ()
        46).panicked = none := by
  have hother : ∀ {s : LogState Unit} {a : LogAct Unit}, LogOk 2 s a →
      (∀ p b, a ≠ .logWrite p b) → Thrifty 2 s a := fun hd hne =>
    ⟨hd, fun p b h => absurd h (hne p b)⟩
  have h0 := reach_afterBoot (P := Unit) (Thrifty 2) fun _ => hother trivial (by simp)
  have h1 := Reach.step (l := LogAct.begin ()) h0 (hother trivial (by simp)) rfl
  have h2 := Reach.step (l := LogAct.bread () 46) h1 (hother trivial (by simp)) rfl
  have h3 := Reach.step (l := LogAct.logWrite () 46) h2
    ⟨⟨by decide, rfl⟩, fun p b h => by cases h; exact .inl (by decide)⟩ rfl
  have h4 := Reach.step (l := LogAct.logWrite () 46) h3
    ⟨⟨by decide, rfl⟩, fun p b h => by cases h; exact .inr (by decide)⟩ rfl
  exact log_never_panics h4

/-! ## Waiting in `begin_op` -/

/-- Why a process sleeps in `begin_op`. -/
def LogState.Full (s : LogState P) : Prop :=
  s.committing = true ∨ LOGBLOCKS < s.lh.length + (s.outstanding + 1) * MAXOPBLOCKS

structure Waits (s : LogState P) : Prop where
  full : ∀ p, s.proc p = .asleep → s.Full
  idle : s.boot = none → s.commit = none → s.outstanding = 0 → s.lh = []

omit [DecidableEq P] [Fintype P] in
theorem Waits.awake (hall : ∀ p, t.proc p ≠ .asleep)
    (hidle : t.boot = none → t.commit = none → t.outstanding = 0 → t.lh = []) : Waits t :=
  ⟨fun p hp => absurd hp (hall p), hidle⟩

theorem Waits.step (h : Waits s) (hr : Roles s) (hk : Kept start s) (hok : LogOk start s a)
    (hm : LogMove start s a t) : Waits t := by
  have hr' := hr.step hok hm
  cases hm with
  | crash => exact .awake (fun _ => by simp [LogState.reboot]) fun _ _ _ => rfl
  | @recover k t hboot ht =>
      have hproc : t.proc = s.proc := by cases ht <;> rfl
      refine .awake (fun p => ?_) fun hb _ _ => ?_
      · rw [hproc, (hr.booting (by simp [hboot])).2 p]
        simp
      · have hphase := (hk.booting k hboot).2
        cases ht with
        | erases => exact hphase.1
        | reads | installs | installed | clears => cases hb
  | commits hboot hc ht =>
      cases ht with
      | finishes =>
          exact .awake (fun _ => OpState.wakeup_ne_asleep _)
            fun _ _ _ => (hk.committing _ _ hc).1
      | nothing | begins | copies | copied | heads | installs | installed | clears | erases =>
          exact ⟨fun _ _ => .inl hr'.busy, fun _ hnone _ => by cases hnone⟩
  | breads | modifies | brelses | tooBig | outsideTrans | absorbs => exact ⟨h.full, h.idle⟩
  | sleeps hboot hp hfull => exact ⟨fun _ _ => hfull, h.idle⟩
  | @enters p hboot hp hidle hroom =>
      refine ⟨fun q hq => ?_, fun _ _ h0 => absurd h0 (Nat.succ_ne_zero _)⟩
      have hne : q ≠ p := by
        rintro rfl
        cases (setProc_self _).symm.trans hq
      -- The sleeper found less room than the one that enters, so the log is committing.
      rcases h.full q ((setProc_of_ne hne _).symm.trans hq) with hbusy | hfull
      · exact .inl hbusy
      · omega
  | @adds p b hboot hheld hroom hmem =>
      refine ⟨fun q hq => ?_, fun _ _ h0 => ?_⟩
      · have hold : s.proc q = .asleep := by
          by_cases hqp : q = p
          · subst hqp
            have hadd : (s.proc q).add = .asleep := (setProc_self _).symm.trans hq
            have hop := (OpState.add_isOp (s.proc q)).symm.trans (congrArg OpState.isOp hadd)
            cases hop.symm.trans hok.2
          · exact (setProc_of_ne hqp _).symm.trans hq
        rcases h.full q hold with hbusy | hfull
        · exact .inl hbusy
        · refine .inr (hfull.trans_le (Nat.add_le_add_right ?_ _))
          rw [List.length_append]
          exact Nat.le_add_right _ _
      · exact absurd h0 (Nat.pos_iff_ne_zero.1 (hr.outstanding_pos hok.2))
  | @endPanics p added hboot hp hbusy =>
      have hc := hr.no_commit (p := p) (by rw [hp]; rfl)
      rw [hr.busy, hc] at hbusy
      cases hbusy
  | endsLast hboot hp hidle hlast =>
      exact ⟨fun _ _ => .inl rfl, fun _ hc _ => by cases hc⟩
  | ends hboot hp hidle hmore =>
      exact .awake (fun _ => OpState.wakeup_ne_asleep _) fun _ _ h0 => absurd h0 hmore

/-- No wakeup of `begin_op` is lost: the reason for which a process sleeps still holds, and there is
an operation or a commit under way, at the end of which everybody is woken. -/
theorem begin_op_sleeper_has_waker
    (h : Reach (LogState.next start) (LogOk start) (Started start) s)
    (hp : s.proc p = .asleep) :
    s.Full ∧ ((∃ q k, s.commit = some (q, k)) ∨ ∃ q, (s.proc q).isOp = true) := by
  have hi : Roles s ∧ Kept start s ∧ Waits s := by
    refine Reach.inv (I := fun s => Roles s ∧ Kept start s ∧ Waits s) ?_ ?_ h
    · rintro s ⟨disk, hdisk, rfl⟩
      exact ⟨.reboot disk, .reboot hdisk,
        .awake (fun _ => by simp [LogState.reboot]) fun _ _ _ => rfl⟩
    · rintro s a t ⟨hr, hk, hw⟩ hok hn
      have hm := next_logMove hn
      exact ⟨hr.step hok hm, hk.step hr hok hm, hw.step hr hk hok hm⟩
  obtain ⟨hr, -, hw⟩ := hi
  have hfull := hw.full p hp
  refine ⟨hfull, ?_⟩
  have hboot : s.boot = none := by
    by_contra hb
    cases ((hr.booting hb).2 p).symm.trans hp
  by_cases hc : s.commit = none
  · right
    by_contra hno
    have h0 : s.outstanding = 0 := by
      rw [← hr.count]
      refine Finset.sum_eq_zero fun q _ => if_neg ?_
      exact fun hq => hno ⟨q, hq⟩
    rcases hfull with hbusy | hroom
    · rw [hr.busy, hc] at hbusy
      cases hbusy
    · rw [hw.idle hboot hc h0, h0] at hroom
      exact absurd hroom (by decide)
  · left
    obtain ⟨⟨q, k⟩, hk⟩ := Option.ne_none_iff_exists'.1 hc
    exact ⟨q, k, hk⟩

/-- Three operations are under way, and a fourth process waits. -/
theorem begin_op_sleeper_has_waker_fourth :
    let s := beginOp (beginOp (beginOp (beginOp (afterBoot (Fin 4)) 0) 1) 2) 3
    s.proc 3 = .asleep ∧
      (s.Full ∧ ((∃ q k, s.commit = some (q, k)) ∨ ∃ q, (s.proc q).isOp = true)) := by
  have h0 := reach_afterBoot (P := Fin 4) (LogOk 2) fun _ => trivial
  have h1 := Reach.step (l := LogAct.begin 0) h0 trivial rfl
  have h2 := Reach.step (l := LogAct.begin 1) h1 trivial rfl
  have h3 := Reach.step (l := LogAct.begin 2) h2 trivial rfl
  have h4 := Reach.step (l := LogAct.begin 3) h3 trivial rfl
  exact ⟨rfl, begin_op_sleeper_has_waker (p := 3) h4 rfl⟩

/-! ## What the log asks of the buffer cache -/

/-- The entries of the list from this one on are not installed yet. -/
def LogState.pinnedFrom (s : LogState P) : Nat :=
  match s.commit with
  | some (_, .install tail) => tail
  | some (_, .clear) => s.lh.length
  | _ => 0

def Pinned (s : LogState P) : Prop :=
  s.boot = none → ∀ i b, s.pinnedFrom ≤ i → s.lh[i]? = some b → 0 < s.pins b

omit [Fintype P] in
theorem Pinned.commit (h : Pinned s) (hk : Kept start s) (hboot : s.boot = none) {k : Stage}
    (hc : s.commit = some (p, k)) (ht : CommitMove start s p k t) : Pinned t := by
  have hold := h hboot
  intro _ i b hi hb
  cases ht with
  | nothing | begins | copies | copied | heads =>
      refine hold i b ?_ hb
      simp only [LogState.pinnedFrom, hc]
      exact Nat.zero_le i
  | @installs tail b' hb' =>
      have hlt := (List.getElem?_eq_some_iff.1 hb).1
      have hne : b ≠ b' := by
        rintro rfl
        have heq := (List.getElem?_inj hlt hk.lh.nodup).1 (hb.trans hb'.symm)
        change tail + 1 ≤ i at hi
        omega
      refine (hold i b ?_ hb).trans_eq (Function.update_of_ne hne _ _).symm
      simp only [LogState.pinnedFrom, hc]
      exact (Nat.le_succ tail).trans hi
  | installed =>
      exact absurd (List.getElem?_eq_some_iff.1 hb).1 (Nat.not_lt.2 hi)
  | clears => cases hb
  | erases | finishes =>
      have hlh : s.lh = [] := (hk.committing p _ hc).1
      have hb' : s.lh[i]? = some b := hb
      rw [hlh] at hb'
      cases hb'

theorem Pinned.step (h : Pinned s) (hr : Roles s) (hk : Kept start s)
    (hok : LogOk start s a) (hm : LogMove start s a t) : Pinned t := by
  cases hm with
  | crash => exact fun hboot => by cases hboot
  | @recover k t hboot ht =>
      intro hnone i b _ hb
      have hphase := (hk.booting k hboot).2
      cases ht with
      | erases =>
          have hb' : s.lh[i]? = some b := hb
          rw [hphase.1] at hb'
          cases hb'
      | reads | installs | installed | clears => cases hnone
  | commits hboot hc ht => exact h.commit hk hboot hc ht
  | sleeps | enters | breads | modifies | tooBig | outsideTrans | absorbs | brelses | endPanics
  | ends => exact h
  | @adds p b hboot hheld hroom hmem =>
      intro _ i b' hi hb'
      have hupdate : s.pins b' ≤ Function.update s.pins b (s.pins b + 1) b' := by
        by_cases hbb : b' = b
        · rw [hbb, Function.update_self]
          exact Nat.le_succ _
        · rw [Function.update_of_ne hbb]
      have hnone := hr.no_commit hok.2
      have hfrom : s.pinnedFrom ≤ i := by
        simp only [LogState.pinnedFrom, hnone]
        exact Nat.zero_le i
      by_cases hlt : i < s.lh.length
      · refine (h hboot i b' hfrom ?_).trans_le hupdate
        exact (List.getElem?_append_left hlt).symm.trans hb'
      · have hbb : b' = b := by
          have hlast := (List.getElem?_append_right (Nat.not_lt.1 hlt)).symm.trans hb'
          exact List.mem_singleton.1 (List.mem_of_getElem? hlast)
        subst hbb
        change 0 < Function.update s.pins b' (s.pins b' + 1) b'
        rw [Function.update_self]
        exact Nat.succ_pos _
  | @endsLast p added hboot hp hidle hlast =>
      intro _ i b hi hb
      have hnone := hr.no_commit (p := p) (by rw [hp]; rfl)
      refine h hboot i b ?_ hb
      simp only [LogState.pinnedFrom, hnone]
      exact Nat.zero_le i

omit [DecidableEq P] [Fintype P] in
theorem Kept.unclean (hk : Kept start s) (hclean : Clean start s) {b : Nat}
    (hb : s.mem b ≠ s.disk b) : (∃ i : Nat, s.lh[i]? = some b) ∨ s.dirty b = true := by
  by_contra hno
  rw [not_or, ← List.mem_iff_getElem?, Bool.not_eq_true] at hno
  by_cases hhome : Home start b
  · exact hb (hclean b hhome hno.1 hno.2)
  · exact hb (hk.log b hhome)

omit [DecidableEq P] [Fintype P] in
/-- In no phase of a commit is there a block that differs from the disk, is not still to be installed
and has not been modified since it was logged. -/
theorem CommitPhase.pending {k : Stage} (hk : Kept start s) (hc : s.commit = some (p, k))
    (hphase : CommitPhase start s k) {b : Nat} (hb : s.mem b ≠ s.disk b)
    (hclean : s.dirty b = false) : ∃ i, s.pinnedFrom ≤ i ∧ s.lh[i]? = some b := by
  have hlisted : Clean start s → ∃ i : Nat, s.lh[i]? = some b := fun hcl => by
    rcases hk.unclean hcl hb with hi | hdirty
    · exact hi
    · cases hclean.symm.trans hdirty
  cases k with
  | start =>
      obtain ⟨i, hi⟩ := hlisted hphase.2
      exact ⟨i, by simp [LogState.pinnedFrom, hc], hi⟩
  | writeLog | writeHead =>
      obtain ⟨i, hi⟩ := hlisted hphase.2.1
      exact ⟨i, by simp [LogState.pinnedFrom, hc], hi⟩
  | install tail =>
      obtain ⟨i, hi⟩ := hlisted hphase.2.1
      refine ⟨i, ?_, hi⟩
      simp only [LogState.pinnedFrom, hc]
      exact Nat.le_of_not_lt fun hlt => hb (hphase.2.2.2 i b hlt hi).symm
  | clear =>
      obtain ⟨i, hi⟩ := hlisted hphase.2.1
      have hlt := (List.getElem?_eq_some_iff.1 hi).1
      exact absurd (hphase.2.2.2 i b hlt hi).symm hb
  | erase | finish => exact absurd (hphase.2.1 b hclean) hb

theorem reach_pinned (h : Reach (LogState.next start) (LogOk start) (Started start) s) :
    Pinned s := by
  induction h with
  | start h0 =>
      obtain ⟨disk, -, rfl⟩ := h0
      exact fun hboot => by cases hboot
  | step hr hok hn ih =>
      obtain ⟨hroles, hkept⟩ := reach_kept hr
      exact ih.step hroles hkept hok (next_logMove hn)

/-- A block that differs from the disk is pinned or has been modified since it was last logged. If
the callers log what they modify before they release it, they still hold it, so that the cache
cannot lose it: this is the condition under which `bio.c` is a store of blocks. -/
theorem modified_blocks_stay_cached
    (h : Reach (LogState.next start) (LogOk start) (Started start) s) {b : Nat}
    (hb : s.mem b ≠ s.disk b) :
    (0 < s.pins b ∨ s.dirty b = true) ∧
      (Reach (LogState.next start) (Disciplined start) (Started start) s →
        0 < s.pins b ∨ ∃ p, s.held b = some p) := by
  obtain ⟨hr, hk⟩ := reach_kept h
  have hpin : 0 < s.pins b ∨ s.dirty b = true := by
    cases hd : s.dirty b with
    | true => exact .inr rfl
    | false =>
        left
        cases hboot : s.boot with
        | some k => exact absurd (congrFun (hk.booting k hboot).1 b) hb
        | none =>
            cases hc : s.commit with
            | none =>
                rcases hk.unclean (hk.running hboot hc).2 hb with ⟨i, hi⟩ | hdirty
                · exact reach_pinned h hboot i b (by simp [LogState.pinnedFrom, hc]) hi
                · cases hd.symm.trans hdirty
            | some x =>
                obtain ⟨i, hle, hi⟩ := (hk.committing x.1 x.2 hc).pending hk hc hb hd
                exact reach_pinned h hboot i b hle hi
  refine ⟨hpin, fun hdisc => ?_⟩
  rcases hpin with hpin | hdirty
  · exact .inl hpin
  · obtain ⟨q, hq, -⟩ := reach_saved hdisc b hdirty
    exact .inr ⟨q, hq⟩

theorem modified_blocks_stay_cached_inCommit :
    inCommit.mem 46 ≠ inCommit.disk 46 ∧
      (0 < inCommit.pins 46 ∨ inCommit.dirty 46 = true) ∧
      (0 < inCommit.pins 46 ∨ ∃ p, inCommit.held 46 = some p) := by
  have hne : inCommit.mem 46 ≠ inCommit.disk 46 := fun heq => absurd (congrFun heq 0) (by decide)
  obtain ⟨hpin, hheld⟩ := modified_blocks_stay_cached (reach_logOk reach_inCommit) hne
  exact ⟨hne, hpin, hheld reach_inCommit⟩

end

end G9OS.FileSys
