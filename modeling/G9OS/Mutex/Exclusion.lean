import G9OS.Mutex.Machine

/-! # Mutual exclusion

Processes lock and unlock mutexes that were set up before. Between two steps each
slot is in one of five phases, told by its lock word, its `owner_pid` and the one
process that is concerned with it. Every step moves the slot it is about from one
phase to the next and leaves the phases of the other slots alone.
-/

namespace G9OS.Mutex

open Lib

/-- The slot whose lock word the process has taken and not released, as far as its place in
a call shows. -/
def Pc.busy : Pc → Option (Fin MAX_MUTEXES)
  | .lockOwner i | .unlockClear i | .unlockRelease i => some i
  | _ => none

def Pc.InInit : Pc → Prop
  | .initScan _ | .initValid _ | .initLocked _ | .initOwner _ => True
  | _ => False

section
variable {P : Type}

def MState.Owns (s : MState P) (p : P) (i : Fin MAX_MUTEXES) : Prop :=
  (s.pc p).busy = some i ∨ s.held p i = true

inductive Phase (pid : P → Int) (s : MState P) (i : Fin MAX_MUTEXES) : Prop
  | free : (s.table i).locked = 0 → (s.table i).ownerPid = 0 → (∀ q, ¬ s.Owns q i) →
      Phase pid s i
  | taking {p : P} : (s.table i).locked = 1 → (s.table i).ownerPid = 0 →
      s.pc p = .lockOwner i → s.held p i = false → (∀ q, s.Owns q i → q = p) → Phase pid s i
  | held {p : P} : (s.table i).locked = 1 → (s.table i).ownerPid = pid p →
      (s.pc p).busy ≠ some i → s.held p i = true → (∀ q, s.Owns q i → q = p) → Phase pid s i
  | clearing {p : P} : (s.table i).locked = 1 → (s.table i).ownerPid = pid p →
      s.pc p = .unlockClear i → s.held p i = false → (∀ q, s.Owns q i → q = p) → Phase pid s i
  | releasing {p : P} : (s.table i).locked = 1 → (s.table i).ownerPid = 0 →
      s.pc p = .unlockRelease i → s.held p i = false → (∀ q, s.Owns q i → q = p) → Phase pid s i

variable {pid : P → Int} {s t : MState P} {p q : P} {i j : Fin MAX_MUTEXES}

theorem Phase.locked_eq_one (h : Phase pid s i) (hl : (s.table i).locked ≠ 0) :
    (s.table i).locked = 1 := by
  cases h with
  | free h0 => exact absurd h0 hl
  | taking h1 | held h1 | clearing h1 | releasing h1 => exact h1

theorem Phase.only (h : Phase pid s i) (hp : s.Owns p i) (q : P) (hq : s.Owns q i) : q = p := by
  cases h with
  | free _ _ hno => exact absurd hp (hno p)
  | taking _ _ _ _ hu | held _ _ _ _ hu | clearing _ _ _ _ hu | releasing _ _ _ _ hu =>
      rw [hu p hp, hu q hq]

theorem Phase.not_held (h : Phase pid s i) (hb : (s.pc p).busy = some i) : s.held p i = false := by
  cases h with
  | free _ _ hno => exact absurd (.inl hb) (hno p)
  | taking _ _ _ hh hu | clearing _ _ _ hh hu | releasing _ _ _ hh hu => rwa [hu p (.inl hb)]
  | held _ _ hb' _ hu =>
      rw [← hu p (.inl hb)] at hb'
      exact absurd hb hb'

theorem Phase.locked_of_owns (h : Phase pid s i) (hp : s.Owns p i) : (s.table i).locked = 1 := by
  cases h with
  | free _ _ hno => exact absurd hp (hno p)
  | taking h1 | held h1 | clearing h1 | releasing h1 => exact h1

theorem Phase.owner_of_releasing (h : Phase pid s i) (hpc : s.pc p = .unlockRelease i) :
    (s.table i).ownerPid = 0 := by
  have hb : (s.pc p).busy = some i := by rw [hpc]; rfl
  cases h with
  | free _ ho | taking _ ho | releasing _ ho => exact ho
  | held _ _ hb' _ hu =>
      rw [← hu p (.inl hb)] at hb'
      exact absurd hb hb'
  | clearing _ _ hc _ hu =>
      rw [← hu p (.inl hb), hpc] at hc
      cases hc

theorem Phase.locked_of_owner (h : Phase pid s i) (ho : (s.table i).ownerPid ≠ 0) :
    (s.table i).locked = 1 := by
  cases h with
  | free _ h0 => exact absurd h0 ho
  | taking hl | held hl | clearing hl | releasing hl => exact hl

/-- The owner check of `mutex_unlock` lets the holder through and nobody else. -/
theorem Phase.held_of_owner (hinj : Function.Injective pid) (h0 : ∀ p, pid p ≠ 0)
    (h : Phase pid s i) (hpc : s.pc p = .unlockOwner i) (ho : (s.table i).ownerPid = pid p) :
    s.held p i = true := by
  cases h with
  | free _ hz | taking _ hz | releasing _ hz => exact absurd (ho.symm.trans hz) (h0 p)
  | held _ hn _ hheld => rwa [hinj (ho.symm.trans hn)]
  | clearing _ hn hc =>
      rw [← hinj (ho.symm.trans hn), hpc] at hc
      cases hc

theorem Phase.frame (h : Phase pid s i) (hl : (t.table i).locked = (s.table i).locked)
    (ho : (t.table i).ownerPid = (s.table i).ownerPid) (hh : ∀ q, t.held q i = s.held q i)
    (hothers : ∀ q, q ≠ p → t.pc q = s.pc q) (hp : (s.pc p).busy ≠ some i)
    (hp' : (t.pc p).busy ≠ some i) : Phase pid t i := by
  have howns : ∀ q, t.Owns q i → s.Owns q i := by
    rintro q (hb | hq)
    · have hqp : q ≠ p := by
        rintro rfl
        exact hp' hb
      rw [hothers q hqp] at hb
      exact .inl hb
    · exact .inr (hh q ▸ hq)
  have hpc : ∀ {q c}, s.pc q = c → c.busy = some i → t.pc q = c := by
    intro q c hq hc
    rw [hothers q, hq]
    rintro rfl
    exact hp (by rw [hq]; exact hc)
  cases h with
  | free h1 h2 h3 => exact .free (hl.trans h1) (ho.trans h2) fun q hq => h3 q (howns q hq)
  | @taking p' h1 h2 h3 h4 h5 =>
      exact .taking (hl.trans h1) (ho.trans h2) (hpc h3 rfl) ((hh p').trans h4)
        fun q hq => h5 q (howns q hq)
  | @held p' h1 h2 h3 h4 h5 =>
      refine .held (hl.trans h1) (ho.trans h2) ?_ ((hh p').trans h4) fun q hq => h5 q (howns q hq)
      by_cases hq : p' = p
      · rw [hq]
        exact hp'
      · rw [hothers p' hq]
        exact h3
  | @clearing p' h1 h2 h3 h4 h5 =>
      exact .clearing (hl.trans h1) (ho.trans h2) (hpc h3 rfl) ((hh p').trans h4)
        fun q hq => h5 q (howns q hq)
  | @releasing p' h1 h2 h3 h4 h5 =>
      exact .releasing (hl.trans h1) (ho.trans h2) (hpc h3 rfl) ((hh p').trans h4)
        fun q hq => h5 q (howns q hq)

end

section
variable {P : Type} [DecidableEq P] {pid : P → Int} {s t : MState P} {p : P}
  {i j : Fin MAX_MUTEXES}

theorem Pc.slot_of_busy {c : Pc} (h : c.busy = some i) : c.slot = some i := by
  cases c <;> simp_all [Pc.busy, Pc.slot]

theorem Move.busy_other {n : Int} (hm : Move n s p t) (hi : (s.pc p).slot ≠ some i) :
    (t.pc p).busy ≠ some i := by
  cases hm <;> simp_all [MState.go_pc, MState.finish_pc, Pc.slot, Pc.busy]

theorem Phase.elsewhere {n : Int} (h : Phase pid s i) (hm : Move n s p t)
    (hi : (s.pc p).slot ≠ some i) : Phase pid t i := by
  have htab := hm.table_other hi
  exact h.frame (by rw [htab]) (by rw [htab]) (fun _ => hm.held_other hi)
    (fun _ hq => hm.pc_others hq) (fun hb => hi (Pc.slot_of_busy hb)) (hm.busy_other hi)

theorem Phase.quiet {n : Int} (h : Phase pid s i) (hm : Move n s p t)
    (hl : (t.table i).locked = (s.table i).locked)
    (ho : (t.table i).ownerPid = (s.table i).ownerPid) (hheld : t.held = s.held)
    (hb : (s.pc p).busy ≠ some i) (hb' : (t.pc p).busy ≠ some i) : Phase pid t i :=
  h.frame hl ho (fun _ => by rw [hheld]) (fun _ hq => hm.pc_others hq) hb hb'

/-- After a step on slot `i` no process but `p` owns it, if none but `p` did before. -/
theorem Move.owns_of_owns {n : Int} (hm : Move n s p t) (hu : ∀ q, s.Owns q i → q = p)
    (hheld : ∀ q, q ≠ p → t.held q i = s.held q i) (q : P) (hq : t.Owns q i) : q = p := by
  by_contra hne
  apply hne
  apply hu q
  rcases hq with hb | hh
  · rw [hm.pc_others hne] at hb
    exact .inl hb
  · rw [hheld q hne] at hh
    exact .inr hh

/-- The steps on the slot itself, by processes whose owner check finds the holder only. -/
theorem Phase.step (h : Phase pid s i) (hm : Move (pid p) s p t) (hp : ¬ (s.pc p).InInit)
    (hown : s.pc p = .unlockOwner i → (s.table i).ownerPid = pid p → s.held p i = true) :
    Phase pid t i := by
  by_cases hi : (s.pc p).slot = some i
  case neg => exact h.elsewhere hm hi
  have hm' := hm
  cases hm with
  | enterInit hpc | enterLock hpc | enterUnlock hpc | badId hpc => rw [hpc] at hi; cases hi
  | scanned hpc | full hpc | found hpc | setValid hpc | clearLocked hpc | clearOwner hpc =>
      rw [hpc] at hp
      exact (hp trivial).elim
  | lockInvalid hpc | unlockInvalid hpc | notOwner hpc =>
      refine h.quiet hm' rfl rfl rfl (by rw [hpc]; exact nofun) ?_
      rw [MState.finish_pc, if_pos rfl]
      exact nofun
  | mayTry hpc | mayUnlock hpc =>
      refine h.quiet hm' rfl rfl rfl (by rw [hpc]; exact nofun) ?_
      rw [MState.go_pc, if_pos rfl]
      exact nofun
  | spins hpc hl =>
      rw [hpc] at hi
      cases hi
      have h1 := h.locked_eq_one hl
      refine h.quiet hm' ?_ ?_ rfl (by rw [hpc]; exact nofun) ?_
      · rw [MState.go_table, MState.store_table, if_pos rfl, h1]
      · rw [MState.go_table, MState.store_table, if_pos rfl]
      · rw [MState.go_pc, if_pos rfl]
        exact nofun
  | takes hpc hl =>
      rw [hpc] at hi
      cases hi
      cases h with
      | taking h1 | held h1 | clearing h1 | releasing h1 =>
          rw [h1] at hl
          cases hl
      | free _ ho hno =>
          refine .taking (p := p) ?_ ?_ ?_ ?_
            (hm'.owns_of_owns (fun q hq => absurd hq (hno q)) fun _ _ => rfl)
          · rw [MState.go_table, MState.store_table, if_pos rfl]
          · rw [MState.go_table, MState.store_table, if_pos rfl]
            exact ho
          · rw [MState.go_pc, if_pos rfl]
          · exact Bool.eq_false_iff.2 fun hh => hno p (.inr hh)
  | owns hpc =>
      rw [hpc] at hi
      cases hi
      have hb : (s.pc p).busy = some i := by rw [hpc]; rfl
      refine .held (p := p) ?_ ?_ ?_ ?_ (hm'.owns_of_owns (h.only (.inl hb)) fun q hq => ?_)
      · rw [MState.finish_table, MState.setHeld_table, MState.store_table, if_pos rfl]
        exact h.locked_of_owns (.inl hb)
      · rw [MState.finish_table, MState.setHeld_table, MState.store_table, if_pos rfl]
      · rw [MState.finish_pc, if_pos rfl]
        exact nofun
      · rw [MState.finish_held, MState.setHeld_held, if_pos ⟨rfl, rfl⟩]
      · rw [MState.finish_held, MState.setHeld_held, if_neg fun hc => hq hc.1]
        rfl
  | gives hpc ho =>
      rw [hpc] at hi
      cases hi
      have hheld := hown hpc ho
      refine .clearing (p := p) (h.locked_of_owns (.inr hheld)) ho ?_ ?_
        (hm'.owns_of_owns (h.only (.inr hheld)) fun q hq => ?_)
      · rw [MState.go_pc, if_pos rfl]
      · rw [MState.go_held, MState.setHeld_held, if_pos ⟨rfl, rfl⟩]
      · rw [MState.go_held, MState.setHeld_held, if_neg fun hc => hq hc.1]
  | clears hpc =>
      rw [hpc] at hi
      cases hi
      have hb : (s.pc p).busy = some i := by rw [hpc]; rfl
      refine .releasing (p := p) ?_ ?_ ?_ (h.not_held hb)
        (hm'.owns_of_owns (h.only (.inl hb)) fun _ _ => rfl)
      · rw [MState.go_table, MState.store_table, if_pos rfl]
        exact h.locked_of_owns (.inl hb)
      · rw [MState.go_table, MState.store_table, if_pos rfl]
      · rw [MState.go_pc, if_pos rfl]
  | releases hpc =>
      rw [hpc] at hi
      cases hi
      have hb : (s.pc p).busy = some i := by rw [hpc]; rfl
      refine .free ?_ ?_ fun q hq => ?_
      · rw [MState.finish_table, MState.store_table, if_pos rfl]
      · rw [MState.finish_table, MState.store_table, if_pos rfl]
        exact h.owner_of_releasing hpc
      · obtain rfl := hm'.owns_of_owns (h.only (.inl hb)) (fun _ _ => rfl) q hq
        rcases hq with hq | hq
        · rw [MState.finish_pc, if_pos rfl] at hq
          cases hq
        · rw [MState.finish_held, MState.store_held, h.not_held hb] at hq
          cases hq

/-! ## Runs -/

def NoInit (_ : MState P) : Act P → Prop
  | .init _ => False
  | _ => True

/-- All mutexes are free and all processes outside of the calls; any of the slots may have
been set up. -/
structure Ready (s : MState P) : Prop where
  idle : ∀ p, s.pc p = .idle
  free : ∀ i, (s.table i).locked = 0 ∧ (s.table i).ownerPid = 0
  none : ∀ p i, s.held p i = false

structure Phases (pid : P → Int) (s : MState P) : Prop where
  phase : ∀ i, Phase pid s i
  noInit : ∀ p, ¬ (s.pc p).InInit

omit [DecidableEq P] in
theorem Ready.phases (h : Ready s) : Phases pid s := by
  refine ⟨fun i => .free (h.free i).1 (h.free i).2 fun q hq => ?_,
    fun p => by rw [h.idle p]; exact id⟩
  rcases hq with hq | hq
  · rw [h.idle q] at hq
    cases hq
  · rw [h.none q i] at hq
    cases hq

theorem next_noInit {a : Act P} (ha : NoInit s a) (hn : next pid s a = some t)
    (hp : ¬ (s.pc a.actor).InInit) : ¬ (t.pc a.actor).InInit := by
  cases a with
  | init => exact absurd ha id
  | lock p id | unlock p id =>
      simp only [next, enter] at hn
      split at hn <;> cases hn
      split
      · simp [Act.actor, MState.finish_pc, Pc.InInit]
      · simp [Act.actor, MState.go_pc, Pc.InInit]
  | step p =>
      change ¬ (s.pc p).InInit at hp
      change ¬ (t.pc p).InInit
      cases access_move hn with
      | enterInit h => simp [next, access, h] at hn
      | scanned h | found h | setValid h | clearLocked h =>
          rw [h] at hp
          exact absurd trivial hp
      | enterLock | enterUnlock | mayTry | spins | takes | mayUnlock | gives | clears =>
          rw [MState.go_pc, if_pos rfl]
          exact id
      | _ =>
          rw [MState.finish_pc, if_pos rfl]
          exact id

theorem Phases.step (hinj : Function.Injective pid) (h0 : ∀ p, pid p ≠ 0) (h : Phases pid s)
    {a : Act P} (ha : NoInit s a) (hn : next pid s a = some t) : Phases pid t := by
  have hm := next_move hn
  refine ⟨fun i => (h.phase i).step hm (h.noInit _) fun hpc ho => ?_, fun q => ?_⟩
  · exact (h.phase i).held_of_owner hinj h0 hpc ho
  by_cases hq : q = a.actor
  · rw [hq]
    exact next_noInit ha hn (h.noInit _)
  · rw [hm.pc_others hq]
    exact h.noInit q

theorem phases_of_reach (hinj : Function.Injective pid) (h0 : ∀ p, pid p ≠ 0)
    (h : Reach (next pid) NoInit Ready s) : Phases pid s :=
  h.inv (fun _ hr => hr.phases) fun _ _ _ hp ha hn => hp.step hinj h0 ha hn

/-! ## Foreign unlocks -/

def During (p : P) (s : MState P) (a : Act P) : Prop :=
  NoInit s a ∧ (a.actor = p → s.pc p ≠ .idle)

/-- How many accesses a `mutex_unlock` may still make. -/
def Pc.unlockLeft : Pc → Nat
  | .unlockValid _ => 4
  | .unlockOwner _ => 3
  | .unlockClear _ => 2
  | .unlockRelease _ => 1
  | _ => 0

inductive Refused (s : MState P) (p : P) (i : Fin MAX_MUTEXES) : Prop
  | valid : s.pc p = .unlockValid i → s.held p i = false → Refused s p i
  | owner : s.pc p = .unlockOwner i → s.held p i = false → Refused s p i
  | done : s.pc p = .idle → s.ret p = some (-1) → Refused s p i

theorem Move.ret_others {n : Int} (hm : Move n s p t) (hq : q ≠ p) : t.ret q = s.ret q := by
  cases hm <;> simp [MState.go, MState.store, MState.setHeld, MState.finish, hq]

theorem Move.held_others {n : Int} (hm : Move n s p t) (hq : q ≠ p) : t.held q = s.held q := by
  funext j
  cases hm <;> simp [MState.setHeld_held, hq]

theorem Refused.other {n : Int} (h : Refused s p i) (hm : Move n s q t) (hq : p ≠ q) :
    Refused t p i := by
  cases h with
  | valid hpc hh => exact .valid (by rw [hm.pc_others hq, hpc]) (by rw [hm.held_others hq, hh])
  | owner hpc hh => exact .owner (by rw [hm.pc_others hq, hpc]) (by rw [hm.held_others hq, hh])
  | done hpc hr => exact .done (by rw [hm.pc_others hq, hpc]) (by rw [hm.ret_others hq, hr])

/-- The process itself loads `valid` and `owner_pid`, and returns -1. -/
theorem Refused.own (hinj : Function.Injective pid) (h0 : ∀ p, pid p ≠ 0) (hph : Phase pid s i)
    (h : Refused s p i) (hidle : s.pc p ≠ .idle) :
    ∃ t, next pid s (.step p) = some t ∧ t.table = s.table ∧
      (t.pc p).unlockLeft < (s.pc p).unlockLeft ∧ Refused t p i := by
  have hdone : Refused (s.finish p (-1)) p i :=
    .done (by simp [MState.finish_pc]) (by simp [MState.finish])
  cases h with
  | done hpc => exact absurd hpc hidle
  | valid hpc hh =>
      simp only [next, access, hpc]
      split
      · exact ⟨_, rfl, rfl, by simp [MState.finish_pc, Pc.unlockLeft], hdone⟩
      · exact ⟨_, rfl, rfl, by simp [MState.go_pc, Pc.unlockLeft],
          .owner (by simp [MState.go_pc]) hh⟩
  | owner hpc hh =>
      simp only [next, access, hpc]
      split
      · rename_i ho
        rw [hph.held_of_owner hinj h0 hpc ho] at hh
        cases hh
      · exact ⟨_, rfl, rfl, by simp [MState.finish_pc, Pc.unlockLeft], hdone⟩

/-- A `mutex_unlock` by a process that does not hold the mutex, from its beginning in `u`. -/
theorem refused_of_reach (hinj : Function.Injective pid) (h0 : ∀ p, pid p ≠ 0) {u v w : MState P}
    {id : Int} (hu : Phases pid u) (hfree : ∀ i, slotOf id = some i → u.held p i = false)
    (hv : next pid u (.unlock p id) = some v) (hw : Reach (next pid) (During p) (· = v) w) :
    ∃ i, Phases pid w ∧ Refused w p i := by
  have hvp := hu.step hinj h0 (a := .unlock p id) trivial hv
  have hrv : ∃ i, Refused v p i := by
    simp only [next, enter] at hv
    split at hv <;> cases hv
    split
    · exact ⟨0, .done (by simp [MState.finish_pc]) (by simp [MState.finish])⟩
    · rename_i i hi
      exact ⟨i, .valid (by simp [MState.go_pc]) (hfree i hi)⟩
  obtain ⟨i, hrv⟩ := hrv
  refine ⟨i, hw.inv (I := fun x => Phases pid x ∧ Refused x p i) ?_
    fun x a y hx ha hn => ⟨hx.1.step hinj h0 ha.1 hn, ?_⟩⟩
  · rintro _ rfl
    exact ⟨hvp, hrv⟩
  have hm := next_move hn
  by_cases hp : p = a.actor
  · have hidle := ha.2 hp.symm
    obtain ⟨z, hz, _, _, hr⟩ := hx.2.own hinj h0 (hx.1.phase i) hidle
    rw [next_step hn (hp ▸ hidle), ← hp, hz] at hn
    cases hn
    exact hr
  · exact hx.2.other hm hp

/-- Mutual exclusion: no two processes hold one mutex, and an owner is recorded only while the
lock word is set. A `mutex_unlock` by a process that does not hold the mutex leaves the table
alone in each of its few steps, whatever the others do meanwhile, and returns -1. -/
theorem reachable_exclusive (hinj : Function.Injective pid) (h0 : ∀ p, pid p ≠ 0)
    (h : Reach (next pid) NoInit Ready s) :
    (∀ i p q, s.held p i = true → s.held q i = true → p = q) ∧
    (∀ i, (s.table i).ownerPid ≠ 0 → (s.table i).locked = 1) ∧
    ∀ p id v, (∀ i, slotOf id = some i → s.held p i = false) →
      next pid s (.unlock p id) = some v →
      v.table = s.table ∧
      ∀ w, Reach (next pid) (During p) (· = v) w →
        w.pc p = .idle ∧ w.ret p = some (-1) ∨
        ∃ x, next pid w (.step p) = some x ∧ x.table = w.table ∧
          (x.pc p).unlockLeft < (w.pc p).unlockLeft := by
  have hph := phases_of_reach hinj h0 h
  refine ⟨fun i p q hp hq => (hph.phase i).only (.inr hq) p (.inr hp),
    fun i => (hph.phase i).locked_of_owner, fun p id v hfree hv => ⟨?_, fun w hw => ?_⟩⟩
  · simp only [next, enter] at hv
    split at hv <;> cases hv
    split <;> rfl
  · obtain ⟨i, hwp, hr⟩ := refused_of_reach hinj h0 hph hfree hv hw
    by_cases hidle : w.pc p = .idle
    · cases hr with
      | valid hpc | owner hpc => cases hidle.symm.trans hpc
      | done _ hret => exact .inl ⟨hidle, hret⟩
    · obtain ⟨x, hx, htab, hleft, _⟩ := hr.own hinj h0 (hwp.phase i) hidle
      exact .inr ⟨x, hx, htab, hleft⟩

end

def sampleReady : MState (Fin 2) :=
  ⟨fun _ => { valid := 1 }, fun _ => .idle, fun _ => none, fun _ _ => false, []⟩

theorem sampleReady_ready : Ready sampleReady :=
  ⟨fun _ => rfl, fun _ => ⟨rfl, rfl⟩, fun _ _ => rfl⟩

def samplePid (p : Fin 2) : Int := p + 1

/-- Process 0 holds mutex 3, and process 1 cannot give it up. -/
theorem reachable_exclusive_foreign :
    ∃ s v, Reach (next samplePid) NoInit Ready s ∧ s.held 0 3 = true ∧
      next samplePid s (.unlock 1 3) = some v ∧ v.table = s.table ∧
      ∀ w, Reach (next samplePid) (During 1) (· = v) w →
        w.pc 1 = .idle ∧ w.ret 1 = some (-1) ∨
        ∃ x, next samplePid w (.step 1) = some x ∧ x.table = w.table ∧
          (x.pc 1).unlockLeft < (w.pc 1).unlockLeft := by
  have hrun : Reach (next samplePid) NoInit Ready _ :=
    replay_reach (.start sampleReady_ready) (by
      intro l hl u
      simp only [List.mem_cons, List.not_mem_nil, or_false] at hl
      rcases hl with rfl | rfl | rfl | rfl <;> trivial)
      (rfl : replay (next samplePid) sampleReady [.lock 0 3, .step 0, .step 0, .step 0] = some _)
  have hinj : Function.Injective samplePid := by decide
  obtain ⟨_, _, hu⟩ := reachable_exclusive hinj (by decide) hrun
  obtain ⟨htab, hw⟩ := hu 1 3 _ (by
    intro i hi
    cases hi
    rfl) rfl
  exact ⟨_, _, hrun, rfl, rfl, htab, hw⟩

end G9OS.Mutex
