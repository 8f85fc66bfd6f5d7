import G9OS.Counter.Machine
import G9OS.Mutex.Init

/-! # Who is between `mutex_lock` and `mutex_unlock`

Where a worker is in its loop says where it is in the mutex calls and whether it holds
the mutex. Pids come and go while the program runs, so the owner recorded in the
table is compared with the pids of the workers only.
-/

namespace G9OS.Counter

open Lib Kernel Mutex

def Role.place : Role → Option Place
  | .looping _ _ place => some place
  | _ => none

/-- The next access of a process and whether it holds mutex `i`, for each place in the loop. -/
inductive Fits (i : Fin MAX_MUTEXES) : Option Place → Pc → Bool → Prop
  | outside {c : Pc} : c.slot ≠ some i → Fits i none c false
  | call : Fits i (some .call) .idle false
  | lockValid : Fits i (some .locking) (.lockValid i) false
  | lockTry : Fits i (some .locking) (.lockTry i) false
  | lockOwner : Fits i (some .locking) (.lockOwner i) false
  | locked : Fits i (some .locking) .idle true
  | load : Fits i (some .load) .idle true
  | store (reg : UInt32) : Fits i (some (.store reg)) .idle true
  | unlock : Fits i (some .unlock) .idle true
  | unlockValid : Fits i (some .unlocking) (.unlockValid i) true
  | unlockOwner : Fits i (some .unlocking) (.unlockOwner i) true
  | unlockClear : Fits i (some .unlocking) (.unlockClear i) false
  | unlockRelease : Fits i (some .unlocking) (.unlockRelease i) false
  | unlocked : Fits i (some .unlocking) .idle false

def Place.Critical : Place → Prop
  | .load | .store _ | .unlock => True
  | _ => False

section
variable {i : Fin MAX_MUTEXES} {o : Option Place} {c : Pc} {b : Bool}

theorem Fits.not_init (h : Fits i o c b) (hc : c.slot = some i) : ¬ c.InInit := by
  cases h with
  | outside hs => exact absurd hc hs
  | _ => exact id

theorem Fits.held_of_unlockOwner (h : Fits i o c b) (hc : c = .unlockOwner i) : b = true := by
  cases h with
  | outside hs =>
      rw [hc] at hs
      exact absurd rfl hs
  | unlockOwner => rfl
  | _ => cases hc

theorem Fits.place_of_owns (h : Fits i o c b) (hc : c.busy = some i ∨ b = true) : o ≠ none := by
  rintro rfl
  cases h with
  | outside hs =>
      rcases hc with hc | hc
      · exact hs (Pc.slot_of_busy hc)
      · cases hc

theorem Fits.held_of_critical {place : Place} (h : Fits i (some place) c b)
    (hp : place.Critical) : b = true := by
  cases h with
  | load | store | unlock => rfl
  | _ => exact hp.elim

theorem Fits.call_held (h : Fits i (some .call) c b) : b = false := by
  cases h
  rfl

theorem Fits.outside_held (h : Fits i none c b) : b = false := by
  cases h
  rfl

theorem Fits.call_idle (h : Fits i (some .call) c b) : Fits i none c b := by
  cases h
  exact .outside nofun

theorem Fits.idle_call (h : Fits i none c b) (hc : c = .idle) : Fits i (some .call) c b := by
  cases h
  rw [hc]
  exact .call

theorem Fits.locked_load (h : Fits i (some .locking) c b) (hc : c = .idle) :
    Fits i (some .load) c b := by
  cases h with
  | locked => exact .load
  | _ => cases hc

theorem Fits.load_store (h : Fits i (some .load) c b) (reg : UInt32) :
    Fits i (some (.store reg)) c b := by
  cases h
  exact .store reg

theorem Fits.store_unlock {reg : UInt32} (h : Fits i (some (.store reg)) c b) :
    Fits i (some .unlock) c b := by
  cases h
  exact .unlock

theorem Fits.unlocked_call (h : Fits i (some .unlocking) c b) (hc : c = .idle) :
    Fits i (some .call) c b := by
  cases h with
  | unlocked => exact .call
  | _ => cases hc

end

/-! ## One access -/

section
variable {P : Type} [DecidableEq P] {pid pid' : P → Int} {s t : MState P} {p q : P}
  {i : Fin MAX_MUTEXES} {o : Option Place}

theorem access_slot {n : Int} (hn : access n s p = some t) (hv : (s.table i).valid ≠ 0)
    (hs : (s.pc p).slot ≠ some i) : (t.pc p).slot ≠ some i := by
  have hidle : s.pc p ≠ .idle := fun hc => by
    rw [access, hc] at hn
    cases hn
  cases access_move hn with
  | enterInit hc | enterLock hc | enterUnlock hc | badId hc => exact absurd hc hidle
  | found hc h0 =>
      rw [MState.go_pc, if_pos rfl]
      intro hi
      cases hi
      exact hv h0
  | scanned =>
      rw [MState.go_pc, if_pos rfl]
      intro hi
      cases hi
  | setValid hc | clearLocked hc | mayTry hc | spins hc | takes hc | mayUnlock hc | gives hc
  | clears hc =>
      rw [MState.go_pc, if_pos rfl]
      rw [hc] at hs
      exact hs
  | _ =>
      rw [MState.finish_pc, if_pos rfl]
      intro hi
      cases hi

omit [DecidableEq P] in
theorem owner_of_held (h : Phase pid s i) (hp : s.held p i = true) :
    (s.table i).ownerPid = pid p := by
  cases h with
  | free _ _ hno => exact absurd (.inr hp) (hno p)
  | held _ ho _ _ hu => rw [hu p (.inr hp), ho]
  | taking _ _ _ hh hu | clearing _ _ _ hh hu | releasing _ _ _ hh hu =>
      rw [hu p (.inr hp), hh] at hp
      cases hp

theorem Fits.access (h : Fits i o (s.pc p) (s.held p i)) (hv : (s.table i).valid ≠ 0)
    (hph : Phase pid s i) (hn : Mutex.access (pid p) s p = some t) :
    Fits i o (t.pc p) (t.held p i) := by
  generalize hc : s.pc p = c at h
  generalize hb : s.held p i = b at h
  cases h with
  | outside hs =>
      rw [← hc] at hs
      rw [(access_move hn).held_other hs, hb]
      exact .outside (access_slot hn hv hs)
  | call | locked | load | store | unlock | unlocked =>
      rw [Mutex.access, hc] at hn
      cases hn
  | lockValid =>
      simp only [Mutex.access, hc, if_neg hv, Option.some.injEq] at hn
      rw [← hn, MState.go_pc, if_pos rfl, MState.go_held, hb]
      exact .lockTry
  | lockTry =>
      simp only [Mutex.access, hc, Option.some.injEq] at hn
      rw [← hn, MState.go_pc, if_pos rfl, MState.go_held, MState.store_held, hb]
      split
      · exact .lockOwner
      · exact .lockTry
  | lockOwner =>
      simp only [Mutex.access, hc, Option.some.injEq] at hn
      rw [← hn, MState.finish_pc, if_pos rfl, MState.finish_held, MState.setHeld_held,
        if_pos ⟨rfl, rfl⟩]
      exact .locked
  | unlockValid =>
      simp only [Mutex.access, hc, if_neg hv, Option.some.injEq] at hn
      rw [← hn, MState.go_pc, if_pos rfl, MState.go_held, hb]
      exact .unlockOwner
  | unlockOwner =>
      simp only [Mutex.access, hc, if_pos (owner_of_held hph hb), Option.some.injEq] at hn
      rw [← hn, MState.go_pc, if_pos rfl, MState.go_held, MState.setHeld_held, if_pos ⟨rfl, rfl⟩]
      exact .unlockClear
  | unlockClear =>
      simp only [Mutex.access, hc, Option.some.injEq] at hn
      rw [← hn, MState.go_pc, if_pos rfl, MState.go_held, MState.store_held, hb]
      exact .unlockRelease
  | unlockRelease =>
      simp only [Mutex.access, hc, Option.some.injEq] at hn
      rw [← hn, MState.finish_pc, if_pos rfl, MState.finish_held, MState.store_held, hb]
      exact .unlocked

theorem Fits.enter_foreign {id : Int} {c : Fin MAX_MUTEXES → Pc}
    (h : Fits i none (s.pc p) (s.held p i)) (hc : ∀ j, (c j).slot = some j)
    (hid : slotOf id ≠ some i) :
    Fits i none ((enter s p id c).pc p) ((enter s p id c).held p i) := by
  unfold enter
  split
  · rw [MState.finish_pc, if_pos rfl, MState.finish_held, h.outside_held]
    exact .outside nofun
  · rename_i j hj
    rw [MState.go_pc, if_pos rfl, MState.go_held, h.outside_held]
    refine .outside ?_
    rw [hc, ← hj]
    exact hid

/-! ## All processes -/

/-- The mutex is in one of its phases and everybody is where its place in the loop says. -/
structure Holding (i : Fin MAX_MUTEXES) (pid : P → Int) (s : MState P) (place : P → Option Place) :
    Prop where
  valid : (s.table i).valid ≠ 0
  phase : Phase pid s i
  fits : ∀ p, Fits i (place p) (s.pc p) (s.held p i)

variable {place place' : P → Option Place}

omit [DecidableEq P] in
/-- No two processes are between their `mutex_lock` and their `mutex_unlock`. -/
theorem Holding.only (h : Holding i pid s place) {a b : Place} (hp : place p = some a)
    (ha : a.Critical) (hq : place q = some b) (hb : b.Critical) : p = q := by
  have h1 := h.fits p
  have h2 := h.fits q
  rw [hp] at h1
  rw [hq] at h2
  exact h.phase.only (.inr (h2.held_of_critical hb)) p (.inr (h1.held_of_critical ha))

omit [DecidableEq P] in
theorem Holding.owns (h : Holding i pid s place) (ho : s.Owns p i) : place p ≠ none :=
  (h.fits p).place_of_owns ho

omit [DecidableEq P] in
theorem Holding.pids (h : Holding i pid s place) (hpid : ∀ p, place p ≠ none → pid' p = pid p) :
    Holding i pid' s place := by
  refine ⟨h.valid, ?_, h.fits⟩
  cases h.phase with
  | free h1 h2 h3 => exact .free h1 h2 h3
  | taking h1 h2 h3 h4 h5 => exact .taking h1 h2 h3 h4 h5
  | @held p' h1 h2 h3 h4 h5 =>
      exact .held h1 (h2.trans (hpid p' (h.owns (.inr h4))).symm) h3 h4 h5
  | @clearing p' h1 h2 h3 h4 h5 =>
      have ho : s.Owns p' i := .inl (by rw [h3]; rfl)
      exact .clearing h1 (h2.trans (hpid p' (h.owns ho)).symm) h3 h4 h5
  | releasing h1 h2 h3 h4 h5 => exact .releasing h1 h2 h3 h4 h5

theorem Holding.move (h : Holding i pid s place) (hm : Move (pid p) s p t)
    (hothers : ∀ q, q ≠ p → place' q = place q)
    (hp : Fits i (place' p) (t.pc p) (t.held p i)) : Holding i pid t place' := by
  refine ⟨?_, ?_, fun q => ?_⟩
  · by_cases hi : (s.pc p).slot = some i
    · have hno := (h.fits p).not_init hi
      rw [hm.valid_eq fun hc => hno (by rw [hc]; trivial)]
      exact h.valid
    · rw [hm.table_other hi]
      exact h.valid
  · by_cases hi : (s.pc p).slot = some i
    · exact h.phase.step hm ((h.fits p).not_init hi) fun hc _ => (h.fits p).held_of_unlockOwner hc
    · exact h.phase.elsewhere hm hi
  · by_cases hq : q = p
    · rw [hq]
      exact hp
    · rw [hm.pc_others hq, hm.held_others hq, hothers q hq]
      exact h.fits q

theorem Holding.access (h : Holding i pid s place) (hn : Mutex.access (pid p) s p = some t) :
    Holding i pid t place :=
  h.move (access_move hn) (fun _ _ => rfl) ((h.fits p).access h.valid h.phase hn)

omit [DecidableEq P] in
theorem slotOf_fin (i : Fin MAX_MUTEXES) : slotOf (i : Int) = some i := by
  unfold slotOf
  rw [dif_pos ⟨by omega, by omega⟩]
  simp

theorem Holding.enter {c : Fin MAX_MUTEXES → Pc} (h : Holding i pid s place)
    (hm : Move (pid p) s p (enter s p i c)) (hothers : ∀ q, q ≠ p → place' q = place q)
    (hp : Fits i (place' p) (c i) (s.held p i)) : Holding i pid (enter s p i c) place' := by
  refine h.move hm hothers ?_
  rw [Mutex.enter, slotOf_fin]
  dsimp only
  rw [MState.go_pc, if_pos rfl, MState.go_held]
  exact hp

theorem Holding.lock (h : Holding i pid s place) (hp : place p = some .call)
    (hothers : ∀ q, q ≠ p → place' q = place q) (hp' : place' p = some .locking)
    (hn : Mutex.next pid s (.lock p i) = some t) : Holding i pid t place' := by
  have hm := next_move hn
  have hf := h.fits p
  rw [hp] at hf
  simp only [Mutex.next] at hn
  split at hn <;> cases hn
  refine h.enter hm hothers ?_
  rw [hp', hf.call_held]
  exact .lockValid

theorem Holding.unlock (h : Holding i pid s place) (hp : place p = some .unlock)
    (hothers : ∀ q, q ≠ p → place' q = place q) (hp' : place' p = some .unlocking)
    (hn : Mutex.next pid s (.unlock p i) = some t) : Holding i pid t place' := by
  have hm := next_move hn
  have hf := h.fits p
  rw [hp] at hf
  simp only [Mutex.next] at hn
  split at hn <;> cases hn
  refine h.enter hm hothers ?_
  rw [hp', hf.held_of_critical trivial]
  exact .unlockValid

theorem Holding.foreign {a : Act P} (h : Holding i pid s place) (hp : place a.actor = none)
    (hid : ∀ p id, a = .lock p id ∨ a = .unlock p id → slotOf id ≠ some i)
    (hn : Mutex.next pid s a = some t) : Holding i pid t place := by
  have hm := next_move hn
  refine h.move hm (fun _ _ => rfl) ?_
  have hf := h.fits a.actor
  rw [hp] at hf ⊢
  cases a with
  | step p => exact hf.access h.valid h.phase hn
  | init p =>
      simp only [Mutex.next] at hn
      split at hn <;> cases hn
      have hb : s.held p i = false := hf.outside_held
      rw [Act.actor, MState.go_pc, if_pos rfl, MState.go_held, hb]
      exact .outside fun hi => by cases hi
  | lock p id =>
      have hne := hid p id (.inl rfl)
      simp only [Mutex.next] at hn
      split at hn <;> cases hn
      exact hf.enter_foreign (fun _ => rfl) hne
  | unlock p id =>
      have hne := hid p id (.inr rfl)
      simp only [Mutex.next] at hn
      split at hn <;> cases hn
      exact hf.enter_foreign (fun _ => rfl) hne

end

end G9OS.Counter
