import G9OS.Mutex.Exclusion

/-! # Setting mutexes up

`mutex_init` looks for a slot with `valid = 0` and then stores into it, with nothing
that keeps the others out between the load and the last store. Two calls that load
`valid` before either has stored to it get the same slot, and a `mutex_lock` may win
the slot between `valid = 1` and the two stores that clear it. Where neither happens
every slot is handed out once and set up before anybody takes it.
-/

namespace G9OS.Mutex

open Lib

/-- The slot that a `mutex_init` has found unused and not returned yet. -/
def Pc.setup : Pc → Option (Fin MAX_MUTEXES)
  | .initValid i | .initLocked i | .initOwner i => some i
  | _ => none

section
variable {P : Type}

def MState.Taken (s : MState P) (p : P) (i : Fin MAX_MUTEXES) : Prop :=
  s.pc p = .lockOwner i ∨ s.held p i = true

/-- While a slot is being set up, no other scan finds it unused and no `mutex_lock` finds it
unlocked. -/
def Undisturbed (s : MState P) : Act P → Prop
  | .step p => ∀ q i, (s.pc q).setup = some i →
      ¬ (s.pc p = .initScan i ∧ (s.table i).valid = 0) ∧
      ¬ (s.pc p = .lockTry i ∧ (s.table i).locked = 0)
  | _ => True

instance [Fintype P] (s : MState P) (a : Act P) : Decidable (Undisturbed s a) :=
  match a with
  | .step p => inferInstanceAs (Decidable (∀ q i, (s.pc q).setup = some i →
      ¬ (s.pc p = .initScan i ∧ (s.table i).valid = 0) ∧
      ¬ (s.pc p = .lockTry i ∧ (s.table i).locked = 0)))
  | .init _ | .lock _ _ | .unlock _ _ => .isTrue trivial

/-- What is known of slot `i` from being unused to being handed out. -/
structure Fresh (s : MState P) (i : Fin MAX_MUTEXES) : Prop where
  one : ∀ p q, (s.pc p).setup = some i → (s.pc q).setup = some i → p = q
  apart : ∀ p q, (s.pc p).setup = some i → ¬ s.Taken q i
  new : ∀ p, (s.pc p).setup = some i → i ∉ s.inited
  marked : ∀ p, (s.pc p).setup = some i → s.pc p ≠ .initValid i → (s.table i).valid ≠ 0
  untried : (s.table i).valid = 0 → ∀ q, ¬ s.Taken q i ∧ s.pc q ≠ .lockTry i
  unused : (s.table i).valid = 0 → i ∉ s.inited

variable {s t : MState P} {p : P} {i : Fin MAX_MUTEXES} {n : Int}

theorem Fresh.frame (h : Fresh s i) (hv : (t.table i).valid = (s.table i).valid)
    (hset : ∀ q, (t.pc q).setup = some i → t.pc q = s.pc q)
    (htry : ∀ q, t.pc q = .lockTry i → s.pc q = .lockTry i ∨ (s.table i).valid ≠ 0)
    (htaken : ∀ q, t.Taken q i → s.Taken q i) (hin : i ∈ t.inited → i ∈ s.inited) : Fresh t i where
  one p q hp hq := h.one p q (hset p hp ▸ hp) (hset q hq ▸ hq)
  apart p q hp hq := h.apart p q (hset p hp ▸ hp) (htaken q hq)
  new p hp hi := h.new p (hset p hp ▸ hp) (hin hi)
  marked p hp hne := by
    rw [hv]
    exact h.marked p (hset p hp ▸ hp) (hset p hp ▸ hne)
  untried h0 q := by
    rw [hv] at h0
    refine ⟨fun hq => (h.untried h0 q).1 (htaken q hq), fun hq => ?_⟩
    rcases htry q hq with hq | hne
    · exact (h.untried h0 q).2 hq
    · exact hne h0
  unused h0 hi := h.unused (hv ▸ h0) (hin hi)

variable [DecidableEq P]

theorem Move.valid_eq (hm : Move n s p t) (hp : s.pc p ≠ .initValid i) :
    (t.table i).valid = (s.table i).valid := by
  cases hm with
  | @setValid j hpc =>
      have hj : i ≠ j := by
        rintro rfl
        exact hp hpc
      rw [MState.go_table, MState.store_table, if_neg hj]
  | clearLocked | spins | takes | clears =>
      rw [MState.go_table, MState.store_table]
      split <;> simp_all
  | clearOwner | owns | releases =>
      simp only [MState.finish_table, MState.setHeld_table, MState.store_table]
      split <;> simp_all
  | _ => rfl

theorem Fresh.quiet (h : Fresh s i) (hm : Move n s p t)
    (hp : s.pc p ≠ .initValid i) (hset : (t.pc p).setup ≠ some i)
    (htry : t.pc p = .lockTry i → s.pc p = .lockTry i ∨ (s.table i).valid ≠ 0)
    (htaken : t.pc p = .lockOwner i → s.Taken p i) (hheld : t.held p i = true → s.Taken p i)
    (hin : i ∈ t.inited → i ∈ s.inited) : Fresh t i := by
  refine h.frame (hm.valid_eq hp) (fun q hq => ?_) (fun q hq => ?_) (fun q hq => ?_) hin
  · refine hm.pc_others ?_
    rintro rfl
    exact hset hq
  · by_cases hqp : q = p
    · subst hqp
      exact htry hq
    · exact .inl (hm.pc_others hqp ▸ hq)
  · by_cases hqp : q = p
    · subst hqp
      exact hq.elim htaken hheld
    · unfold MState.Taken at hq ⊢
      rwa [hm.pc_others hqp, hm.held_others hqp] at hq

/-- A step inside the stores of one `mutex_init`, which stays inside them. -/
theorem Fresh.storing (h : Fresh s i) (hm : Move n s p t) (hs : (s.pc p).setup = some i)
    (ht : (t.pc p).setup = some i) (hv : (t.table i).valid ≠ 0) (hheld : t.held p i = s.held p i)
    (hin : t.inited = s.inited) : Fresh t i := by
  have hother : ∀ q, (t.pc q).setup = some i → q = p := by
    intro q hq
    by_contra hqp
    rw [hm.pc_others hqp] at hq
    exact hqp (h.one q p hq hs)
  refine ⟨fun q r hq hr => (hother q hq).trans (hother r hr).symm, fun q r hq hr => ?_,
    fun q _ => hin ▸ h.new p hs, fun _ _ _ => hv, fun h0 => absurd h0 hv, fun h0 => absurd h0 hv⟩
  refine h.apart p r hs ?_
  by_cases hrp : r = p
  · subst hrp
    rcases hr with hr | hr
    · rw [hr] at ht
      cases ht
    · exact .inr (hheld ▸ hr)
  · unfold MState.Taken at hr ⊢
    rwa [hm.pc_others hrp, hm.held_others hrp] at hr

theorem Fresh.begins (h : Fresh s i) (hm : Move n s p t) (ht : t.pc p = .initValid i)
    (hheld : t.held p i = s.held p i) (hin : t.inited = s.inited) (hv : (s.table i).valid = 0)
    (hno : ∀ q, (s.pc q).setup ≠ some i) : Fresh t i := by
  have hother : ∀ q, (t.pc q).setup = some i → q = p := by
    intro q hq
    by_contra hqp
    rw [hm.pc_others hqp] at hq
    exact hno q hq
  have htaken : ∀ q, ¬ t.Taken q i := by
    intro q hq
    refine (h.untried hv q).1 ?_
    by_cases hqp : q = p
    · subst hqp
      rw [MState.Taken, ht, hheld] at hq
      exact .inr (hq.resolve_left nofun)
    · rwa [MState.Taken, hm.pc_others hqp, hm.held_others hqp] at hq
  refine ⟨fun q r hq hr => (hother q hq).trans (hother r hr).symm, fun _ r _ => htaken r,
    fun _ _ => hin ▸ h.unused hv, fun q hq hne => absurd (hother q hq ▸ ht) hne,
    fun _ q => ⟨htaken q, fun hq => ?_⟩, fun _ => hin ▸ h.unused hv⟩
  by_cases hqp : q = p
  · subst hqp
    cases hq.symm.trans ht
  · exact (h.untried hv q).2 (hm.pc_others hqp ▸ hq)

omit [DecidableEq P] in
theorem Fresh.settled (hv : (t.table i).valid ≠ 0) (hno : ∀ q, (t.pc q).setup ≠ some i) :
    Fresh t i :=
  ⟨fun q _ hq => absurd hq (hno q), fun q _ hq => absurd hq (hno q), fun q hq => absurd hq (hno q),
    fun q hq => absurd hq (hno q), fun h0 => absurd h0 hv, fun h0 => absurd h0 hv⟩

theorem Fresh.step (h : Fresh s i) (hm : Move n s p t)
    (hfound : s.pc p = .initScan i → (s.table i).valid = 0 → ∀ q, (s.pc q).setup ≠ some i)
    (htakes : s.pc p = .lockTry i → (s.table i).locked = 0 → ∀ q, (s.pc q).setup ≠ some i) :
    Fresh t i := by
  have hm' := hm
  cases hm with
  | enterInit hpc | enterLock hpc | enterUnlock hpc | scanned hpc | mayUnlock hpc | clears hpc =>
      exact h.quiet hm' (by simp [hpc]) (by simp [MState.go_pc, Pc.setup]) (by simp [MState.go_pc])
        (by simp [MState.go_pc]) .inr id
  | badId hpc | full hpc | lockInvalid hpc | unlockInvalid hpc | notOwner hpc | releases hpc =>
      exact h.quiet hm' (by simp [hpc]) (by simp [MState.finish_pc, Pc.setup])
        (by simp [MState.finish_pc]) (by simp [MState.finish_pc]) .inr id
  | gives hpc =>
      refine h.quiet hm' (by simp [hpc]) (by simp [MState.go_pc, Pc.setup]) (by simp [MState.go_pc])
        (by simp [MState.go_pc]) (fun hq => ?_) id
      rw [MState.go_held, MState.setHeld_held] at hq
      split at hq
      · cases hq
      · exact .inr hq
  | spins hpc =>
      refine h.quiet hm' (by simp [hpc]) (by simp [MState.go_pc, Pc.setup])
        (fun hj => .inl ?_) (by simp [MState.go_pc]) .inr id
      rwa [MState.go_pc, if_pos rfl, ← hpc] at hj
  | mayTry hpc hv =>
      refine h.quiet hm' (by simp [hpc]) (by simp [MState.go_pc, Pc.setup]) (fun hj => ?_)
        (by simp [MState.go_pc]) .inr id
      rw [MState.go_pc, if_pos rfl] at hj
      cases hj
      exact .inr hv
  | @found j hpc hv =>
      by_cases hj : j = i
      · subst hj
        exact h.begins hm' (by rw [MState.go_pc, if_pos rfl]) rfl rfl hv (hfound hpc hv)
      · exact h.quiet hm' (by simp [hpc]) (by simp [MState.go_pc, Pc.setup, hj])
          (by simp [MState.go_pc]) (by simp [MState.go_pc]) .inr id
  | @setValid j hpc =>
      by_cases hj : j = i
      · subst hj
        exact h.storing hm' (by rw [hpc]; rfl) (by rw [MState.go_pc, if_pos rfl]; rfl)
          (by rw [MState.go_table, MState.store_table, if_pos rfl]; exact one_ne_zero) rfl rfl
      · exact h.quiet hm' (by simp [hpc, hj]) (by simp [MState.go_pc, Pc.setup, hj])
          (by simp [MState.go_pc]) (by simp [MState.go_pc]) .inr id
  | @clearLocked j hpc =>
      by_cases hj : j = i
      · subst hj
        refine h.storing hm' (by rw [hpc]; rfl) (by rw [MState.go_pc, if_pos rfl]; rfl) ?_ rfl rfl
        rw [hm'.valid_eq (by simp [hpc])]
        exact h.marked p (by rw [hpc]; rfl) (by rw [hpc]; exact nofun)
      · exact h.quiet hm' (by simp [hpc]) (by simp [MState.go_pc, Pc.setup, hj])
          (by simp [MState.go_pc]) (by simp [MState.go_pc]) .inr id
  | @clearOwner j hpc =>
      by_cases hj : j = i
      · subst hj
        have hs : (s.pc p).setup = some j := by rw [hpc]; rfl
        refine Fresh.settled ?_ fun q hq => ?_
        · rw [hm'.valid_eq (by simp [hpc])]
          exact h.marked p hs (by rw [hpc]; exact nofun)
        · by_cases hqp : q = p
          · subst hqp
            simp [MState.finish_pc, Pc.setup] at hq
          · rw [hm'.pc_others hqp] at hq
            exact hqp (h.one q p hq hs)
      · exact h.quiet hm' (by simp [hpc]) (by simp [MState.finish_pc, Pc.setup])
          (by simp [MState.finish_pc]) (by simp [MState.finish_pc]) .inr
          fun hi => (List.mem_cons.1 hi).resolve_left (Ne.symm hj)
  | @takes j hpc hl =>
      by_cases hj : j = i
      · subst hj
        refine Fresh.settled ?_ fun q hq => ?_
        · rw [hm'.valid_eq (by simp [hpc])]
          exact fun h0 => (h.untried h0 p).2 hpc
        · by_cases hqp : q = p
          · subst hqp
            simp [MState.go_pc, Pc.setup] at hq
          · rw [hm'.pc_others hqp] at hq
            exact htakes hpc hl q hq
      · exact h.quiet hm' (by simp [hpc]) (by simp [MState.go_pc, Pc.setup])
          (by simp [MState.go_pc]) (by simp [MState.go_pc, hj]) .inr id
  | @owns j hpc =>
      refine h.quiet hm' (by simp [hpc]) (by simp [MState.finish_pc, Pc.setup])
          (by simp [MState.finish_pc]) (by simp [MState.finish_pc]) (fun hq => ?_) id
      rw [MState.finish_held, MState.setHeld_held] at hq
      split at hq
      · rename_i hi
        exact .inl (hi.2 ▸ hpc)
      · exact .inr hq

variable {pid : P → Int}

/-- The condition on the steps, for the two steps it is about. -/
theorem Undisturbed.apart {a : Act P} (ha : Undisturbed s a) (hn : next pid s a = some t) {c : Pc}
    (hc : s.pc a.actor = c) (hidle : c ≠ .idle) {q : P} (hq : (s.pc q).setup = some i) :
    ¬ (c = .initScan i ∧ (s.table i).valid = 0) ∧ ¬ (c = .lockTry i ∧ (s.table i).locked = 0) := by
  rw [next_step hn (hc ▸ hidle)] at ha
  exact hc ▸ ha q i hq

theorem Fresh.next (h : Fresh s i) {a : Act P} (ha : Undisturbed s a)
    (hn : next pid s a = some t) : Fresh t i :=
  h.step (next_move hn)
    (fun hpc hv _ hq => (ha.apart hn hpc nofun hq).1 ⟨rfl, hv⟩)
    fun hpc hl _ hq => (ha.apart hn hpc nofun hq).2 ⟨rfl, hl⟩

theorem Move.inited_nodup (hm : Move n s p t) (h : ∀ i, Fresh s i) (hs : s.inited.Nodup) :
    t.inited.Nodup := by
  cases hm with
  | @clearOwner i hpc => exact List.nodup_cons.2 ⟨(h i).new p (by rw [hpc]; rfl), hs⟩
  | _ => exact hs

theorem fresh_of_reach (h : Reach (next pid) Undisturbed (· = MState.boot P) s) :
    (∀ i, Fresh s i) ∧ s.inited.Nodup := by
  refine h.inv (I := fun s => (∀ i, Fresh s i) ∧ s.inited.Nodup) ?_ fun s a t hs ha hn =>
    ⟨fun i => (hs.1 i).next ha hn, (next_move hn).inited_nodup hs.1 hs.2⟩
  rintro _ rfl
  refine ⟨fun i => ⟨nofun, nofun, nofun, nofun, fun _ q => ⟨?_, nofun⟩, nofun⟩, List.nodup_nil⟩
  rintro (hq | hq) <;> cases hq

/-- In runs whose steps disturb no `mutex_init`, the calls of `mutex_init` return different slots,
and none of them clears a slot that somebody holds. -/
theorem reachable_init_apart (h : Reach (next pid) Undisturbed (· = MState.boot P) s) :
    s.inited.Nodup ∧
    ∀ p q i, s.pc p = .initLocked i ∨ s.pc p = .initOwner i → s.held q i = false := by
  obtain ⟨hfresh, hnodup⟩ := fresh_of_reach h
  refine ⟨hnodup, fun p q i hp => Bool.eq_false_iff.2 fun hq => ?_⟩
  refine (hfresh i).apart p q ?_ (.inr hq)
  rcases hp with hp | hp <;> rw [hp] <;> rfl

end

/-- One `mutex_init` after the other. -/
theorem reachable_init_apart_two :
    ∃ s, Reach (next samplePid) Undisturbed (· = MState.boot (Fin 2)) s ∧ s.inited = [0] ∧
      s.pc 1 = .initLocked 1 ∧ s.inited.Nodup ∧ s.held 0 1 = false := by
  have hrun : Reach (next samplePid) Undisturbed (· = MState.boot (Fin 2)) _ :=
    replay_guarded_reach (.start rfl) (rfl : replay (guarded (next samplePid) Undisturbed)
      (MState.boot (Fin 2))
      [.init 0, .step 0, .step 0, .step 0, .step 0, .init 1, .step 1, .step 1, .step 1] = some _)
  obtain ⟨hnodup, hheld⟩ := reachable_init_apart hrun
  exact ⟨_, hrun, rfl, rfl, hnodup, hheld 1 0 1 (.inl rfl)⟩

/-- Two calls that both load `valid` before either stores to it return the same slot; and a
`mutex_lock` between `valid = 1` and `locked = 0` wins a slot that is then cleared under it. -/
theorem init_races :
    (∃ s, Reach (next samplePid) Free (· = MState.boot (Fin 2)) s ∧
      s.ret 0 = some 0 ∧ s.ret 1 = some 0 ∧ s.inited = [0, 0]) ∧
    ∃ s t, Reach (next samplePid) Free (· = MState.boot (Fin 2)) s ∧ s.pc 0 = .initLocked 0 ∧
      s.held 1 0 = true ∧ (s.table 0).locked = 1 ∧ next samplePid s (.step 0) = some t ∧
      t.held 1 0 = true ∧ (t.table 0).locked = 0 := by
  refine ⟨⟨_, replay_reach (.start rfl) (fun _ _ _ => trivial)
    (rfl : replay (next samplePid) (MState.boot (Fin 2))
      [.init 0, .step 0, .init 1, .step 1, .step 0, .step 0, .step 0, .step 1, .step 1, .step 1] =
        some _), rfl, rfl, rfl⟩, ?_⟩
  exact ⟨_, _, replay_reach (.start rfl) (fun _ _ _ => trivial)
    (rfl : replay (next samplePid) (MState.boot (Fin 2))
      [.init 0, .step 0, .step 0, .lock 1 0, .step 1, .step 1, .step 1] = some _),
    rfl, rfl, rfl, rfl, rfl, rfl⟩

/-! ## The slot that is asked for

`user.h` gives `mutex_init` an id, which `sys_mutex_init` does not read.
-/

section
variable {P : Type} [DecidableEq P]

def drive (pid : Int) (p : P) : Nat → MState P → Option (MState P)
  | 0, _ => none
  | fuel + 1, s => if s.pc p = .idle then some s else (access pid s p).bind (drive pid p fuel)

/-- A whole call of `mutex_init`: at most 17 loads and 3 stores. -/
def mutexInit (pid : P → Int) (s : MState P) (p : P) : Option (MState P) :=
  (next pid s (.init p)).bind (drive (pid p) p (MAX_MUTEXES + 5))

def FirstUnused (s : MState P) (i : Fin MAX_MUTEXES) : Prop :=
  (s.table i).valid = 0 ∧ ∀ j < i, (s.table j).valid ≠ 0

/-- A call of `mutex_init(id)` that does not fail makes slot `id` valid for good, and changes no
other slot. -/
def InitsSlot (pid : P → Int) (s : MState P) (p : P) (id : Fin MAX_MUTEXES) : Prop :=
  ∃ t r, mutexInit pid s p = some t ∧ t.ret p = some r ∧
    (0 ≤ r → (∀ j, j ≠ id → t.table j = s.table j) ∧
      ∀ u, Reach (next pid) Free (· = t) u → (u.table id).valid ≠ 0)

variable {s t : MState P} {p : P} {i : Fin MAX_MUTEXES} {pid : P → Int}

theorem drive_succ {n : Int} {fuel : Nat} (hpc : s.pc p ≠ .idle) (h : access n s p = some t) :
    drive n p (fuel + 1) s = drive n p fuel t := by
  rw [drive, if_neg hpc, h]
  rfl

theorem drive_stores (n : Int) (m : Nat) (hpc : s.pc p = .initValid i) :
    ∃ t, drive n p (m + 4) s = some t ∧ t.ret p = some (i : Int) ∧
      t.table = Function.update s.table i ⟨1, 0, 0⟩ := by
  have hvalid : access n s p =
      some ((s.store i fun m => { m with valid := 1 }).go p (.initLocked i)) := by
    rw [access, hpc]
  have hgo : ∀ (u : MState P) (c : Pc), (u.go p c).pc p = c := fun u c => by
    rw [MState.go_pc, if_pos rfl]
  rw [drive_succ (by simp [hpc]) hvalid,
    drive_succ (by simp [hgo]) (by rw [access, hgo]),
    drive_succ (by simp [hgo]) (by rw [access, hgo]),
    drive, if_pos (by rw [MState.finish_pc, if_pos rfl])]
  refine ⟨_, rfl, Function.update_self .., ?_⟩
  funext j
  simp only [MState.finish_table, MState.store_table, MState.go_table, Function.update_apply]
  split
  · simp
  · rfl

theorem drive_scan (n : Int) (k m : Nat) (hk : k ≤ i) (hpc : s.pc p = .initScan k)
    (h0 : (s.table i).valid = 0) (hbelow : ∀ j : Fin MAX_MUTEXES, k ≤ j → j < i →
      (s.table j).valid ≠ 0) :
    ∃ t, drive n p (i - k + m + 5) s = some t ∧ t.ret p = some (i : Int) ∧
      t.table = Function.update s.table i ⟨1, 0, 0⟩ := by
  obtain ⟨d, hd⟩ : ∃ d, d = i - k := ⟨_, rfl⟩
  have hlt : k < MAX_MUTEXES := hk.trans_lt i.isLt
  induction d generalizing s k with
  | zero =>
      obtain rfl : k = i := by omega
      have hfound : access n s p = some (s.go p (.initValid i)) := by
        rw [access, hpc]
        dsimp only
        rw [dif_pos hlt, if_pos h0]
      have hgo : (s.go p (.initValid i)).pc p = .initValid i := by rw [MState.go_pc, if_pos rfl]
      rw [drive_succ (by simp [hpc]) hfound]
      have hfuel : i - i + m + 4 = m + 4 := by omega
      rw [hfuel]
      exact drive_stores n m hgo
  | succ d ih =>
      have hvalid : (s.table ⟨k, hlt⟩).valid ≠ 0 :=
        hbelow ⟨k, hlt⟩ (le_refl _) (Fin.lt_def.2 (by show k < i; omega))
      have hnext : access n s p = some (s.go p (.initScan (k + 1))) := by
        rw [access, hpc]
        dsimp only
        rw [dif_pos hlt, if_neg hvalid]
      have hgo : (s.go p (.initScan (k + 1))).pc p = .initScan (k + 1) := by
        rw [MState.go_pc, if_pos rfl]
      have hfuel : i - k + m + 4 = i - (k + 1) + m + 5 := by omega
      rw [drive_succ (by simp [hpc]) hnext, hfuel]
      exact ih (k + 1) (by omega) hgo h0 (fun j hj => hbelow j (by omega)) (by omega) (by omega)

theorem drive_full (n : Int) (k m : Nat) (hk : k ≤ MAX_MUTEXES) (hpc : s.pc p = .initScan k)
    (hfull : ∀ j, (s.table j).valid ≠ 0) :
    ∃ t, drive n p (MAX_MUTEXES - k + m + 2) s = some t ∧ t.ret p = some (-1) ∧
      t.table = s.table := by
  obtain ⟨d, hd⟩ : ∃ d, d = MAX_MUTEXES - k := ⟨_, rfl⟩
  induction d generalizing s k with
  | zero =>
      have hend : access n s p = some (s.finish p (-1)) := by
        rw [access, hpc]
        dsimp only
        rw [dif_neg (by omega)]
      rw [drive_succ (by simp [hpc]) hend, drive,
        if_pos (by rw [MState.finish_pc, if_pos rfl])]
      exact ⟨_, rfl, Function.update_self .., rfl⟩
  | succ d ih =>
      have hlt : k < MAX_MUTEXES := by omega
      have hnext : access n s p = some (s.go p (.initScan (k + 1))) := by
        rw [access, hpc]
        dsimp only
        rw [dif_pos hlt, if_neg (hfull _)]
      have hgo : (s.go p (.initScan (k + 1))).pc p = .initScan (k + 1) := by
        rw [MState.go_pc, if_pos rfl]
      have hfuel : MAX_MUTEXES - k + m + 1 = MAX_MUTEXES - (k + 1) + m + 2 := by omega
      rw [drive_succ (by simp [hpc]) hnext, hfuel]
      exact ih (k + 1) hlt hgo hfull (by omega)

/-- The call takes the first slot that is not valid, whatever was asked for. -/
theorem mutexInit_first (pid : P → Int) (hp : s.pc p = .idle) (h : FirstUnused s i) :
    ∃ t, mutexInit pid s p = some t ∧ t.ret p = some (i : Int) ∧
      t.table = Function.update s.table i ⟨1, 0, 0⟩ := by
  have hgo : (s.go p (.initScan 0)).pc p = .initScan 0 := by rw [MState.go_pc, if_pos rfl]
  have hfuel : MAX_MUTEXES + 5 = i - 0 + (MAX_MUTEXES - i) + 5 := by omega
  rw [mutexInit, next, if_pos hp, Option.bind_some, hfuel]
  exact drive_scan (pid p) 0 _ (Nat.zero_le _) hgo h.1 fun j _ hj => h.2 j hj

theorem mutexInit_full (pid : P → Int) (hp : s.pc p = .idle) (hfull : ∀ j, (s.table j).valid ≠ 0) :
    ∃ t, mutexInit pid s p = some t ∧ t.ret p = some (-1) ∧ t.table = s.table := by
  have hgo : (s.go p (.initScan 0)).pc p = .initScan 0 := by rw [MState.go_pc, if_pos rfl]
  rw [mutexInit, next, if_pos hp, Option.bind_some]
  exact drive_full (pid p) 0 3 (Nat.zero_le _) hgo hfull

/-- A valid slot stays valid, whatever the processes do. -/
theorem valid_forever (ht : (t.table i).valid ≠ 0) {u : MState P}
    (h : Reach (next pid) Free (· = t) u) : (u.table i).valid ≠ 0 := by
  refine Reach.inv (I := fun u => (u.table i).valid ≠ 0) ?_ ?_ h
  · rintro _ rfl
    exact ht
  · intro u a v hu _ hn
    have hm := next_move hn
    by_cases hset : u.pc a.actor = .initValid i
    · cases hm with
      | @setValid j hpc =>
          rw [hset] at hpc
          cases hpc
          rw [MState.go_table, MState.store_table, if_pos rfl]
          exact one_ne_zero
      | _ => simp_all
    · rwa [hm.valid_eq hset]

omit [DecidableEq P] in
theorem exists_firstUnused (h : ¬ ∀ j, (s.table j).valid ≠ 0) : ∃ i, FirstUnused s i := by
  have hsome : ∃ k : Nat, ∃ hk : k < MAX_MUTEXES, (s.table ⟨k, hk⟩).valid = 0 := by
    by_contra hno
    exact h fun j hj => hno ⟨j, j.isLt, hj⟩
  classical
  obtain ⟨hk, h0⟩ := Nat.find_spec hsome
  refine ⟨⟨Nat.find hsome, hk⟩, h0, fun j hj hzero => ?_⟩
  exact Nat.find_min hsome (Fin.lt_def.1 hj) ⟨j.isLt, hzero⟩

/-- A call of `mutex_init(id)` sets up slot `id` and no other if and only if that slot is the
first one that is not valid, or none is left. -/
theorem mutexInit_id_iff (pid : P → Int) (s : MState P) (p : P) (hp : s.pc p = .idle)
    (id : Fin MAX_MUTEXES) :
    InitsSlot pid s p id ↔ FirstUnused s id ∨ ∀ j, (s.table j).valid ≠ 0 := by
  constructor
  · rintro ⟨t, r, hrun, hret, hslot⟩
    by_cases hfull : ∀ j, (s.table j).valid ≠ 0
    · exact .inr hfull
    · obtain ⟨i, hi⟩ := exists_firstUnused hfull
      obtain ⟨t', hrun', hret', htable⟩ := mutexInit_first pid hp hi
      cases hrun.symm.trans hrun'
      cases hret.symm.trans hret'
      by_cases hid : i = id
      · exact .inl (hid ▸ hi)
      · -- the slot that was taken is another one, and it has changed
        have hsame := (hslot (Int.natCast_nonneg _)).1 i hid
        rw [htable, Function.update_self] at hsame
        have hone := congrArg UMutex.valid hsame
        rw [hi.1] at hone
        cases hone
  · rintro (hfirst | hfull)
    · obtain ⟨t, hrun, hret, htable⟩ := mutexInit_first pid hp hfirst
      refine ⟨t, id, hrun, hret, fun _ => ⟨fun j hj => ?_, fun u hu => ?_⟩⟩
      · rw [htable, Function.update_of_ne hj]
      · refine valid_forever ?_ hu
        rw [htable, Function.update_self]
        exact one_ne_zero
    · obtain ⟨t, hrun, hret, -⟩ := mutexInit_full pid hp hfull
      exact ⟨t, -1, hrun, hret, fun h => absurd h (by decide)⟩

end

/-- The first `mutex_init(0)` after the boot, as in `mutextest.c`. -/
theorem mutexInit_id_iff_boot : InitsSlot samplePid (MState.boot (Fin 2)) 0 0 := by
  refine (mutexInit_id_iff samplePid (MState.boot (Fin 2)) 0 rfl 0).2 (.inl ⟨rfl, fun j hj => ?_⟩)
  exact absurd hj (Fin.not_lt_zero j)

/-- The first `mutex_init(5)` after the boot returns 0, and slot 5 is not valid: `mutex_lock(5)`
fails. -/
theorem init_ignores_id :
    ∃ s t, mutexInit samplePid (MState.boot (Fin 2)) 0 = some s ∧ s.ret 0 = some 0 ∧
      (s.table 5).valid = 0 ∧
      replay (next samplePid) s [.lock 0 5, .step 0] = some t ∧ t.ret 0 = some (-1) :=
  ⟨_, _, rfl, rfl, rfl, rfl, rfl⟩

end G9OS.Mutex
