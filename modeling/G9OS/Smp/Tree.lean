import G9OS.Smp.Seats

/-! # The process tree

`kfork` sets the parent of the new process in a critical section of its own, and `kexit`
hands the children over one by one. At every point between, a parent that is set is a
process that has been started and has not exited, and it was created before its child.
-/

namespace G9OS.Smp

open Lib Kernel Sched

def Active (p : Proc) : Prop := p.state = .sleeping ∨ p.state = .runnable ∨ p.state = .running

/-- How far an exiting process has handed over its children. -/
def Pc.handed : Pc → Option Nat
  | .exitLock _ => some 0
  | .exitReparent _ k => some k
  | .exitZombie _ => some NPROC
  | .wakeup _ _ next => next.handed
  | _ => none

/-- The new process of a `kfork` that has not set its parent yet. -/
def Pc.orphan : Pc → Option (Fin NPROC)
  | .forkFill np | .forkParent np => some np
  | .wakeup _ _ next => next.orphan
  | _ => none

/-- The new process of a `kfork` that has set its parent. -/
def Pc.adoptee : Pc → Option (Fin NPROC)
  | .forkReady np => some np
  | .wakeup _ _ next => next.adoptee
  | _ => none

theorem Pc.child_of_orphan {np : Fin NPROC} (v : Pc) (h : v.orphan = some np) :
    v.child = some np := by
  induction v with
  | forkFill | forkParent => exact h
  | wakeup _ _ _ ih => exact ih h
  | _ => cases h

theorem Pc.child_of_adoptee {np : Fin NPROC} (v : Pc) (h : v.adoptee = some np) :
    v.child = some np := by
  induction v with
  | forkReady => exact h
  | wakeup _ _ _ ih => exact ih h
  | _ => cases h

section
variable {C : Type}

structure Tree (s : World C) : Prop where
  parent : ∀ k q, (s.proc k).parent = some q → Active (s.proc q) ∧ s.serial q < s.serial k
  started : ∀ k, k ≠ s.initproc → (s.proc k).state ≠ .unused → (s.proc k).state ≠ .used →
    (s.proc k).parent ≠ none
  init : Active (s.proc s.initproc) ∧ (s.proc s.initproc).parent = none ∧
    s.serial s.initproc = 0
  unset : ∀ k, (s.proc k).state = .unused → (s.proc k).parent = none
  orphan : ∀ p np, (s.pc p).orphan = some np → (s.proc np).parent = none
  adoptee : ∀ p np, (s.pc p).adoptee = some np → (s.proc np).parent = some p
  younger : ∀ p np, (s.pc p).child = some np → s.serial p < s.serial np
  handed : ∀ p n, (s.pc p).handed = some n →
    p ≠ s.initproc ∧ ∀ j : Fin NPROC, j < n → (s.proc j).parent ≠ some p

structure Numbered (s : World C) : Prop where
  lt : ∀ k, (s.proc k).state ≠ .unused → s.serial k < s.made
  inj : ∀ j k, (s.proc j).state ≠ .unused → (s.proc k).state ≠ .unused →
    s.serial j = s.serial k → j = k
  first : 0 < s.made
  nextpid : s.made + 1 < 2 ^ 31 → s.nextpid = s.made + 1
  pid : s.made < 2 ^ 31 → ∀ k, (s.proc k).state ≠ .unused → (s.proc k).pid = s.serial k + 1

variable {s t : World C} {k p q np : Fin NPROC} {l : Label C} {v : Proc}

theorem Active.ne (h : Active v) : v.state ≠ .unused ∧ v.state ≠ .used ∧ v.state ≠ .zombie := by
  rcases h with h | h | h <;> rw [h] <;> exact ⟨nofun, nofun, nofun⟩

theorem wakeProc_parent (me : Option (Fin NPROC)) (chan : Chan) (i : Fin NPROC) (q : Proc) :
    (wakeProc me chan i q).parent = q.parent := by
  unfold wakeProc
  split <;> rfl

theorem Poke.apply_parent (what : Poke) (q : Proc) : (what.apply q).parent = q.parent := by
  cases what <;> rfl

theorem tickProc_parent (q : Proc) : (tickProc q).parent = q.parent := by
  unfold tickProc
  split <;> rfl

theorem SlotMove.active [DecidableEq C] (hf : Forking s) (hm : SlotMove s l t k v)
    (h : Active (s.proc k)) : Active v ∨ ∃ status, s.pc k = .exitZombie status := by
  obtain ⟨h1, h2, h3⟩ := h.ne
  cases hm with
  | same | unslept | adopted | reparented => exact .inl h
  | dispatched => exact .inl (.inr (.inr rfl))
  | yielded => exact .inl (.inr (.inl rfl))
  | slept => exact .inl (.inl rfl)
  | died _ hpc => exact .inr ⟨_, hpc⟩
  | claimed hu => exact absurd hu h1
  | unclaimed hpc => exact absurd (hf.used _ k (by rw [hpc]; rfl)) h2
  | readied => exact .inl (.inr (.inl rfl))
  | @woken me chan =>
      left
      rcases wakeProc_state me chan k (s.proc k) with he | ⟨-, -, he⟩
      · rwa [Active, he]
      · exact .inr (.inl he)
  | @poked _ _ what =>
      left
      rcases what.apply_state (s.proc k) with he | ⟨-, he⟩
      · rwa [Active, he]
      · exact .inr (.inl he)
  | reaped hz => exact absurd hz h3
  | charged => exact .inl (by rwa [Active, tickProc_state])

inductive ParentMove (s t : World C) (k : Fin NPROC) : Option (Fin NPROC) → Prop
  | same : ParentMove s t k (s.proc k).parent
  | cleared : (s.proc k).state = .zombie ∨ (∃ p, s.pc p = .forkFill k ∧ t.pc p = .user) →
      ParentMove s t k none
  | adopted {c : C} {p : Fin NPROC} : s.cpu c = .running p → s.pc p = .forkParent k →
      t.pc p = .forkReady k → ParentMove s t k (some p)
  | reparented {p : Fin NPROC} {status : Int} : s.pc p = .exitReparent status k →
      (s.proc k).parent = some p → ParentMove s t k (some s.initproc)

theorem SlotMove.parent_move [DecidableEq C] (hm : SlotMove s l t k v) :
    ParentMove s t k v.parent := by
  cases hm with
  | adopted hc hpc hpc' => exact .adopted hc hpc hpc'
  | reparented hpc hpar => exact .reparented hpc hpar
  | unclaimed hpc hpc' => exact .cleared (.inr ⟨_, hpc, hpc'⟩)
  | reaped hz => exact .cleared (.inl hz)
  | woken =>
      rw [wakeProc_parent]
      exact .same
  | poked =>
      rw [Poke.apply_parent]
      exact .same
  | charged =>
      rw [tickProc_parent]
      exact .same
  | _ => exact .same

variable [DecidableEq C] {c0 c : C}

theorem Move.serial (hm : Move c0 s l t) (hk : (s.proc k).state ≠ .unused) :
    t.serial k = s.serial k := by
  rcases hm.numbers with ⟨h, -⟩ | ⟨c, p, np, -, hu, rfl⟩
  · rw [h]
  · refine Function.update_of_ne ?_ _ _
    rintro rfl
    exact hk hu

/-! ## The steps -/

theorem Tree.parent_step (h : Tree s) (hf : Forking s) (hs : ∀ k, Seat s k) (hm : Move c0 s l t)
    (hq : (t.proc k).parent = some q) : Active (t.proc q) ∧ t.serial q < t.serial k := by
  have hkeep : Active (s.proc q) → (∀ status, s.pc q ≠ .exitZombie status) → Active (t.proc q) := by
    intro ha hpc
    exact ((hm.slot q).active hf ha).resolve_right fun ⟨status, hz⟩ => hpc status hz
  have hserial : Active (s.proc q) → (s.proc k).state ≠ .unused → s.serial q < s.serial k →
      t.serial q < t.serial k := by
    intro ha hk hlt
    rwa [hm.serial ha.ne.1, hm.serial hk]
  have hmove := (hm.slot k).parent_move
  rw [hq] at hmove
  generalize ho : some q = o at hmove
  cases hmove with
  | same =>
      obtain ⟨ha, hlt⟩ := h.parent k q ho.symm
      refine ⟨hkeep ha fun status hz => ?_, hserial ha (fun hu => ?_) hlt⟩
      · exact (h.handed q NPROC (by rw [hz]; rfl)).2 k k.isLt ho.symm
      · rw [h.unset k hu] at ho
        cases ho
  | cleared => cases ho
  | adopted hc hpc =>
      cases ho
      have hr := (hs q).running hc
      have hused := hf.used q k (by rw [hpc]; rfl)
      exact ⟨hkeep (.inr (.inr hr)) (by simp [hpc]), hserial (.inr (.inr hr)) (by simp [hused])
        (h.younger q k (by rw [hpc]; rfl))⟩
  | @reparented p status hpc hpar =>
      cases ho
      have hk : (s.proc k).state ≠ .unused := fun hu => by
        rw [h.unset k hu] at hpar
        cases hpar
      refine ⟨hkeep h.init.1 fun status hz => ?_, hserial h.init.1 hk ?_⟩
      · exact (h.handed _ NPROC (by rw [hz]; rfl)).1 rfl
      · rw [h.init.2.2]
        exact (Nat.zero_le _).trans_lt (h.parent k p hpar).2

theorem Tree.started_step (h : Tree s) (hs : ∀ k, Seat s k) (hm : Move c0 s l t)
    (hk : k ≠ s.initproc) (h1 : (t.proc k).state ≠ .unused) (h2 : (t.proc k).state ≠ .used) :
    (t.proc k).parent ≠ none := by
  have hstarted := h.started k hk
  have hslot := hm.slot k
  generalize t.proc k = v at hslot h1 h2
  cases hslot with
  | same | unslept => exact hstarted h1 h2
  | dispatched _ _ hr => exact hstarted (by simp [hr.1]) (by simp [hr.1])
  | yielded hc | slept hc | died hc =>
      have hr := (hs k).running hc
      exact hstarted (by simp [hr]) (by simp [hr])
  | claimed => exact absurd rfl h2
  | unclaimed | reaped => exact absurd rfl h1
  | adopted | reparented => exact nofun
  | readied hpc =>
      intro hn
      cases (h.adoptee _ k (by rw [hpc]; rfl)).symm.trans hn
  | @woken me chan =>
      rw [wakeProc_parent]
      rcases wakeProc_state me chan k (s.proc k) with he | ⟨-, he, -⟩
      · exact hstarted (he ▸ h1) (he ▸ h2)
      · exact hstarted (by simp [he]) (by simp [he])
  | @poked _ _ what =>
      rw [Poke.apply_parent]
      rcases what.apply_state (s.proc k) with he | ⟨he, -⟩
      · exact hstarted (he ▸ h1) (he ▸ h2)
      · exact hstarted (by simp [he]) (by simp [he])
  | charged =>
      rw [tickProc_parent]
      rw [tickProc_state] at h1 h2
      exact hstarted h1 h2

theorem Tree.init_step (h : Tree s) (hf : Forking s) (hm : Move c0 s l t) :
    Active (t.proc t.initproc) ∧ (t.proc t.initproc).parent = none ∧ t.serial t.initproc = 0 := by
  obtain ⟨ha, hp, h0⟩ := h.init
  rw [hm.initproc]
  refine ⟨((hm.slot _).active hf ha).resolve_right fun ⟨status, hz⟩ => ?_, ?_, ?_⟩
  · exact (h.handed _ NPROC (by rw [hz]; rfl)).1 rfl
  · have hmove := (hm.slot s.initproc).parent_move
    generalize (t.proc s.initproc).parent = o at hmove
    cases hmove with
    | same => exact hp
    | cleared => rfl
    | adopted _ hpc => exact absurd (hf.used _ _ (by rw [hpc]; rfl)) ha.ne.2.1
    | reparented _ hpar => cases hp.symm.trans hpar
  · rw [hm.serial ha.ne.1, h0]

theorem Tree.unset_step (h : Tree s) (hf : Forking s) (hm : Move c0 s l t)
    (hk : (t.proc k).state = .unused) : (t.proc k).parent = none := by
  have hslot := hm.slot k
  generalize t.proc k = v at hslot hk
  cases hslot with
  | same | unslept => exact h.unset k hk
  | dispatched | yielded | slept | died | claimed | readied => cases hk
  | unclaimed | reaped => rfl
  | adopted _ hpc =>
      cases (hf.used _ k (by rw [hpc]; rfl)).symm.trans hk
  | reparented _ hpar => cases (h.unset k hk).symm.trans hpar
  | @woken me chan =>
      rw [wakeProc_parent]
      rcases wakeProc_state me chan k (s.proc k) with he | ⟨-, -, he⟩
      · exact h.unset k (he ▸ hk)
      · cases he.symm.trans hk
  | @poked _ _ what =>
      rw [Poke.apply_parent]
      rcases what.apply_state (s.proc k) with he | ⟨-, he⟩
      · exact h.unset k (he ▸ hk)
      · cases he.symm.trans hk
  | charged =>
      rw [tickProc_parent]
      exact h.unset k (by rwa [tickProc_state] at hk)

omit [DecidableEq C] in
theorem PcStep.orphan {v : Pc} (h : PcStep s p v) (hv : v.orphan = some np) :
    (s.pc p).orphan = some np := by
  obtain ⟨chan, j, hpc⟩ := h.from_wakeup (v.child_of_orphan hv)
  rw [hpc]
  exact hv

omit [DecidableEq C] in
theorem PcStep.adoptee {v : Pc} (h : PcStep s p v) (hv : v.adoptee = some np) :
    (s.pc p).adoptee = some np := by
  obtain ⟨chan, j, hpc⟩ := h.from_wakeup (v.child_of_adoptee hv)
  rw [hpc]
  exact hv

theorem ProcMove.orphan (hm : ProcMove s c p t) (h : (t.pc q).orphan = some np) :
    (s.pc q).orphan = some np ∨ (s.proc np).state = .unused := by
  by_cases hq : q = p
  · subst hq
    cases hm with
    | goes hs | goesLock hs => exact .inl (hs.orphan (by simpa using h))
    | yields | sleeps => exact .inl h
    | waitSleeps | dies | fillFails | adopts | readies | reparents | reaps | pokes =>
        simp [World.leave, World.die, World.reap, Pc.orphan] at h
    | @claims k _ _ hu =>
        have hk : k = np := by simpa [World.claim, Pc.orphan] using h
        exact .inr (hk ▸ hu)
    | filled hpc | wakes hpc =>
        rw [hpc]
        left
        simpa [Pc.orphan] using h
  · rcases hm.pc_others hq with he | ⟨-, he⟩
    · exact .inl (he ▸ h)
    · rw [he] at h
      cases h

theorem ProcMove.adoptee (hm : ProcMove s c p t) (h : (t.pc q).adoptee = some np) :
    (s.pc q).adoptee = some np ∨ (t.proc np).parent = some q := by
  by_cases hq : q = p
  · subst hq
    cases hm with
    | goes hs | goesLock hs => exact .inl (hs.adoptee (by simpa using h))
    | yields | sleeps => exact .inl h
    | waitSleeps | dies | fillFails | filled | claims | readies | reparents | reaps | pokes =>
        simp [World.leave, World.die, World.reap, World.claim, Pc.adoptee] at h
    | @adopts k hpc =>
        have hk : k = np := by simpa [Pc.adoptee] using h
        subst hk
        exact .inr (by simp)
    | wakes hpc =>
        rw [hpc]
        left
        simpa [Pc.adoptee] using h
  · rcases hm.pc_others hq with he | ⟨-, he⟩
    · exact .inl (he ▸ h)
    · rw [he] at h
      cases h

omit [DecidableEq C] in
/-- Nobody but its maker sets or clears the parent of a process in the making. -/
theorem ParentMove.making {o : Option (Fin NPROC)} (hf : Forking s) (hm : ParentMove s t np o)
    (hp : (s.pc p).child = some np) (ht : (t.pc p).child = some np) :
    o = (s.proc np).parent ∨ s.pc p = .forkParent np ∧ t.pc p = .forkReady np ∨
      ∃ q status, s.pc q = .exitReparent status np ∧ (s.proc np).parent = some q := by
  have hused := hf.used p np hp
  cases hm with
  | same => exact .inl rfl
  | cleared h =>
      rcases h with hz | ⟨q, hpc, hpc'⟩
      · cases hused.symm.trans hz
      · obtain rfl := hf.one p q np hp (by rw [hpc]; rfl)
        rw [hpc'] at ht
        cases ht
  | @adopted _ q _ hpc hpc' =>
      obtain rfl := hf.one p q np hp (by rw [hpc]; rfl)
      exact .inr (.inl ⟨hpc, hpc'⟩)
  | reparented hpc hpar => exact .inr (.inr ⟨_, _, hpc, hpar⟩)

theorem Tree.orphan_step (h : Tree s) (hf : Forking s) (hm : Move c0 s l t)
    (hp : (t.pc p).orphan = some np) : (t.proc np).parent = none := by
  have hslot := (hm.slot np).parent_move
  have hold : (s.pc p).orphan = some np ∨ (s.proc np).state = .unused := by
    cases hm with
    | proc _ _ hm => exact hm.orphan hp
    | _ => exact .inl hp
  rcases hold with hold | hu
  · have hnone := h.orphan p np hold
    rcases hslot.making hf (Pc.child_of_orphan _ hold) (Pc.child_of_orphan _ hp) with
      he | ⟨-, he⟩ | ⟨q, status, -, he⟩
    · rw [he, hnone]
    · rw [he] at hp
      cases hp
    · cases hnone.symm.trans he
  · have hnone := h.unset np hu
    generalize (t.proc np).parent = o at hslot
    cases hslot with
    | same => exact hnone
    | cleared => rfl
    | adopted _ hpc => cases hu.symm.trans (hf.used _ np (by rw [hpc]; rfl))
    | reparented _ hpar => cases hnone.symm.trans hpar

theorem Tree.adoptee_step (h : Tree s) (hf : Forking s) (hm : Move c0 s l t)
    (hp : (t.pc p).adoptee = some np) : (t.proc np).parent = some p := by
  have hold : (s.pc p).adoptee = some np ∨ (t.proc np).parent = some p := by
    cases hm with
    | proc _ _ hm => exact hm.adoptee hp
    | _ => exact .inl hp
  rcases hold with hold | hnew
  · have hpar := h.adoptee p np hold
    rcases ((hm.slot np).parent_move).making hf (Pc.child_of_adoptee _ hold)
        (Pc.child_of_adoptee _ hp) with he | ⟨he, -⟩ | ⟨q, status, hpc, he⟩
    · rw [he, hpar]
    · rw [he] at hold
      cases hold
    · cases hpar.symm.trans he
      rw [hpc] at hold
      cases hold
  · exact hnew

theorem Tree.younger_step (h : Tree s) (hf : Forking s) (hs : ∀ k, Seat s k) (hn : Numbered s)
    (hm : Move c0 s l t) (hp : (t.pc p).child = some np) : t.serial p < t.serial np := by
  rcases hm.child hp with hold | ⟨hu, c, ch, -, hc, rfl⟩
  · have hnp := hm.serial (k := np) (by simp [hf.used p np hold])
    have hpp : t.serial p = s.serial p := by
      rcases hm.numbers with ⟨he, -⟩ | ⟨c, q, j, hc, hu, rfl⟩
      · rw [he]
      · refine Function.update_of_ne (fun hpj => ?_) _ _
        -- the slot that is claimed has no thread inside `kfork`
        subst hpj
        have hne : p ≠ q := by
          rintro rfl
          cases hu.symm.trans ((hs p).running hc)
        simp [World.claim, hne, Pc.child] at hp
    rw [hnp, hpp]
    exact h.younger p np hold
  · have hr := (hs p).running hc
    have hne : p ≠ np := by
      rintro rfl
      cases hu.symm.trans hr
    have hlt := hn.lt p (by simp [hr])
    simpa [World.claim, hne] using hlt

omit [DecidableEq C] in
theorem PcStep.handed {v : Pc} {n : Nat} (h : Tree s) (hm : PcStep s p v) (hv : v.handed = some n) :
    p ≠ s.initproc ∧ ∀ j : Fin NPROC, j < n → (s.proc j).parent ≠ some p := by
  cases hm with
  | @enters x _ ha =>
      cases x with
      | exit =>
          cases hv
          exact ⟨ha.1, fun j hj => absurd hj (Nat.not_lt_zero _)⟩
      | _ => cases hv
  | exitLocks hpc =>
      cases hv
      exact h.handed p 0 (by rw [hpc]; rfl)
  | @exitSkips _ k hpc hpar =>
      cases hv
      obtain ⟨h1, h2⟩ := h.handed p k (by rw [hpc]; rfl)
      refine ⟨h1, fun j hj => ?_⟩
      rcases Nat.lt_succ_iff_lt_or_eq.1 hj with hj | hj
      · exact h2 j hj
      · rw [Fin.ext hj]
        exact hpar
  | exitScanned hpc hk =>
      cases hv
      obtain ⟨h1, h2⟩ := h.handed p _ (by rw [hpc]; rfl)
      exact ⟨h1, fun j hj => h2 j (hj.trans_le hk)⟩
  | woken hpc =>
      refine h.handed p n ?_
      rw [hpc]
      exact hv
  | _ => cases hv

theorem ProcMove.handed {n : Nat} (h : Tree s) (hm : ProcMove s c p t)
    (hv : (t.pc q).handed = some n) :
    q ≠ s.initproc ∧ ∀ j : Fin NPROC, j < n →
      (s.proc j).parent ≠ some q ∨ (t.proc j).parent = some s.initproc := by
  have hsame : (s.pc q).handed = some n → q ≠ s.initproc ∧ ∀ j : Fin NPROC, j < n →
      (s.proc j).parent ≠ some q ∨ (t.proc j).parent = some s.initproc := fun hq =>
    ⟨(h.handed q n hq).1, fun j hj => .inl ((h.handed q n hq).2 j hj)⟩
  by_cases hq : q = p
  · subst hq
    cases hm with
    | goes hs | goesLock hs =>
        obtain ⟨h1, h2⟩ := hs.handed h (by simpa using hv)
        exact ⟨h1, fun j hj => .inl (h2 j hj)⟩
    | yields | sleeps => exact hsame hv
    | waitSleeps | dies | claims | fillFails | filled | adopts | readies | reaps | pokes =>
        simp [World.leave, World.die, World.reap, World.claim, Pc.handed] at hv
    | @reparents _ k hpc =>
        obtain rfl : (k : Nat) + 1 = n := by simpa [Pc.handed] using hv
        obtain ⟨h1, h2⟩ := h.handed q k (by rw [hpc]; rfl)
        refine ⟨h1, fun j hj => ?_⟩
        rcases Nat.lt_succ_iff_lt_or_eq.1 hj with hj | hj
        · exact .inl (h2 j hj)
        · obtain rfl := Fin.ext hj
          exact .inr (by simp)
    | wakes hpc =>
        refine hsame ?_
        rw [hpc]
        simpa [Pc.handed] using hv
  · rcases hm.pc_others hq with he | ⟨-, he⟩
    · exact hsame (he ▸ hv)
    · rw [he] at hv
      cases hv

theorem Tree.handed_step {n : Nat} (h : Tree s) (hm : Move c0 s l t)
    (hp : (t.pc p).handed = some n) :
    p ≠ t.initproc ∧ ∀ j : Fin NPROC, j < n → (t.proc j).parent ≠ some p := by
  have hold : p ≠ s.initproc ∧ ∀ j : Fin NPROC, j < n →
      (s.proc j).parent ≠ some p ∨ (t.proc j).parent = some s.initproc := by
    cases hm with
    | proc _ _ hm => exact hm.handed h hp
    | _ => exact ⟨(h.handed p n hp).1, fun j hj => .inl ((h.handed p n hp).2 j hj)⟩
  rw [hm.initproc]
  refine ⟨hold.1, fun j hj hpar => ?_⟩
  have hmove := (hm.slot j).parent_move
  rw [hpar] at hmove
  generalize ho : some p = o at hmove
  cases hmove with
  | same =>
      rcases hold.2 j hj with hne | he
      · exact hne ho.symm
      · exact hold.1 (Option.some_inj.1 (hpar.symm.trans he))
  | cleared => cases ho
  | adopted _ _ hpc' =>
      cases ho
      rw [hpc'] at hp
      cases hp
  | reparented =>
      cases ho
      exact hold.1 rfl

theorem Tree.step (h : Tree s) (hf : Forking s) (hs : ∀ k, Seat s k) (hn : Numbered s)
    (hm : Move c0 s l t) : Tree t where
  parent _ _ hq := h.parent_step hf hs hm hq
  started _ hk h1 h2 := h.started_step hs hm (hm.initproc ▸ hk) h1 h2
  init := h.init_step hf hm
  unset _ hk := h.unset_step hf hm hk
  orphan _ _ hp := h.orphan_step hf hm hp
  adoptee _ _ hp := h.adoptee_step hf hm hp
  younger _ _ hp := h.younger_step hf hs hn hm hp
  handed _ _ hp := h.handed_step hm hp

/-! ## Numbers and pids -/

/-- A slot that is in use after a section was in use before, under the same pid, or it has been
claimed. -/
theorem SlotMove.in_use (hs : Seat s k) (hf : Forking s) (hm : SlotMove s l t k v)
    (hv : v.state ≠ .unused) :
    (s.proc k).state ≠ .unused ∧ v.pid = (s.proc k).pid ∨ ∃ c p, t = s.claim c p k := by
  cases hm with
  | same | unslept => exact .inl ⟨hv, rfl⟩
  | dispatched _ _ hr => exact .inl ⟨by simp [hr.1], rfl⟩
  | yielded hc | slept hc | died hc => exact .inl ⟨by simp [hs.running hc], rfl⟩
  | claimed _ _ ht => exact .inr ⟨_, _, ht⟩
  | unclaimed | reaped => exact absurd rfl hv
  | adopted _ hpc => exact .inl ⟨hv, rfl⟩
  | readied hpc => exact .inl ⟨by simp [hf.used _ k (by rw [hpc]; rfl)], rfl⟩
  | reparented => exact .inl ⟨hv, rfl⟩
  | @woken me chan =>
      refine .inl ⟨?_, ?_⟩
      · rcases wakeProc_state me chan k (s.proc k) with he | ⟨-, he, -⟩
        · exact he ▸ hv
        · simp [he]
      · unfold wakeProc
        split <;> rfl
  | @poked _ _ what =>
      refine .inl ⟨?_, by cases what <;> rfl⟩
      rcases what.apply_state (s.proc k) with he | ⟨he, -⟩
      · exact he ▸ hv
      · simp [he]
  | charged =>
      refine .inl ⟨tickProc_state _ ▸ hv, ?_⟩
      unfold tickProc
      split <;> rfl

omit [DecidableEq C] in
theorem Numbered.keep (h : Numbered s) (hserial : t.serial = s.serial) (hmade : t.made = s.made)
    (hpid : t.nextpid = s.nextpid) (huse : ∀ k, (t.proc k).state ≠ .unused →
      (s.proc k).state ≠ .unused ∧ (t.proc k).pid = (s.proc k).pid) : Numbered t where
  lt k hk := by
    rw [hserial, hmade]
    exact h.lt k (huse k hk).1
  inj j k hj hk := by
    rw [hserial]
    exact h.inj j k (huse j hj).1 (huse k hk).1
  first := hmade ▸ h.first
  nextpid := by
    rw [hmade, hpid]
    exact h.nextpid
  pid hm k hk := by
    rw [(huse k hk).2, hserial]
    exact h.pid (hmade ▸ hm) k (huse k hk).1

omit [DecidableEq C] in
theorem Numbered.claim (h : Numbered s) (c : C) (p np : Fin NPROC) :
    Numbered (s.claim c p np) := by
  have hserial : ∀ k, k ≠ np → (s.claim c p np).serial k = s.serial k ∧
      (s.claim c p np).proc k = s.proc k := fun k hk => by simp [World.claim, hk]
  have hself : (s.claim c p np).serial np = s.made ∧
      ((s.claim c p np).proc np).pid = s.nextpid := by simp [World.claim, claimed]
  have hmade : (s.claim c p np).made = s.made + 1 := rfl
  have hbelow : ∀ k, k ≠ np → ((s.claim c p np).proc k).state ≠ .unused →
      (s.claim c p np).serial k < s.made := by
    intro k hk hst
    rw [(hserial k hk).2] at hst
    rw [(hserial k hk).1]
    exact h.lt k hst
  refine ⟨fun k hk => ?_, fun j k hj hk he => ?_, by omega, fun hlt => ?_, fun hle k hk => ?_⟩
  · by_cases hkn : k = np
    · rw [hkn, hself.1]
      omega
    · have := hbelow k hkn hk
      omega
  · by_cases hjn : j = np
    · by_cases hkn : k = np
      · rw [hjn, hkn]
      · have := hbelow k hkn hk
        rw [hjn, hself.1] at he
        omega
    · by_cases hkn : k = np
      · have := hbelow j hjn hj
        rw [hkn, hself.1] at he
        omega
      · rw [(hserial j hjn).1, (hserial k hkn).1] at he
        exact h.inj j k ((hserial j hjn).2 ▸ hj) ((hserial k hkn).2 ▸ hk) he
  · have hnext := h.nextpid (by omega)
    show int32 (s.nextpid + 1) = _
    rw [hnext, hmade, int32_of_range (by omega) (by omega)]
    push_cast
    rfl
  · by_cases hkn : k = np
    · rw [hkn, hself.1, hself.2]
      exact h.nextpid (by omega)
    · rw [(hserial k hkn).1, (hserial k hkn).2]
      exact h.pid (by omega) k ((hserial k hkn).2 ▸ hk)

theorem Numbered.step (h : Numbered s) (hf : Forking s) (hs : ∀ k, Seat s k)
    (hm : Move c0 s l t) : Numbered t := by
  rcases hm.numbers with ⟨h1, h2, h3⟩ | ⟨c, p, np, -, -, rfl⟩
  · refine h.keep h1 h2 h3 fun k hk => ((hm.slot k).in_use (hs k) hf hk).resolve_right ?_
    rintro ⟨c, p, rfl⟩
    exact absurd h2 (by simp [World.claim])
  · exact h.claim c p np

/-! ## Runs -/

omit [DecidableEq C] in
theorem boot_tree : Numbered (World.boot C) ∧ Tree (World.boot C) := by
  have hother : ∀ k, k ≠ 0 → (World.boot C).proc k = {} := fun k hk => by simp [World.boot, hk]
  have huse : ∀ k, ((World.boot C).proc k).state ≠ .unused → k = 0 := by
    intro k hk
    by_contra hne
    rw [hother k hne] at hk
    exact hk rfl
  have hpar : ∀ k, ((World.boot C).proc k).parent = none := by
    intro k
    by_cases hk : k = 0
    · subst hk
      rfl
    · rw [hother k hk]
  refine ⟨⟨fun _ _ => Nat.one_pos, fun j k hj hk _ => (huse j hj).trans (huse k hk).symm,
    Nat.one_pos, fun _ => rfl, fun _ k hk => by rw [huse k hk]; rfl⟩,
    ⟨fun k q hq => ?_, fun k hk h1 => absurd (huse k h1) hk, ⟨.inr (.inl rfl), rfl, rfl⟩,
      fun k _ => hpar k, fun _ _ h => ?_, fun _ _ h => ?_, fun _ _ h => ?_, fun _ _ h => ?_⟩⟩
  · cases (hpar k).symm.trans hq
  -- every process is at user code
  all_goals cases h

theorem tree_of_reach {ok : World C → Label C → Prop}
    (h : Reach (next c0) ok (· = World.boot C) s) : Numbered s ∧ Tree s := by
  induction h with
  | start hb =>
      rw [hb]
      exact boot_tree
  | step hr _ hn ih =>
      obtain ⟨hs, hf⟩ := placed_of_reach hr
      exact ⟨ih.1.step hf hs (next_move hn), ih.2.step hf hs ih.1 (next_move hn)⟩

/-- The process `n` steps up from `k`. -/
def ancestor (s : World C) : Nat → Fin NPROC → Option (Fin NPROC)
  | 0, k => some k
  | n + 1, k => (s.proc k).parent.bind (ancestor s n)

omit [DecidableEq C] in
theorem Tree.ancestor_older (h : Tree s) {n : Nat} (hn : ancestor s n k = some q) :
    s.serial q + n ≤ s.serial k := by
  induction n generalizing k with
  | zero =>
      cases hn
      exact le_rfl
  | succ n ih =>
      obtain ⟨p, hp, hq⟩ := Option.bind_eq_some_iff.1 hn
      have hle := ih hq
      have hlt := (h.parent k p hp).2
      omega

omit [DecidableEq C] in
/-- A started process has the first one among its ancestors. -/
theorem Tree.ancestor_init (h : Tree s) (hk : Active (s.proc k)) :
    ∃ n, ancestor s n k = some s.initproc := by
  induction hn : s.serial k using Nat.strong_induction_on generalizing k with
  | _ m ih =>
      by_cases hi : k = s.initproc
      · exact ⟨0, by rw [hi]; rfl⟩
      · obtain ⟨q, hq⟩ := Option.ne_none_iff_exists'.1 (h.started k hi hk.ne.1 hk.ne.2.1)
        obtain ⟨ha, hlt⟩ := h.parent k q hq
        obtain ⟨n, hn⟩ := ih _ (hn ▸ hlt) ha rfl
        exact ⟨n + 1, by rw [ancestor, hq]; exact hn⟩

/-- At every point of every call, a parent that is set is neither `UNUSED` nor `ZOMBIE` and leads up
to the first process without a cycle, every zombie has a parent, and the pids of the processes
differ and are not zero as long as fewer than 2³¹ processes have been made. -/
theorem reachable_tree (h : Reach (next c0) Free (· = World.boot C) s) :
    (∀ k q, (s.proc k).parent = some q →
      (s.proc q).state ≠ .unused ∧ (s.proc q).state ≠ .zombie ∧
      ∃ n, ancestor s n k = some s.initproc) ∧
    (∀ k n, 0 < n → ancestor s n k ≠ some k) ∧
    (∀ k, (s.proc k).state = .zombie → (s.proc k).parent ≠ none) ∧
    (s.made < 2 ^ 31 → ∀ j k, (s.proc j).state ≠ .unused → (s.proc k).state ≠ .unused →
      (s.proc j).pid ≠ 0 ∧ ((s.proc j).pid = (s.proc k).pid → j = k)) := by
  obtain ⟨hn, ht⟩ := tree_of_reach h
  refine ⟨fun k q hq => ?_, fun k n hpos hc => ?_, fun k hk => ?_, fun hlt j k hj hk => ?_⟩
  · obtain ⟨ha, -⟩ := ht.parent k q hq
    obtain ⟨n, hn⟩ := ht.ancestor_init ha
    exact ⟨ha.ne.1, ha.ne.2.2, n + 1, by rw [ancestor, hq]; exact hn⟩
  · have hle := ht.ancestor_older hc
    omega
  · refine ht.started k (fun hi => ?_) (by simp [hk]) (by simp [hk])
    rw [hi] at hk
    exact ht.init.1.ne.2.2 hk
  · rw [hn.pid hlt j hj, hn.pid hlt k hk]
    refine ⟨by omega, fun he => hn.inj j k hj hk (by omega)⟩

end

/-- The first process has set the parent of its child, which is still `USED`. -/
theorem reachable_tree_fork : ∃ s : World (Fin 2),
    Reach (next 0) Free (· = World.boot (Fin 2)) s ∧ (s.proc 1).state = .used ∧
      (s.proc 1).parent = some 0 ∧ (s.proc 0).state ≠ .zombie ∧ (s.proc 1).pid ≠ 0 := by
  obtain ⟨s, hr, hst, hpar, hmade⟩ := sampleWorld_exists
    (goes 0 68 ++ [.cpu 0 (.call .fork)] ++ goes 0 4)
    (fun s => (s.proc 1).state = .used ∧ (s.proc 1).parent = some 0 ∧ s.made = 2)
    (by set_option maxRecDepth 100000 in decide +kernel)
  obtain ⟨hparent, -, -, hpid⟩ := reachable_tree hr
  have huse : (s.proc 1).state ≠ .unused := by simp [hst]
  exact ⟨s, hr, hst, hpar, (hparent 1 0 hpar).2.1, (hpid (by rw [hmade]; decide) 1 1 huse huse).1⟩

end G9OS.Smp
