import G9OS.Smp.Moves

/-! # Who runs where

A process is off all CPUs, or it runs on one, or it is leaving one: it has taken its own
lock, is no longer `RUNNING`, and the scheduler's thread has still to clear `cpu->proc`
and to release the lock. The lock is what keeps the other CPUs from a process whose
context is not saved yet.
-/

namespace G9OS.Smp

open Lib Kernel Sched

/-- The process that a `kfork` is making. -/
def Pc.child : Pc → Option (Fin NPROC)
  | .forkFill np | .forkParent np | .forkReady np => some np
  | .wakeup _ _ next => next.child
  | _ => none

section
variable {C : Type}

def At (s : World C) (c : C) (k : Fin NPROC) : Prop :=
  s.cpu c = .running k ∨ s.cpu c = .back k ∨ s.cur c = some k

inductive Seat (s : World C) (k : Fin NPROC) : Prop
  | off : (s.proc k).state ≠ .running → (∀ c, ¬ At s c k) → Seat s k
  | on {c : C} : (s.proc k).state = .running → s.cpu c = .running k → s.cur c = some k →
      (∀ c', At s c' k → c' = c) → (s.park k ≠ .awake → s.plock k = some c) → Seat s k
  | leaving {c : C} : (s.proc k).state ≠ .running → (s.proc k).state ≠ .unused →
      (s.proc k).state ≠ .used → s.cpu c = .back k → s.cur c = some k →
      (∀ c', At s c' k → c' = c) → s.plock k = some c → Seat s k

/-- A process in the making is `USED`, and one `kfork` is making it. -/
structure Forking (s : World C) : Prop where
  used : ∀ p np, (s.pc p).child = some np → (s.proc np).state = .used
  one : ∀ p q np, (s.pc p).child = some np → (s.pc q).child = some np → p = q

variable {s t : World C} {k p q np : Fin NPROC} {c : C}

theorem Seat.running (h : Seat s k) (hc : s.cpu c = .running k) : (s.proc k).state = .running := by
  cases h with
  | off _ hno => exact absurd (.inl hc) (hno c)
  | on hst => exact hst
  | leaving _ _ _ hb _ hu =>
      rw [← hu c (.inl hc), hc] at hb
      cases hb

/-- `cpu->proc` is the process that runs on the CPU, or the one that is leaving it. -/
theorem Seat.cpu_of_cur (h : Seat s k) (hc : s.cur c = some k) :
    s.cpu c = .running k ∨ s.cpu c = .back k := by
  cases h with
  | off _ hno => exact absurd (.inr (.inr hc)) (hno c)
  | on _ hr _ hu => exact .inl (hu c (.inr (.inr hc)) ▸ hr)
  | leaving _ _ _ hb _ hu => exact .inr (hu c (.inr (.inr hc)) ▸ hb)

theorem Seat.not_at (h : Seat s k) (hst : (s.proc k).state = .unused ∨ (s.proc k).state = .used) :
    ∀ c, ¬ At s c k := by
  cases h with
  | off _ hno => exact hno
  | on hr => rcases hst with hst | hst <;> cases hr.symm.trans hst
  | leaving _ h1 h2 => exact absurd hst (not_or.2 ⟨h1, h2⟩)

theorem Seat.not_at_of_unlocked (h : Seat s k) (hst : (s.proc k).state ≠ .running)
    (hl : s.plock k = none) : ∀ c, ¬ At s c k := by
  cases h with
  | off _ hno => exact hno
  | on hr => exact absurd hr hst
  | leaving _ _ _ _ _ _ hp => cases hp.symm.trans hl

theorem Seat.idle (hno : ∀ c, ¬ At s c k) (hat : ∀ c, At t c k → At s c k)
    (hst : (t.proc k).state ≠ .running) : Seat t k :=
  .off hst fun c hc => hno c (hat c hc)

theorem Seat.frame (h : Seat s k) (hat : ∀ c, At t c k → At s c k)
    (hcpu : ∀ c, At s c k → t.cpu c = s.cpu c ∧ t.cur c = s.cur c)
    (hst : (t.proc k).state = (s.proc k).state) (hpark : t.park k = s.park k)
    (hlock : t.plock k = s.plock k) : Seat t k := by
  cases h with
  | off h1 h2 => exact .off (hst ▸ h1) fun c hc => h2 c (hat c hc)
  | @on c h1 h2 h3 h4 h5 =>
      obtain ⟨e1, e2⟩ := hcpu c (.inl h2)
      exact .on (hst ▸ h1) (e1.trans h2) (e2.trans h3) (fun c' hc' => h4 c' (hat c' hc'))
        (hpark ▸ hlock ▸ h5)
  | @leaving c h1 h2 h3 h4 h5 h6 h7 =>
      obtain ⟨e1, e2⟩ := hcpu c (.inr (.inl h4))
      exact .leaving (hst ▸ h1) (hst ▸ h2) (hst ▸ h3) (e1.trans h4) (e2.trans h5)
        (fun c' hc' => h6 c' (hat c' hc')) (hlock ▸ h7)

theorem Seat.poke (h : Seat s k) (hcpu : t.cpu = s.cpu) (hcur : t.cur = s.cur)
    (hpark : t.park k = s.park k) (hlock : t.plock k = s.plock k)
    (hst : (t.proc k).state = (s.proc k).state ∨
      s.plock k = none ∧ (s.proc k).state ≠ .running ∧ (t.proc k).state ≠ .running) : Seat t k := by
  have hat : ∀ c, At t c k ↔ At s c k := fun c => by rw [At, At, hcpu, hcur]
  rcases hst with hst | ⟨hl, hs, ht⟩
  · exact h.frame (fun c => (hat c).1) (fun c _ => ⟨by rw [hcpu], by rw [hcur]⟩) hst hpark hlock
  · exact .idle (h.not_at_of_unlocked hs hl) (fun c => (hat c).1) ht

theorem Seat.not_at_of_cpu (h : Seat s k) (h1 : s.cpu c ≠ .running k) (h2 : s.cpu c ≠ .back k) :
    ¬ At s c k := by
  rintro (hc | hc | hc)
  · exact h1 hc
  · exact h2 hc
  · exact (h.cpu_of_cur hc).elim h1 h2

theorem Seat.elsewhere (h : Seat s k)
    (hothers : ∀ c', c' ≠ c → t.cpu c' = s.cpu c' ∧ t.cur c' = s.cur c')
    (hs : ¬ At s c k) (ht : ¬ At t c k) (hst : (t.proc k).state = (s.proc k).state)
    (hpark : t.park k = s.park k) (hlock : t.plock k = s.plock k) : Seat t k := by
  refine h.frame (fun c' hc' => ?_) (fun c' hc' => hothers c' ?_) hst hpark hlock
  · have hne : c' ≠ c := by
      rintro rfl
      exact ht hc'
    obtain ⟨e1, e2⟩ := hothers c' hne
    rwa [At, e1, e2] at hc'
  · rintro rfl
    exact hs hc'

/-- The lock of a process in the making is taken or released, and its state may change. -/
theorem Seat.making (h : Seat s k) (hcpu : t.cpu = s.cpu) (hcur : t.cur = s.cur)
    (hst : (s.proc np).state = .unused ∨ (s.proc np).state = .used)
    (hnp : (t.proc np).state ≠ .running)
    (hothers : k ≠ np → (t.proc k).state = (s.proc k).state ∧ t.park k = s.park k ∧
      t.plock k = s.plock k) : Seat t k := by
  have hat : ∀ c, At t c k → At s c k := fun c hc => by rwa [At, hcpu, hcur] at hc
  by_cases hk : k = np
  · subst hk
    exact .idle (h.not_at hst) hat hnp
  · obtain ⟨e1, e2, e3⟩ := hothers hk
    exact h.frame hat (fun c _ => ⟨by rw [hcpu], by rw [hcur]⟩) e1 e2 e3

theorem Seat.setProc {j : Fin NPROC} {v : Proc} (h : Seat s k) (hcpu : t.cpu = s.cpu)
    (hcur : t.cur = s.cur) (hpark : t.park = s.park) (hlock : t.plock = s.plock)
    (hproc : t.proc = Function.update s.proc j v)
    (hv : v.state = (s.proc j).state ∨
      s.plock j = none ∧ (s.proc j).state ≠ .running ∧ v.state ≠ .running) : Seat t k := by
  refine h.poke hcpu hcur (by rw [hpark]) (by rw [hlock]) ?_
  by_cases hk : k = j
  · subst hk
    rw [hproc, Function.update_self]
    exact hv
  · rw [hproc, Function.update_of_ne hk]
    exact .inl rfl

theorem Seat.unpark (h : Seat s k) (hc : s.cpu c = .running p) (hcpu : t.cpu = s.cpu)
    (hcur : t.cur = s.cur) (hst : ∀ j, (t.proc j).state = (s.proc j).state)
    (hpark : t.park = Function.update s.park p .awake)
    (hlock : t.plock = Function.update s.plock p none) : Seat t k := by
  have hat : ∀ c, At t c k → At s c k := fun c hc => by rwa [At, hcpu, hcur] at hc
  by_cases hk : k = p
  · subst hk
    cases h with
    | off _ hno => exact absurd (.inl hc) (hno c)
    | leaving _ _ _ hb _ hu =>
        rw [← hu c (.inl hc), hc] at hb
        cases hb
    | on h1 h2 h3 h4 =>
        refine .on (by rw [hst, h1]) (by rw [hcpu, h2]) (by rw [hcur, h3])
          (fun c' hc' => h4 c' (hat c' hc')) fun hp => ?_
        rw [hpark, Function.update_self] at hp
        exact absurd rfl hp
  · exact h.frame hat (fun c _ => ⟨by rw [hcpu], by rw [hcur]⟩) (hst k)
      (by rw [hpark, Function.update_of_ne hk]) (by rw [hlock, Function.update_of_ne hk])

theorem wakeProc_state (me : Option (Fin NPROC)) (chan : Chan) (i : Fin NPROC) (q : Proc) :
    (wakeProc me chan i q).state = q.state ∨
      some i ≠ me ∧ q.state = .sleeping ∧ (wakeProc me chan i q).state = .runnable := by
  unfold wakeProc
  split
  · rename_i h
    exact .inr ⟨h.1, h.2.1, rfl⟩
  · exact .inl rfl

theorem Poke.apply_state (what : Poke) (q : Proc) :
    (what.apply q).state = q.state ∨ q.state = .sleeping ∧ (what.apply q).state = .runnable := by
  cases what with
  | kill =>
      by_cases h : q.state = .sleeping
      · exact .inr ⟨h, if_pos h⟩
      · exact .inl (if_neg h)
  | setpriority => exact .inl rfl

variable [DecidableEq C]

theorem SchedStep.seat {v : CpuPc} (h : Seat s k) (hm : SchedStep s c v) : Seat (s.setCpu c v) k := by
  have hcpu : (∀ j, s.cpu c ≠ .running j ∧ s.cpu c ≠ .back j) ∧ ∀ j, v ≠ .running j ∧ v ≠ .back j := by
    cases hm with
    | begins hc | looks hc | looked hc | sleepsAt hc | skips hc | idles hc | interrupted hc =>
        rw [hc]
        exact ⟨fun _ => ⟨nofun, nofun⟩, fun _ => ⟨nofun, nofun⟩⟩
  have hs : ¬ At s c k := h.not_at_of_cpu (hcpu.1 k).1 (hcpu.1 k).2
  refine h.elsewhere (c := c) (fun c' hc' => ⟨Function.update_of_ne hc' _ _, rfl⟩) hs ?_ rfl rfl rfl
  rintro (hc | hc | hc)
  · rw [World.setCpu_cpu, Function.update_self] at hc
    exact (hcpu.2 k).1 hc
  · rw [World.setCpu_cpu, Function.update_self] at hc
    exact (hcpu.2 k).2 hc
  · exact hs (.inr (.inr hc))

theorem Seat.dispatch {j : Fin NPROC} {best : Int} {n : Nat} (h : Seat s k)
    (hc : s.cpu c = .pass2 n best) (hl : s.plock j = none) (hst : (s.proc j).state = .runnable) :
    Seat (s.dispatch c j) k := by
  have hs : ¬ At s c k := h.not_at_of_cpu (by simp [hc]) (by simp [hc])
  by_cases hk : k = j
  · subst hk
    have hno := h.not_at_of_unlocked (by simp [hst]) hl
    refine .on (c := c) (by simp [World.dispatch]) (by simp [World.dispatch])
      (by simp [World.dispatch]) (fun c' hc' => ?_) fun _ => by simp [World.dispatch]
    by_contra hne
    refine hno c' ?_
    simpa [At, World.dispatch, hne] using hc'
  · refine h.elsewhere (c := c) (fun c' hc' => by simp [World.dispatch, hc']) hs ?_
      (by simp [World.dispatch, hk]) rfl (by simp [World.dispatch, hk])
    simp [At, World.dispatch, Ne.symm hk]

theorem Seat.returns (h : Seat s k) (hc : s.cpu c = .back p) :
    Seat (((s.setCur c none).setPlock p none).setCpu c .start) k := by
  by_cases hk : k = p
  · subst hk
    cases h with
    | off _ hno => exact absurd (.inr (.inl hc)) (hno c)
    | on _ hr _ hu =>
        rw [← hu c (.inr (.inl hc)), hc] at hr
        cases hr
    | leaving hst _ _ _ _ hu =>
        obtain rfl := hu c (.inr (.inl hc))
        refine .off hst fun c' hc' => ?_
        by_cases hne : c' = c
        · subst hne
          simp [At] at hc'
        · exact hne (hu c' (by simpa [At, hne] using hc'))
  · have hs : ¬ At s c k := h.not_at_of_cpu (by simp [hc]) (by simp [hc, Ne.symm hk])
    refine h.elsewhere (c := c) (fun c' hc' => by simp [hc']) hs ?_ rfl rfl (by simp [hk])
    simp [At]

theorem Seat.leave (h : Seat s k) (hc : s.cpu c = .running p) {f : Proc → Proc} {how : Park}
    (hf : (f (s.proc p)).state = .runnable ∨ (f (s.proc p)).state = .sleeping ∨
      (f (s.proc p)).state = .zombie) : Seat (s.leave c p f how) k := by
  by_cases hk : k = p
  · subst hk
    cases h with
    | off _ hno => exact absurd (.inl hc) (hno c)
    | leaving _ _ _ hb _ hu =>
        rw [← hu c (.inl hc), hc] at hb
        cases hb
    | on _ hr hcur hu =>
        obtain rfl := hu c (.inl hc)
        have hst : ((s.leave c k f how).proc k).state = (f (s.proc k)).state := by
          simp [World.leave]
        refine .leaving (c := c) ?_ ?_ ?_ (by simp [World.leave]) hcur (fun c' hc' => ?_)
          (by simp [World.leave])
        · rw [hst]
          rcases hf with hf | hf | hf <;> rw [hf] <;> exact nofun
        · rw [hst]
          rcases hf with hf | hf | hf <;> rw [hf] <;> exact nofun
        · rw [hst]
          rcases hf with hf | hf | hf <;> rw [hf] <;> exact nofun
        · by_contra hne
          exact hne (hu c' (by simpa [At, World.leave, hne] using hc'))
  · have hs : ¬ At s c k := h.not_at_of_cpu (by simp [hc, Ne.symm hk]) (by simp [hc])
    refine h.elsewhere (c := c) (fun c' hc' => by simp [World.leave, hc']) hs ?_
      (by simp [World.leave, hk]) (by simp [World.leave, hk]) (by simp [World.leave, hk])
    rintro (hc' | hc' | hc')
    · simp [World.leave] at hc'
    · simp [World.leave, Ne.symm hk] at hc'
    · exact hs (.inr (.inr hc'))

theorem ProcMove.seat (h : Seat s k) (hf : Forking s) (hc : s.cpu c = .running p)
    (hm : ProcMove s c p t) : Seat t k := by
  cases hm with
  | goes | goesLock => exact h.poke rfl rfl rfl rfl (.inl rfl)
  | yields => exact h.leave hc (.inl rfl)
  | sleeps => exact h.leave hc (.inr (.inl rfl))
  | waitSleeps =>
      have h' : Seat ((s.setWlock none).setPc p .waitLock) k := h.poke rfl rfl rfl rfl (.inl rfl)
      exact h'.leave hc (.inr (.inl rfl))
  | @dies status _ _ =>
      have h' : Seat (((s.setWlock none).setPc p .user).logExit
          { s.exitOf p with xstate := status }) k := h.poke rfl rfl rfl rfl (.inl rfl)
      exact h'.leave hc (.inr (.inr rfl))
  | claims _ _ hu =>
      refine h.making rfl rfl (.inl hu) ?_ fun hk => ?_
      · simp [World.claim, claimed]
      · simp [World.claim, hk]
  | @fillFails np hpc =>
      have hused := hf.used p np (by rw [hpc]; rfl)
      refine h.making rfl rfl (.inr hused) ?_ fun hk => ?_
      · simp [clearSlot]
      · simp [hk]
  | @filled np hpc =>
      have hused := hf.used p np (by rw [hpc]; rfl)
      refine h.making rfl rfl (.inr hused) ?_ fun hk => ?_
      · simp [hused]
      · simp [hk]
  | adopts | reparents =>
      refine h.setProc rfl rfl rfl rfl rfl (.inl ?_)
      rfl
  | @readies np hpc hl =>
      have hused := hf.used p np (by rw [hpc]; rfl)
      refine h.setProc rfl rfl rfl rfl rfl (.inr ⟨hl, by simp [hused], ?_⟩)
      intro hr
      cases hr
  | @wakes chan j _ _ hl =>
      refine h.setProc rfl rfl rfl rfl rfl ?_
      rcases wakeProc_state (some p) chan j (s.proc j) with he | ⟨hne, hs, hr⟩
      · exact .inl he
      · have hl' : s.plock j = none := hl.resolve_right fun hj => hne (by rw [hj])
        exact .inr ⟨hl', by simp [hs], by simp [hr]⟩
  | reaps _ _ hl hz =>
      refine h.setProc rfl rfl rfl rfl rfl (.inr ⟨hl, by simp [hz], ?_⟩)
      intro hr
      cases hr
  | @pokes _ what j _ hl _ =>
      refine h.setProc rfl rfl rfl rfl rfl ?_
      rcases what.apply_state (s.proc j) with he | ⟨hs, hr⟩
      · exact .inl he
      · exact .inr ⟨hl, by simp [hs], by simp [hr]⟩

theorem Move.seat {c0 : C} {l : Label C} (h : Seat s k) (hf : Forking s) (hm : Move c0 s l t) :
    Seat t k := by
  cases hm with
  | sched hs => exact hs.seat h
  | dispatches hc hl hm => exact h.dispatch hc hl hm.1
  | returns hc => exact h.returns hc
  | unparks hc => exact h.unpark hc rfl rfl (fun _ => rfl) rfl rfl
  | @unsleeps _ p hc =>
      refine h.unpark hc rfl rfl (fun j => ?_) rfl rfl
      by_cases hj : j = p
      · subst hj
        simp [awake]
      · simp [hj]
  | proc hc _ hm => exact hm.seat h hf hc
  | ticks | clockWoken | charged => exact h.poke rfl rfl rfl rfl (.inl rfl)
  | @clockWakes j _ hl =>
      refine h.setProc rfl rfl rfl rfl rfl ?_
      rcases wakeProc_state (s.cur c0) .ticks j (s.proc j) with he | ⟨hne, hs, hr⟩
      · exact .inl he
      · exact .inr ⟨hl.resolve_right hne, by simp [hs], by simp [hr]⟩
  | charges => exact h.setProc rfl rfl rfl rfl rfl (.inl (tickProc_state _))
  | @device c chan j hl =>
      refine h.setProc rfl rfl rfl rfl rfl ?_
      rcases wakeProc_state (s.cur c) chan j (s.proc j) with he | ⟨_, hs, hr⟩
      · exact .inl he
      · exact .inr ⟨hl, by simp [hs], by simp [hr]⟩

/-! ## Processes in the making -/

omit [DecidableEq C] in
/-- A thread comes to a place with a new process only from a `wakeup` on the way. -/
theorem PcStep.from_wakeup {v : Pc} (h : PcStep s p v) (hv : v.child = some np) :
    ∃ chan j, s.pc p = .wakeup chan j v := by
  cases h with
  | @enters x => cases x <;> cases hv
  | woken hpc => exact ⟨_, _, hpc⟩
  | _ => cases hv

omit [DecidableEq C] in
theorem PcStep.child {v : Pc} (h : PcStep s p v) (hv : v.child = some np) :
    (s.pc p).child = some np := by
  obtain ⟨chan, j, hpc⟩ := h.from_wakeup hv
  rw [hpc]
  exact hv

/-- A `kfork` gets a child when `allocproc` claims a free slot for it. -/
theorem ProcMove.child (hm : ProcMove s c p t) (h : (t.pc q).child = some np) :
    (s.pc q).child = some np ∨
      q = p ∧ (s.proc np).state = .unused ∧ t = s.claim c p np := by
  by_cases hq : q = p
  · subst hq
    cases hm with
    | goes hs | goesLock hs =>
        refine .inl (hs.child ?_)
        simpa using h
    | yields | sleeps => exact .inl h
    | waitSleeps | dies | fillFails | readies | reaps | pokes =>
        simp [World.leave, World.die, World.reap, Pc.child] at h
    | @claims k _ _ hu =>
        have hk : k = np := by simpa [World.claim, Pc.child] using h
        subst hk
        exact .inr ⟨rfl, hu, rfl⟩
    | filled hpc | adopts hpc =>
        rw [hpc]
        left
        simpa [Pc.child] using h
    | reparents => simp [Pc.child] at h
    | wakes hpc =>
        rw [hpc]
        left
        simpa [Pc.child] using h
  · rcases hm.pc_others hq with he | ⟨-, he⟩
    · exact .inl (he ▸ h)
    · rw [he] at h
      cases h

theorem Move.child {c0 : C} {l : Label C} (hm : Move c0 s l t) (h : (t.pc q).child = some np) :
    (s.pc q).child = some np ∨ (s.proc np).state = .unused ∧
      ∃ c ch, l = .cpu c ch ∧ s.cpu c = .running q ∧ t = s.claim c q np := by
  cases hm with
  | proc hc _ hm =>
      rcases hm.child h with h | ⟨rfl, hu, ht⟩
      · exact .inl h
      · exact .inr ⟨hu, _, _, rfl, hc, ht⟩
  | _ => exact .inl h

/-- Nobody but its maker touches the state of a process in the making. -/
theorem SlotMove.used {l : Label C} {v : Proc} (hs : Seat s np) (hf : Forking s)
    (hm : SlotMove s l t np v)
    (hq : (s.pc q).child = some np) (ht : (t.pc q).child = some np) : v.state = .used := by
  have hused := hf.used q np hq
  have hmaker : ∀ p, (s.pc p).child = some np → t.pc p ≠ .user := by
    intro p hp hpc
    rw [hf.one q p np hq hp, hpc] at ht
    cases ht
  cases hm with
  | same | unslept | adopted | reparented => exact hused
  | dispatched _ _ hr => cases hused.symm.trans hr.1
  | yielded hc | slept hc | died hc => cases hused.symm.trans (hs.running hc)
  | claimed hu => cases hused.symm.trans hu
  | unclaimed hpc hpc' | readied hpc hpc' => exact absurd hpc' (hmaker _ (by rw [hpc]; rfl))
  | @woken me chan =>
      rcases wakeProc_state me chan np (s.proc np) with he | ⟨-, he, -⟩
      · rw [he, hused]
      · cases hused.symm.trans he
  | @poked _ _ what =>
      rcases what.apply_state (s.proc np) with he | ⟨he, -⟩
      · rw [he, hused]
      · cases hused.symm.trans he
  | reaped hz => cases hused.symm.trans hz
  | charged => rw [tickProc_state, hused]

theorem Forking.step {c0 : C} {l : Label C} (hs : ∀ k, Seat s k) (hf : Forking s)
    (hm : Move c0 s l t) : Forking t := by
  refine ⟨fun p np hp => ?_, fun p q np hp hq => ?_⟩
  · rcases hm.child hp with hp' | ⟨-, c, ch, -, -, ht⟩
    · exact (hm.slot np).used (hs np) hf hp' hp
    · rw [ht]
      simp [World.claim, claimed]
  · rcases hm.child hp with hp' | ⟨hu, c, ch, hl, hc, -⟩
    · rcases hm.child hq with hq' | ⟨hu, -⟩
      · exact hf.one p q np hp' hq'
      · cases hu.symm.trans (hf.used p np hp')
    · rcases hm.child hq with hq' | ⟨-, c', ch', hl', hc', -⟩
      · cases hu.symm.trans (hf.used q np hq')
      · cases hl.symm.trans hl'
        cases hc.symm.trans hc'
        rfl

/-! ## Runs -/

omit [DecidableEq C] in
theorem boot_placed : (∀ k, Seat (World.boot C) k) ∧ Forking (World.boot C) := by
  refine ⟨fun k => .off ?_ fun c hc => ?_, ⟨nofun, nofun⟩⟩
  · by_cases hk : k = 0
    · subst hk
      exact nofun
    · simp [World.boot, hk]
  · rcases hc with hc | hc | hc <;> cases hc

theorem placed_of_reach {c0 : C} {ok : World C → Label C → Prop}
    (h : Reach (next c0) ok (· = World.boot C) s) : (∀ k, Seat s k) ∧ Forking s := by
  refine h.inv (I := fun s => (∀ k, Seat s k) ∧ Forking s) ?_ fun s l t hs _ hn =>
    ⟨fun k => (next_move hn).seat (hs.1 k) hs.2, hs.2.step hs.1 (next_move hn)⟩
  rintro _ rfl
  exact boot_placed

/-- On any number of CPUs: no two of them have the same `cpu->proc`, a `RUNNING` process is the
`cpu->proc` of exactly one CPU, no two CPUs execute one process, a process that is switched to
finds its own lock held for it by its CPU, and only a `RUNNABLE` process becomes the process of a
CPU. -/
theorem reachable_one_seat {c0 : C} (h : Reach (next c0) Free (· = World.boot C) s) :
    (∀ c c' k, s.cur c = some k → s.cur c' = some k → c = c') ∧
    (∀ k, (s.proc k).state = .running → ∃ c, s.cur c = some k ∧ ∀ c', s.cur c' = some k → c' = c) ∧
    (∀ c c' k, s.cpu c = .running k → s.cpu c' = .running k → c = c') ∧
    (∀ c k, s.cpu c = .running k → (s.proc k).state = .running ∧ s.cur c = some k ∧
      (s.park k ≠ .awake → s.plock k = some c)) ∧
    ∀ l t c k, next c0 s l = some t → s.cur c ≠ some k → t.cur c = some k →
      (s.proc k).state = .runnable ∧ s.plock k = none ∧ (t.proc k).state = .running := by
  obtain ⟨hs, -⟩ := placed_of_reach h
  have huniq : ∀ c c' k, At s c k → At s c' k → c = c' := by
    intro c c' k hc hc'
    cases hs k with
    | off _ hno => exact absurd hc (hno c)
    | on _ _ _ hu | leaving _ _ _ _ _ hu => rw [hu c hc, hu c' hc']
  refine ⟨fun c c' k hc hc' => huniq c c' k (.inr (.inr hc)) (.inr (.inr hc')), fun k hk => ?_,
    fun c c' k hc hc' => huniq c c' k (.inl hc) (.inl hc'), fun c k hc => ?_, ?_⟩
  · cases hs k with
    | off hn | leaving hn => exact absurd hk hn
    | @on c _ _ hcur hu => exact ⟨c, hcur, fun c' hc' => hu c' (.inr (.inr hc'))⟩
  · cases hs k with
    | off _ hno => exact absurd (.inl hc) (hno c)
    | @leaving c' _ _ _ hb _ hu =>
        rw [← hu c (.inl hc), hc] at hb
        cases hb
    | @on c' hst _ hcur hu hl =>
        obtain rfl := hu c (.inl hc)
        exact ⟨hst, hcur, hl⟩
  · intro l t c k hn hs' ht
    cases next_move hn with
    | @dispatches c' j best hc hl hm =>
        by_cases he : c = c'
        · subst he
          have hj : j = k := by simpa [World.dispatch] using ht
          subst hj
          exact ⟨hm.1, hl, by simp [World.dispatch]⟩
        · have hcur : (s.dispatch c' j).cur c = s.cur c := by simp [World.dispatch, he]
          exact absurd (hcur ▸ ht) hs'
    | @returns c' p hc =>
        by_cases he : c = c'
        · subst he
          simp at ht
        · exact absurd ((Function.update_of_ne he _ _).symm.trans ht) hs'
    | proc _ _ hm =>
        have hcur : t.cur = s.cur := by cases hm <;> rfl
        exact absurd (hcur ▸ ht) hs'
    | _ => exact absurd ht hs'

end

/-- The first process runs on CPU 0 and its child on CPU 1. -/
theorem reachable_one_seat_two : ∃ s : World (Fin 2),
    Reach (next 0) Free (· = World.boot (Fin 2)) s ∧ (s.proc 1).state = .running ∧
      s.cur 0 = some 0 ∧ s.cur 1 = some 1 ∧ (∀ c, s.cur c = some 1 → 1 = c) ∧
      s.plock 1 = some 1 := by
  obtain ⟨s, hr, hst, h0, h1, hc, hp⟩ := sampleWorld_exists
    (goes 0 68 ++ [.cpu 0 (.call .fork)] ++ goes 0 5 ++ goes 1 68)
    (fun s => (s.proc 1).state = .running ∧ s.cur 0 = some 0 ∧ s.cur 1 = some 1 ∧
      s.cpu 1 = .running 1 ∧ s.park 1 ≠ .awake)
    (by set_option maxRecDepth 100000 in decide +kernel)
  obtain ⟨huniq, -, -, hlock, -⟩ := reachable_one_seat hr
  exact ⟨s, hr, hst, h0, h1, fun c hc' => huniq 1 c 1 h1 hc', (hlock 1 1 hc).2.2 hp⟩

end G9OS.Smp
