import G9OS.Smp.Machine

/-! # What one section does

The sections sorted by what they change. Most of them change nothing but the place of
one thread; those are `SchedStep` and `PcStep`. The others are listed one by one in
`Move`, with what the code has checked before.
-/

namespace G9OS.Smp

open Lib Kernel Sched

section
variable {C : Type}

inductive SchedStep (s : World C) (c : C) : CpuPc → Prop
  | begins : s.cpu c = .start → SchedStep s c (.pass1 0 21)
  | looks {k : Fin NPROC} {best : Int} : s.cpu c = .pass1 k best →
      SchedStep s c (.pass1 (k + 1) (better best (s.proc k)))
  | looked {k : Nat} {best : Int} : s.cpu c = .pass1 k best → NPROC ≤ k → best ≤ 20 →
      SchedStep s c (.pass2 0 best)
  | sleepsAt {k : Nat} {best : Int} : s.cpu c = .pass1 k best → NPROC ≤ k → ¬ best ≤ 20 →
      SchedStep s c .wfi
  | skips {k : Fin NPROC} {best : Int} : s.cpu c = .pass2 k best → ¬ Matches best (s.proc k) →
      SchedStep s c (.pass2 (k + 1) best)
  | idles {k : Nat} {best : Int} : s.cpu c = .pass2 k best → NPROC ≤ k → SchedStep s c .wfi
  | interrupted : s.cpu c = .wfi → SchedStep s c .start

inductive PcStep (s : World C) (p : Fin NPROC) : Pc → Prop
  | enters {x : Call} : s.pc p = .user → Admits s p x → PcStep s p x.start
  | forkSkips {k : Fin NPROC} : s.pc p = .forkScan k → (s.proc k).state ≠ .unused →
      PcStep s p (.forkScan (k + 1))
  | forkFull {k : Nat} : s.pc p = .forkScan k → PcStep s p .user
  | exitLocks {status : Int} : s.pc p = .exitLock status → PcStep s p (.exitReparent status 0)
  | exitSkips {status : Int} {k : Fin NPROC} : s.pc p = .exitReparent status k →
      (s.proc k).parent ≠ some p → PcStep s p (.exitReparent status (k + 1))
  | exitScanned {status : Int} {k : Nat} : s.pc p = .exitReparent status k → NPROC ≤ k →
      PcStep s p (.wakeup (parentChan (s.proc p).parent) 0 (.exitZombie status))
  | waitLocks : s.pc p = .waitLock → PcStep s p (.waitScan 0 false)
  | waitSkips {k : Nat} {havekids havekids' : Bool} : s.pc p = .waitScan k havekids →
      PcStep s p (.waitScan (k + 1) havekids')
  | waitFails {k : Nat} {havekids : Bool} : s.pc p = .waitScan k havekids → PcStep s p .user
  | waitScanned {k : Nat} {havekids : Bool} : s.pc p = .waitScan k havekids →
      PcStep s p .waitSleep
  | searchSkips {pid : Int} {what : Poke} {k : Nat} : s.pc p = .search pid what k →
      PcStep s p (.search pid what (k + 1))
  | searchFails {pid : Int} {what : Poke} {k : Nat} : s.pc p = .search pid what k →
      PcStep s p .user
  | woken {chan : Chan} {j : Nat} {next : Pc} : s.pc p = .wakeup chan j next → PcStep s p next

variable [DecidableEq C]

inductive ProcMove (s : World C) (c : C) (p : Fin NPROC) : World C → Prop
  | goes {v : Pc} : PcStep s p v → ProcMove s c p (s.setPc p v)
  | goesLock {v : Pc} {o : Option C} : PcStep s p v → ProcMove s c p ((s.setWlock o).setPc p v)
  | yields : s.plock p = none →
      ProcMove s c p (s.leave c p (fun q => { q with state := .runnable }) .yielded)
  | sleeps {chan : Chan} : s.plock p = none → s.pc p = .user →
      ProcMove s c p (s.leave c p (asleep chan) .slept)
  | waitSleeps : s.plock p = none → s.pc p = .waitSleep →
      ProcMove s c p (((s.setWlock none).setPc p .waitLock).leave c p (asleep (.proc p)) .slept)
  | dies {status : Int} : s.plock p = none → s.pc p = .exitZombie status →
      ProcMove s c p (s.die c p status)
  | claims {k : Fin NPROC} : s.pc p = .forkScan k → s.plock k = none →
      (s.proc k).state = .unused → ProcMove s c p (s.claim c p k)
  | fillFails {np : Fin NPROC} : s.pc p = .forkFill np →
      ProcMove s c p (((s.setProc np clearSlot).setPlock np none).setPc p .user)
  | filled {np : Fin NPROC} : s.pc p = .forkFill np →
      ProcMove s c p ((s.setPlock np none).setPc p (.forkParent np))
  | adopts {np : Fin NPROC} : s.pc p = .forkParent np →
      ProcMove s c p ((s.setProc np fun q => { q with parent := some p }).setPc p (.forkReady np))
  | readies {np : Fin NPROC} : s.pc p = .forkReady np → s.plock np = none →
      ProcMove s c p ((s.setProc np fun q => { q with state := .runnable }).setPc p .user)
  | reparents {status : Int} {k : Fin NPROC} : s.pc p = .exitReparent status k →
      (s.proc k).parent = some p →
      ProcMove s c p ((s.setProc k fun q => { q with parent := some s.initproc }).setPc p
        (.wakeup (.proc s.initproc) 0 (.exitReparent status (k + 1))))
  | wakes {chan : Chan} {j : Fin NPROC} {next : Pc} : s.pc p = .wakeup chan j next →
      s.plock j = none ∨ j = p →
      ProcMove s c p ((s.setProc j (wakeProc (some p) chan j)).setPc p (.wakeup chan (j + 1) next))
  | reaps {k : Fin NPROC} {havekids : Bool} : s.pc p = .waitScan k havekids →
      (s.proc k).parent = some p → s.plock k = none → (s.proc k).state = .zombie →
      ProcMove s c p (s.reap p k)
  | pokes {pid : Int} {what : Poke} {k : Fin NPROC} : s.pc p = .search pid what k →
      s.plock k = none → (s.proc k).pid = pid →
      ProcMove s c p ((s.setProc k what.apply).setPc p .user)

inductive Move (c0 : C) (s : World C) : Label C → World C → Prop
  | sched {c : C} {v : CpuPc} : SchedStep s c v → Move c0 s (.cpu c .go) (s.setCpu c v)
  | dispatches {c : C} {k : Fin NPROC} {best : Int} : s.cpu c = .pass2 k best →
      s.plock k = none → Matches best (s.proc k) → Move c0 s (.cpu c .go) (s.dispatch c k)
  | returns {c : C} {p : Fin NPROC} : s.cpu c = .back p →
      Move c0 s (.cpu c .go) (((s.setCur c none).setPlock p none).setCpu c .start)
  | unparks {c : C} {p : Fin NPROC} : s.cpu c = .running p → s.park p = .yielded →
      Move c0 s (.cpu c .go) ((s.setPlock p none).setPark p .awake)
  | unsleeps {c : C} {p : Fin NPROC} : s.cpu c = .running p → s.park p = .slept →
      Move c0 s (.cpu c .go) (((s.setProc p awake).setPlock p none).setPark p .awake)
  | proc {c : C} {p : Fin NPROC} {ch : Choice} {t : World C} : s.cpu c = .running p →
      s.park p = .awake → ProcMove s c p t → Move c0 s (.cpu c ch) t
  | ticks : s.clock = .idle → Move c0 s .clock (s.tick.setClock (.waking 0))
  | clockWakes {j : Fin NPROC} : s.clock = .waking j →
      s.plock j = none ∨ some j = s.cur c0 →
      Move c0 s .clock
        ((s.setProc j (wakeProc (s.cur c0) .ticks j)).setClock (.waking (j + 1)))
  | clockWoken {j : Nat} : s.clock = .waking j → Move c0 s .clock (s.setClock (.charging 0))
  | charges {k : Fin NPROC} : s.clock = .charging k → s.plock k = none →
      Move c0 s .clock ((s.setProc k tickProc).setClock (.charging (k + 1)))
  | charged {k : Nat} : s.clock = .charging k → NPROC ≤ k → Move c0 s .clock (s.setClock .idle)
  | device {c : C} {chan : Chan} {j : Fin NPROC} : s.plock j = none →
      Move c0 s (.device c chan j) (s.setProc j (wakeProc (s.cur c) chan j))

variable {c0 c : C} {s t : World C} {p : Fin NPROC} {l : Label C}

theorem schedStep_move (h : schedStep s c = some t) : Move c0 s (.cpu c .go) t := by
  unfold schedStep at h
  split at h
  · rename_i hc
    cases h
    exact .sched (.begins hc)
  · rename_i k best hc
    split at h
    · rename_i hk
      split at h
      · cases h
        exact .sched (.looks (k := ⟨k, hk⟩) hc)
      · cases h
    · rename_i hk
      cases h
      split
      · rename_i hb
        exact .sched (.looked hc (not_lt.1 hk) hb)
      · rename_i hb
        exact .sched (.sleepsAt hc (not_lt.1 hk) hb)
  · rename_i k best hc
    split at h
    · rename_i hk
      split at h
      · rename_i hl
        split at h
        · rename_i hm
          cases h
          exact .dispatches (k := ⟨k, hk⟩) hc hl hm
        · rename_i hm
          cases h
          exact .sched (.skips (k := ⟨k, hk⟩) hc hm)
      · cases h
    · rename_i hk
      cases h
      exact .sched (.idles hc (not_lt.1 hk))
  · rename_i hc
    cases h
    exact .sched (.interrupted hc)
  · rename_i p hc
    cases h
    exact .returns hc
  · cases h

theorem forkStep_move {ch : Choice} (h : forkStep s c p (s.pc p) ch = some t) :
    ProcMove s c p t := by
  unfold forkStep at h
  split at h
  · rename_i k hpc
    split at h
    · rename_i hk
      split at h
      · rename_i hl
        split at h
        · rename_i hu
          cases h
          exact .claims (k := ⟨k, hk⟩) hpc hl hu
        · rename_i hu
          cases h
          exact .goes (.forkSkips (k := ⟨k, hk⟩) hpc hu)
      · cases h
    · cases h
      exact .goes (.forkFull hpc)
  · rename_i np hpc
    cases h
    exact .filled hpc
  · rename_i np hpc
    cases h
    exact .fillFails hpc
  · rename_i np hpc
    split at h
    · cases h
      exact .adopts hpc
    · cases h
  · rename_i np hpc
    split at h
    · rename_i hl
      cases h
      exact .readies hpc hl
    · cases h
  · cases h

theorem exitStep_move {ch : Choice} (h : exitStep s c p (s.pc p) ch = some t) :
    ProcMove s c p t := by
  unfold exitStep at h
  split at h
  · rename_i status hpc
    split at h
    · cases h
      exact .goesLock (.exitLocks hpc)
    · cases h
  · rename_i status k hpc
    split at h
    · rename_i hk
      split at h
      · rename_i hpar
        cases h
        exact .reparents (k := ⟨k, hk⟩) hpc hpar
      · rename_i hpar
        cases h
        exact .goes (.exitSkips (k := ⟨k, hk⟩) hpc hpar)
    · rename_i hk
      cases h
      exact .goes (.exitScanned hpc (not_lt.1 hk))
  · rename_i status hpc
    split at h
    · rename_i hl
      cases h
      exact .dies hl hpc
    · cases h
  · cases h

theorem waitStep_move {ch : Choice} (h : waitStep s c p (s.pc p) ch = some t) :
    ProcMove s c p t := by
  unfold waitStep at h
  split at h
  · rename_i hpc
    split at h
    · cases h
      exact .goesLock (.waitLocks hpc)
    · cases h
  · rename_i k havekids hpc
    split at h
    · rename_i hk
      split at h
      · rename_i hpar
        split at h
        · rename_i hl
          split at h
          · rename_i hz
            split at h
            · cases h
              exact .reaps (k := ⟨k, hk⟩) hpc hpar hl hz
            · cases h
              exact .goesLock (.waitFails hpc)
            · cases h
          · split at h
            · cases h
              exact .goes (.waitSkips hpc)
            · cases h
        · cases h
      · split at h
        · cases h
          exact .goes (.waitSkips hpc)
        · cases h
    · split at h
      · split at h
        · cases h
          exact .goesLock (.waitFails hpc)
        · split at h
          · split at h
            · cases h
              exact .goesLock (.waitFails hpc)
            · cases h
              exact .goes (.waitScanned hpc)
          · cases h
      · cases h
  · rename_i hpc
    split at h
    · rename_i hl
      cases h
      exact .waitSleeps hl hpc
    · cases h
  · cases h

theorem loopStep_move {ch : Choice} (h : loopStep s p (s.pc p) ch = some t) : ProcMove s c p t := by
  unfold loopStep at h
  split at h
  · rename_i pid what k hpc
    split at h
    · rename_i hk
      split at h
      · rename_i hl
        split at h
        · rename_i hpid
          cases h
          exact .pokes (k := ⟨k, hk⟩) hpc hl hpid
        · cases h
          exact .goes (.searchSkips hpc)
      · cases h
    · cases h
      exact .goes (.searchFails hpc)
  · rename_i chan j next hpc
    split at h
    · rename_i hj
      split at h
      · rename_i hl
        cases h
        exact .wakes (j := ⟨j, hj⟩) hpc hl
      · cases h
    · cases h
      exact .goes (.woken hpc)
  · cases h

theorem procStep_move {ch : Choice} (h : procStep s c p ch = some t) : ProcMove s c p t := by
  unfold procStep at h
  split at h
  · split at h
    · rename_i hc
      cases h
      exact .yields hc.2
    · cases h
  · split at h
    · rename_i hc
      cases h
      exact .sleeps hc.2 hc.1
    · cases h
  · split at h
    · rename_i hc
      cases h
      exact .goes (.enters hc.1 hc.2)
    · cases h
  · split at h
    · cases h
    all_goals first
      | exact forkStep_move h
      | exact exitStep_move h
      | exact waitStep_move h
      | exact loopStep_move h

theorem clockStep_move (h : clockStep c0 s = some t) : Move c0 s .clock t := by
  unfold clockStep at h
  split at h
  · rename_i hc
    split at h
    · cases h
      exact .ticks hc
    · cases h
  · rename_i j hc
    split at h
    · rename_i hj
      split at h
      · rename_i hl
        cases h
        exact .clockWakes (j := ⟨j, hj⟩) hc hl
      · cases h
    · cases h
      exact .clockWoken hc
  · rename_i k hc
    split at h
    · rename_i hk
      split at h
      · rename_i hl
        cases h
        exact .charges (k := ⟨k, hk⟩) hc hl
      · cases h
    · rename_i hk
      cases h
      exact .charged hc (not_lt.1 hk)

theorem next_move (h : next c0 s l = some t) : Move c0 s l t := by
  cases l with
  | clock => exact clockStep_move h
  | device c chan j =>
      simp only [next] at h
      split at h
      · rename_i hl
        cases h
        exact .device hl
      · cases h
  | cpu c ch =>
      simp only [next] at h
      split at h
      · cases h
      · split at h
        · rename_i p hc
          split at h
          · rename_i hp
            exact .proc hc hp (procStep_move h)
          · split at h
            · rename_i hgo
              subst hgo
              unfold unpark at h
              split at h
              · cases h
              · rename_i hp
                cases h
                exact .unparks hc hp
              · rename_i hp
                cases h
                exact .unsleeps hc hp
            · cases h
        · split at h
          · rename_i hgo
            subst hgo
            exact schedStep_move h
          · cases h

/-! ## What a section does to one slot, and to one CPU -/

inductive SlotMove (s : World C) (l : Label C) (t : World C) (k : Fin NPROC) : Proc → Prop
  | same : SlotMove s l t k (s.proc k)
  | dispatched {c : C} {best : Int} : l = .cpu c .go → s.cpu c = .pass2 k best →
      Matches best (s.proc k) → s.plock k = none →
      SlotMove s l t k { s.proc k with state := .running }
  | unslept {c : C} : s.cpu c = .running k → s.park k = .slept → SlotMove s l t k (awake (s.proc k))
  | yielded {c : C} : s.cpu c = .running k → SlotMove s l t k { s.proc k with state := .runnable }
  | slept {c : C} {chan : Chan} : s.cpu c = .running k → SlotMove s l t k (asleep chan (s.proc k))
  | died {c : C} {status : Int} : s.cpu c = .running k → s.pc k = .exitZombie status →
      t = s.die c k status → SlotMove s l t k { s.proc k with xstate := status, state := .zombie }
  | claimed {c : C} {p : Fin NPROC} : (s.proc k).state = .unused → s.cpu c = .running p →
      t = s.claim c p k → SlotMove s l t k (claimed s.nextpid s.ticks (s.proc k))
  | unclaimed {p : Fin NPROC} : s.pc p = .forkFill k → t.pc p = .user →
      SlotMove s l t k (clearSlot (s.proc k))
  | adopted {c : C} {p : Fin NPROC} : s.cpu c = .running p → s.pc p = .forkParent k →
      t.pc p = .forkReady k → SlotMove s l t k { s.proc k with parent := some p }
  | readied {p : Fin NPROC} : s.pc p = .forkReady k → t.pc p = .user →
      SlotMove s l t k { s.proc k with state := .runnable }
  | reparented {p : Fin NPROC} {status : Int} : s.pc p = .exitReparent status k →
      (s.proc k).parent = some p → SlotMove s l t k { s.proc k with parent := some s.initproc }
  | woken {me : Option (Fin NPROC)} {chan : Chan} : s.plock k = none ∨ some k = me →
      SlotMove s l t k (wakeProc me chan k (s.proc k))
  | poked {c : C} {ch : Choice} {what : Poke} {p : Fin NPROC} {pid : Int} : l = .cpu c ch →
      s.cpu c = .running p → s.park p = .awake → s.pc p = .search pid what k →
      (s.proc k).pid = pid → s.plock k = none → SlotMove s l t k (what.apply (s.proc k))
  | reaped {c : C} {p : Fin NPROC} {havekids : Bool} : (s.proc k).state = .zombie →
      s.cpu c = .running p → s.pc p = .waitScan k havekids → (s.proc k).parent = some p →
      t = s.reap p k → SlotMove s l t k (clearSlot (s.proc k))
  | charged : s.clock = .charging k → t.clock = .charging (k + 1) →
      SlotMove s l t k (tickProc (s.proc k))

theorem SlotMove.update {j k : Fin NPROC} {v : Proc} (h : SlotMove s l t j v) :
    SlotMove s l t k (Function.update s.proc j v k) := by
  rw [Function.update_apply]
  split
  · rename_i hk
    subst hk
    exact h
  · exact .same

theorem ProcMove.slot (hm : ProcMove s c p t) (hc : s.cpu c = .running p) (hp : s.park p = .awake)
    (ch : Choice) (k : Fin NPROC) : SlotMove s (.cpu c ch) t k (t.proc k) := by
  cases hm with
  | goes | goesLock | filled => exact .same
  | yields => exact .update (.yielded hc)
  | sleeps | waitSleeps => exact .update (.slept hc)
  | dies _ hpc => exact .update (.died hc hpc rfl)
  | claims _ _ hu => exact .update (.claimed hu hc rfl)
  | fillFails hpc => exact .update (.unclaimed hpc (Function.update_self ..))
  | adopts hpc => exact .update (.adopted hc hpc (Function.update_self ..))
  | readies hpc => exact .update (.readied hpc (Function.update_self ..))
  | reparents hpc hpar => exact .update (.reparented hpc hpar)
  | wakes _ hl => exact .update (.woken (hl.imp_right fun h => by rw [h]))
  | reaps hpc hpar _ hz => exact .update (.reaped hz hc hpc hpar rfl)
  | pokes hpc hl hpid => exact .update (.poked rfl hc hp hpc hpid hl)

theorem Move.slot (hm : Move c0 s l t) (k : Fin NPROC) : SlotMove s l t k (t.proc k) := by
  cases hm with
  | sched | returns | unparks | ticks | clockWoken | charged => exact .same
  | dispatches hc hl hm => exact .update (.dispatched rfl hc hm hl)
  | unsleeps hc hp => exact .update (.unslept hc hp)
  | proc hc hp hm => exact hm.slot hc hp _ k
  | clockWakes _ hl => exact .update (.woken hl)
  | charges hk => exact .update (.charged hk rfl)
  | device hl => exact .update (.woken (.inl hl))

inductive CpuMove (s : World C) (c : C) : CpuPc → Prop
  | same : CpuMove s c (s.cpu c)
  | sched {v : CpuPc} : SchedStep s c v → CpuMove s c v
  | dispatches {k : Fin NPROC} {best : Int} : s.cpu c = .pass2 k best → Matches best (s.proc k) →
      CpuMove s c (.running k)
  | returns {p : Fin NPROC} : s.cpu c = .back p → CpuMove s c .start
  | leaves {p : Fin NPROC} : s.cpu c = .running p → CpuMove s c (.back p)

theorem CpuMove.update {c' : C} {v : CpuPc} (h : CpuMove s c v) :
    CpuMove s c' (Function.update s.cpu c v c') := by
  rw [Function.update_apply]
  split
  · rename_i hc
    subst hc
    exact h
  · exact .same

theorem Move.cpu_move (hm : Move c0 s l t) (c : C) : CpuMove s c (t.cpu c) := by
  cases hm with
  | sched h => exact .update (.sched h)
  | dispatches hc _ hm => exact .update (.dispatches hc hm)
  | returns hc => exact .update (.returns hc)
  | proc hc _ hm =>
      cases hm with
      | yields | sleeps | waitSleeps | dies => exact .update (.leaves hc)
      | _ => exact .same
  | _ => exact .same

theorem Move.numbers (hm : Move c0 s l t) :
    t.serial = s.serial ∧ t.made = s.made ∧ t.nextpid = s.nextpid ∨
      ∃ c p np, s.cpu c = .running p ∧ (s.proc np).state = .unused ∧ t = s.claim c p np := by
  cases hm with
  | proc hc _ hm =>
      cases hm with
      | claims _ _ hu => exact .inr ⟨_, _, _, hc, hu, rfl⟩
      | _ => exact .inl ⟨rfl, rfl, rfl⟩
  | _ => exact .inl ⟨rfl, rfl, rfl⟩

/-- Only the last section of `kexit` and a successful wait call are written down. -/
theorem Move.logs (hm : Move c0 s l t) :
    t.exits = s.exits ∧ t.reports = s.reports ∨
      (∃ c p status, s.cpu c = .running p ∧ s.pc p = .exitZombie status ∧ t = s.die c p status) ∨
      ∃ p k, (s.proc k).state = .zombie ∧ (s.proc k).parent = some p ∧ t = s.reap p k := by
  cases hm with
  | proc hc _ hm =>
      cases hm with
      | dies _ hpc => exact .inr (.inl ⟨_, _, _, hc, hpc, rfl⟩)
      | reaps _ hpar _ hz => exact .inr (.inr ⟨_, _, hz, hpar, rfl⟩)
      | _ => exact .inl ⟨rfl, rfl⟩
  | _ => exact .inl ⟨rfl, rfl⟩

theorem Move.initproc (hm : Move c0 s l t) : t.initproc = s.initproc := by
  cases hm with
  | proc _ _ hm => cases hm <;> rfl
  | _ => rfl

theorem Move.cpu_others (hm : Move c0 s l t) (hc : ∀ ch, l ≠ .cpu c ch) : t.cpu c = s.cpu c := by
  have hne : ∀ {c' : C} {ch : Choice}, l = .cpu c' ch → c ≠ c' := by
    rintro c' ch hl rfl
    exact hc ch hl
  cases hm with
  | sched | dispatches | returns => exact Function.update_of_ne (hne rfl) _ _
  | proc _ _ hm =>
      cases hm with
      | yields | sleeps | waitSleeps | dies => exact Function.update_of_ne (hne rfl) _ _
      | _ => rfl
  | _ => rfl

theorem ProcMove.pc_others (hm : ProcMove s c p t) {q : Fin NPROC} (hq : q ≠ p) :
    t.pc q = s.pc q ∨ (s.proc q).state = .unused ∧ t.pc q = .user := by
  cases hm with
  | goes | goesLock | waitSleeps | dies | fillFails | filled | adopts | readies | reparents | wakes
  | reaps | pokes => exact .inl (Function.update_of_ne hq _ _)
  | yields | sleeps => exact .inl rfl
  | @claims k _ _ hu =>
      by_cases hk : q = k
      · subst hk
        refine .inr ⟨hu, ?_⟩
        simp [World.claim, hq]
      · refine .inl ?_
        simp [World.claim, hq, hk]

end

/-! Sample runs have two CPUs. -/

abbrev cpu0 : Fin 2 := ⟨0, Nat.two_pos⟩
abbrev cpu1 : Fin 2 := ⟨1, Nat.one_lt_two⟩

def sampleWorld (ls : List (Label (Fin 2))) : Option (World (Fin 2)) :=
  replay (next cpu0) (World.boot (Fin 2)) ls

theorem sampleWorld_exists (ls : List (Label (Fin 2))) (P : World (Fin 2) → Prop) [DecidablePred P]
    (h : (sampleWorld ls).any (fun s => decide (P s)) = true) :
    ∃ s, Reach (next 0) Free (· = World.boot (Fin 2)) s ∧ P s := by
  obtain ⟨s, hs, hP⟩ := (Option.any_eq_true _ _).1 h
  exact ⟨s, replay_reach (.start rfl) (fun _ _ _ => trivial) hs, of_decide_eq_true hP⟩

def goes (c : Fin 2) (n : Nat) : List (Label (Fin 2)) := List.replicate n (.cpu c .go)

end G9OS.Smp
