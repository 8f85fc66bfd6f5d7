import G9OS.Smp.Tree

/-! # The pid of the parent

`getprocinfo` holds the lock of the process it reports on, but not `wait_lock`: `p->parent`
and the pid behind it are separate loads, and another CPU may hand the process over to
`initproc` between them. What keeps the old parent in its slot is the `wakeup` that follows
in `reparent`: it has to take the lock that `getprocinfo` holds before the parent can become
a `ZOMBIE`, so it cannot be reaped, and its slot cannot be used again.
-/

namespace G9OS.Smp

open Lib Kernel Sched

/-- Where a thread is in `getprocinfo`. From `test` to `filled` it holds the lock of the slot. -/
inductive Read
  | idle
  | scan (pid : Int) (k : Nat)
  | test (pid : Int) (k : Fin NPROC)                    -- `p->parent ?`
  | load (pid : Int) (k : Fin NPROC)                    -- `p->parent` once more
  | deref (pid : Int) (k q : Fin NPROC)                 -- `->pid`
  | filled (pid : Int) (k : Fin NPROC) (ppid : Int)     -- `release`
  | copy (pid : Int) (k : Fin NPROC) (ppid : Int)       -- `copyout`
  | fault                                               -- the pid behind a null pointer
deriving DecidableEq, Repr

def Read.slot : Read → Option (Fin NPROC)
  | .test _ k | .load _ k | .deref _ k _ | .filled _ k _ => some k
  | _ => none

/-- A call that has returned 0, and the tables of all the moments between its begin and its end. -/
structure Answer (C : Type) where
  pid : Int
  slot : Fin NPROC
  ppid : Int
  during : List (World C)

structure Asking (C : Type) where
  world : World C
  read : Fin NPROC → Read
  seen : Fin NPROC → List (World C)                     -- since the call of the process began
  answers : List (Answer C)

inductive InfoLabel (C : Type)
  | other (l : Label C)
  | ask (c : C) (pid : Int)
  | read (c : C) (ok : Bool)                            -- whether a `copyout` succeeds
deriving DecidableEq

section
variable {C : Type}

@[simps] def Asking.setRead (s : Asking C) (p : Fin NPROC) (v : Read) : Asking C :=
  { s with read := Function.update s.read p v }

@[simps] def Asking.become (s : Asking C) (w : World C) : Asking C :=
  { s with world := w, seen := fun p => w :: s.seen p }

def askStep (s : Asking C) (pid : Int) (p : Fin NPROC) : Option (Asking C) :=
  if s.read p = .idle ∧ s.world.pc p = .user ∧ (s.world.proc p).killed = 0 then
    some { s.setRead p (.scan pid 0) with seen := Function.update s.seen p [s.world] }
  else none

def readStep (s : Asking C) (c : C) (ok : Bool) (p : Fin NPROC) : Option (Asking C) :=
  match s.read p with
  | .idle => none
  | .scan pid k =>
      if h : k < NPROC then
        if s.world.plock ⟨k, h⟩ = none then
          if (s.world.proc ⟨k, h⟩).pid = pid then
            some ((s.become (s.world.setPlock ⟨k, h⟩ (some c))).setRead p (.test pid ⟨k, h⟩))
          else some (s.setRead p (.scan pid (k + 1)))
        else none
      else some (s.setRead p .idle)
  | .test pid k =>
      match (s.world.proc k).parent with
      | none => some (s.setRead p (.filled pid k 0))
      | some _ => some (s.setRead p (.load pid k))
  | .load pid k =>
      match (s.world.proc k).parent with
      | none => some (s.setRead p .fault)
      | some q => some (s.setRead p (.deref pid k q))
  | .deref pid k q => some (s.setRead p (.filled pid k (s.world.proc q).pid))
  | .filled pid k ppid =>
      some ((s.become (s.world.setPlock k none)).setRead p (.copy pid k ppid))
  | .copy pid k ppid =>
      if ok then
        some { s.setRead p .idle with answers := ⟨pid, k, ppid, s.seen p⟩ :: s.answers }
      else some (s.setRead p .idle)
  | .fault => none

variable [DecidableEq C]

def Label.on (c0 : C) : Label C → C
  | .cpu c _ | .device c _ _ => c
  | .clock => c0

/-- Inside `getprocinfo` a process makes no other call, and with a lock held its CPU is not
interrupted. -/
def Asking.allows (s : Asking C) (c0 : C) (l : Label C) : Bool :=
  match s.world.cpu (l.on c0) with
  | .running p =>
      match s.read p with
      | .idle => true
      | .scan _ _ | .copy _ _ _ =>
          match l with
          | .cpu _ (.call _) | .cpu _ (.sleep _) => false
          | _ => true
      | _ => false
  | _ => true

/-- The process whose thread CPU `c` executes, unless it is in `clockintr`. -/
def World.thread (s : World C) (c0 c : C) : Option (Fin NPROC) :=
  if c = c0 ∧ s.clock ≠ .idle then none
  else
    match s.cpu c with
    | .running p => if s.park p = .awake then some p else none
    | _ => none

def infoNext (c0 : C) (s : Asking C) : InfoLabel C → Option (Asking C)
  | .other l => if s.allows c0 l then (next c0 s.world l).map s.become else none
  | .ask c pid => (s.world.thread c0 c).bind (askStep s pid)
  | .read c ok => (s.world.thread c0 c).bind (readStep s c ok)

end

def Asking.boot (C : Type) : Asking C := ⟨World.boot C, fun _ => .idle, fun _ => [], []⟩

section
variable {C : Type}

/-- At this moment, slot `k` has the pid, and no parent if 0 is reported, or else a parent whose
pid is reported. -/
def Tells (u : World C) (pid : Int) (k : Fin NPROC) (ppid : Int) : Prop :=
  (u.proc k).pid = pid ∧
    ((u.proc k).parent = none ∧ ppid = 0 ∨
      ∃ q, (u.proc k).parent = some q ∧ (u.proc q).state ≠ .unused ∧ ppid = (u.proc q).pid)

end

/-! ## The lock of a slot -/

/-- The slot whose lock `allocproc` has returned with. -/
def Pc.filling : Pc → Option (Fin NPROC)
  | .forkFill np => some np
  | .wakeup _ _ next => next.filling
  | _ => none

theorem Pc.child_of_filling {np : Fin NPROC} (v : Pc) (h : v.filling = some np) :
    v.child = some np := by
  induction v with
  | forkFill => exact h
  | wakeup _ _ _ ih => exact ih h
  | _ => cases h

section
variable {C : Type}

/-- A `kfork` that fills in its child holds the child's lock. -/
def Filling (s : World C) : Prop := ∀ p np, (s.pc p).filling = some np → s.plock np ≠ none

/-- Neither `swtch` nor `kfork` keeps the lock of slot `k`. -/
structure Quiet (s : World C) (k : Fin NPROC) : Prop where
  back : ∀ c, s.cpu c ≠ .back k
  awake : ∀ c, s.cpu c = .running k → s.park k = .awake
  filling : ∀ p, (s.pc p).filling ≠ some k

def Borrowed (s : World C) (k : Fin NPROC) : Prop := s.plock k ≠ none ∧ Quiet s k

structure Sane (s : World C) : Prop where
  seats : ∀ k, Seat s k
  forking : Forking s
  numbered : Numbered s
  tree : Tree s
  filling : Filling s

variable {s t : World C} {k p q np : Fin NPROC} {c : C} {l : Label C}

theorem Sane.quiet (h : Sane s) (hl : s.plock k = none) : Quiet s k := by
  refine ⟨fun c hc => ?_, fun c hc => ?_, fun p hp => h.filling p k hp hl⟩
  · cases h.seats k with
    | off _ hno => exact hno c (.inr (.inl hc))
    | on _ hr _ hu =>
        rw [← hu c (.inr (.inl hc)), hc] at hr
        cases hr
    | leaving _ _ _ _ _ _ hp => cases hp.symm.trans hl
  · cases h.seats k with
    | off _ hno => exact absurd (.inl hc) (hno c)
    | on _ _ _ _ hp =>
        by_contra hne
        cases (hp hne).symm.trans hl
    | leaving _ _ _ _ _ _ hp => cases hp.symm.trans hl

theorem Seat.relock {j : Fin NPROC} (h : Seat s j) (hq : Quiet s k) (o : Option C) :
    Seat (s.setPlock k o) j := by
  by_cases hj : j = k
  · subst hj
    cases h with
    | off h1 h2 => exact .off h1 h2
    | on h1 h2 h3 h4 => exact .on h1 h2 h3 h4 fun hp => absurd (hq.awake _ h2) hp
    | leaving _ _ _ hb => exact absurd hb (hq.back _)
  · exact h.frame (fun _ hc => hc) (fun _ _ => ⟨rfl, rfl⟩) rfl rfl (Function.update_of_ne hj _ _)

theorem Sane.relock (h : Sane s) (hq : Quiet s k) (o : Option C) : Sane (s.setPlock k o) where
  seats j := (h.seats j).relock hq o
  forking := ⟨h.forking.used, h.forking.one⟩
  numbered := ⟨h.numbered.lt, h.numbered.inj, h.numbered.first, h.numbered.nextpid, h.numbered.pid⟩
  tree := ⟨h.tree.parent, h.tree.started, h.tree.init, h.tree.unset, h.tree.orphan, h.tree.adoptee,
    h.tree.younger, h.tree.handed⟩
  filling p np hp := by
    have hne : np ≠ k := by
      rintro rfl
      exact hq.filling p hp
    rw [World.setPlock_plock, Function.update_of_ne hne]
    exact h.filling p np hp

theorem Quiet.relock {j : Fin NPROC} (h : Quiet s j) (o : Option C) : Quiet (s.setPlock k o) j :=
  ⟨h.back, h.awake, h.filling⟩

variable [DecidableEq C] {c0 : C}

theorem Move.unlocks (hm : Move c0 s l t) (hl : s.plock k ≠ none) :
    t.plock k ≠ none ∨ (∃ c, s.cpu c = .back k) ∨ (∃ c, s.cpu c = .running k ∧ s.park k ≠ .awake) ∨
      ∃ p, s.pc p = .forkFill k ∧ (t.pc p = .user ∨ t.pc p = .forkParent k) := by
  have hset : ∀ (j : Fin NPROC) (o : Option C), (j = k → o ≠ none) →
      Function.update s.plock j o k ≠ none := by
    intro j o ho
    by_cases hj : j = k
    · subst hj
      rw [Function.update_self]
      exact ho rfl
    · rwa [Function.update_of_ne (Ne.symm hj)]
  cases hm with
  | sched | ticks | clockWakes | clockWoken | charges | charged | device => exact .inl hl
  | dispatches => exact .inl (hset _ _ fun _ => nofun)
  | @returns c p hc =>
      by_cases hp : p = k
      · exact .inr (.inl ⟨c, hp ▸ hc⟩)
      · exact .inl (hset _ _ fun he => absurd he hp)
  | @unparks c p hc hpark | @unsleeps c p hc hpark =>
      by_cases hp : p = k
      · subst hp
        exact .inr (.inr (.inl ⟨c, hc, by simp [hpark]⟩))
      · exact .inl (hset _ _ fun he => absurd he hp)
  | proc _ _ hm =>
      cases hm with
      | goes | goesLock | adopts | readies | reparents | wakes | reaps | pokes => exact .inl hl
      | yields | sleeps | waitSleeps | dies | claims => exact .inl (hset _ _ fun _ => nofun)
      | @fillFails np hpc =>
          by_cases hp : np = k
          · subst hp
            exact .inr (.inr (.inr ⟨_, hpc, .inl (Function.update_self ..)⟩))
          · exact .inl (hset _ _ fun he => absurd he hp)
      | @filled np hpc =>
          by_cases hp : np = k
          · subst hp
            exact .inr (.inr (.inr ⟨_, hpc, .inr (Function.update_self ..)⟩))
          · exact .inl (hset _ _ fun he => absurd he hp)

omit [DecidableEq C] in
theorem PcStep.filling {v : Pc} (h : PcStep s p v) (hv : v.filling = some np) :
    (s.pc p).filling = some np := by
  obtain ⟨chan, j, hpc⟩ := h.from_wakeup (v.child_of_filling hv)
  rw [hpc]
  exact hv

theorem ProcMove.filling (hm : ProcMove s c p t) (h : (t.pc q).filling = some np) :
    (s.pc q).filling = some np ∨ s.plock np = none ∧ t.plock np ≠ none := by
  by_cases hq : q = p
  · subst hq
    cases hm with
    | goes hs | goesLock hs => exact .inl (hs.filling (by simpa using h))
    | yields | sleeps => exact .inl h
    | waitSleeps | dies | fillFails | filled | adopts | readies | reparents | reaps | pokes =>
        simp [World.leave, World.die, World.reap, Pc.filling] at h
    | @claims k _ hl =>
        have hk : k = np := by simpa [World.claim, Pc.filling] using h
        subst hk
        exact .inr ⟨hl, by simp [World.claim]⟩
    | wakes hpc =>
        rw [hpc]
        left
        simpa [Pc.filling] using h
  · rcases hm.pc_others hq with he | ⟨-, he⟩
    · exact .inl (he ▸ h)
    · rw [he] at h
      cases h

theorem Move.filling (hm : Move c0 s l t) (h : (t.pc q).filling = some np) :
    (s.pc q).filling = some np ∨ s.plock np = none ∧ t.plock np ≠ none := by
  cases hm with
  | proc _ _ hm => exact hm.filling h
  | _ => exact .inl h

theorem Sane.step (h : Sane s) (hm : Move c0 s l t) : Sane t where
  seats k := hm.seat (h.seats k) h.forking
  forking := h.forking.step h.seats hm
  numbered := h.numbered.step h.forking h.seats hm
  tree := h.tree.step h.forking h.seats h.numbered hm
  filling p np hp := by
    rcases hm.filling hp with hold | ⟨-, hl⟩
    · have hchild := Pc.child_of_filling _ hold
      have hno := (h.seats np).not_at (.inr (h.forking.used p np hchild))
      rcases hm.unlocks (h.filling p np hold) with hl | ⟨c, hc⟩ | ⟨c, hc, -⟩ | ⟨q, hpc, hpc'⟩
      · exact hl
      · exact absurd (.inr (.inl hc)) (hno c)
      · exact absurd (.inl hc) (hno c)
      · obtain rfl := h.forking.one p q np hchild (by rw [hpc]; rfl)
        rcases hpc' with hpc' | hpc' <;> (rw [hpc'] at hp; cases hp)
    · exact hl

/-- Nobody switches to or from a process while somebody else has its lock. -/
theorem Quiet.cpu_step (hq : Quiet s k) (hl : s.plock k ≠ none) (hm : Move c0 s l t) :
    (∀ c, t.cpu c = s.cpu c ∨ t.cpu c ≠ .back k ∧ t.cpu c ≠ .running k) ∧
      t.park k = s.park k := by
  have hset : ∀ (c' : C) (v : CpuPc), v ≠ .back k → v ≠ .running k → ∀ c,
      Function.update s.cpu c' v c = s.cpu c ∨
        Function.update s.cpu c' v c ≠ .back k ∧ Function.update s.cpu c' v c ≠ .running k := by
    intro c' v h1 h2 c
    by_cases hc : c = c'
    · subst hc
      rw [Function.update_self]
      exact .inr ⟨h1, h2⟩
    · exact .inl (Function.update_of_ne hc _ _)
  have hother : ∀ j, s.plock j = none → j ≠ k := by
    rintro j hj rfl
    exact hl hj
  have hleave : ∀ (c' : C) (p : Fin NPROC) (v : Park), p ≠ k →
      (∀ c, Function.update s.cpu c' (.back p) c = s.cpu c ∨
        Function.update s.cpu c' (.back p) c ≠ .back k ∧
          Function.update s.cpu c' (.back p) c ≠ .running k) ∧
        Function.update s.park p v k = s.park k := fun c' p v hp =>
    ⟨hset c' _ (fun he => hp (by cases he; rfl)) nofun, Function.update_of_ne (Ne.symm hp) _ _⟩
  cases hm with
  | @sched c' v hs =>
      have hv : v ≠ .back k ∧ v ≠ .running k := by cases hs <;> exact ⟨nofun, nofun⟩
      exact ⟨hset c' v hv.1 hv.2, rfl⟩
  | @dispatches c' j _ _ hj =>
      exact ⟨hset c' _ nofun fun he => hother j hj (by cases he; rfl), rfl⟩
  | returns => exact ⟨hset _ _ nofun nofun, rfl⟩
  | @unparks c' p hc hpark | @unsleeps c' p hc hpark =>
      have hp : p ≠ k := by
        rintro rfl
        cases hpark.symm.trans (hq.awake c' hc)
      exact ⟨fun _ => .inl rfl, Function.update_of_ne (Ne.symm hp) _ _⟩
  | proc _ _ hm =>
      cases hm with
      | yields hj | sleeps hj | waitSleeps hj | dies hj => exact hleave _ _ _ (hother _ hj)
      | claims _ hj =>
          exact ⟨fun _ => .inl rfl, Function.update_of_ne (Ne.symm (hother _ hj)) _ _⟩
      | _ => exact ⟨fun _ => .inl rfl, rfl⟩
  | _ => exact ⟨fun _ => .inl rfl, rfl⟩

theorem Borrowed.step (h : Borrowed s k) (hm : Move c0 s l t) : Borrowed t k := by
  obtain ⟨hl, hq⟩ := h
  obtain ⟨hcpu, hpark⟩ := hq.cpu_step hl hm
  refine ⟨?_, fun c hc => ?_, fun c hc => ?_, fun p hp => ?_⟩
  · rcases hm.unlocks hl with hl | ⟨c, hc⟩ | ⟨c, hc, hp⟩ | ⟨p, hpc, -⟩
    · exact hl
    · exact absurd hc (hq.back c)
    · exact absurd (hq.awake c hc) hp
    · exact absurd (by rw [hpc]; rfl) (hq.filling p)
  · rcases hcpu c with he | ⟨hne, -⟩
    · exact hq.back c (he ▸ hc)
    · exact hne hc
  · rcases hcpu c with he | ⟨-, hne⟩
    · rw [hpark]
      exact hq.awake c (he ▸ hc)
    · exact absurd hc hne
  · rcases hm.filling hp with hold | ⟨hnone, -⟩
    · exact hq.filling p hold
    · exact hl hnone

/-! ## The target and its parent -/

/-- What others do to a slot while its lock is held. -/
inductive HeldMove (s t : World C) (k : Fin NPROC) : Proc → Prop
  | kept {v : Proc} : v.pid = (s.proc k).pid → v.parent = (s.proc k).parent → HeldMove s t k v
  | adopted {p : Fin NPROC} : s.pc p = .forkParent k →
      HeldMove s t k { s.proc k with parent := some p }
  | reparented {q : Fin NPROC} {status : Int} : (s.proc k).parent = some q →
      t.pc q = .wakeup (.proc s.initproc) 0 (.exitReparent status (k + 1)) →
      HeldMove s t k { s.proc k with parent := some s.initproc }

omit [DecidableEq C] in
theorem HeldMove.update {j : Fin NPROC} {v : Proc} (h : j = k → HeldMove s t k v) :
    HeldMove s t k (Function.update s.proc j v k) := by
  by_cases hj : j = k
  · subst hj
    rw [Function.update_self]
    exact h rfl
  · rw [Function.update_of_ne (Ne.symm hj)]
    exact .kept rfl rfl

omit [DecidableEq C] in
theorem HeldMove.woken {j : Fin NPROC} (me : Option (Fin NPROC)) (chan : Chan) :
    HeldMove s t k (Function.update s.proc j (wakeProc me chan j (s.proc j)) k) := by
  refine .update ?_
  rintro rfl
  refine .kept ?_ (wakeProc_parent ..)
  unfold wakeProc
  split <;> rfl

theorem Borrowed.slot (h : Borrowed s k) (hm : Move c0 s l t) : HeldMove s t k (t.proc k) := by
  obtain ⟨hl, hq⟩ := h
  have hfree : ∀ {j}, s.plock j = none → ∀ {v}, j = k → HeldMove s t k v := by
    rintro j hj v rfl
    exact absurd hj hl
  cases hm with
  | sched | returns | unparks | ticks | clockWoken | charged => exact .kept rfl rfl
  | dispatches _ hj | charges _ hj => exact .update (hfree hj)
  | unsleeps hc hpark =>
      refine .update ?_
      rintro rfl
      cases hpark.symm.trans (hq.awake _ hc)
  | clockWakes | device => exact .woken _ _
  | proc _ _ hm =>
      cases hm with
      | goes | goesLock | filled => exact .kept rfl rfl
      | yields hj | sleeps hj | waitSleeps hj | dies hj | claims _ hj | readies _ hj | reaps _ _ hj
      | pokes _ hj => exact .update (hfree hj)
      | fillFails hpc =>
          refine .update ?_
          rintro rfl
          exact absurd (by rw [hpc]; rfl) (hq.filling _)
      | adopts hpc =>
          refine .update ?_
          rintro rfl
          exact .adopted hpc
      | reparents hpc hpar =>
          refine .update ?_
          rintro rfl
          exact .reparented hpar (Function.update_self ..)
      | wakes => exact .woken _ _

/-- A started process keeps its pid until it exits. -/
theorem SlotMove.pid {v : Proc} (hf : Forking s) (hm : SlotMove s l t k v)
    (h : Active (s.proc k)) : v.pid = (s.proc k).pid := by
  obtain ⟨h1, h2, h3⟩ := h.ne
  cases hm with
  | claimed hu => exact absurd hu h1
  | unclaimed hpc => exact absurd (hf.used _ k (by rw [hpc]; rfl)) h2
  | reaped hz => exact absurd hz h3
  | woken =>
      unfold wakeProc
      split <;> rfl
  | @poked _ _ what => cases what <;> rfl
  | charged =>
      unfold tickProc
      split <;> rfl
  | _ => rfl

theorem next_wakeup {chan : Chan} {j : Fin NPROC} {v : Pc} (h : next c0 s l = some t)
    (hpc : s.pc q = .wakeup chan j v) (hq : (s.proc q).state ≠ .unused) :
    t.pc q = s.pc q ∨ t.pc q = .wakeup chan (j + 1) v ∧ (s.plock j = none ∨ j = q) := by
  have hm := next_move h
  cases hm with
  | @proc c p ch _ hc hp hm =>
      by_cases hqp : q = p
      · subst hqp
        have hproc : procStep s c q ch = some t := by
          simp only [next, hc, hp, if_true] at h
          split at h
          · cases h
          · exact h
        clear hm h
        cases ch with
        | yield =>
            simp only [procStep] at hproc
            split at hproc
            · cases hproc
              exact .inl rfl
            · cases hproc
        | sleep | call => simp [procStep, hpc] at hproc
        | fail => simp [procStep, loopStep, hpc] at hproc
        | go =>
            simp only [procStep, hpc, loopStep, j.isLt, dite_true] at hproc
            split at hproc
            · rename_i hl
              cases hproc
              exact .inr ⟨by simp, hl⟩
            · cases hproc
      · rcases hm.pc_others hqp with he | ⟨hu, -⟩
        · exact .inl he
        · exact absurd hu hq
  | _ => exact .inl rfl

/-- The process in slot `q` has been the parent of the one in slot `k` since its lock was taken,
and cannot exit before the lock is released. -/
structure Anchored (s : World C) (k q : Fin NPROC) : Prop where
  active : Active (s.proc q)
  ne : q ≠ k
  tied : (s.proc k).parent = some q ∨ ∃ chan status n, ∃ j : Fin NPROC,
    s.pc q = .wakeup chan j (.exitReparent status n) ∧ j ≤ k

omit [DecidableEq C] in
theorem Sane.anchored (h : Sane s) (hpar : (s.proc k).parent = some q) : Anchored s k q := by
  obtain ⟨ha, hlt⟩ := h.tree.parent k q hpar
  refine ⟨ha, ?_, .inl hpar⟩
  rintro rfl
  exact lt_irrefl _ hlt

theorem Borrowed.parent (hb : Borrowed s k) (hs : Sane s) (hm : Move c0 s l t)
    (hpar : (s.proc k).parent = some q) : (t.proc k).parent = some q ∨
      (t.proc k).parent = some s.initproc ∧
        ∃ status, t.pc q = .wakeup (.proc s.initproc) 0 (.exitReparent status (k + 1)) := by
  have hmove := hb.slot hm
  generalize t.proc k = v at hmove
  cases hmove with
  | kept _ he => exact .inl (he.trans hpar)
  | adopted hpc => cases (hs.tree.orphan _ k (by rw [hpc]; rfl)).symm.trans hpar
  | reparented hpar' hpc =>
      cases hpar.symm.trans hpar'
      exact .inr ⟨rfl, _, hpc⟩

/-- Until the lock is released, the parent gets no further than to it. -/
theorem Anchored.step (h : Anchored s k q) (hb : Borrowed s k) (hs : Sane s)
    (hn : next c0 s l = some t) : Anchored t k q := by
  have hm := next_move hn
  refine ⟨?_, h.ne, ?_⟩
  · refine ((hm.slot q).active hs.forking h.active).resolve_right ?_
    rintro ⟨status, hz⟩
    rcases h.tied with hpar | ⟨chan, status', n, j, hpc, -⟩
    · exact (hs.tree.handed q NPROC (by rw [hz]; rfl)).2 k k.isLt hpar
    · cases hz.symm.trans hpc
  · rcases h.tied with hpar | ⟨chan, status, n, j, hpc, hj⟩
    · rcases hb.parent hs hm hpar with hpar' | ⟨-, status, hpc⟩
      · exact .inl hpar'
      · exact .inr ⟨_, _, _, 0, hpc, Fin.zero_le k⟩
    · right
      rcases next_wakeup hn hpc h.active.ne.1 with he | ⟨hpc', hl⟩
      · exact ⟨chan, status, n, j, he.trans hpc, hj⟩
      · -- the lock of slot `k` is not free
        have hne : j ≠ k := by
          rintro rfl
          rcases hl with hl | hl
          · exact hb.1 hl
          · exact h.ne hl.symm
        have hlt : (j : Nat) + 1 ≤ k := lt_of_le_of_ne hj hne
        exact ⟨chan, status, n, ⟨j + 1, hlt.trans_lt k.isLt⟩, hpc', hlt⟩

/-! ## Calls -/

/-- The table `s`, and the tables since the call began, at this place of a `getprocinfo`. -/
def Read.Good (s : World C) (seen : List (World C)) : Read → Prop
  | .idle | .scan _ _ => True
  | .test pid k => Borrowed s k ∧ (s.proc k).pid = pid
  | .load pid k => Borrowed s k ∧ (s.proc k).pid = pid ∧ (s.proc k).parent ≠ none
  | .deref pid k q => Borrowed s k ∧ Anchored s k q ∧ ∃ u ∈ seen, Tells u pid k (s.proc q).pid
  | .filled pid k ppid => Borrowed s k ∧ ∃ u ∈ seen, Tells u pid k ppid
  | .copy pid k ppid => ∃ u ∈ seen, Tells u pid k ppid
  | .fault => False

structure Inv (s : Asking C) : Prop where
  sane : Sane s.world
  present : ∀ p, s.read p ≠ .idle → s.world ∈ s.seen p
  good : ∀ p, (s.read p).Good s.world (s.seen p)
  alone : ∀ p p' k, (s.read p).slot = some k → (s.read p').slot = some k → p = p'
  answers : ∀ a ∈ s.answers, ∃ u ∈ a.during, Tells u a.pid a.slot a.ppid

variable {r : Read} {seen : List (World C)}

omit [DecidableEq C] in
theorem Read.Good.borrowed (h : r.Good s seen) (hk : r.slot = some k) : Borrowed s k := by
  cases r with
  | test | load | deref | filled =>
      cases hk
      exact h.1
  | _ => cases hk

theorem Read.Good.step (h : r.Good s seen) (hs : Sane s) (hn : next c0 s l = some t) :
    r.Good t (t :: seen) := by
  have hm := next_move hn
  have hpid : ∀ {k}, Borrowed s k → (t.proc k).pid = (s.proc k).pid := by
    intro k hb
    have hmove := hb.slot hm
    generalize t.proc k = v at hmove
    cases hmove with
    | kept he => exact he
    | adopted | reparented => rfl
  cases r with
  | idle | scan => trivial
  | test pid k => exact ⟨h.1.step hm, (hpid h.1).trans h.2⟩
  | load pid k =>
      obtain ⟨hb, hp, hpar⟩ := h
      obtain ⟨q, hq⟩ := Option.ne_none_iff_exists'.1 hpar
      refine ⟨hb.step hm, (hpid hb).trans hp, ?_⟩
      rcases hb.parent hs hm hq with he | ⟨he, -⟩ <;> simp [he]
  | deref pid k q =>
      obtain ⟨hb, ha, u, hu, htells⟩ := h
      refine ⟨hb.step hm, ha.step hb hs hn, u, List.mem_cons_of_mem _ hu, ?_⟩
      rwa [(hm.slot q).pid hs.forking ha.active]
  | filled pid k ppid =>
      obtain ⟨hb, u, hu, htells⟩ := h
      exact ⟨hb.step hm, u, List.mem_cons_of_mem _ hu, htells⟩
  | copy pid k ppid =>
      obtain ⟨u, hu, htells⟩ := h
      exact ⟨u, List.mem_cons_of_mem _ hu, htells⟩
  | fault => exact h

omit [DecidableEq C] in
theorem Read.Good.relock (h : r.Good s seen) (hk : r.slot ≠ some k) (o : Option C) :
    r.Good (s.setPlock k o) (s.setPlock k o :: seen) := by
  have hlock : ∀ {j}, some j ≠ some k → Borrowed s j → Borrowed (s.setPlock k o) j := by
    intro j hj hb
    refine ⟨?_, hb.2.relock o⟩
    rw [World.setPlock_plock, Function.update_of_ne fun he => hj (congrArg some he)]
    exact hb.1
  cases r with
  | idle | scan => trivial
  | test | load => exact ⟨hlock hk h.1, h.2⟩
  | deref pid k q =>
      obtain ⟨hb, ha, u, hu, htells⟩ := h
      exact ⟨hlock hk hb, ⟨ha.active, ha.ne, ha.tied⟩, u, List.mem_cons_of_mem _ hu, htells⟩
  | filled pid k ppid =>
      obtain ⟨hb, u, hu, htells⟩ := h
      exact ⟨hlock hk hb, u, List.mem_cons_of_mem _ hu, htells⟩
  | copy pid k ppid =>
      obtain ⟨u, hu, htells⟩ := h
      exact ⟨u, List.mem_cons_of_mem _ hu, htells⟩
  | fault => exact h

variable {a b : Asking C}

theorem Inv.other (h : Inv a) (hn : next c0 a.world l = some t) : Inv (a.become t) where
  sane := h.sane.step (next_move hn)
  present _ _ := List.mem_cons_self
  good p := (h.good p).step h.sane hn
  alone := h.alone
  answers := h.answers

omit [DecidableEq C] in
/-- Process `p` comes to the place `r`, and the other calls see what happens to the table. -/
theorem Inv.update (h : Inv a) {w : World C} {seen : Fin NPROC → List (World C)} (hw : Sane w)
    (hgood : r.Good w (seen p)) (hpresent : r ≠ .idle → w ∈ seen p)
    (halone : ∀ k p', r.slot = some k → p' ≠ p → (a.read p').slot ≠ some k)
    (hothers : ∀ p', p' ≠ p → (a.read p').Good w (seen p') ∧ (a.read p' ≠ .idle → w ∈ seen p')) :
    Inv ⟨w, Function.update a.read p r, seen, a.answers⟩ where
  sane := hw
  present p' hp' := by
    by_cases he : p' = p
    · subst he
      exact hpresent (by simpa using hp')
    · exact (hothers p' he).2 (by simpa [he] using hp')
  good p' := by
    by_cases he : p' = p
    · subst he
      simpa using hgood
    · simpa [he] using (hothers p' he).1
  alone p1 p2 k h1 h2 := by
    by_cases he1 : p1 = p
    · by_cases he2 : p2 = p
      · rw [he1, he2]
      · subst he1
        simp only [Function.update_self, Function.update_of_ne he2] at h1 h2
        exact absurd h2 (halone k p2 h1 he2)
    · by_cases he2 : p2 = p
      · subst he2
        simp only [Function.update_self, Function.update_of_ne he1] at h1 h2
        exact absurd h1 (halone k p1 h2 he1)
      · simp only [Function.update_of_ne he1, Function.update_of_ne he2] at h1 h2
        exact h.alone p1 p2 k h1 h2
  answers := h.answers

omit [DecidableEq C] in
theorem Inv.ask (h : Inv a) {pid : Int} (hb : askStep a pid p = some b) : Inv b := by
  unfold askStep at hb
  split at hb
  · cases hb
    refine h.update h.sane ?_ (fun _ => ?_) (fun k p' hk => ?_) fun p' he => ?_
    · trivial
    · simp
    · cases hk
    · simp only [Function.update_of_ne he]
      exact ⟨h.good p', h.present p'⟩
  · cases hb

omit [DecidableEq C] in
/-- A load, and the steps that leave the table and its locks alone. -/
theorem Inv.loads (h : Inv a) (hp : a.read p ≠ .idle) (hgood : r.Good a.world (a.seen p))
    (hslot : ∀ k, r.slot = some k → (a.read p).slot = some k) : Inv (a.setRead p r) := by
  refine h.update h.sane hgood (fun _ => h.present p hp) (fun k p' hk he hk' => ?_) fun p' _ =>
    ⟨h.good p', h.present p'⟩
  exact he (h.alone p' p k hk' (hslot k hk))

omit [DecidableEq C] in
theorem Inv.relock (h : Inv a) (hq : Quiet a.world k) (o : Option C)
    (hgood : r.Good (a.world.setPlock k o) (a.world.setPlock k o :: a.seen p))
    (hslot : ∀ k', r.slot = some k' → k' = k)
    (hothers : ∀ p', p' ≠ p → (a.read p').slot ≠ some k) :
    Inv ((a.become (a.world.setPlock k o)).setRead p r) := by
  refine h.update (h.sane.relock hq o) hgood (fun _ => List.mem_cons_self) (fun k' p' hk he => ?_)
    fun p' he => ⟨(h.good p').relock (hothers p' he) o, fun _ => List.mem_cons_self⟩
  rw [hslot k' hk]
  exact hothers p' he

omit [DecidableEq C] in
theorem Inv.acquires {pid : Int} (h : Inv a) (hl : a.world.plock k = none)
    (hpid : (a.world.proc k).pid = pid) :
    Inv ((a.become (a.world.setPlock k (some c))).setRead p (.test pid k)) := by
  have hq := h.sane.quiet hl
  refine h.relock hq _ ⟨⟨by simp, hq.relock _⟩, hpid⟩ (fun k' hk => ?_) fun p' _ hk => ?_
  · cases hk
    rfl
  · exact ((h.good p').borrowed hk).1 hl

omit [DecidableEq C] in
theorem Inv.releases {pid ppid : Int} (h : Inv a) (hp : a.read p = .filled pid k ppid) :
    Inv ((a.become (a.world.setPlock k none)).setRead p (.copy pid k ppid)) := by
  have hgood := h.good p
  rw [hp] at hgood
  obtain ⟨hb, u, hu, htells⟩ := hgood
  refine h.relock hb.2 _ ⟨u, List.mem_cons_of_mem _ hu, htells⟩ nofun fun p' he hk => ?_
  exact he (h.alone p' p k hk (by rw [hp]; rfl))

omit [DecidableEq C] in
theorem Inv.tells {pid : Int} (h : Inv a) (hp : a.read p ≠ .idle)
    (hpid : (a.world.proc k).pid = pid) (hpar : (a.world.proc k).parent = some q) :
    ∃ u ∈ a.seen p, Tells u pid k (a.world.proc q).pid :=
  ⟨a.world, h.present p hp, hpid, .inr ⟨q, hpar, (h.sane.tree.parent k q hpar).1.ne.1, rfl⟩⟩

omit [DecidableEq C] in
theorem Inv.read {ok : Bool} (h : Inv a) (hb : readStep a c ok p = some b) : Inv b := by
  have hgood := h.good p
  unfold readStep at hb
  split at hb
  · cases hb
  · rename_i pid k hp
    split at hb
    · split at hb
      · rename_i hl
        split at hb
        · rename_i hpid
          cases hb
          exact h.acquires hl hpid
        · cases hb
          exact h.loads (by simp [hp]) trivial nofun
      · cases hb
    · cases hb
      exact h.loads (by simp [hp]) trivial nofun
  · rename_i pid k hp
    rw [hp] at hgood
    obtain ⟨hbor, hpid⟩ := hgood
    split at hb
    · rename_i hpar
      cases hb
      refine h.loads (by simp [hp]) ⟨hbor, a.world, h.present p (by simp [hp]), hpid, ?_⟩ ?_
      · exact .inl ⟨hpar, rfl⟩
      · simp [hp, Read.slot]
    · rename_i hpar
      cases hb
      refine h.loads (by simp [hp]) ⟨hbor, hpid, by simp [hpar]⟩ ?_
      simp [hp, Read.slot]
  · rename_i pid k hp
    rw [hp] at hgood
    obtain ⟨hbor, hpid, hne⟩ := hgood
    split at hb
    · rename_i hpar
      exact absurd hpar hne
    · rename_i q hpar
      cases hb
      refine h.loads (by simp [hp]) ⟨hbor, h.sane.anchored hpar, ?_⟩ ?_
      · exact h.tells (by simp [hp]) hpid hpar
      · simp [hp, Read.slot]
  · rename_i pid k q hp
    rw [hp] at hgood
    obtain ⟨hbor, -, htells⟩ := hgood
    cases hb
    refine h.loads (by simp [hp]) ⟨hbor, htells⟩ ?_
    simp [hp, Read.slot]
  · rename_i pid k ppid hp
    cases hb
    exact h.releases hp
  · rename_i pid k ppid hp
    rw [hp] at hgood
    have hidle : Inv (a.setRead p .idle) := h.loads (by simp [hp]) trivial nofun
    split at hb
    · cases hb
      refine ⟨hidle.sane, hidle.present, hidle.good, hidle.alone, ?_⟩
      rintro x (_ | ⟨_, hx⟩)
      · exact hgood
      · exact h.answers x hx
    · cases hb
      exact hidle
  · cases hb

omit [DecidableEq C] in
theorem Inv.boot : Inv (Asking.boot C) where
  sane := ⟨boot_placed.1, boot_placed.2, boot_tree.1, boot_tree.2, nofun⟩
  present _ hp := absurd rfl hp
  good _ := trivial
  alone := nofun
  answers := nofun

theorem Inv.next {x : InfoLabel C} (h : Inv a) (hb : infoNext c0 a x = some b) : Inv b := by
  cases x with
  | other l =>
      simp only [infoNext] at hb
      split at hb
      · obtain ⟨t, hn, rfl⟩ := Option.map_eq_some_iff.1 hb
        exact h.other hn
      · cases hb
  | ask c pid =>
      obtain ⟨p, -, hp⟩ := Option.bind_eq_some_iff.1 hb
      exact h.ask hp
  | read c ok =>
      obtain ⟨p, -, hp⟩ := Option.bind_eq_some_iff.1 hb
      exact h.read hp

/-- On any number of CPUs: a `getprocinfo` that succeeds reports 0 for a process that had no parent
at some moment of the call, or the pid of the process that was the parent at some moment of the
call; and no call follows a null pointer. -/
theorem getprocinfo_ppid (h : Reach (infoNext c0) Free (· = Asking.boot C) a) :
    (∀ x ∈ a.answers, ∃ u ∈ x.during, Tells u x.pid x.slot x.ppid) ∧
      ∀ p, a.read p ≠ .fault := by
  have hinv : Inv a := by
    refine h.inv ?_ fun _ _ _ hi _ hn => hi.next hn
    rintro _ rfl
    exact Inv.boot
  refine ⟨hinv.answers, fun p hp => ?_⟩
  have hgood := hinv.good p
  rw [hp] at hgood
  exact hgood

end

def reads (n : Nat) : List (InfoLabel (Fin 2)) := List.replicate n (.read cpu0 true)

/-- The first process asks for its grandchild, whose parent exits while the call is at its loads. -/
def sampleAsking : List (InfoLabel (Fin 2)) :=
  let before := goes cpu0 68 ++ [.cpu cpu0 (.call .fork)] ++ goes cpu0 5 ++ goes cpu1 69 ++
    [.cpu cpu1 (.call .fork)] ++ goes cpu1 6
  let between := .cpu cpu1 (.call (.exit 0)) :: goes cpu1 6
  before.map .other ++ [.ask cpu0 3] ++ reads 5 ++ between.map .other ++ reads 3

/-- The pid of the old parent is reported, although the process has been handed over. -/
theorem getprocinfo_ppid_handover : ∃ (a : Asking (Fin 2)) (x : Answer (Fin 2)) (u : World (Fin 2)),
    Reach (infoNext 0) Free (· = Asking.boot (Fin 2)) a ∧ x ∈ a.answers ∧
      (x.pid, x.slot, x.ppid) = (3, 2, 2) ∧ (a.world.proc 2).parent = some 0 ∧
      u ∈ x.during ∧ Tells u 3 2 2 := by
  have hrun : (replay (infoNext 0) (Asking.boot (Fin 2)) sampleAsking).any (fun a =>
      decide (a.answers.map (fun x => (x.pid, x.slot, x.ppid)) = [(3, 2, 2)] ∧
        (a.world.proc 2).parent = some 0)) = true := by
    set_option maxRecDepth 100000 in decide +kernel
  obtain ⟨a, ha, hprop⟩ := (Option.any_eq_true _ _).1 hrun
  obtain ⟨hanswers, hpar⟩ := of_decide_eq_true hprop
  have hreach : Reach (infoNext 0) Free (· = Asking.boot (Fin 2)) a :=
    replay_reach (.start rfl) (fun _ _ _ => trivial) ha
  obtain ⟨x, hx, hxs⟩ : ∃ x ∈ a.answers, (x.pid, x.slot, x.ppid) = (3, 2, 2) := by
    have hmem := List.mem_singleton_self ((3 : Int), (2 : Fin NPROC), (2 : Int))
    rw [← hanswers] at hmem
    exact List.mem_map.1 hmem
  obtain ⟨u, hu, htells⟩ := (getprocinfo_ppid hreach).1 x hx
  obtain ⟨h1, h2⟩ := Prod.mk.inj hxs
  obtain ⟨h2, h3⟩ := Prod.mk.inj h2
  rw [h1, h2, h3] at htells
  exact ⟨a, x, u, hreach, hx, hxs, hpar, hu, htells⟩

end G9OS.Smp
