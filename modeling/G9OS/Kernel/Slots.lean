import G9OS.Kernel.Proc

/-! # The life of one process slot

Every step of the kernel rewrites a slot of the process table in one of a few
ways. They are listed here once, as `SlotStep`, so that what holds of each slot
in every run is a case analysis on that list.
-/

namespace G9OS.Kernel

/-- The part of a slot that holds or maps memory. -/
structure Space where
  pagetable : Option PageTable
  trapframe : Option PA
  shm : Fin PROC_SHM_SLOTS → ShmAttach

def Proc.space (p : Proc) : Space := ⟨p.pagetable, p.trapframe, p.shm⟩

/-- Neither free nor exited. -/
def Proc.Live (p : Proc) : Prop := p.state ≠ .unused ∧ p.state ≠ .zombie

instance (p : Proc) : Decidable p.Live := inferInstanceAs (Decidable (_ ∧ _))

structure SlotOk (p : Proc) : Prop where
  sz_le : p.sz ≤ TRAPFRAME
  priority : p.state ≠ .unused → 1 ≤ p.priority ∧ p.priority ≤ 20
  closed : ¬ p.Live → ∀ fd, p.ofile fd = none
  noPagetable : p.state = .unused → p.pagetable = none
  noTrapframe : p.state = .unused → p.trapframe = none
  noSz : p.state = .unused → p.sz = 0
  noPid : p.state = .unused → p.pid = 0
  noParent : p.state = .unused → p.parent = none
  noChan : p.state = .unused → p.chan = .null
  noXstate : p.state = .unused → p.xstate = 0

structure Poked (p p' : Proc) : Prop where
  fields : ∃ parent st killed priority rtime stime,
    p' = { p with
      parent := parent, state := st, killed := killed, priority := priority, rtime := rtime
      stime := stime }
  parent : p.parent = none → p'.parent = none
  state : p'.state = p.state ∨
    (p.state = .sleeping ∨ p.state = .runnable) ∧ (p'.state = .runnable ∨ p'.state = .running)
  priority : p'.priority = p.priority ∨ 1 ≤ p'.priority ∧ p'.priority ≤ 20

theorem Poked.refl (p : Proc) : Poked p p := ⟨⟨_, _, _, _, _, _, rfl⟩, id, .inl rfl, .inl rfl⟩

theorem Poked.trans {p p' p'' : Proc} (h : Poked p p') (h' : Poked p' p'') : Poked p p'' := by
  refine ⟨?_, fun hp => h'.parent (h.parent hp), ?_, ?_⟩
  · obtain ⟨a, b, c, d, e, f, rfl⟩ := h.fields
    obtain ⟨a', b', c', d', e', f', rfl⟩ := h'.fields
    exact ⟨a', b', c', d', e', f', rfl⟩
  · rcases h'.state with h2 | ⟨h2, h3⟩
    · rw [h2]
      exact h.state
    · rcases h.state with h4 | ⟨h4, -⟩
      · rw [h4] at h2
        exact .inr ⟨h2, h3⟩
      · exact .inr ⟨h4, h3⟩
  · rcases h'.priority with h2 | h2
    · rw [h2]
      exact h.priority
    · exact .inr h2

structure OwnStep (p p' : Proc) : Prop where
  running : p.state = .running
  live : p'.Live
  sz_le : p'.sz ≤ TRAPFRAME
  priority : p'.priority = p.priority
  pid : p'.pid = p.pid

def exited (p : Proc) (status : Int) : Proc :=
  { p with ofile := fun _ => none, cwd := none, xstate := status, state := .zombie }

/-- All the ways in which a step rewrites one slot. `exiting` tells whether the
step is the exit of this very process. -/
inductive SlotStep (exiting : Prop) (p : Proc) : Proc → Prop
  | poked {p' : Proc} : Poked p p' → SlotStep exiting p p'
  | acts {p' : Proc} : OwnStep p p' → SlotStep exiting p p'
  | exits {p' : Proc} (status : Int) : exiting → p.state = .running → Poked p p' →
      SlotStep exiting p (exited p' status)
  | spawned {p' : Proc} : p.state = .unused → p'.Live → p'.sz ≤ TRAPFRAME → p'.priority = 10 →
      SlotStep exiting p p'
  | unspawned (pid : Int) (ticks : Nat) : p.state = .unused →
      SlotStep exiting p (clearSlot (claimed pid ticks p))
  | reaped : p.state = .zombie → SlotStep exiting p (clearSlot p)

section
variable {exiting : Prop} {p p' : Proc}

theorem Poked.live (h : Poked p p') : p'.Live ↔ p.Live := by
  unfold Proc.Live
  rcases h.state with h | ⟨h1 | h1, h2 | h2⟩
  · rw [h]
  all_goals simp [h1, h2]

theorem Poked.unused (h : Poked p p') : p'.state = .unused ↔ p.state = .unused := by
  rcases h.state with h | ⟨h1 | h1, h2 | h2⟩
  · rw [h]
  all_goals simp [h1, h2]

theorem Poked.space (h : Poked p p') : p'.space = p.space := by
  obtain ⟨a, b, c, d, e, f, rfl⟩ := h.fields
  rfl

theorem SlotOk.poked (h : SlotOk p) (hp : Poked p p') : SlotOk p' := by
  have hlive := hp.live
  have hun := hp.unused
  have hpar := hp.parent
  have hpri := hp.priority
  obtain ⟨a, b, c, d, e, f, rfl⟩ := hp.fields
  refine ⟨h.sz_le, fun hu => ?_, fun hl => h.closed fun hl' => hl (hlive.2 hl'),
    fun hu => h.noPagetable (hun.1 hu), fun hu => h.noTrapframe (hun.1 hu),
    fun hu => h.noSz (hun.1 hu), fun hu => h.noPid (hun.1 hu),
    fun hu => hpar (h.noParent (hun.1 hu)), fun hu => h.noChan (hun.1 hu),
    fun hu => h.noXstate (hun.1 hu)⟩
  rcases hpri with hpri | hpri
  · rw [hpri]
    exact h.priority fun hu' => hu (hun.2 hu')
  · exact hpri

theorem SlotOk.of_live (hl : p.Live) (hsz : p.sz ≤ TRAPFRAME)
    (hpri : 1 ≤ p.priority ∧ p.priority ≤ 20) : SlotOk p :=
  ⟨hsz, fun _ => hpri, fun h => (h hl).elim, fun h => (hl.1 h).elim, fun h => (hl.1 h).elim,
    fun h => (hl.1 h).elim, fun h => (hl.1 h).elim, fun h => (hl.1 h).elim,
    fun h => (hl.1 h).elim, fun h => (hl.1 h).elim⟩

/-- `freeproc` leaves open files alone; they have been closed before. -/
theorem SlotOk.clearSlot (h : ∀ fd, p.ofile fd = none) : SlotOk (clearSlot p) :=
  ⟨Nat.zero_le _, fun hu => (hu rfl).elim, fun _ => h, fun _ => rfl, fun _ => rfl, fun _ => rfl,
    fun _ => rfl, fun _ => rfl, fun _ => rfl, fun _ => rfl⟩

theorem SlotOk.exited (h : SlotOk p) (hu : p.state ≠ .unused) (status : Int) :
    SlotOk (exited p status) := by
  refine ⟨h.sz_le, fun _ => h.priority hu, fun _ _ => rfl, ?_, ?_, ?_, ?_, ?_, ?_, ?_⟩
  all_goals
    intro hz
    cases hz

theorem SlotOk.step (h : SlotOk p) (hs : SlotStep exiting p p') : SlotOk p' := by
  cases hs with
  | poked hp => exact h.poked hp
  | acts ho =>
      refine SlotOk.of_live ho.live ho.sz_le ?_
      rw [ho.priority]
      exact h.priority (by simp [ho.running])
  | exits status _ hrun hp => exact (h.poked hp).exited (by simp [hp.unused, hrun]) status
  | spawned _ hlive hsz hpri => exact SlotOk.of_live hlive hsz (by rw [hpri]; decide)
  | unspawned _ _ hu => exact SlotOk.clearSlot (h.closed fun hl => hl.1 hu)
  | reaped hz => exact SlotOk.clearSlot (h.closed fun hl => hl.2 hz)

/-- A live process stays alive under its pid until its own exit. -/
theorem SlotStep.live (h : SlotStep exiting p p') (hx : ¬ exiting) (hl : p.Live) :
    p'.Live ∧ p'.pid = p.pid := by
  cases h with
  | poked hp =>
      refine ⟨hp.live.2 hl, ?_⟩
      obtain ⟨a, b, c, d, e, f, rfl⟩ := hp.fields
      rfl
  | acts ho => exact ⟨ho.live, ho.pid⟩
  | exits _ he => exact (hx he).elim
  | spawned hu => exact (hl.1 hu).elim
  | unspawned _ _ hu => exact (hl.1 hu).elim
  | reaped hz => exact (hl.2 hz).elim

theorem SlotStep.not_unused (h : SlotStep exiting p p') (hl : p.Live) : p'.state ≠ .unused := by
  cases h with
  | poked hp => exact (hp.live.2 hl).1
  | acts ho => exact ho.live.1
  | exits => exact nofun
  | spawned hu => exact (hl.1 hu).elim
  | unspawned _ _ hu => exact (hl.1 hu).elim
  | reaped hz => exact (hl.2 hz).elim

theorem SlotStep.zombie (h : SlotStep exiting p p') (hz : p.state = .zombie) :
    p'.state = .zombie ∨ p'.state = .unused := by
  cases h with
  | poked hp =>
      rcases hp.state with h | ⟨h | h, -⟩
      · exact .inl (h.trans hz)
      · cases hz.symm.trans h
      · cases hz.symm.trans h
  | acts ho => cases hz.symm.trans ho.running
  | exits _ _ hr => cases hz.symm.trans hr
  | spawned hu => cases hz.symm.trans hu
  | unspawned _ _ hu => cases hz.symm.trans hu
  | reaped => exact .inr rfl

end

end G9OS.Kernel
