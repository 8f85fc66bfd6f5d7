import G9OS.Kernel.ShmSteps

/-! # The effects of one step of the kernel

A step that succeeds has one of the effects below. Every invariant of runs is
proved by cases on this list rather than on the system calls.
-/

namespace G9OS.Kernel

open Lib

/-- The caller of a wait call, with the addresses it wants filled in. -/
def Op.waits : Op → Option (Fin NPROC × List Nat)
  | .wait p addr => some (p, [addr])
  | .waitStat p wtime rtime status => some (p, [wtime, rtime, status])
  | _ => none

def RegionsBounded (s : State) : Prop :=
  ∀ r, (s.shmTable r).key ≠ 0 → (s.shmTable r).npages ≤ SHM_MAXPGS

section
variable {s t : State} {op : Op} {p : Fin NPROC}

theorem OwnStep.of_live {q q' : Proc} (hrun : q.state = .running) (hsz : q'.sz ≤ TRAPFRAME)
    (hst : q'.state = .running ∨ q'.state = .runnable ∨ q'.state = .sleeping)
    (hpri : q'.priority = q.priority) (hpid : q'.pid = q.pid) : OwnStep q q' := by
  refine ⟨hrun, ?_, hsz, hpri, hpid⟩
  unfold Proc.Live
  rcases hst with h | h | h <;> simp [h]

theorem OwnStep.setSpace (hs : Tidy s) (hrun : (s.proc p).state = .running) (pt : PageTable)
    (m : Kmem) : OwnStep (s.proc p) ((s.setSpace p pt m).proc p) := by
  rw [setSpace_self]
  exact OwnStep.of_live hrun (hs p).sz_le (.inl hrun) rfl rfl

@[simp] theorem setRegion_self (s : State) (r : Fin SHM_SLOTS) (x : ShmRegion) :
    (s.setRegion r x).shmTable r = x := by simp [State.setRegion]

theorem setRegion_of_ne (s : State) {r r' : Fin SHM_SLOTS} (x : ShmRegion) (h : r' ≠ r) :
    (s.setRegion r x).shmTable r' = s.shmTable r' := by simp [State.setRegion, h]

@[simp] theorem setRegion_proc (s : State) (r : Fin SHM_SLOTS) (x : ShmRegion) :
    (s.setRegion r x).proc = s.proc := rfl

@[simp] theorem setRegion_kmem (s : State) (r : Fin SHM_SLOTS) (x : ShmRegion) :
    (s.setRegion r x).kmem = s.kmem := rfl

theorem Made.proc {key size : Int} {r : Option (Fin SHM_SLOTS)} (h : Made s key size r t) :
    t.proc = s.proc := by
  cases h <;> rfl

theorem Made.region {key size : Int} {r : Fin SHM_SLOTS} (hb : RegionsBounded s) (hk : 0 < key)
    (h : Made s key size (some r) t) :
    (t.shmTable r).key = key ∧ (t.shmTable r).npages ≤ SHM_MAXPGS := by
  cases h with
  | found hr =>
      have := regionSlot_some hr
      exact ⟨this, hb r (by omega)⟩
  | created =>
      rw [setRegion_self]
      exact ⟨rfl, shmPages_le size⟩

theorem setpriority_poked (s : State) (pid priority : Int) :
    PokedAll s (setpriority s pid priority).2 := by
  unfold setpriority
  split
  · exact PokedAll.refl s
  · rename_i hpri
    split
    · exact PokedAll.refl s
    · dsimp only
      refine PokedAll.modProc ?_
      exact ⟨⟨_, _, _, _, _, _, rfl⟩, id, .inl rfl, .inr ⟨by dsimp only; omega, by dsimp only; omega⟩⟩

theorem kkill_poked (s : State) (pid : Int) : PokedAll s (kkill s pid).2 := by
  unfold kkill
  split
  · exact PokedAll.refl s
  · rename_i i _
    dsimp only
    refine PokedAll.modProc ?_
    refine ⟨⟨_, _, _, _, _, _, rfl⟩, id, ?_, .inl rfl⟩
    by_cases hsl : (s.proc i).state = .sleeping
    · exact .inr ⟨.inl hsl, .inl (by simp [hsl])⟩
    · exact .inl (by simp [hsl])

theorem tickProc_state (q : Proc) : (tickProc q).state = q.state := by
  unfold tickProc
  split <;> rfl

theorem tickProc_poked (q : Proc) : Poked q (tickProc q) := by
  unfold tickProc
  split
  · exact ⟨⟨_, _, _, _, _, _, rfl⟩, id, .inl rfl, .inl rfl⟩
  · exact ⟨⟨_, _, _, _, _, _, rfl⟩, id, .inl rfl, .inl rfl⟩
  · exact Poked.refl q

theorem clockintr_poked (s : State) (me : Option (Fin NPROC)) : PokedAll s (clockintr s me) :=
  ⟨fun i => (wakeProc_poked me .ticks i (s.proc i)).trans (tickProc_poked _), rfl, rfl, rfl⟩

theorem fdalloc_state (file : Nat) (q : Proc) : (fdalloc file q).state = q.state ∧
    (fdalloc file q).sz = q.sz ∧ (fdalloc file q).priority = q.priority ∧
    (fdalloc file q).pid = q.pid ∧ (fdalloc file q).space = q.space := by
  unfold fdalloc
  split
  · exact ⟨rfl, rfl, rfl, rfl, rfl⟩
  · exact ⟨rfl, rfl, rfl, rfl, rfl⟩

end

variable [Link]

def waitedState (s : State) (p : Fin NPROC) (own' : PageTable) (m : Kmem) : State :=
  (s.modProc p awake).setSpace p own' m

inductive Opened (s : State) (p : Fin NPROC) (r : Fin SHM_SLOTS) (key : Int) : State → Prop
  | kept : attachSlot (s.proc p) key ≠ none ∨ NoRoom s p r → Opened s p r key s
  | failed {own : PageTable} {m : Kmem} : Grows s p (s.setSpace p own m) → NoRoom s p r →
      Opened s p r key (s.setSpace p own m)
  | attached {pslot : Fin PROC_SHM_SLOTS} {pt pt' : PageTable} {m : Kmem} :
      Attaches s p r key pslot pt pt' m → Opened s p r key (attachedState s p r key pslot pt' m)

inductive Effect (s : State) (op : Op) (t : State) : Prop
  | poked : PokedAll s t → Effect s op t
  /-- A running process writes to its own slot, but not to its memory. -/
  | own (p : Fin NPROC) (f : Proc → Proc) : OwnStep (s.proc p) (f (s.proc p)) →
      (f (s.proc p)).space = (s.proc p).space → t = s.modProc p f → Effect s op t
  | grows (p : Fin NPROC) : OwnStep (s.proc p) (t.proc p) → Grows s p t → Effect s op t
  | exits (p : Fin NPROC) (status : Int) : op = .exit p status → (s.proc p).state = .running →
      kexit s p status = .ok t → Effect s op t
  | unspawned : Unspawned s t → Effect s op t
  | forked (p : Fin NPROC) : op = .fork p → (s.proc p).state = .running → Forked s p t →
      Effect s op t
  | reaped {p c : Fin NPROC} {addrs : List Nat} {own own' : PageTable} {m : Kmem}
      {R : Finset Nat} : op.waits = some (p, addrs) → (s.proc p).state = .running →
      zombieChild s p = some c → (s.proc p).pagetable = some own →
      copyouts (s.proc p).sz addrs own s.kmem = .ok (true, own', m) →
      Extends own s.kmem R own' m → freeproc (waitedState s p own' m) c = .ok t → Effect s op t
  | replaced {p : Fin NPROC} {file : Option ExecFile} {argv : List Nat} {name : String}
      {own own' pt : PageTable} {tf : PA} {R : Finset Nat} {sz : Nat} {m1 m' m : Kmem} :
      op = .exec p file argv name → (s.proc p).state = .running →
      (s.proc p).pagetable = some own → (s.proc p).trapframe = some tf →
      kexecImage (s.proc p).sz tf file argv own s.kmem = .ok (some (pt, sz), own', m') →
      Extends own m1 R own' m' → Image tf (fun q => s.kmem.count q) pt m1 → sz ≤ TRAPFRAME →
      procFreepagetable own' (s.proc p).sz m' = .ok m →
      t = (s.setSpace p pt m).modProc p (fun q => { q with sz := sz, name := name }) →
      Effect s op t
  | shrunk {p : Fin NPROC} {n ty : Int} : op = .sbrk p n ty → (s.proc p).state = .running →
      n < 0 → Shrinks s p n t → Effect s op t
  | unmade {p : Fin NPROC} {key size : Int} : op = .shmOpen p key size → 0 < key →
      Made s key size none t → Effect s op t
  | opened {p : Fin NPROC} {key size : Int} {r : Fin SHM_SLOTS} {s1 : State} :
      op = .shmOpen p key size → (s.proc p).state = .running → 0 < key → 0 < size →
      Made s key size (some r) s1 → Opened s1 p r key t → Effect s op t
  | closed {p : Fin NPROC} {key : Int} {pslot : Fin PROC_SHM_SLOTS} {r : Fin SHM_SLOTS}
      {pt pt' : PageTable} {m : Kmem} : op = .shmClose p key → (s.proc p).state = .running →
      Detaches s p key pslot r pt pt' m → shmRelease (detachedState s p pslot pt' m) r = .ok t →
      Effect s op t

section
variable {s t : State} {op : Op} {p : Fin NPROC}

theorem Effect.unchanged (s : State) (op : Op) : Effect s op s := .poked (PokedAll.refl s)

theorem waitTurn_effect (hs : Tidy s) (hrun : (s.proc p).state = .running) {addrs : List Nat}
    (hw : op.waits = some (p, addrs)) {r : Option Int} (h : waitTurn s p addrs = .ok (r, t)) :
    Effect s op t := by
  rcases waitTurn_cases h with (rfl | rfl) | ⟨c, own, own', m, ok, hz, ho, hc, hend⟩
  · exact .own p awake (OwnStep.of_live hrun (hs p).sz_le (.inl hrun) rfl rfl) rfl rfl
  · exact .own p (asleep (.proc p))
      (OwnStep.of_live hrun (hs p).sz_le (.inr (.inr rfl)) rfl rfl) rfl rfl
  · obtain ⟨R, he⟩ := copyouts_spec hc
    rcases hend with ⟨-, rfl⟩ | ⟨rfl, hf⟩
    · refine .grows p ?_ (Grows.waited ho he)
      rw [setSpace_self, modProc_self]
      exact OwnStep.of_live hrun (hs p).sz_le (.inl hrun) rfl rfl
    · exact .reaped hw hrun hz ho hc he hf

theorem kexec_effect (hs : Tidy s) (hrun : (s.proc p).state = .running) {file : Option ExecFile}
    {argv : List Nat} {name : String} {r : Int} (h : kexec s p file argv name = .ok (r, t)) :
    Effect s (.exec p file argv name) t := by
  rcases kexec_cases h with ⟨hg, own, m, rfl⟩ |
    ⟨own, own', tf, R, pt, sz, m1, m', m, h1, h2, h3, h4, h5, h6, h7, h8⟩
  · exact .grows p (OwnStep.setSpace hs hrun _ _) hg
  · exact .replaced rfl hrun h1 h2 h3 h4 h5 h6 h7 h8

theorem sysSbrk_effect (hs : Tidy s) (hrun : (s.proc p).state = .running) {n ty : Int} {r : Nat}
    (h : sysSbrk s p n ty = .ok (r, t)) : Effect s (.sbrk p n ty) t := by
  rcases sysSbrk_cases hs h with rfl | ⟨sz, hsz, rfl⟩ | ⟨own, m, sz, hsz, hg, rfl⟩ | ⟨hn, hsh⟩
  · exact Effect.unchanged _ _
  · exact .own p _ (OwnStep.of_live hrun hsz (.inl hrun) rfl rfl) rfl rfl
  · refine .grows p ?_ hg
    rw [modProc_self, setSpace_self]
    exact OwnStep.of_live hrun hsz (.inl hrun) rfl rfl
  · exact .shrunk rfl hrun hn hsh

theorem pageFault_effect (hs : Tidy s) (hrun : (s.proc p).state = .running) {va : Nat}
    (h : pageFault s p va = .ok t) : Effect s op t := by
  obtain ⟨hg, own, m, k, rfl⟩ := pageFault_cases h
  refine .grows p ?_ hg
  rw [modProc_self, setSpace_self]
  exact OwnStep.of_live hrun (hs p).sz_le (.inl hrun) rfl rfl

/-- `shm_open` refuses, fails to get a region, or tries to attach to the one it has. -/
theorem shmOpen_cases {key size : Int} {ret : Nat} (h : shmOpen s p key size = .ok (ret, t)) :
    (ret = MINUS1 ∧ t = s ∧ (key ≤ 0 ∨ size ≤ 0)) ∨
      (ret = MINUS1 ∧ 0 < key ∧ 0 < size ∧ shmGet s key size = .ok (none, t)) ∨
      ∃ r s1, 0 < key ∧ 0 < size ∧ shmGet s key size = .ok (some r, s1) ∧
        shmAttach s1 p r key = .ok (ret, t) := by
  unfold shmOpen at h
  split at h
  · rename_i hneg
    cases h
    exact .inl ⟨rfl, rfl, hneg⟩
  · rename_i hpos
    rw [bind_ok] at h
    obtain ⟨⟨o, s1⟩, hg, h⟩ := h
    cases o with
    | none =>
        cases h
        exact .inr (.inl ⟨rfl, by omega, by omega, hg⟩)
    | some r => exact .inr (.inr ⟨r, s1, by omega, by omega, hg, h⟩)

theorem shmOpen_effect (hrun : (s.proc p).state = .running) {key size : Int} {ret : Nat}
    (h : shmOpen s p key size = .ok (ret, t)) : Effect s (.shmOpen p key size) t := by
  rcases shmOpen_cases h with ⟨-, rfl, -⟩ | ⟨-, hk, -, hg⟩ | ⟨r, s1, hk, hsz, hg, ha⟩
  · exact Effect.unchanged _ _
  · exact .unmade rfl hk (shmGet_made hg)
  · refine .opened rfl hrun hk hsz (shmGet_made hg) ?_
    rcases shmAttach_cases ha with ⟨i, hi, -, rfl⟩ |
      ⟨-, hno, rfl | ⟨own, own', m, ho, he, rfl⟩⟩ | ⟨pslot, pt, pt', m, hat, -, -, rfl⟩
    · exact .kept (.inl (by rw [hi]; exact nofun))
    · exact .kept (.inr hno)
    · exact .failed (Grows.setSpace ho he) hno
    · exact .attached hat

theorem shmClose_effect (hrun : (s.proc p).state = .running) {key ret : Int}
    (h : shmClose s p key = .ok (ret, t)) : Effect s (.shmClose p key) t := by
  rcases shmClose_cases h with ⟨-, rfl⟩ | ⟨pslot, r, pt, pt', m, hd, -, hr⟩
  · exact Effect.unchanged _ _
  · exact .closed rfl hrun hd hr

/-- Every successful step has one of the effects. -/
theorem run_effect (hs : Tidy s) (he : Enabled s op) (h : run s op = .ok t) : Effect s op t := by
  cases op with
  | fork p =>
      have hrun : (s.proc p).state = .running := he.1.1
      obtain ⟨⟨r, t'⟩, hf, rfl⟩ := map_ok.1 h
      rcases kfork_cases hs (by simp [hrun]) hf with rfl | hu | hf
      · exact Effect.unchanged _ _
      · exact .unspawned hu
      · exact .forked p rfl hrun hf
  | exit p status => exact .exits p status rfl he.1.1 h
  | wait p addr =>
      obtain ⟨⟨r, t'⟩, hf, rfl⟩ := map_ok.1 h
      exact waitTurn_effect hs he.1 rfl hf
  | waitStat p wtime rtime status =>
      obtain ⟨⟨r, t'⟩, hf, rfl⟩ := map_ok.1 h
      exact waitTurn_effect hs he.1 rfl hf
  | exec p file argv name =>
      obtain ⟨⟨r, t'⟩, hf, rfl⟩ := map_ok.1 h
      exact kexec_effect hs he.1.1 hf
  | sbrk p n ty =>
      obtain ⟨⟨r, t'⟩, hf, rfl⟩ := map_ok.1 h
      exact sysSbrk_effect hs he.1.1 hf
  | pageFault p va => exact pageFault_effect hs he.1 h
  | shmOpen p key size =>
      obtain ⟨⟨r, t'⟩, hf, rfl⟩ := map_ok.1 h
      exact shmOpen_effect he.1.1 hf
  | shmClose p key =>
      obtain ⟨⟨r, t'⟩, hf, rfl⟩ := map_ok.1 h
      exact shmClose_effect he.1.1 hf
  | setpriority p pid priority =>
      cases h
      exact .poked (setpriority_poked s pid priority)
  | kill p pid =>
      cases h
      exact .poked (kkill_poked s pid)
  | fdalloc p file =>
      cases h
      have hrun : (s.proc p).state = .running := he.1.1
      obtain ⟨h1, h2, h3, h4, h5⟩ := fdalloc_state file (s.proc p)
      exact .own p _ (OwnStep.of_live hrun (by rw [h2]; exact (hs p).sz_le)
        (.inl (by rw [h1, hrun])) h3 h4) h5 rfl
  | close p fd =>
      cases h
      have hrun : (s.proc p).state = .running := he.1.1
      exact .own p _ (OwnStep.of_live hrun (hs p).sz_le (.inl hrun) rfl rfl) rfl rfl
  | sleep p chan =>
      cases h
      exact .own p _ (OwnStep.of_live he.1.1 (hs p).sz_le (.inr (.inr rfl)) rfl rfl) rfl rfl
  | resume p =>
      cases h
      exact .own p _ (OwnStep.of_live he.1 (hs p).sz_le (.inl he.1) rfl rfl) rfl rfl
  | yield p =>
      cases h
      exact .own p _ (OwnStep.of_live he.1 (hs p).sz_le (.inr (.inl rfl)) rfl rfl) rfl rfl
  | dispatch p =>
      cases h
      refine .poked (PokedAll.modProc ?_)
      exact ⟨⟨_, _, _, _, _, _, rfl⟩, id, .inr ⟨.inr he, .inr rfl⟩, .inl rfl⟩
  | wakeup me chan =>
      cases h
      exact .poked (PokedAll.wakeup s me chan)
  | clock me =>
      cases h
      exact .poked (clockintr_poked s me)

end

end G9OS.Kernel
