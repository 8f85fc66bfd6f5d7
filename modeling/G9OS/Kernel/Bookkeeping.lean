import G9OS.Kernel.Effects
import G9OS.Kernel.ShmTable

/-! # What holds in every run

Two invariants need no assumption on the run: every process slot is in order, and
so is the bookkeeping of attachments.
-/

namespace G9OS.Kernel

open Lib

variable {pslot : Fin PROC_SHM_SLOTS} {key : Int}

variable {s t : State} {op : Op} {p i : Fin NPROC}

/-! ## Slots -/

theorem slots_own {exiting : Prop} (hothers : ∀ i, i ≠ p → t.proc i = s.proc i)
    (ho : OwnStep (s.proc p) (t.proc p)) (i : Fin NPROC) :
    SlotStep exiting (s.proc i) (t.proc i) := by
  by_cases hi : i = p
  · subst hi
    exact .acts ho
  · rw [hothers i hi]
    exact .poked (Poked.refl _)

theorem attachedState_others (s : State) (p : Fin NPROC) (r : Fin SHM_SLOTS) (key : Int)
    (pslot : Fin PROC_SHM_SLOTS) (pt' : PageTable) (m : Kmem) (i : Fin NPROC) (hi : i ≠ p) :
    (attachedState s p r key pslot pt' m).proc i = s.proc i := by
  unfold attachedState attached
  rw [setRegion_proc, modProc_of_ne _ _ _ hi]
  exact modProc_of_ne _ _ _ hi

theorem attachedState_self (s : State) (p : Fin NPROC) (r : Fin SHM_SLOTS) (key : Int)
    (pslot : Fin PROC_SHM_SLOTS) (pt' : PageTable) (m : Kmem) :
    (attachedState s p r key pslot pt' m).proc p =
      { s.proc p with
        pagetable := some pt'
        sz := addU64 (pgroundup (s.proc p).sz) (mapBytes (s.shmTable r).npages)
        shm := Function.update (s.proc p).shm pslot
          ⟨key, pgroundup (s.proc p).sz, (s.shmTable r).npages⟩ } := by
  unfold attachedState attached
  rw [setRegion_proc, modProc_self, setSpace_self]

theorem Opened.slots {exiting : Prop} {r : Fin SHM_SLOTS} (hs : Tidy s)
    (hrun : (s.proc p).state = .running) (h : Opened s p r key t) (i : Fin NPROC) :
    SlotStep exiting (s.proc i) (t.proc i) := by
  cases h with
  | kept => exact .poked (Poked.refl _)
  | failed hg => exact slots_own hg.others (OwnStep.setSpace hs hrun _ _) i
  | attached ha =>
      refine slots_own (attachedState_others s p r key _ _ _) ?_ i
      rw [attachedState_self]
      exact OwnStep.of_live hrun ha.fits (.inl hrun) rfl rfl

theorem shmRelease_proc [Link] {r : Fin SHM_SLOTS} (h : shmRelease s r = .ok t) :
    t.proc = s.proc := by
  rcases shmRelease_cases h with ⟨-, rfl⟩ | ⟨-, m, -, rfl⟩
  · rfl
  · rfl

theorem Effect.slots [Link] (hs : Tidy s) (h : Effect s op t) (i : Fin NPROC) :
    SlotStep (∃ status, op = .exit i status) (s.proc i) (t.proc i) := by
  cases h with
  | poked hp => exact .poked (hp.slots i)
  | own p f ho _ ht =>
      rw [ht]
      exact slots_own (fun i hi => modProc_of_ne _ _ _ hi) (by rwa [modProc_self]) i
  | grows p ho hg => exact slots_own hg.others ho i
  | exits p status hop hrun hk =>
      obtain ⟨hothers, ⟨q, hq, hp⟩, -⟩ := kexit_spec hk
      by_cases hi : i = p
      · subst hi
        rw [hp]
        exact .exits status ⟨status, hop⟩ hrun hq
      · exact .poked (hothers i hi)
  | unspawned hu =>
      obtain ⟨j, m, hj, -, rfl⟩ := hu
      by_cases hi : i = j
      · subst hi
        rw [modProc_self]
        exact .unspawned _ _ (unusedSlot_unused hj)
      · rw [modProc_of_ne _ _ _ hi]
        exact .poked (Poked.refl _)
  | forked p _ hrun hf =>
      obtain ⟨j, tf, pt, m, hj, -, -, rfl⟩ := hf
      by_cases hi : i = j
      · subst hi
        rw [modProc_self]
        exact .spawned (unusedSlot_unused hj) ⟨by simp [childOf], by simp [childOf]⟩ (hs p).sz_le rfl
      · rw [modProc_of_ne _ _ _ hi]
        exact .poked (Poked.refl _)
  | @reaped p c addrs own own' m R _ hrun hz ho _ he hf =>
      have hcp : c ≠ p := zombieChild_ne hrun hz
      have hg : Grows s p (waitedState s p own' m) := Grows.waited ho he
      obtain ⟨m', rfl, -, -⟩ := freeproc_spec (by rw [hg.others c hcp]; exact (hs c).sz_le) hf
      by_cases hi : i = c
      · subst hi
        rw [modProc_self, setKmem_proc, hg.others i hcp]
        exact .reaped (zombieChild_zombie hz)
      · rw [modProc_of_ne _ _ _ hi, setKmem_proc]
        refine slots_own hg.others ?_ i
        rw [waitedState, setSpace_self, modProc_self]
        exact OwnStep.of_live hrun (hs p).sz_le (.inl hrun) rfl rfl
  | @replaced p file argv name own own' pt tf R sz m1 m' m _ hrun _ _ _ _ _ hsz _ ht =>
      rw [ht]
      refine slots_own (fun i hi => setSpace_modProc_of_ne _ _ _ _ _ hi) ?_ i
      rw [modProc_self, setSpace_self]
      exact OwnStep.of_live hrun hsz (.inl hrun) rfl rfl
  | @shrunk p n ty _ hrun _ hsh =>
      obtain ⟨own, own', m, -, -, -, -, rfl⟩ := hsh
      refine slots_own (fun i hi => setSpace_modProc_of_ne _ _ _ _ _ hi) ?_ i
      rw [modProc_self, setSpace_self]
      exact OwnStep.of_live hrun (le_trans (min_le_left _ _) (hs p).sz_le) (.inl hrun) rfl rfl
  | unmade _ _ hm =>
      rw [hm.proc]
      exact .poked (Poked.refl _)
  | opened _ hrun _ _ hm ho =>
      have hs1 : Tidy _ := fun j => by rw [hm.proc]; exact hs j
      rw [← hm.proc]
      exact ho.slots hs1 (by rw [hm.proc]; exact hrun) i
  | @closed p key pslot r pt pt' m _ hrun _ hr =>
      rw [shmRelease_proc hr]
      refine slots_own (fun i hi => setSpace_modProc_of_ne _ _ _ _ _ hi) ?_ i
      rw [modProc_self, setSpace_self]
      exact OwnStep.of_live hrun (hs p).sz_le (.inl hrun) rfl rfl

theorem Effect.tidy [Link] (hs : Tidy s) (h : Effect s op t) : Tidy t :=
  fun i => (hs i).step (h.slots hs i)

/-! ## Attachments -/

def State.ShmOk (s : State) : Prop := Kernel.ShmOk s.attachments s.shmTable

theorem Quiet.attachments (h : Quiet s t) : t.attachments = s.attachments := by
  funext i
  exact congrArg Space.shm (h.space i)

theorem State.ShmOk.congr (h : s.ShmOk) (ha : t.attachments = s.attachments)
    (ht : ∀ r, t.shmTable r = s.shmTable r ∨ (s.shmTable r).key = 0 ∧ (t.shmTable r).key = 0) :
    t.ShmOk := by
  unfold State.ShmOk
  rw [ha]
  exact Kernel.ShmOk.congr h ht

theorem State.ShmOk.same (h : s.ShmOk) (ha : t.attachments = s.attachments)
    (ht : t.shmTable = s.shmTable) : t.ShmOk :=
  h.congr ha fun r => .inl (by rw [ht])

theorem State.ShmOk.bounded (h : s.ShmOk) : RegionsBounded s :=
  fun r hr => (Kernel.ShmOk.bounded h r hr).2

theorem modProc_attachments {f : Proc → Proc} (hf : (f (s.proc p)).shm = (s.proc p).shm) :
    (s.modProc p f).attachments = s.attachments := by
  funext i
  unfold State.attachments
  by_cases hi : i = p
  · subst hi; rw [modProc_self, hf]
  · rw [modProc_of_ne _ _ _ hi]

theorem Grows.attachments (hg : Grows s p t) : t.attachments = s.attachments := by
  funext i
  unfold State.attachments
  by_cases hi : i = p
  · subst hi; rw [hg.shm]
  · rw [hg.others i hi]

theorem freeproc_attachments [Link] (hsz : (s.proc i).sz ≤ TRAPFRAME) (h : freeproc s i = .ok t) :
    t.attachments = s.attachments ∧ t.shmTable = s.shmTable := by
  obtain ⟨m, rfl, -, -⟩ := freeproc_spec hsz h
  exact ⟨modProc_attachments rfl, rfl⟩

theorem Made.shmOk {size : Int} {r : Option (Fin SHM_SLOTS)} (h : s.ShmOk) (hk : 0 < key)
    (hm : Made s key size r t) : t.ShmOk := by
  cases hm with
  | found => exact h
  | full => exact h
  | @failed r pages m hno hr hc =>
      refine h.congr rfl fun r' => ?_
      by_cases hrr : r' = r
      · subst hrr
        refine .inr ⟨regionSlot_some hr, ?_⟩
        rw [setRegion_self]
      · exact .inl (setRegion_of_ne _ _ hrr)
  | created hno hr _ =>
      exact Kernel.ShmOk.create h (regionSlot_some hr) (regionSlot_none hno) hk
        ⟨le_shmPages size, shmPages_le size⟩

theorem attachedState_attachments (s : State) (p : Fin NPROC) (r : Fin SHM_SLOTS) (key : Int)
    (pslot : Fin PROC_SHM_SLOTS) (pt' : PageTable) (m : Kmem) :
    (attachedState s p r key pslot pt' m).attachments = setAttach s.attachments p pslot
      ⟨key, pgroundup (s.proc p).sz, (s.shmTable r).npages⟩ := by
  funext i
  unfold State.attachments
  by_cases hi : i = p
  · subst hi
    rw [attachedState_self]
    simp [setAttach]
  · rw [attachedState_others _ _ _ _ _ _ _ _ hi, setAttach_proc hi]

theorem addU64_mapBytes (uva : Nat) (npages : Int) :
    addU64 uva (mapBytes npages) = addU64 uva (toU64 npages * PGSIZE) := by
  unfold addU64 mapBytes
  exact Nat.add_mod_mod _ _ _

theorem Attaches.attachOk {r : Fin SHM_SLOTS} {pt pt' : PageTable} {m : Kmem} (hs : Tidy s)
    (h : Attaches s p r key pslot pt pt' m) :
    AttachOk ⟨key, pgroundup (s.proc p).sz, (s.shmTable r).npages⟩ :=
  ⟨pgroundup_aligned _, pgroundup_le_trapframe (hs p).sz_le, addU64_mapBytes _ _ ▸ h.fits⟩

theorem Opened.shmOk {r : Fin SHM_SLOTS} (hs : Tidy s) (h : s.ShmOk) (hr : (s.shmTable r).key = key)
    (hk : 0 < key) (ho : Opened s p r key t) : t.ShmOk := by
  cases ho with
  | kept => exact h
  | failed hg => exact h.same hg.attachments hg.regions
  | attached ha =>
      unfold State.ShmOk
      rw [attachedState_attachments]
      exact Kernel.ShmOk.attach h hr hk (attachSlot_none ha.fresh) (attachSlot_some ha.slot) rfl rfl
        (ha.attachOk hs)

theorem detachedState_attachments (s : State) (p : Fin NPROC) (pslot : Fin PROC_SHM_SLOTS)
    (pt' : PageTable) (m : Kmem) :
    (detachedState s p pslot pt' m).attachments = setAttach s.attachments p pslot {} := by
  funext i
  unfold detachedState State.attachments
  by_cases hi : i = p
  · subst hi
    rw [modProc_self, setSpace_self]
    simp [setAttach, dropAttach]
  · rw [setSpace_modProc_of_ne _ _ _ _ _ hi, setAttach_proc hi]

/-- After a detachment the region has its count taken down, or has been dropped
because nobody is left who holds it. -/
theorem Detaches.shmOk [Link] {r : Fin SHM_SLOTS} {pt pt' : PageTable} {m : Kmem} (h : s.ShmOk)
    (hd : Detaches s p key pslot r pt pt' m)
    (hr : shmRelease (detachedState s p pslot pt' m) r = .ok t) : t.ShmOk := by
  have hkey : (s.shmTable r).key = key := regionSlot_some hd.region
  have hslot : (s.attachments p pslot).key = key := attachSlot_some hd.slot
  have hne : key ≠ 0 := hd.pos.ne'
  have hdet := Kernel.ShmOk.detach h hkey hne hslot
  have hcount := Kernel.ShmOk.refcount_pos h hkey hne hslot
  unfold State.ShmOk
  rcases shmRelease_cases hr with ⟨-, rfl⟩ | ⟨hle, m', -, rfl⟩
  · rw [← detachedState_attachments s p pslot pt' m] at hdet
    exact hdet
  · have hempty : holders (setAttach s.attachments p pslot {}) key = ∅ := by
      have hle' : int32 ((s.shmTable r).refcount - 1) ≤ 0 := hle
      rw [hcount.2] at hle'
      have huniq : ∀ i, (s.attachments p i).key = key → i = pslot := fun i hi =>
        h.attachUnique p i pslot (hi ▸ hne) (hi.trans hslot.symm)
      rw [holders_detach hne.symm huniq, ← Finset.card_eq_zero]
      omega
    have hself : (Function.update s.shmTable r
        ((s.shmTable r).setRefcount (int32 ((s.shmTable r).refcount - 1))) r).key = key := by
      rw [Function.update_self]
      exact hkey
    have hdrop := hdet.drop (r := r)
      (x := { s.shmTable r with key := 0, npages := 0, refcount := 0 }) rfl
      (by rw [hself]; exact hempty) (by rw [hself]; exact hne)
    rw [Function.update_idem, ← detachedState_attachments s p pslot pt' m] at hdrop
    exact hdrop

inductive TableStep [Link] (s : State) (op : Op) (t : State) : Prop
  | same : t.attachments = s.attachments →
      (∀ r, t.shmTable r = s.shmTable r ∨ (s.shmTable r).key = 0 ∧ (t.shmTable r).key = 0) →
      TableStep s op t
  | opened {p : Fin NPROC} {key size : Int} {r : Fin SHM_SLOTS} {s1 : State} :
      op = .shmOpen p key size → (s.proc p).state = .running → 0 < key → 0 < size →
      Made s key size (some r) s1 → Opened s1 p r key t → TableStep s op t
  | closed {p : Fin NPROC} {key : Int} {pslot : Fin PROC_SHM_SLOTS} {r : Fin SHM_SLOTS}
      {pt pt' : PageTable} {m : Kmem} : op = .shmClose p key → (s.proc p).state = .running →
      Detaches s p key pslot r pt pt' m → shmRelease (detachedState s p pslot pt' m) r = .ok t →
      TableStep s op t

theorem Quiet.tableStep [Link] (h : Quiet s t) : TableStep s op t := .same h.attachments h.regions

theorem Made.none_tableStep [Link] {size : Int} (h : Made s key size none t) :
    TableStep s op t := by
  refine .same ?_ fun r => ?_
  · unfold State.attachments
    rw [h.proc]
  · cases h with
    | full => exact .inl rfl
    | @failed r' _ _ _ hf =>
        by_cases hr : r = r'
        · subst hr
          exact .inr ⟨regionSlot_some hf, by rw [setRegion_self]⟩
        · exact .inl (setRegion_of_ne _ _ hr)

theorem Effect.tableStep [Link] (hs : Tidy s) (he : Effect s op t) : TableStep s op t := by
  cases he with
  | poked hp => exact hp.quiet.tableStep
  | own p f _ hsp ht => exact (ht ▸ Quiet.modProc hsp : Quiet s t).tableStep
  | grows p _ hg => exact .same hg.attachments fun r => .inl (congrFun hg.regions r)
  | exits p status _ _ hk => exact (kexit_spec hk).2.2.tableStep
  | unspawned hu => exact (hu.quiet hs).tableStep
  | forked p _ _ hf =>
      obtain ⟨j, tf, pt, m, -, -, -, rfl⟩ := hf
      exact .same (modProc_attachments rfl) fun _ => .inl rfl
  | @reaped p c addrs own own' m R _ hrun hz ho _ hext hf =>
      have hcp : c ≠ p := zombieChild_ne hrun hz
      have hg : Grows s p (waitedState s p own' m) := Grows.waited ho hext
      obtain ⟨h1, h2⟩ := freeproc_attachments (by rw [hg.others c hcp]; exact (hs c).sz_le) hf
      exact .same (h1.trans hg.attachments) fun r => .inl (congrFun (h2.trans hg.regions) r)
  | replaced _ _ _ _ _ _ _ _ _ ht =>
      rw [ht]
      exact .same ((modProc_attachments rfl).trans (modProc_attachments rfl)) fun _ => .inl rfl
  | shrunk _ _ _ hsh =>
      obtain ⟨own, own', m, -, -, -, -, rfl⟩ := hsh
      exact .same ((modProc_attachments rfl).trans (modProc_attachments rfl)) fun _ => .inl rfl
  | unmade _ _ hm => exact hm.none_tableStep
  | opened hop hrun hk hsz hm ho => exact .opened hop hrun hk hsz hm ho
  | closed hop hrun hd hr => exact .closed hop hrun hd hr

inductive AttachStep (op : Op) (p : Fin NPROC) (a : ShmAttach) : ShmAttach → Prop
  | kept : AttachStep op p a a
  | opened {key size : Int} {a' : ShmAttach} : op = .shmOpen p key size → a'.key = key →
      AttachStep op p a a'
  | closed {key : Int} : op = .shmClose p key → AttachStep op p a {}

theorem setAttach_step {shm : Attachments} {q : Fin NPROC} {a : ShmAttach}
    (h : AttachStep op q (shm q pslot) a) (p : Fin NPROC) (i : Fin PROC_SHM_SLOTS) : AttachStep op p
    (shm p i) (setAttach shm q pslot a p i) := by
  by_cases hp : p = q
  · subst hp
    by_cases hi : i = pslot
    · rw [hi, setAttach_self]
      exact h
    · rw [setAttach_slot hi]
      exact .kept
  · rw [setAttach_proc hp]
    exact .kept

theorem Effect.attachStep [Link] (hs : Tidy s) (he : Effect s op t) (p : Fin NPROC)
    (i : Fin PROC_SHM_SLOTS) : AttachStep op p ((s.proc p).shm i) ((t.proc p).shm i) := by
  change AttachStep op p (s.attachments p i) (t.attachments p i)
  cases he.tableStep hs with
  | same ha _ =>
      rw [ha]
      exact .kept
  | @opened q key size r s1 hop _ _ _ hm ho =>
      have h1 : s.attachments = s1.attachments := by
        unfold State.attachments
        rw [hm.proc]
      rw [h1]
      cases ho with
      | kept => exact .kept
      | failed hg =>
          rw [hg.attachments]
          exact .kept
      | attached =>
          rw [attachedState_attachments]
          exact setAttach_step (.opened hop rfl) p i
  | @closed q key pslot r pt pt' m hop _ _ hr =>
      have h1 : t.attachments = (detachedState s q pslot pt' m).attachments := by
        unfold State.attachments
        rw [shmRelease_proc hr]
      rw [h1, detachedState_attachments]
      exact setAttach_step (.closed hop) p i

theorem Effect.shmOk [Link] (hs : Tidy s) (h : s.ShmOk) (he : Effect s op t) : t.ShmOk := by
  cases he.tableStep hs with
  | same ha hr => exact h.congr ha hr
  | opened _ _ hk _ hm ho =>
      have hs1 : Tidy _ := fun j => by rw [hm.proc]; exact hs j
      exact ho.shmOk hs1 (hm.shmOk h hk) (hm.region h.bounded hk).1 hk
  | closed _ _ hd hr => exact hd.shmOk h hr

end G9OS.Kernel
