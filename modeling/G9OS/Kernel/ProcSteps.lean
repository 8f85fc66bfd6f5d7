import G9OS.Kernel.Slots
import G9OS.Kernel.ExecFacts
import G9OS.Kernel.System

/-! # What the process system calls can do

For each call, all the states it can end in, written out as updates of the state
it started from, with what the memory operations inside it have moved.
-/

namespace G9OS.Kernel

open Lib

def Tidy (s : State) : Prop := ∀ i, SlotOk (s.proc i)

/-! ## State updates -/

section
variable (s : State) (i : Fin NPROC) (f g : Proc → Proc) (pt : PageTable) (m m' : Kmem)

@[simp] theorem modProc_self : (s.modProc i f).proc i = f (s.proc i) := by simp [State.modProc]

theorem modProc_of_ne {j : Fin NPROC} (h : j ≠ i) : (s.modProc i f).proc j = s.proc j := by
  simp [State.modProc, h]

@[simp] theorem modProc_kmem : (s.modProc i f).kmem = s.kmem := rfl

@[simp] theorem modProc_shmTable : (s.modProc i f).shmTable = s.shmTable := rfl

@[simp] theorem modProc_modProc : (s.modProc i f).modProc i g = s.modProc i fun p => g (f p) := by
  simp [State.modProc]

@[simp] theorem modProc_setKmem : (s.modProc i f).setKmem m = (s.setKmem m).modProc i f := rfl

@[simp] theorem setKmem_proc : (s.setKmem m).proc = s.proc := rfl

@[simp] theorem setKmem_kmem : (s.setKmem m).kmem = m := rfl

@[simp] theorem setKmem_shmTable : (s.setKmem m).shmTable = s.shmTable := rfl

theorem setSpace_self : (s.setSpace i pt m).proc i = { s.proc i with pagetable := some pt } :=
  modProc_self _ _ _

theorem setSpace_of_ne {j : Fin NPROC} (h : j ≠ i) : (s.setSpace i pt m).proc j = s.proc j :=
  modProc_of_ne _ _ _ h

theorem setSpace_modProc_of_ne {j : Fin NPROC} (h : j ≠ i) :
    ((s.setSpace i pt m).modProc i f).proc j = s.proc j := by
  rw [modProc_of_ne _ _ _ h, setSpace_of_ne _ _ _ _ h]

@[simp] theorem setKmem_setKmem : (s.setKmem m).setKmem m' = s.setKmem m' := rfl

end

variable {s t : State} {p i : Fin NPROC}

theorem unusedSlot_unused (h : unusedSlot s = some i) : (s.proc i).state = .unused := by
  simpa using (Fin.find?_eq_some_iff.1 h).1

def State.bump (s : State) (m : Kmem) : State :=
  { s with nextpid := int32 (s.nextpid + 1), kmem := m }

@[simp] theorem bump_proc (s : State) (m : Kmem) : (s.bump m).proc = s.proc := rfl

@[simp] theorem bump_kmem (s : State) (m : Kmem) : (s.bump m).kmem = m := rfl

def outfitted (s : State) (tf : PA) (pt : PageTable) (p : Proc) : Proc :=
  { claimed s.nextpid s.ticks p with trapframe := some tf, pagetable := some pt }

/-- A slot was claimed and handed back: the next pid is used up. -/
def Unspawned (s t : State) : Prop :=
  ∃ i m, unusedSlot s = some i ∧ (∀ q, m.count q = s.kmem.count q) ∧
    t = (s.bump m).modProc i fun p => clearSlot (claimed s.nextpid s.ticks p)

/-! ## Steps without memory, and steps that only add to one address space -/

/-- Nothing that holds or maps memory has changed. -/
structure Quiet (s t : State) : Prop where
  space : ∀ i, (t.proc i).space = (s.proc i).space
  pages : ∀ q, t.kmem.count q = s.kmem.count q
  regions : ∀ r, t.shmTable r = s.shmTable r ∨ (s.shmTable r).key = 0 ∧ (t.shmTable r).key = 0

/-- Process `p` has fresh pages at vacant places, and nothing else that holds or
maps memory has changed. -/
structure Grows (s : State) (p : Fin NPROC) (t : State) : Prop where
  others : ∀ i, i ≠ p → t.proc i = s.proc i
  regions : t.shmTable = s.shmTable
  extended : ∃ own own' R, (s.proc p).pagetable = some own ∧ (t.proc p).pagetable = some own' ∧
    Extends own s.kmem R own' t.kmem
  trapframe : (t.proc p).trapframe = (s.proc p).trapframe
  shm : (t.proc p).shm = (s.proc p).shm

theorem Quiet.modProc {f : Proc → Proc} (h : (f (s.proc p)).space = (s.proc p).space) :
    Quiet s (s.modProc p f) := by
  refine ⟨fun i => ?_, fun _ => rfl, fun _ => .inl rfl⟩
  by_cases hi : i = p
  · subst hi; rw [modProc_self, h]
  · rw [modProc_of_ne _ _ _ hi]

theorem Unspawned.quiet (hs : Tidy s) (h : Unspawned s t) : Quiet s t := by
  obtain ⟨i, m, hu, hc, rfl⟩ := h
  have hun := unusedSlot_unused hu
  refine ⟨fun j => ?_, hc, fun _ => .inl rfl⟩
  by_cases hj : j = i
  · subst hj
    rw [modProc_self]
    show Space.mk none none _ = Space.mk _ _ _
    rw [(hs j).noPagetable hun, (hs j).noTrapframe hun]
    rfl
  · rw [modProc_of_ne _ _ _ hj]
    rfl

theorem Grows.setSpace {own own' : PageTable} {R : Finset Nat} {m : Kmem}
    (hown : (s.proc p).pagetable = some own) (he : Extends own s.kmem R own' m) :
    Grows s p (s.setSpace p own' m) := by
  refine ⟨fun i hi => modProc_of_ne _ _ _ hi, rfl, ⟨own, own', R, hown, ?_, he⟩, ?_, ?_⟩
  all_goals rw [State.setSpace, modProc_self]
  all_goals rfl

theorem Grows.modProc {f : Proc → Proc} (h : Grows s p t)
    (hf : (f (t.proc p)).space = (t.proc p).space) : Grows s p (t.modProc p f) := by
  have hpt : (f (t.proc p)).pagetable = (t.proc p).pagetable := congrArg Space.pagetable hf
  have htf : (f (t.proc p)).trapframe = (t.proc p).trapframe := congrArg Space.trapframe hf
  have hshm : (f (t.proc p)).shm = (t.proc p).shm := congrArg Space.shm hf
  obtain ⟨own, own', R, h1, h2, h3⟩ := h.extended
  refine ⟨fun i hi => ?_, h.regions, ⟨own, own', R, h1, ?_, h3⟩, ?_, ?_⟩
  · rw [modProc_of_ne _ _ _ hi, h.others i hi]
  · rw [modProc_self, hpt, h2]
  · rw [modProc_self, htf, h.trapframe]
  · rw [modProc_self, hshm, h.shm]

theorem Quiet.grows {u : State} (h : Quiet s t) (ho : ∀ i, i ≠ p → t.proc i = s.proc i)
    (hk : t.kmem = s.kmem) (hr : t.shmTable = s.shmTable) (hg : Grows t p u) : Grows s p u := by
  have hsp := h.space p
  have hpt : (t.proc p).pagetable = (s.proc p).pagetable := congrArg Space.pagetable hsp
  have htf : (t.proc p).trapframe = (s.proc p).trapframe := congrArg Space.trapframe hsp
  have hshm : (t.proc p).shm = (s.proc p).shm := congrArg Space.shm hsp
  obtain ⟨own, own', R, h1, h2, h3⟩ := hg.extended
  refine ⟨fun i hi => (hg.others i hi).trans (ho i hi), hg.regions.trans hr,
    ⟨own, own', R, hpt ▸ h1, h2, hk ▸ h3⟩, hg.trapframe.trans htf, hg.shm.trans hshm⟩

theorem Grows.waited {own own' : PageTable} {R : Finset Nat} {m : Kmem}
    (hown : (s.proc p).pagetable = some own) (he : Extends own s.kmem R own' m) :
    Grows s p ((s.modProc p awake).setSpace p own' m) := by
  refine (Quiet.modProc (f := awake) rfl).grows (fun i hi => modProc_of_ne _ _ _ hi) rfl rfl
    (Grows.setSpace ?_ he)
  rw [modProc_self]
  exact hown

/-! ## kexit -/

theorem wakeProc_poked (me : Option (Fin NPROC)) (chan : Chan) (i : Fin NPROC) (q : Proc) :
    Poked q (wakeProc me chan i q) := by
  unfold wakeProc
  split
  · rename_i h
    exact ⟨⟨_, _, _, _, _, _, rfl⟩, id, .inr ⟨.inl h.2.1, .inl rfl⟩, .inl rfl⟩
  · exact Poked.refl q

structure PokedAll (s t : State) : Prop where
  slots : ∀ i, Poked (s.proc i) (t.proc i)
  kmem : t.kmem = s.kmem
  regions : t.shmTable = s.shmTable
  initproc : t.initproc = s.initproc

theorem PokedAll.refl (s : State) : PokedAll s s := ⟨fun _ => Poked.refl _, rfl, rfl, rfl⟩

theorem PokedAll.trans {u : State} (h : PokedAll s t) (h' : PokedAll t u) : PokedAll s u :=
  ⟨fun i => (h.slots i).trans (h'.slots i), h'.kmem.trans h.kmem, h'.regions.trans h.regions,
    h'.initproc.trans h.initproc⟩

theorem PokedAll.wakeup (s : State) (me : Option (Fin NPROC)) (chan : Chan) :
    PokedAll s (wakeup s me chan) :=
  ⟨fun i => wakeProc_poked me chan i _, rfl, rfl, rfl⟩

theorem PokedAll.modProc {f : Proc → Proc} (h : Poked (s.proc i) (f (s.proc i))) :
    PokedAll s (s.modProc i f) := by
  refine ⟨fun j => ?_, rfl, rfl, rfl⟩
  by_cases hj : j = i
  · subst hj; rwa [modProc_self]
  · rw [modProc_of_ne _ _ _ hj]
    exact Poked.refl _

theorem PokedAll.quiet (h : PokedAll s t) : Quiet s t :=
  ⟨fun i => (h.slots i).space, fun q => by rw [h.kmem], fun r => .inl (by rw [h.regions])⟩

/-- `reparent` changes parents and wakes sleepers, by induction over its loop. -/
theorem reparent_poked (s : State) (p : Fin NPROC) : PokedAll s (reparent s p) := by
  unfold reparent
  generalize List.finRange NPROC = slots
  induction slots generalizing s with
  | nil => exact PokedAll.refl s
  | cons pp rest ih =>
      rw [List.foldl_cons]
      refine PokedAll.trans ?_ (ih _)
      split
      · rename_i hpar
        refine PokedAll.trans (PokedAll.modProc ?_) (PokedAll.wakeup _ _ _)
        exact ⟨⟨_, _, _, _, _, _, rfl⟩, fun h => by simp [hpar] at h, .inl rfl, .inl rfl⟩
      · exact PokedAll.refl s

theorem kexit_spec {status : Int} (h : kexit s p status = .ok t) :
    (∀ i, i ≠ p → Poked (s.proc i) (t.proc i)) ∧
      (∃ q, Poked (s.proc p) q ∧ t.proc p = exited q status) ∧ Quiet s t := by
  unfold kexit at h
  split at h
  · cases h
  · cases h
    set s0 := s.modProc p fun q => { q with ofile := fun _ => none, cwd := none } with hs0
    have hw := (reparent_poked s0 p).trans
      (PokedAll.wakeup _ (some p) (parentChan ((reparent s0 p).proc p).parent))
    have hz : Quiet s s0 := Quiet.modProc rfl
    refine ⟨fun i hi => ?_, ?_, fun i => ?_, fun q => ?_, fun r => .inl ?_⟩
    · rw [modProc_of_ne _ _ _ hi, ← modProc_of_ne s p _ hi]
      exact hw.slots i
    · have hp := hw.slots p
      rw [hs0, modProc_self] at hp
      have hpar := hp.parent
      have hst := hp.state
      have hpri := hp.priority
      obtain ⟨a, b, c, d, e, f, hf⟩ := hp.fields
      refine ⟨_, ⟨⟨a, b, c, d, e, f, rfl⟩, ?_, ?_, ?_⟩, ?_⟩
      · rw [hf] at hpar; exact hpar
      · rw [hf] at hst; exact hst
      · rw [hf] at hpri; exact hpri
      · rw [modProc_self, hf]
        rfl
    · by_cases hi : i = p
      · subst hi
        rw [modProc_self]
        exact (hw.slots i).space.trans (hz.space i)
      · rw [modProc_of_ne _ _ _ hi]
        exact (hw.slots i).space.trans (hz.space i)
    · rw [modProc_kmem, hw.kmem]
      rfl
    · rw [modProc_shmTable, hw.regions]
      rfl

theorem zombieChild_zombie {c : Fin NPROC} (h : zombieChild s p = some c) :
    (s.proc c).state = .zombie := by
  have := (Fin.find?_eq_some_iff.1 h).1
  simp only [decide_eq_true_eq] at this
  exact this.2

theorem zombieChild_ne {c : Fin NPROC} (hrun : (s.proc p).state = .running)
    (h : zombieChild s p = some c) : c ≠ p := by
  rintro rfl
  have hz := zombieChild_zombie h
  rw [hrun] at hz
  cases hz

variable [Link]

/-! ## freeproc, allocproc and kfork -/

/-- `freeproc` gives back the trapframe page and the whole address space, which
had nothing mapped above its size. -/
theorem freeproc_spec (hsz : (s.proc i).sz ≤ TRAPFRAME) (h : freeproc s i = .ok t) :
    ∃ m, t = (s.setKmem m).modProc i clearSlot ∧
      (∀ q, m.count q = s.kmem.count q + hitOpt (s.proc i).trapframe q +
        heldOpt reserved (s.proc i).pagetable q) ∧
      ∀ pt, (s.proc i).pagetable = some pt →
        ∀ v, pgroundup (s.proc i).sz / PGSIZE ≤ v → v ∉ reserved → pt.leaf v = none := by
  unfold freeproc at h
  obtain ⟨m1, h1, h⟩ := bind_ok.1 h
  obtain ⟨m2, h2, h⟩ := bind_ok.1 h
  cases h
  have htf : ∀ q, m1.count q = s.kmem.count q + hitOpt (s.proc i).trapframe q := fun q => by
    cases hc : (s.proc i).trapframe with
    | none => rw [hc] at h1; cases h1; simp
    | some tf => rw [hc] at h1; simpa using kfree_count h1 q
  cases hc : (s.proc i).pagetable with
  | none =>
      rw [hc] at h2
      cases h2
      refine ⟨m1, rfl, fun q => ?_, fun _ hpt => ?_⟩
      · rw [htf, heldOpt_none, Nat.add_zero]
      · cases hpt
  | some pt =>
      rw [hc] at h2
      obtain ⟨habove, hcount⟩ := procFreepagetable_spec hsz h2
      refine ⟨m2, rfl, fun q => ?_, fun pt' hpt => ?_⟩
      · rw [hcount, htf, heldOpt_some]
      · cases hpt
        exact habove

theorem allocproc_cases (hs : Tidy s) {r : Option (Fin NPROC)} (h : allocproc s = .ok (r, t)) :
    (r = none ∧ (t = s ∨ Unspawned s t)) ∨
      ∃ i tf pt m, r = some i ∧ unusedSlot s = some i ∧ FreshTable tf pt ∧
        (∀ q, m.count q + hit tf q + pt.tables q = s.kmem.count q) ∧
        t = (s.bump m).modProc i (outfitted s tf pt) := by
  unfold allocproc at h
  cases hu : unusedSlot s with
  | none =>
      rw [hu] at h
      cases h
      exact .inl ⟨rfl, .inl rfl⟩
  | some i =>
      simp only [hu] at h
      have hun := unusedSlot_unused hu
      have hpt := (hs i).noPagetable hun
      have hsz := (hs i).noSz hun
      have hproc : (claimSlot s i).proc i = claimed s.nextpid s.ticks (s.proc i) := modProc_self _ _ _
      -- both failures hand the slot back with nothing but the trapframe page to free
      have hback : ∀ (m : Kmem) (tf : Option PA),
          (∀ q, m.count q + hitOpt tf q = s.kmem.count q) →
          freeproc (((claimSlot s i).setKmem m).modProc i fun p =>
            { p with trapframe := tf, pagetable := none }) i = .ok t → Unspawned s t := by
        intro m tf hc hf
        obtain ⟨m', ht, hc', -⟩ := freeproc_spec (by simp [hproc, claimed, hsz]) hf
        refine ⟨i, m', hu, fun q => ?_, ?_⟩
        · rw [hc', ← hc q, modProc_self, modProc_kmem, heldOpt_none]
          rfl
        · rw [ht]
          simp [claimSlot, State.bump, State.setKmem, State.modProc, clearSlot]
      unfold outfit at h
      cases hk : kalloc s.kmem with
      | mk a m =>
      have hk' : kalloc (claimSlot s i).kmem = (a, m) := hk
      rw [hk'] at h
      rcases kalloc_cases hk with ⟨rfl, hm, rfl⟩ | ⟨tf, rfl, hm⟩
      · obtain ⟨t', hf, h⟩ := bind_ok.1 h
        cases h
        have hsame : (fun p : Proc => { p with trapframe := none })
            (claimed s.nextpid s.ticks (s.proc i)) =
            (fun p : Proc => { p with trapframe := none, pagetable := none })
              (claimed s.nextpid s.ticks (s.proc i)) := by
          simp [claimed, hpt]
        refine .inl ⟨rfl, .inr (hback [] none (fun q => by simp [hm]) ?_)⟩
        rw [← hf]
        simp only [State.modProc, setKmem_proc, hproc, hsame]
      · obtain ⟨⟨pt, m2⟩, hp, h⟩ := bind_ok.1 h
        rcases procPagetable_spec hp with ⟨rfl, hc⟩ | ⟨pt, rfl, hfresh, hc⟩
        · obtain ⟨t', hf, h⟩ := bind_ok.1 h
          cases h
          refine .inl ⟨rfl, .inr (hback _ _ (fun q => ?_) hf)⟩
          rw [hc, hm, count_cons_hit, hitOpt_some]
        · cases h
          refine .inr ⟨i, tf, pt, m2, rfl, rfl, hfresh, fun q => ?_, ?_⟩
          · rw [hm, count_cons_hit, ← hc q]
            omega
          · simp [claimSlot, State.bump, State.setKmem, State.modProc, outfitted]

def Forked (s : State) (p : Fin NPROC) (t : State) : Prop :=
  ∃ i tf pt m, unusedSlot s = some i ∧ UserTable tf pt ∧
    (∀ q, m.count q + hit tf q + pt.held reserved q = s.kmem.count q) ∧
    t = (s.bump m).modProc i fun np => childOf p (s.proc p) (outfitted s tf pt np)

theorem kfork_cases (hs : Tidy s) (hp : (s.proc p).state ≠ .unused) {r : Int}
    (h : kfork s p = .ok (r, t)) : t = s ∨ Unspawned s t ∨ Forked s p t := by
  unfold kfork at h
  obtain ⟨⟨a, s1⟩, ha, h⟩ := bind_ok.1 h
  rcases allocproc_cases hs ha with ⟨rfl, h1⟩ | ⟨i, tf, pt, m, rfl, hu, hfresh, hc, hs1⟩
  · cases h
    rcases h1 with h1 | h1
    · exact .inl h1
    · exact .inr (.inl h1)
  · have hpi : p ≠ i := by
      rintro rfl
      exact hp (unusedSlot_unused hu)
    have hproc : s1.proc p = s.proc p := by rw [hs1, modProc_of_ne _ _ _ hpi]; rfl
    have hnp : s1.proc i = outfitted s tf pt (s.proc i) := by rw [hs1, modProc_self]; rfl
    have hkm : s1.kmem = m := by rw [hs1]; rfl
    dsimp only at h
    unfold forkInto at h
    cases hold : (s.proc p).pagetable with
    | none => simp [hproc, hold] at h
    | some old =>
        have hpt : (s1.proc i).pagetable = some pt := by rw [hnp]; rfl
        simp only [hproc, hold, hpt, hkm] at h
        obtain ⟨⟨ok, new, m1⟩, hcopy, h⟩ := bind_ok.1 h
        have hfree : ∀ v < pagesBetween 0 (s.proc p).sz, pt.leaf v = none := fun v hv => by
          apply hfresh.nothing
          have hsz := (hs p).sz_le
          unfold pagesBetween at hv
          simp only [Finset.mem_insert, Finset.mem_singleton]
          norm_num at hsz hv ⊢
          omega
        have hext := uvmcopy_spec (hs p).sz_le hfree hcopy
        have hheld : ∀ q, m1.count q + new.held reserved q = m.count q + pt.tables q := fun q => by
          rw [hext.held_reserved hfresh.toUserTable, hfresh.held]
        cases ok with
        | true =>
            cases h
            refine .inr (.inr ⟨i, tf, new, m1, hu, hext.userTable hfresh.toUserTable, fun q => ?_,
              ?_⟩)
            · have h1 := hheld q
              have h2 := hc q
              omega
            · rw [hs1]
              simp [State.setSpace, State.bump, State.setKmem, State.modProc, outfitted]
        | false =>
            simp only [Bool.false_eq_true, if_false] at h
            obtain ⟨t', hf, h⟩ := bind_ok.1 h
            cases h
            have hsz : (s.proc i).sz = 0 := (hs i).noSz (unusedSlot_unused hu)
            obtain ⟨m', ht, hc', -⟩ := freeproc_spec
              (by simp [State.setSpace, hnp, outfitted, claimed, hsz]) hf
            refine .inr (.inl ⟨i, m', hu, fun q => ?_, ?_⟩)
            · have h1 := hheld q
              have h2 := hc q
              have h3 := hc' q
              rw [State.setSpace, modProc_self, modProc_kmem, setKmem_proc, setKmem_kmem, hnp,
                heldOpt_some, outfitted, hitOpt_some] at h3
              omega
            · rw [ht, hs1]
              simp [State.setSpace, State.bump, State.setKmem, State.modProc, clearSlot, outfitted]

/-! ## Waiting -/

theorem copyouts_spec {sz : Nat} {addrs : List Nat} {own own' : PageTable} {m m' : Kmem} {ok : Bool}
    (h : copyouts sz addrs own m = .ok (ok, own', m')) : ∃ R, Extends own m R own' m' := by
  induction addrs generalizing own m with
  | nil =>
      cases h
      exact ⟨∅, Extends.refl _ _⟩
  | cons addr rest ih =>
      unfold copyouts at h
      split at h
      · exact ih h
      · rw [bind_ok] at h
        obtain ⟨⟨ok1, own1, m1⟩, hc, h⟩ := h
        obtain ⟨R, hR⟩ := copyout_spec hc
        dsimp only at h
        split at h
        · obtain ⟨R', hR'⟩ := ih h
          exact ⟨R ∪ R', hR.trans hR'⟩
        · cases h
          exact ⟨R, hR⟩

/-- A turn of a wait call ends without touching memory, or after copying out, or
with the child freed. -/
theorem waitTurn_cases {addrs : List Nat} {r : Option Int}
    (h : waitTurn s p addrs = .ok (r, t)) :
    (t = s.modProc p awake ∨ t = s.modProc p (asleep (.proc p))) ∨
      ∃ c own own' m ok, zombieChild s p = some c ∧ (s.proc p).pagetable = some own ∧
        copyouts (s.proc p).sz addrs own s.kmem = .ok (ok, own', m) ∧
        (ok = false ∧ t = (s.modProc p awake).setSpace p own' m ∨
          ok = true ∧ freeproc ((s.modProc p awake).setSpace p own' m) c = .ok t) := by
  unfold waitTurn at h
  cases hz : zombieChild s p with
  | none =>
      simp only [hz] at h
      split at h
      · cases h
        exact .inl (.inl rfl)
      · cases h
        exact .inl (.inr rfl)
  | some c =>
      simp only [hz, reapChild, modProc_self, modProc_kmem] at h
      have hown : (awake (s.proc p)).pagetable = (s.proc p).pagetable := rfl
      rw [hown] at h
      cases ho : (s.proc p).pagetable with
      | none => simp [ho] at h
      | some own =>
          simp only [ho] at h
          obtain ⟨⟨ok, own', m⟩, hc, h⟩ := bind_ok.1 h
          refine .inr ⟨c, own, own', m, ok, rfl, rfl, hc, ?_⟩
          cases ok with
          | false =>
              cases h
              exact .inl ⟨rfl, rfl⟩
          | true =>
              simp only [if_true] at h
              obtain ⟨t', hf, h⟩ := bind_ok.1 h
              cases h
              exact .inr ⟨rfl, hf⟩

/-! ## kexec -/

/-- `kexec` fails with the old program in place, or replaces the address space. -/
theorem kexec_cases {file : Option ExecFile} {argv : List Nat} {name : String} {r : Int}
    (h : kexec s p file argv name = .ok (r, t)) :
    Grows s p t ∧ (∃ own m, t = s.setSpace p own m) ∨
      ∃ own own' tf R pt sz m1 m' m, (s.proc p).pagetable = some own ∧
        (s.proc p).trapframe = some tf ∧
        kexecImage (s.proc p).sz tf file argv own s.kmem = .ok (some (pt, sz), own', m') ∧
        Extends own m1 R own' m' ∧ Image tf (fun q => s.kmem.count q) pt m1 ∧ sz ≤ TRAPFRAME ∧
        procFreepagetable own' (s.proc p).sz m' = .ok m ∧
        t = (s.setSpace p pt m).modProc p fun q => { q with sz := sz, name := name } := by
  unfold kexec at h
  cases ho : (s.proc p).pagetable with
  | none => simp [ho] at h
  | some own =>
      cases htf : (s.proc p).trapframe with
      | none => simp [ho, htf] at h
      | some tf =>
          simp only [ho, htf] at h
          rw [bind_ok] at h
          obtain ⟨⟨image, own', m'⟩, hi, h⟩ := h
          obtain ⟨R, m1, he, himg⟩ := kexecImage_spec hi
          cases image with
          | none =>
              cases h
              refine .inl ⟨Grows.setSpace ho (R := R) ⟨he.outside, he.vacant, he.filled, fun q => ?_⟩,
                own', m', rfl⟩
              rw [he.pages q, himg q]
          | some im =>
              obtain ⟨pt, sz⟩ := im
              obtain ⟨m, hf, h⟩ := bind_ok.1 h
              cases h
              exact .inr ⟨own, own', tf, R, pt, sz, m1, m', m, rfl, rfl, hi, he, himg.1, himg.2, hf,
                rfl⟩

/-! ## sbrk and page faults -/

def Shrinks (s : State) (p : Fin NPROC) (n : Int) (t : State) : Prop :=
  ∃ own own' m, (s.proc p).pagetable = some own ∧
    own'.leaf = cut own.leaf (deallocRange (s.proc p).sz (addU64 (s.proc p).sz (toU64 n))) ∧
    (∀ q, own'.tables q = own.tables q) ∧
    (∀ q, m.count q = s.kmem.count q +
      occ (deallocRange (s.proc p).sz (addU64 (s.proc p).sz (toU64 n))) own.mapped q) ∧
    t = (s.setSpace p own' m).modProc p fun q =>
      { q with sz := min (s.proc p).sz (addU64 (s.proc p).sz (toU64 n)) }

/-- `sys_sbrk` leaves the state alone, moves `sz` (lazy), adds pages, or shrinks. -/
theorem sysSbrk_cases (hs : Tidy s) {n ty : Int} {r : Nat} (h : sysSbrk s p n ty = .ok (r, t)) :
    t = s ∨
      (∃ sz, sz ≤ TRAPFRAME ∧ t = s.modProc p fun q => { q with sz := sz }) ∨
      (∃ own m sz, sz ≤ TRAPFRAME ∧ Grows s p t ∧
        t = (s.setSpace p own m).modProc p fun q => { q with sz := sz }) ∨
      (n < 0 ∧ Shrinks s p n t) := by
  have hold := (hs p).sz_le
  unfold sysSbrk at h
  dsimp only at h
  split at h
  · obtain ⟨⟨ok, t'⟩, hg, h⟩ := bind_ok.1 h
    cases h
    unfold growproc at hg
    cases ho : (s.proc p).pagetable with
    | none => simp [ho] at hg
    | some own =>
        simp only [ho] at hg
        split at hg
        · split at hg
          · cases hg
            exact .inl rfl
          · rename_i hle
            obtain ⟨⟨sz', pt, m⟩, ha, hg⟩ := bind_ok.1 hg
            have hbig : (s.proc p).sz < 2 ^ 38 := lt_of_le_of_lt hold (by norm_num)
            have hres : sz' ≤ TRAPFRAME ∧ ∃ R, Extends own s.kmem R pt m := by
              rcases uvmalloc_spec hbig ha with ⟨-, rfl, rfl, rfl⟩ | ⟨-, ⟨rfl, he⟩ | ⟨rfl, he⟩⟩
              · exact ⟨hold, ∅, Extends.refl _ _⟩
              · exact ⟨by omega, _, he⟩
              · exact ⟨Nat.zero_le _, _, he⟩
            obtain ⟨hsz', R, he⟩ := hres
            refine .inr (.inr (.inl ?_))
            dsimp only at hg
            split at hg
            · cases hg
              refine ⟨pt, m, (s.proc p).sz, hold, Grows.setSpace ho he, ?_⟩
              simp [State.setSpace, State.setKmem, State.modProc]
            · cases hg
              have hg := (Grows.setSpace ho he).modProc (f := fun q => { q with sz := sz' }) rfl
              exact ⟨pt, m, sz', hsz', hg, rfl⟩
        · split at hg
          · rename_i hneg
            obtain ⟨⟨sz', pt, m⟩, ha, hg⟩ := bind_ok.1 hg
            obtain ⟨rfl, hl, ht, hc⟩ := uvmdealloc_spec ha
            cases hg
            exact .inr (.inr (.inr ⟨hneg, own, pt, m, ho, hl, ht, hc, rfl⟩))
          · cases hg
            exact .inl rfl
  · split at h
    · cases h
      exact .inl rfl
    · split at h
      · cases h
        exact .inl rfl
      · rename_i hle
        cases h
        exact .inr (.inl ⟨_, by omega, rfl⟩)

theorem pageFault_cases {va : Nat} (h : pageFault s p va = .ok t) :
    Grows s p t ∧ ∃ own m, ∃ k : Proc → Int,
      t = (s.setSpace p own m).modProc p fun q => { q with killed := k q } := by
  unfold pageFault at h
  cases ho : (s.proc p).pagetable with
  | none => simp [ho] at h
  | some own =>
      simp only [ho] at h
      obtain ⟨⟨pa, own', m⟩, hf, h⟩ := bind_ok.1 h
      obtain ⟨R, he⟩ := vmfault_spec hf
      cases pa with
      | some pa =>
          cases h
          exact ⟨Grows.setSpace ho he, own', m, Proc.killed, by
            simp [State.setSpace, State.setKmem, State.modProc]⟩
      | none =>
          cases h
          have hg := (Grows.setSpace ho he).modProc (f := fun q => { q with killed := 1 }) rfl
          exact ⟨hg, own', m, fun _ => 1, rfl⟩

end G9OS.Kernel
