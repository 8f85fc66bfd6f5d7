import G9OS.Kernel.Boot
import G9OS.Kernel.MemorySteps

/-! # No page is free and in use at once

`exec`, `wait` and a shrinking `sbrk` free whatever the address space shows, and
that includes pages of shared regions that others still use. In runs where these
calls meet no such page, every page has one place at any time; in other runs a
page can be free and in use.
-/

namespace G9OS.Kernel

open Lib

section
variable [Link]

/-- The exited child that a wait call would free shows no page of a region in use. -/
def SafeReap (s : State) (p : Fin NPROC) (addrs : List Nat) : Prop :=
  ∀ c own own' m, zombieChild s p = some c → (s.proc p).pagetable = some own →
    copyouts (s.proc p).sz addrs own s.kmem = .ok (true, own', m) →
    Unshared s c (userPages (s.proc c).sz)

/-- The step frees no mapping of a page that belongs to a region in use: not when it
reaps a child, not when `exec` has built the new image and drops the old one, and
not when `sbrk` shrinks. -/
def Safe (s : State) : Op → Prop
  | .wait p addr => SafeReap s p [addr]
  | .waitStat p wtime rtime status => SafeReap s p [wtime, rtime, status]
  | .exec p file argv _ =>
      ∀ own tf image own' m, (s.proc p).pagetable = some own → (s.proc p).trapframe = some tf →
        kexecImage (s.proc p).sz tf file argv own s.kmem = .ok (some image, own', m) →
        Unshared s p (userPages (s.proc p).sz)
  | .sbrk p n _ =>
      n < 0 → Unshared s p (deallocRange (s.proc p).sz (addU64 (s.proc p).sz (toU64 n)))
  | _ => True

variable {s t : State} {op : Op}

theorem Safe.waits (h : Safe s op) {p : Fin NPROC} {addrs : List Nat}
    (hw : op.waits = some (p, addrs)) : SafeReap s p addrs := by
  cases op with
  | wait p' addr => cases hw; exact h
  | waitStat p' a b c => cases hw; exact h
  | _ => cases hw

omit [Link] in
theorem Unshared.congr {c : Fin NPROC} {D : Finset Nat} (h : Unshared s c D)
    (hproc : t.proc c = s.proc c) (hreg : t.shmTable = s.shmTable) : Unshared t c D := by
  unfold Unshared
  rw [hproc, hreg]
  exact h

/-! ## Steps and runs -/

theorem Good.step (h : Good s) (he : Effect s op t) (hs : Safe s op) : Good t := by
  have htidy := he.tidy h.tidy
  have hshm := he.shmOk h.tidy h.shm
  cases he with
  | poked hp => exact h.quiet htidy hshm hp.quiet
  | own p f _ hsp ht => exact h.quiet htidy hshm (ht ▸ Quiet.modProc hsp)
  | grows p _ hg => exact h.grows htidy hshm hg
  | exits p status _ _ hk => exact h.quiet htidy hshm (kexit_spec hk).2.2
  | unspawned hu => exact h.quiet htidy hshm (hu.quiet h.tidy)
  | forked p _ _ hf => exact h.forked htidy hshm hf
  | @reaped p c addrs own own' m R hw hrun hz ho hco hext hf =>
      have hcp : c ≠ p := zombieChild_ne hrun hz
      have hg : Grows s p (waitedState s p own' m) := Grows.waited ho hext
      have hown : OwnStep (s.proc p) ((waitedState s p own' m).proc p) := by
        rw [waitedState, setSpace_self, modProc_self]
        exact OwnStep.of_live hrun (h.tidy p).sz_le (.inl hrun) rfl rfl
      have h1 : Good (waitedState s p own' m) :=
        h.grows (Effect.tidy h.tidy (.grows p hown hg : Effect s op _))
          (State.ShmOk.same h.shm hg.attachments hg.regions) hg
      have hun : Unshared (waitedState s p own' m) c
          (userPages ((waitedState s p own' m).proc c).sz) := by
        rw [hg.others c hcp]
        exact (hs.waits hw c own own' m hz ho hco).congr (hg.others c hcp) hg.regions
      exact h1.freeproc htidy hshm hun hf
  | replaced hop hrun hown htf hki hext hi _ hf ht =>
      subst hop
      exact h.replaced htidy hshm (hs _ _ _ _ _ hown htf hki) hown htf hext hi hf ht
  | shrunk hop _ hn hsh =>
      subst hop
      exact h.shrunk htidy hshm (hs hn) hsh
  | unmade _ _ hm => exact h.unmade htidy hshm hm
  | @opened p key size r s1 _ _ hk _ hm ho =>
      have h1 : Good s1 := h.made (hm.shmOk h.shm hk) hk hm
      have hr := (hm.region (State.ShmOk.bounded h.shm) hk).1
      cases ho with
      | kept => exact h1
      | failed hg => exact h1.grows htidy hshm hg
      | attached ha => exact h1.attached hr hk ha htidy hshm
  | closed _ _ hd hr => exact h.closed hd hr htidy hshm

theorem next_some (h : next s op = some t) : Enabled s op ∧ run s op = .ok t := by
  unfold next at h
  split at h
  · rename_i he
    exact ⟨he, toOption_some.1 h⟩
  · cases h

theorem next_of_run (he : Enabled s op) (h : run s op = .ok t) : next s op = some t := by
  unfold next
  rw [if_pos he, h]
  rfl

theorem next_effect (hs : Tidy s) (h : next s op = some t) : Effect s op t :=
  run_effect hs (next_some h).1 (next_some h).2

/-! ## Boot -/

def unbooted (m : Kmem) : State := { kmem := m }

omit [Link] in
theorem unbooted_tidy (m : Kmem) : Tidy (unbooted m) := fun _ =>
  ⟨Nat.zero_le _, fun h => absurd rfl h, fun _ _ => rfl, fun _ => rfl, fun _ => rfl, fun _ => rfl,
    fun _ => rfl, fun _ => rfl, fun _ => rfl, fun _ => rfl⟩

omit [Link] in
theorem unbooted_shmOk (m : Kmem) : (unbooted m).ShmOk :=
  ⟨fun _ h => absurd rfl h, fun _ h => absurd rfl h, fun _ _ h => absurd rfl h,
    fun _ _ _ h => absurd rfl h, fun _ _ h => absurd rfl h, fun _ _ => AttachOk.empty,
    fun _ _ _ => rfl, fun _ h => absurd rfl h⟩

omit [Link] in
theorem unbooted_mass (m : Kmem) (q : PA) : mass (unbooted m) q = m.count q := by
  have h1 : ∀ p, ((unbooted m).proc p).space.weight q = 0 := fun p =>
    Proc.weight_empty rfl rfl q
  have h2 : ∀ r, ((unbooted m).shmTable r).weight q = 0 := fun r => if_pos rfl
  rw [mass_def, Finset.sum_eq_zero fun p _ => h1 p, Finset.sum_eq_zero fun r _ => h2 r]
  rfl

theorem unbooted_good {m : Kmem} (hm : BootMemory m) : Good (unbooted m) := by
  refine ⟨unbooted_tidy m, unbooted_shmOk m, fun q => ?_, fun q hq => ?_, fun p => ?_⟩
  · rw [unbooted_mass]
    exact List.nodup_iff_count_le_one.1 hm.1 q
  · rw [unbooted_mass] at hq
    exact hm.2 q (List.count_pos_iff.1 hq)
  · exact .empty rfl rfl fun _ => le_rfl

def started (s : State) (i : Fin NPROC) : State :=
  (({ s with initproc := i } : State).modProc i fun p =>
    { p with cwd := some 0, state := .runnable }).modProc i fun p => { p with state := .running }

omit [Link] in
theorem started_self (s : State) (i : Fin NPROC) :
    (started s i).proc i = { s.proc i with cwd := some 0, state := .running } := by
  rw [started, modProc_self, modProc_self]

omit [Link] in
theorem started_of_ne (s : State) {i j : Fin NPROC} (h : j ≠ i) :
    (started s i).proc j = s.proc j := by
  rw [started, modProc_of_ne _ _ _ h, modProc_of_ne _ _ _ h]

/-- Up to the first user instruction: a first process is made, and then `exec`
replaces its empty memory. -/
theorem boot_steps {m : Kmem} {init : ExecFile} {argv : List Nat} (h : boot m init argv = .ok s) :
    ∃ s0 i tf pt, FreshTable tf pt ∧
      (∀ q, s0.kmem.count q + hit tf q + pt.tables q = m.count q) ∧ Tidy s0 ∧
      s0.ShmOk ∧ (∀ j, j ≠ i → s0.proc j = {}) ∧ s0.shmTable = (unbooted m).shmTable ∧
      (s0.proc i).pagetable = some pt ∧ (s0.proc i).trapframe = some tf ∧
      (s0.proc i).shm = ((unbooted m).proc i).shm ∧
      s0.proc i = { outfitted (unbooted m) tf pt {} with cwd := some 0, state := .running } ∧
      (∃ argc, kexec s0 i (some init) argv "init" = .ok (argc, s)) ∧
      Effect s0 (.exec i (some init) argv "init") s := by
  unfold boot userinit at h
  rw [bind_ok] at h
  obtain ⟨s1, hu, h⟩ := h
  rw [bind_ok] at hu
  obtain ⟨⟨a, s2⟩, ha, hu⟩ := hu
  rcases allocproc_cases (unbooted_tidy m) ha with ⟨rfl, -⟩ | ⟨i, tf, pt, m1, rfl, -, hf, hc, rfl⟩
  · cases hu
  · cases hu
    dsimp only at h
    rw [bind_ok] at h
    obtain ⟨⟨argc, s3⟩, hk, h⟩ := h
    dsimp only at h
    split at h
    · cases h
    · cases h
      have hself := started_self (((unbooted m).bump m1).modProc i (outfitted (unbooted m) tf pt)) i
      rw [modProc_self] at hself
      have hrest : ∀ j, j ≠ i →
          (started (((unbooted m).bump m1).modProc i (outfitted (unbooted m) tf pt)) i).proc j
            = {} := by
        intro j hj
        rw [started_of_ne _ hj, modProc_of_ne _ _ _ hj]
        rfl
      have htidy : Tidy
          (started (((unbooted m).bump m1).modProc i (outfitted (unbooted m) tf pt)) i) := by
        intro j
        by_cases hj : j = i
        · subst hj
          rw [hself]
          exact SlotOk.of_live ⟨nofun, nofun⟩ (Nat.zero_le _) 
            ⟨(by decide : (1 : Int) ≤ 10), (by decide : (10 : Int) ≤ 20)⟩
        · rw [hrest j hj]
          exact unbooted_tidy m j
      have hshm : (started (((unbooted m).bump m1).modProc i
          (outfitted (unbooted m) tf pt)) i).ShmOk := by
        refine (unbooted_shmOk m).same ?_ rfl
        funext j
        by_cases hj : j = i
        · subst hj
          have he := congrArg Proc.shm hself
          exact he
        · exact congrArg Proc.shm (hrest j hj)
      exact ⟨_, i, tf, pt, hf, hc, htidy, hshm, hrest, rfl, by rw [hself]; rfl, by rw [hself]; rfl,
        by rw [hself]; rfl, hself, ⟨argc, hk⟩, kexec_effect htidy (by rw [hself]) hk⟩

theorem Booted.good (h : Booted s) : Good s := by
  obtain ⟨m, init, argv, hm, hb⟩ := h
  obtain ⟨s0, i, tf, pt, hf, hc, htidy, hok, hothers, hreg, hpt, htf, hshm, -, -, he⟩ := boot_steps hb
  have h1 : Good s0 := by
    refine (unbooted_good hm).spawned htidy hok (i := i) rfl rfl hothers hreg hpt htf hshm
      hf.toUserTable fun q => ?_
    rw [hf.held]
    exact hc q
  refine h1.step he fun _ _ _ _ _ _ _ _ _ _ v _ r j hk => ?_
  rw [hreg] at hk
  exact absurd rfl hk

/-- In a run without unsafe steps every page has one place. -/
theorem good_of_reach (h : Reach next Safe Booted s) : Good s :=
  Reach.inv (fun _ hb => hb.good)
    (fun _ _ _ hg hok hn => hg.step (next_effect hg.tidy hn) hok) h

/-- In every run the slots and the attachment records are in order. -/
theorem orderly_of_reach {ok : State → Op → Prop} (h : Reach next ok Booted s) :
    Tidy s ∧ s.ShmOk := by
  refine Reach.inv (I := fun s => Tidy s ∧ s.ShmOk) (fun _ hb => ⟨hb.good.tidy, hb.good.shm⟩) ?_ h
  intro u op v hu _ hn
  have he := next_effect hu.1 hn
  exact ⟨he.tidy hu.1, he.shmOk hu.1 hu.2⟩

/-! ## Free pages -/

/-- A page on the free list is on it once, no user page table maps it, and no region
in use lists it. -/
structure NoUseAfterFree (s : State) : Prop where
  nodup : s.kmem.Nodup
  unmapped : ∀ pa ∈ s.kmem, ∀ p pt, (s.proc p).pagetable = some pt → ∀ v, pt.mapped v ≠ some pa
  unlisted : ∀ pa ∈ s.kmem, ∀ r, (s.shmTable r).key ≠ 0 →
    ∀ j < (s.shmTable r).npages.toNat, (s.shmTable r).pages j ≠ pa

theorem Good.weight_of_free (h : Good s) {pa : PA} (hpa : pa ∈ s.kmem) (p : Fin NPROC) :
    (s.proc p).space.weight pa = 0 := by
  have h1 := List.count_pos_iff.2 hpa
  have h2 := le_sum (fun p => (s.proc p).space.weight pa) p
  have h3 := h.once pa
  rw [mass_def] at h3
  omega

theorem Good.region_of_free (h : Good s) {pa : PA} (hpa : pa ∈ s.kmem) {r : Fin SHM_SLOTS} {j : Nat}
    (hk : (s.shmTable r).key ≠ 0) (hj : j < (s.shmTable r).npages.toNat) :
    (s.shmTable r).pages j ≠ pa := by
  rintro rfl
  have h1 := List.count_pos_iff.2 hpa
  rw [(h.region_alone hk hj).1] at h1
  omega

theorem Good.unmapped_of_free (h : Good s) {pa : PA} (hpa : pa ∈ s.kmem) {p : Fin NPROC}
    {pt : PageTable} (hpt : (s.proc p).pagetable = some pt) {v : Nat} :
    pt.mapped v ≠ some pa := by
  intro hv
  obtain ⟨e, hl, rfl⟩ := Option.map_eq_some_iff.1 hv
  have hok := h.usable e.pa (lt_of_lt_of_le (List.count_pos_iff.2 hpa) (by rw [mass_def]; omega))
  obtain ⟨i, hi⟩ := mem_covered.1 (h.mapped_covered hpt hl hok (h.weight_of_free hpa p))
  obtain ⟨r, j, -, hk, hj, -, hl'⟩ := h.covered_mapped hpt hi
  rw [hl] at hl'
  cases hl'
  exact h.region_of_free hpa hk hj rfl

theorem Good.noUseAfterFree (h : Good s) : NoUseAfterFree s where
  nodup := by
    refine List.nodup_iff_count_le_one.2 fun q => ?_
    have h1 := h.once q
    rw [mass_def] at h1
    omega
  unmapped _ hpa _ _ hpt _ := h.unmapped_of_free hpa hpt
  unlisted _ hpa _ hk _ hj := h.region_of_free hpa hk hj

/-- As long as `exec`, the wait calls and `sbrk` drop no mapping of a region in use, no
page is free and in use at once. -/
theorem reachable_noUseAfterFree (h : Reach next Safe Booted s) : NoUseAfterFree s :=
  (good_of_reach h).noUseAfterFree

end

/-! ### A run that frees memory beside a region -/

instance unsharedDecidable (s : State) (p : Fin NPROC) (D : Finset Nat) :
    Decidable (Unshared s p D) :=
  match h : (s.proc p).pagetable with
  | none => isTrue fun pt hpt => absurd (h.symm.trans hpt) (by simp)
  | some pt =>
      decidable_of_iff (∀ v ∈ D, ∀ r, (s.shmTable r).key ≠ 0 →
        ∀ j < (s.shmTable r).npages.toNat, pt.mapped v ≠ some ((s.shmTable r).pages j))
        ⟨fun hall pt' hpt' v hv r j hk hj => Option.some.inj (h.symm.trans hpt') ▸ hall v hv r hk j hj,
          fun hun v hv r hk j hj => hun pt h v hv r j hk hj⟩

def freesUnshared (s : State) : Op → Bool
  | .wait p _ | .waitStat p _ _ _ =>
      (zombieChild s p).all fun c => Unshared s c (userPages (s.proc c).sz)
  | .exec p _ _ _ => Unshared s p (userPages (s.proc p).sz)
  | .sbrk p n _ =>
      !decide (n < 0) || Unshared s p (deallocRange (s.proc p).sz (addU64 (s.proc p).sz (toU64 n)))
  | _ => true

theorem safe_of_freesUnshared [Link] {s : State} {op : Op} (h : freesUnshared s op = true) :
    Safe s op := by
  have hreap : ∀ {p addrs}, (zombieChild s p).all
      (fun c => Unshared s c (userPages (s.proc c).sz)) = true → SafeReap s p addrs := by
    intro p addrs hall c own own' m hz _ _
    rw [hz] at hall
    exact of_decide_eq_true hall
  cases op with
  | wait p addr => exact hreap h
  | waitStat p a b c => exact hreap h
  | exec p file argv name =>
      intro own tf image own' m _ _ _
      exact of_decide_eq_true h
  | sbrk p n ty =>
      intro hn
      rw [freesUnshared, decide_eq_true hn, Bool.not_true, Bool.false_or] at h
      exact of_decide_eq_true h
  | _ => trivial

/-- The first process opens a region and forks. The child runs another program and exits, the parent
reaps it, grows and shrinks. -/
def freeingRun : List Op :=
  [.shmOpen 0 7 4096, .fork 0, .yield 0, .dispatch 1, .exec 1 (some sampleInit) [4] "init",
    .exit 1 0, .dispatch 0, .wait 0 0, .sbrk 0 8192 1, .sbrk 0 (-4096) 1]

/-- No page of the region is free then, although three steps have freed memory. -/
theorem reachable_noUseAfterFree_freeing : ∃ s, sampleRun freeingRun = some s ∧
    (s.shmTable 0).refcount = 1 ∧ (s.proc 1).state = .unused ∧ NoUseAfterFree s := by
  obtain ⟨s, hs, ⟨hc, hu⟩, hr⟩ := sampleRun_checked freeingRun (freesUnshared · · = true)
    (fun s => (s.shmTable 0).refcount = 1 ∧ (s.proc 1).state = .unused)
    (by set_option maxRecDepth 100000 in decide +kernel)
  refine ⟨s, hs, hc, hu, @reachable_noUseAfterFree sampleLink s (hr.mono fun _ _ h => ?_)⟩
  exact @safe_of_freesUnshared sampleLink _ _ h

/-- The first process forks and waits; the child opens a region of one page and exits
without closing it. When the parent's `wait` goes on it frees the child's memory,
the region's page with it, and the region still lists the page. -/
theorem wait_frees_listed_page : ∃ s,
    Reach (@next sampleLink) Free (@Booted sampleLink) s ∧
      sampleRun [.fork 0, .wait 0 0, .dispatch 1, .shmOpen 1 7 4096, .exit 1 0, .dispatch 0,
        .wait 0 0] = some s ∧
      (s.shmTable 0).key = 7 ∧ (s.shmTable 0).npages = 1 ∧ (s.shmTable 0).pages 0 ∈ s.kmem ∧
      ¬ NoUseAfterFree s := by
  obtain ⟨s, hs, hk, hn, hp⟩ := sampleRun_exists
    [.fork 0, .wait 0 0, .dispatch 1, .shmOpen 1 7 4096, .exit 1 0, .dispatch 0,
      .wait 0 0]
    (fun s => (s.shmTable 0).key = 7 ∧ (s.shmTable 0).npages = 1 ∧
      (s.shmTable 0).pages 0 ∈ s.kmem.take 10)
    (by set_option maxRecDepth 100000 in decide +kernel)
  have hmem : (s.shmTable 0).pages 0 ∈ s.kmem := List.mem_of_mem_take hp
  refine ⟨s, sampleRun_reach (fun _ _ _ => trivial) hs, hs, hk, hn, hmem, fun hno => ?_⟩
  exact hno.unlisted _ hmem 0 (by rw [hk]; decide) 0 (by rw [hn]; decide) rfl

end G9OS.Kernel
