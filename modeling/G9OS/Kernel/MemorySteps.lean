import G9OS.Kernel.Memory
import G9OS.Kernel.Bookkeeping

/-! # Steps keep every page in one place

For each effect of a step: the counts of `mass` do not change, and the memory of
every slot stays in order. Three effects need an assumption, namely that the
address space (or part of one) they free shows no page of a region in use.
-/

namespace G9OS.Kernel

open Lib

variable {pslot : Fin PROC_SHM_SLOTS} {r : Fin SHM_SLOTS} {key : Int} {m : Kmem} {tf : PA}
  {pt pt' : PageTable} {a : ShmAttach}

variable [Link] {s t : State} {p : Fin NPROC}

/-! ## Counting -/

omit [Link] in
theorem mass_of_slot (hothers : ∀ i, i ≠ p → t.proc i = s.proc i) (hreg : t.shmTable = s.shmTable)
    (h : ∀ q, t.kmem.count q + (t.proc p).space.weight q =
      s.kmem.count q + (s.proc p).space.weight q) (q : PA) : mass t q = mass s q := by
  have hproc : t.proc = Function.update s.proc p (t.proc p) := by
    funext i
    by_cases hi : i = p
    · subst hi; rw [Function.update_self]
    · rw [Function.update_of_ne hi, hothers i hi]
  have hsum := sum_update_weight s.proc p (t.proc p) (fun x => x.space.weight q)
  rw [← hproc] at hsum
  have hq := h q
  rw [mass_def, mass_def, hreg]
  omega

omit [Link] in
theorem mass_of_region (hproc : t.proc = s.proc)
    (hothers : ∀ r', r' ≠ r → t.shmTable r' = s.shmTable r')
    (h : ∀ q, t.kmem.count q + (t.shmTable r).weight q = s.kmem.count q + (s.shmTable r).weight q)
    (q : PA) : mass t q = mass s q := by
  have hreg : t.shmTable = Function.update s.shmTable r (t.shmTable r) := by
    funext r'
    by_cases hr : r' = r
    · subst hr; rw [Function.update_self]
    · rw [Function.update_of_ne hr, hothers r' hr]
  have hsum := sum_update_weight s.shmTable r (t.shmTable r) (fun x => x.weight q)
  rw [← hreg] at hsum
  have hq := h q
  rw [mass_def, mass_def, hproc]
  omega

omit [Link] in
theorem Quiet.mass (h : Quiet s t) (q : PA) : mass t q = mass s q := by
  have h1 : ∀ i, (t.proc i).space.weight q = (s.proc i).space.weight q := fun i => by
    rw [h.space i]
  have h2 : ∀ r, (t.shmTable r).weight q = (s.shmTable r).weight q := fun r => by
    rcases h.regions r with hr | ⟨hs, ht⟩
    · rw [hr]
    · unfold ShmRegion.weight
      rw [if_pos hs, if_pos ht]
  rw [mass_def, mass_def, h.pages q, Finset.sum_congr rfl fun i _ => h1 i,
    Finset.sum_congr rfl fun r _ => h2 r]

theorem Good.next (h : Good s) (htidy : Tidy t) (hshm : t.ShmOk) (hmass : ∀ q, mass t q = mass s q)
    (hspaces : ∀ p, SpaceOk t.shmTable (t.proc p).space) : Good t :=
  ⟨htidy, hshm, fun q => hmass q ▸ h.once q, fun q hq => h.usable q (hmass q ▸ hq), hspaces⟩

theorem SpaceOk.table {table table' : Regions} {x : Space} (h : SpaceOk table x)
    (ht : ∀ i r, (x.shm i).key ≠ 0 → (table' r).key = (x.shm i).key →
      (table r).key = (x.shm i).key ∧ (table' r).pages = (table r).pages) : SpaceOk table' x := by
  cases h with
  | empty h1 h2 h3 => exact .empty h1 h2 h3
  | full h1 h2 h3 h4 =>
      refine .full h1 h2 h3 fun i r hk hr j hj => ?_
      obtain ⟨hr', hp⟩ := ht i r hk hr
      rw [hp]
      exact h4 i r hk hr' j hj

theorem Good.quiet (h : Good s) (htidy : Tidy t) (hshm : t.ShmOk) (hq : Quiet s t) : Good t := by
  refine h.next htidy hshm hq.mass fun p => ?_
  rw [hq.space p]
  refine (h.spaces p).table fun i r hk hr => ?_
  rcases hq.regions r with he | ⟨-, hz⟩
  · rw [he] at hr
    exact ⟨hr, by rw [he]⟩
  · rw [hz] at hr
    exact absurd hr.symm hk

/-! ## Growing -/

omit [Link] in
theorem AttachMapped.extends {table : Regions} {m' : Kmem} {R : Finset Nat}
    (h : AttachMapped table pt a) (he : Extends pt m R pt' m') :
    AttachMapped table pt' a := by
  intro r hk hr j hj
  have hl := h r hk hr j hj
  rw [he.outside _ fun hR => ?_, hl]
  rw [he.vacant _ hR] at hl
  cases hl

/-- One process has another page table now, and only the free list has changed
besides. -/
theorem Good.slot (h : Good s) (htidy : Tidy t) (hshm : t.ShmOk)
    (hothers : ∀ i, i ≠ p → t.proc i = s.proc i) (hreg : t.shmTable = s.shmTable)
    {own own' : PageTable} (hown : (s.proc p).pagetable = some own)
    (htf : (s.proc p).trapframe = some tf) (hown' : (t.proc p).pagetable = some own')
    (htf' : (t.proc p).trapframe = some tf)
    (hcount : ∀ q, t.kmem.count q + own'.held (foreign (t.proc p).shm) q =
      s.kmem.count q + own.held (foreign (s.proc p).shm) q)
    (hut : UserTable tf own') (hmap : ∀ k, AttachMapped s.shmTable own' ((t.proc p).shm k)) :
    Good t := by
  refine h.next htidy hshm (mass_of_slot hothers hreg fun q => ?_) fun i => ?_
  · have hw := Proc.weight_full hown htf rfl q
    have hw' := Proc.weight_full hown' htf' rfl q
    have hq := hcount q
    omega
  · rw [hreg]
    by_cases hi : i = p
    · subst hi
      exact .full hown' htf' hut hmap
    · rw [hothers i hi]
      exact h.spaces i

theorem Good.grows (h : Good s) (htidy : Tidy t) (hshm : t.ShmOk) (hg : Grows s p t) : Good t := by
  obtain ⟨own, own', R, h1, h2, he⟩ := hg.extended
  obtain ⟨tf, htf, hu, hmap⟩ := h.full h1
  refine h.slot htidy hshm hg.others hg.regions h1 htf h2 (hg.trapframe.trans htf) (fun q => ?_)
    (he.userTable hu) fun k => ?_
  · rw [hg.shm]
    exact he.held (fun v hv hf => h.foreign_mapped h1 hf (he.vacant v hv)) q
  · rw [hg.shm]
    exact (hmap k).extends he

/-! ## Processes that cover nothing -/

def Bare (p : Proc) : Prop := ∀ i, (p.shm i).npages ≤ 0

theorem Good.foreign_bare (h : Good s) (hb : Bare (s.proc p)) :
    foreign (s.proc p).shm = reserved := by
  have hempty : covered (s.proc p).shm = ∅ := by
    refine Finset.eq_empty_of_forall_notMem fun v hv => ?_
    obtain ⟨i, hi⟩ := mem_covered.1 hv
    rw [h.range_eq, Int.toNat_of_nonpos (hb i), Finset.mem_Ico] at hi
    omega
  rw [foreign, hempty, Finset.union_empty]

theorem Good.bare_of_none (h : Good s) (hpt : (s.proc p).pagetable = none) : Bare (s.proc p) := by
  cases h.spaces p with
  | empty _ _ hb => exact hb
  | full hsome _ _ _ => rw [show (s.proc p).pagetable = some _ from hsome] at hpt; cases hpt

omit [Link] in
theorem AttachMapped.of_nonpos {table : Regions} (h : a.npages ≤ 0) : AttachMapped table pt a := by
  intro r _ _ j hj
  rw [Int.toNat_of_nonpos h] at hj
  omega

/-- No page of a region in use shows at the pages `D` of process `p`. -/
def Unshared (s : State) (p : Fin NPROC) (D : Finset Nat) : Prop :=
  ∀ pt, (s.proc p).pagetable = some pt → ∀ v ∈ D, ∀ r j, (s.shmTable r).key ≠ 0 →
    j < (s.shmTable r).npages.toNat → pt.mapped v ≠ some ((s.shmTable r).pages j)

def userPages (sz : Nat) : Finset Nat := Finset.range (pgroundup sz / PGSIZE)

/-- An address space that shows no region page below its size and nothing above
has no attachments to speak of. -/
theorem Good.bare (h : Good s) {sz : Nat} (hpt : (s.proc p).pagetable = some pt)
    (hu : Unshared s p (userPages sz))
    (habove : ∀ v, pgroundup sz / PGSIZE ≤ v → v ∉ reserved → pt.leaf v = none) :
    Bare (s.proc p) := by
  intro i
  by_contra hpos
  have hv : ((s.proc p).shm i).uva / PGSIZE ∈ ((s.proc p).shm i).range := by
    rw [h.range_eq, Finset.mem_Ico]
    omega
  obtain ⟨r, j, -, hk, hj, -, hl⟩ := h.covered_mapped hpt hv
  by_cases hlt : ((s.proc p).shm i).uva / PGSIZE < pgroundup sz / PGSIZE
  · exact hu pt hpt _ (Finset.mem_range.2 hlt) r j hk hj (Node.mapped_of_leaf hl)
  · rw [habove _ (by omega) (lt_trapframe_not_reserved ((h.shm.attachOk p i).range_lt hv))] at hl
    cases hl

/-! ## Fork, reaping and exec -/

theorem Good.spawned (h : Good s) (htidy : Tidy t) (hshm : t.ShmOk) {i : Fin NPROC}
    (hnone : (s.proc i).pagetable = none) (hnotf : (s.proc i).trapframe = none)
    (hothers : ∀ j, j ≠ i → t.proc j = s.proc j) (hreg : t.shmTable = s.shmTable)
    (hpt : (t.proc i).pagetable = some pt) (htf : (t.proc i).trapframe = some tf)
    (hshm' : (t.proc i).shm = (s.proc i).shm) (hut : UserTable tf pt)
    (hc : ∀ q, t.kmem.count q + hit tf q + pt.held reserved q = s.kmem.count q) : Good t := by
  have hbare := h.bare_of_none hnone
  refine h.next htidy hshm (mass_of_slot hothers hreg fun q => ?_) fun j => ?_
  · have hw := Proc.weight_empty hnone hnotf q
    have hw' := Proc.weight_full hpt htf (by rw [hshm', h.foreign_bare hbare]) q
    have hq := hc q
    omega
  · rw [hreg]
    by_cases hj : j = i
    · subst hj
      refine .full hpt htf hut fun k => AttachMapped.of_nonpos ?_
      rw [show (t.proc j).space.shm = (s.proc j).shm from hshm']
      exact hbare k
    · rw [hothers j hj]
      exact h.spaces j

theorem Good.forked (h : Good s) (htidy : Tidy t) (hshm : t.ShmOk) (hf : Forked s p t) :
    Good t := by
  obtain ⟨i, tf, pt, m, hu, hut, hc, ht⟩ := hf
  have hun := unusedSlot_unused hu
  have hself : t.proc i = childOf p (s.proc p) (outfitted s tf pt (s.proc i)) := by
    rw [ht, modProc_self, bump_proc]
  refine h.spawned htidy hshm ((h.tidy i).noPagetable hun) ((h.tidy i).noTrapframe hun)
    (fun j hj => by rw [ht, modProc_of_ne _ _ _ hj, bump_proc]) (by rw [ht]; rfl)
    (by rw [hself]; rfl) (by rw [hself]; rfl) (by rw [hself]; rfl) hut fun q => ?_
  rw [← hc q, ht, modProc_kmem, bump_kmem]

theorem Good.freeproc (h : Good s) (htidy : Tidy t) (hshm : t.ShmOk) {c : Fin NPROC}
    (hu : Unshared s c (userPages (s.proc c).sz)) (hf : freeproc s c = .ok t) : Good t := by
  obtain ⟨m, rfl, hc, habove⟩ := freeproc_spec (h.tidy c).sz_le hf
  have hbare : Bare (s.proc c) := by
    cases hpt : (s.proc c).pagetable with
    | none => exact h.bare_of_none hpt
    | some pt => exact h.bare hpt hu (habove pt hpt)
  refine h.next htidy hshm
    (mass_of_slot (p := c) (fun j hj => modProc_of_ne _ _ _ hj) rfl fun q => ?_) fun j => ?_
  · have hw : (s.proc c).space.weight q =
        hitOpt (s.proc c).trapframe q + heldOpt reserved (s.proc c).pagetable q := by
      rw [Space.weight_def, ← h.foreign_bare hbare]
      rfl
    have hw' := Proc.weight_empty (x := clearSlot (s.proc c)) rfl rfl q
    have hq := hc q
    rw [modProc_self, setKmem_proc, hw', hw, modProc_kmem, setKmem_kmem]
    omega
  · by_cases hj : j = c
    · subst hj
      rw [modProc_self]
      exact .empty rfl rfl hbare
    · rw [modProc_of_ne _ _ _ hj]
      exact h.spaces j

theorem Good.replaced (h : Good s) (htidy : Tidy t) (hshm : t.ShmOk) {own own' pt : PageTable}
    {tf : PA} {R : Finset Nat} {sz : Nat} {name : String} {m1 m' m : Kmem}
    (hu : Unshared s p (userPages (s.proc p).sz)) (hown : (s.proc p).pagetable = some own)
    (htf : (s.proc p).trapframe = some tf) (he : Extends own m1 R own' m')
    (hi : Image tf (fun q => s.kmem.count q) pt m1)
    (hf : procFreepagetable own' (s.proc p).sz m' = .ok m)
    (ht : t = (s.setSpace p pt m).modProc p fun q => { q with sz := sz, name := name }) :
    Good t := by
  obtain ⟨tf', htf', hut, -⟩ := h.full hown
  rw [htf] at htf'
  cases htf'
  obtain ⟨habove', hc⟩ := procFreepagetable_spec (h.tidy p).sz_le hf
  have habove : ∀ v, pgroundup (s.proc p).sz / PGSIZE ≤ v → v ∉ reserved → own.leaf v = none := by
    intro v hv hr
    have hv' := habove' v hv hr
    by_cases hR : v ∈ R
    · exact he.vacant v hR
    · rwa [he.outside v hR] at hv'
  have hbare := h.bare hown hu habove
  have hproc : t.proc p = { { s.proc p with pagetable := some pt } with sz := sz, name := name } := by
    rw [ht, modProc_self, setSpace_self]
  have hshm' : (t.proc p).shm = (s.proc p).shm := by rw [hproc]
  refine h.slot htidy hshm (fun j hj => by rw [ht, setSpace_modProc_of_ne _ _ _ _ _ hj])
    (by rw [ht]; rfl) hown htf (by rw [hproc]) (by rw [hproc]; exact htf) (fun q => ?_) hi.user
    fun k => ?_
  · have h1 := hc q
    have h2 := he.held_reserved hut q
    have h3 := hi.pages q
    have hkm : t.kmem = m := by rw [ht]; rfl
    rw [hshm', h.foreign_bare hbare, hkm]
    omega
  · rw [hshm']
    exact AttachMapped.of_nonpos (hbare k)

/-! ## Unmapping -/

omit [Link] in
theorem held_cut {S D : Finset Nat} (hD : ∀ v ∈ D, v ∉ S) (hsub : D ⊆ vpns)
    (hl : pt'.leaf = cut pt.leaf D) (ht : ∀ q, pt'.tables q = pt.tables q) (q : PA) :
    pt'.held S q + occ D pt.mapped q = pt.held S q := by
  have hsplit := occ_cut_add vpns D (cut pt.mapped S) q
  have hin : occ (vpns ∩ D) (cut pt.mapped S) q = occ D pt.mapped q := by
    rw [Finset.inter_eq_right.2 hsub]
    exact occ_congr (fun v hv => by simp [cut, hD v hv]) q
  rw [hin, cut_cut, Finset.union_comm, ← cut_cut, ← Node.mapped_cut hl] at hsplit
  rw [Node.held, Node.held, ht q]
  omega

theorem Good.shrunk (h : Good s) (htidy : Tidy t) (hshm : t.ShmOk) {n : Int}
    (hu : Unshared s p (deallocRange (s.proc p).sz (addU64 (s.proc p).sz (toU64 n))))
    (hsh : Shrinks s p n t) : Good t := by
  obtain ⟨own, own', m, hown, hl, htab, hc, ht⟩ := hsh
  obtain ⟨tf, htf, hut, hmap⟩ := h.full hown
  have hres : ∀ v ∈ deallocRange (s.proc p).sz (addU64 (s.proc p).sz (toU64 n)), v ∉ reserved :=
    fun v hv => lt_trapframe_not_reserved (deallocRange_lt (h.tidy p).sz_le hv)
  have hcov : ∀ v ∈ deallocRange (s.proc p).sz (addU64 (s.proc p).sz (toU64 n)),
      ∀ i, v ∉ ((s.proc p).shm i).range := by
    intro v hv i hi
    obtain ⟨r, j, -, hk, hj, -, hleaf⟩ := h.covered_mapped hown hi
    exact hu own hown v hv r j hk hj (Node.mapped_of_leaf hleaf)
  have hfor : ∀ v ∈ deallocRange (s.proc p).sz (addU64 (s.proc p).sz (toU64 n)),
      v ∉ foreign (s.proc p).shm := by
    intro v hv hf
    rcases Finset.mem_union.1 hf with hf | hf
    · exact hres v hv hf
    · obtain ⟨i, hi⟩ := mem_covered.1 hf
      exact hcov v hv i hi
  have hsub : deallocRange (s.proc p).sz (addU64 (s.proc p).sz (toU64 n)) ⊆ vpns := fun v hv =>
    Finset.mem_range.2 (lt_trans (deallocRange_lt (h.tidy p).sz_le hv) (by norm_num))
  have hkeep : ∀ v, v ∉ deallocRange (s.proc p).sz (addU64 (s.proc p).sz (toU64 n)) →
      own'.leaf v = own.leaf v := fun v hv => by rw [hl]; simp [cut, hv]
  have hut' : UserTable tf own' := by
    refine ⟨?_, ?_⟩
    · rw [Node.mapped, hkeep _ fun hv => hres _ hv (by simp)]
      exact hut.trampoline
    · rw [Node.mapped, hkeep _ fun hv => hres _ hv (by simp)]
      exact hut.trapframe
  have hproc : t.proc p = { { s.proc p with pagetable := some own' } with
      sz := min (s.proc p).sz (addU64 (s.proc p).sz (toU64 n)) } := by
    rw [ht, modProc_self, setSpace_self]
  have hshm' : (t.proc p).shm = (s.proc p).shm := by rw [hproc]
  refine h.slot htidy hshm (fun j hj => by rw [ht, setSpace_modProc_of_ne _ _ _ _ _ hj])
    (by rw [ht]; rfl) hown htf (by rw [hproc]) (by rw [hproc]; exact htf) (fun q => ?_) hut'
    fun k r hk hr i hi => ?_
  · have h1 := held_cut hfor hsub hl htab q
    have h2 := hc q
    have hkm : t.kmem = m := by rw [ht]; rfl
    rw [hshm', hkm]
    omega
  · rw [hshm'] at hk hr hi ⊢
    rw [hkeep _ fun hv => hcov _ hv k ?_]
    · exact hmap k r hk hr i hi
    · rw [h.range_eq, Finset.mem_Ico]
      exact ⟨Nat.le_add_right _ _, Nat.add_lt_add_left hi _⟩

/-! ## Regions -/

theorem Good.unmade (h : Good s) (htidy : Tidy t) (hshm : t.ShmOk) {size : Int}
    (hm : Made s key size none t) : Good t := by
  cases hm with
  | full => exact h
  | @failed r pages m hno hr hc =>
      refine h.quiet htidy hshm ⟨fun _ => rfl, hc, fun r' => ?_⟩
      by_cases hrr : r' = r
      · subst hrr
        refine .inr ⟨regionSlot_some hr, ?_⟩
        rw [setRegion_self]
      · exact .inl (setRegion_of_ne _ _ hrr)

theorem Good.made (h : Good s) (hshm : t.ShmOk) {size : Int} (hk : 0 < key)
    (hm : Made s key size (some r) t) : Good t := by
  have htidy : Tidy t := fun i => by rw [hm.proc]; exact h.tidy i
  cases hm with
  | found => exact h
  | @created r pages m hno hr hc =>
      have hfree : (s.shmTable r).key = 0 := regionSlot_some hr
      refine h.next htidy hshm
        (mass_of_region (r := r) rfl (fun r' hr' => setRegion_of_ne _ _ hr') fun q => ?_) fun p => ?_
      · have hq := hc q
        rw [setRegion_self, ShmRegion.weight, ShmRegion.weight, if_pos hfree, if_neg hk.ne',
          setRegion_kmem, setKmem_kmem]
        omega
      · refine (h.spaces p).table fun i r' hi hr' => ?_
        have hrr : r' ≠ r := by
          rintro rfl
          rw [setRegion_self] at hr'
          obtain ⟨r0, h0, -⟩ := h.shm.attachRegion p i hi
          exact regionSlot_none hno r0 (h0.trans hr'.symm)
        rw [setRegion_of_ne _ _ hrr] at hr' ⊢
        exact ⟨hr', rfl⟩

omit [Link] in
theorem mem_foreign_update {shm : Fin PROC_SHM_SLOTS → ShmAttach} {i : Fin PROC_SHM_SLOTS}
    {v : Nat} : v ∈ foreign (Function.update shm i a) ↔
      v ∈ a.range ∨ v ∈ reserved ∨ ∃ k, k ≠ i ∧ v ∈ (shm k).range := by
  rw [foreign, Finset.mem_union, mem_covered]
  constructor
  · rintro (hv | ⟨k, hk⟩)
    · exact .inr (.inl hv)
    · by_cases hki : k = i
      · subst hki
        rw [Function.update_self] at hk
        exact .inl hk
      · rw [Function.update_of_ne hki] at hk
        exact .inr (.inr ⟨k, hki, hk⟩)
  · rintro (hv | hv | ⟨k, hki, hk⟩)
    · exact .inr ⟨i, by rwa [Function.update_self]⟩
    · exact .inl hv
    · exact .inr ⟨k, by rwa [Function.update_of_ne hki]⟩

omit [Link] in
theorem range_empty : ShmAttach.range {} = ∅ := by
  unfold ShmAttach.range
  rw [unmapRange_eq (by decide)]
  rfl

omit [Link] in
/-- Adding an attachment to, or taking it from, the slot `i`, whose pages are
mapped on one side only, moves nothing that the process holds. -/
theorem held_update (shm : Fin PROC_SHM_SLOTS → ShmAttach) (i : Fin PROC_SHM_SLOTS) (a : ShmAttach)
    (pt pt' : PageTable) (q : PA)
    (hout : ∀ v, v ∉ a.range → v ∉ (shm i).range → pt'.leaf v = pt.leaf v)
    (hnew : ∀ v ∈ a.range, v ∉ (shm i).range → pt.leaf v = none)
    (hold : ∀ v ∈ (shm i).range, v ∉ a.range → pt'.leaf v = none) :
    occ vpns (cut pt'.mapped (foreign (Function.update shm i a))) q =
      occ vpns (cut pt.mapped (foreign shm)) q := by
  have hself : foreign shm = foreign (Function.update shm i (shm i)) := by
    rw [Function.update_eq_self]
  rw [hself]
  refine occ_congr (fun v _ => ?_) q
  unfold cut
  by_cases ha : v ∈ a.range <;> by_cases hi : v ∈ (shm i).range
  · simp only [mem_foreign_update, ha, hi, true_or, if_true]
  · simp only [mem_foreign_update, ha, hi, true_or, false_or, if_true, Node.mapped, hnew v ha hi,
      Option.map_none, ite_self]
  · simp only [mem_foreign_update, ha, hi, true_or, false_or, if_true, Node.mapped, hold v hi ha,
      Option.map_none, ite_self]
  · simp only [mem_foreign_update, ha, hi, false_or, Node.mapped, hout v ha hi]

omit [Link] in
/-- The same for all that is counted, with the page tables and the free list in balance. -/
theorem mass_of_attach (hothers : ∀ i, i ≠ p → t.proc i = s.proc i) (hreg : t.shmTable = s.shmTable)
    (hpt : (s.proc p).pagetable = some pt) (htf : (s.proc p).trapframe = some tf)
    (hpt' : (t.proc p).pagetable = some pt') (htf' : (t.proc p).trapframe = some tf)
    (hshm : (t.proc p).shm = Function.update (s.proc p).shm pslot a)
    (hout : ∀ v, v ∉ a.range → v ∉ ((s.proc p).shm pslot).range → pt'.leaf v = pt.leaf v)
    (hnew : ∀ v ∈ a.range, v ∉ ((s.proc p).shm pslot).range → pt.leaf v = none)
    (hold : ∀ v ∈ ((s.proc p).shm pslot).range, v ∉ a.range → pt'.leaf v = none)
    (hpages : ∀ q, t.kmem.count q + pt'.tables q = s.kmem.count q + pt.tables q) (q : PA) :
    mass t q = mass s q := by
  refine mass_of_slot (p := p) hothers hreg (fun q => ?_) q
  have hw := Proc.weight_full hpt htf rfl q
  have hw' := Proc.weight_full hpt' htf' (congrArg foreign hshm) q
  have hocc := held_update (s.proc p).shm pslot a pt pt' q hout hnew hold
  have hq := hpages q
  rw [Node.held] at hw hw'
  omega

/-! ## Attaching and detaching -/

theorem Good.attached (h : Good s) (hr : (s.shmTable r).key = key) (hk : 0 < key)
    (ha : Attaches s p r key pslot pt pt' m) (htidy : Tidy (attachedState s p r key pslot pt' m))
    (hshm : (attachedState s p r key pslot pt' m).ShmOk) :
    Good (attachedState s p r key pslot pt' m) := by
  obtain ⟨tf, htf, hut, hmap⟩ := h.full ha.pagetable
  have hbound := h.shm.bounded r (by omega)
  set a : ShmAttach := ⟨key, pgroundup (s.proc p).sz, (s.shmTable r).npages⟩ with hadef
  have hrange : a.range = pageRange (pgroundup (s.proc p).sz) (s.shmTable r).npages.toNat :=
    (ha.attachOk h.tidy).range_eq hbound.1 hbound.2
  have hold : ((s.proc p).shm pslot).range = ∅ := by
    have hz : (s.proc p).shm pslot = {} := h.shm.attachClear p pslot (attachSlot_some ha.slot)
    rw [hz, range_empty]
  have hself := attachedState_self s p r key pslot pt' m
  have hothers := attachedState_others s p r key pslot pt' m
  have hshm' : ((attachedState s p r key pslot pt' m).proc p).shm =
      Function.update (s.proc p).shm pslot a := by rw [hself]
  have hkeep : ∀ v e, pt.leaf v = some e → pt'.leaf v = some e := by
    intro v e hl
    rw [ha.maps.outside v fun hv => ?_, hl]
    rw [ha.maps.vacant v hv] at hl
    cases hl
  -- the region table is the old one up to a reference count
  have hfields := setRefcount_fields s.shmTable r (int32 ((s.shmTable r).refcount + 1))
  have hcount : ∀ q, mass (attachedState s p r key pslot pt' m) q = mass s q := by
    set s1 := (s.setSpace p pt' m).modProc p fun q =>
      { q with
        sz := addU64 (pgroundup (s.proc p).sz) (mapBytes (s.shmTable r).npages)
        shm := Function.update q.shm pslot a } with hs1
    have h1 : ∀ q, mass s1 q = mass s q := by
      have hpt1 : (s1.proc p).pagetable = some pt' := by rw [hs1, modProc_self, setSpace_self]
      have htf1 : (s1.proc p).trapframe = some tf := by
        rw [hs1, modProc_self, setSpace_self]
        exact htf
      exact mass_of_attach hothers rfl ha.pagetable htf hpt1 htf1 hshm'
        (fun v hv _ => ha.maps.outside v (by rwa [← hrange]))
        (fun v hv _ => ha.maps.vacant v (by rwa [← hrange]))
        (fun v hv _ => by rw [hold] at hv; exact absurd hv (Finset.notMem_empty v))
        ha.maps.pages
    intro q
    have ht : attachedState s p r key pslot pt' m =
        s1.setRegion r ((s.shmTable r).setRefcount (int32 ((s.shmTable r).refcount + 1))) := rfl
    rw [← h1 q, ht]
    refine mass_of_region (s := s1) (t := s1.setRegion r _) (r := r) rfl
      (fun r' hr' => setRegion_of_ne _ _ hr') (fun q => ?_) q
    rw [setRegion_self, setRegion_kmem]
    rfl
  refine h.next htidy hshm hcount fun i => ?_
  have htable : ∀ {x : Space}, SpaceOk s.shmTable x →
      SpaceOk (attachedState s p r key pslot pt' m).shmTable x := by
    intro x hx
    refine hx.table fun k r' _ hr' => ?_
    have h1 := (hfields r').1
    have h2 := (hfields r').2.2
    exact ⟨h1.symm.trans hr', h2⟩
  by_cases hi : i = p
  · subst hi
    refine htable (.full (congrArg Proc.pagetable hself) ((congrArg Proc.trapframe hself).trans htf)
      ⟨?_, ?_⟩ fun k => ?_)
    · obtain ⟨e, he, hpa⟩ := Option.map_eq_some_iff.1 hut.trampoline
      rw [Node.mapped, hkeep _ e he, Option.map_some, hpa]
    · obtain ⟨e, he, hpa⟩ := Option.map_eq_some_iff.1 hut.trapframe
      rw [Node.mapped, hkeep _ e he, Option.map_some, hpa]
    · have hslot : ((attachedState s i r key pslot pt' m).proc i).space.shm k =
          Function.update (s.proc i).shm pslot a k := congrFun hshm' k
      rw [hslot]
      by_cases hkp : k = pslot
      · subst hkp
        rw [Function.update_self]
        intro r' _ hr' j hj
        obtain rfl : r = r' := h.shm.regionUnique r r' (by omega) (hr.trans hr'.symm)
        exact ha.maps.mapped j hj
      · rw [Function.update_of_ne hkp]
        exact fun r' hk' hr' j hj => hkeep _ _ (hmap k r' hk' hr' j hj)
  · rw [hothers i hi]
    exact htable (h.spaces i)

theorem Good.ranges_disjoint (h : Good s) (hpt : (s.proc p).pagetable = some pt)
    {i k : Fin PROC_SHM_SLOTS} {v : Nat} (hi : v ∈ ((s.proc p).shm i).range)
    (hk : v ∈ ((s.proc p).shm k).range) : i = k := by
  obtain ⟨r, j, h1, h2, h3, -, h4⟩ := h.covered_mapped hpt hi
  obtain ⟨r', j', h1', h2', h3', -, h4'⟩ := h.covered_mapped hpt hk
  rw [h4] at h4'
  have he : (s.shmTable r).pages j = (s.shmTable r').pages j' :=
    congrArg Pte.pa (Option.some.inj h4')
  obtain ⟨rfl, -⟩ := h.region_inj h2 h2' h3 h3' he
  exact h.shm.attachUnique p i k (h1 ▸ h2) (h1.symm.trans h1')

theorem Good.closed (h : Good s) (hd : Detaches s p key pslot r pt pt' m)
    (hrel : shmRelease (detachedState s p pslot pt' m) r = .ok t) (htidy : Tidy t)
    (hshm : t.ShmOk) : Good t := by
  obtain ⟨tf, htf, hut, hmap⟩ := h.full hd.pagetable
  have hproc := shmRelease_proc hrel
  set s1 := detachedState s p pslot pt' m with hs1
  have hkeep : ∀ v, v ∉ ((s.proc p).shm pslot).range → pt'.leaf v = pt.leaf v := fun v hv => by
    rw [hd.leaf]
    exact if_neg hv
  have hself : s1.proc p = dropAttach pslot { s.proc p with pagetable := some pt' } := by
    rw [hs1, detachedState, modProc_self, setSpace_self]
  have hothers : ∀ i, i ≠ p → s1.proc i = s.proc i := fun i hi =>
    setSpace_modProc_of_ne _ _ _ _ _ hi
  have hshm' : (s1.proc p).shm = Function.update (s.proc p).shm pslot {} := by rw [hself]; rfl
  have h1 : ∀ q, mass s1 q = mass s q := by
    have hpt1 : (s1.proc p).pagetable = some pt' := by
      rw [hself]
      rfl
    have htf1 : (s1.proc p).trapframe = some tf := by
      rw [hself]
      exact htf
    exact mass_of_attach hothers rfl hd.pagetable htf hpt1 htf1 hshm' (fun v _ hv => hkeep v hv)
      (fun v hv _ => by rw [range_empty] at hv; exact absurd hv (Finset.notMem_empty v))
      (fun v hv _ => by rw [hd.leaf]; exact if_pos hv)
      fun q => congrArg₂ (· + ·) (hd.pages q) (hd.tables q)
  have hkey : (s.shmTable r).key ≠ 0 := by
    rw [regionSlot_some hd.region]
    exact hd.pos.ne'
  -- giving up the reference keeps the counts, and other regions are left alone
  have hrest : (∀ q, mass t q = mass s1 q) ∧
      ∀ r', (t.shmTable r').key ≠ 0 → (t.shmTable r').key = (s.shmTable r').key ∧
        (t.shmTable r').pages = (s.shmTable r').pages := by
    have hf := setRefcount_fields s.shmTable r (int32 ((s.shmTable r).refcount - 1))
    rcases shmRelease_cases hrel with ⟨-, rfl⟩ | ⟨-, m', hc, rfl⟩
    · refine ⟨mass_of_region (r := r) rfl (fun r' hr' => setRegion_of_ne _ _ hr') fun q => ?_,
        fun r' _ => ⟨(hf r').1, (hf r').2.2⟩⟩
      rw [setRegion_self, setRegion_kmem]
      rfl
    · refine ⟨mass_of_region (r := r) rfl (fun r' hr' => setRegion_of_ne _ _ hr') fun q => ?_,
        fun r' hr' => ?_⟩
      · have hq := hc q
        have hk1 : (s1.shmTable r).key ≠ 0 := hkey
        rw [setRegion_self, setRegion_kmem, setKmem_kmem, ShmRegion.weight, if_pos rfl,
          ShmRegion.weight, if_neg hk1]
        omega
      · by_cases hrr : r' = r
        · subst hrr
          rw [setRegion_self] at hr'
          exact absurd rfl hr'
        · rw [setRegion_of_ne _ _ hrr]
          exact ⟨rfl, rfl⟩
  refine h.next htidy hshm (fun q => (hrest.1 q).trans (h1 q)) fun i => ?_
  have htable : ∀ {x : Space}, SpaceOk s.shmTable x → SpaceOk t.shmTable x := fun hx =>
    hx.table fun k r' hk hr' => by
      obtain ⟨h2, h3⟩ := hrest.2 r' (by rw [hr']; exact hk)
      exact ⟨h2.symm.trans hr', h3⟩
  rw [hproc]
  by_cases hi : i = p
  · subst hi
    have hres : ∀ v ∈ reserved, v ∉ ((s.proc i).shm pslot).range := fun v hv hr =>
      lt_trapframe_not_reserved ((h.shm.attachOk i pslot).range_lt hr) hv
    refine htable (.full (congrArg Proc.pagetable hself) ((congrArg Proc.trapframe hself).trans htf)
      ⟨?_, ?_⟩ fun k => ?_)
    · rw [Node.mapped, hkeep _ (hres _ (by simp))]
      exact hut.trampoline
    · rw [Node.mapped, hkeep _ (hres _ (by simp))]
      exact hut.trapframe
    · have hslot : (s1.proc i).space.shm k = Function.update (s.proc i).shm pslot {} k :=
        congrFun hshm' k
      rw [hslot]
      by_cases hkp : k = pslot
      · subst hkp
        rw [Function.update_self]
        exact AttachMapped.of_nonpos le_rfl
      · rw [Function.update_of_ne hkp]
        intro r' hk' hr' j hj
        rw [hkeep _ fun hv => hkp (h.ranges_disjoint hd.pagetable ?_ hv)]
        · exact hmap k r' hk' hr' j hj
        · rw [h.range_eq, Finset.mem_Ico]
          exact ⟨Nat.le_add_right _ _, Nat.add_lt_add_left hj _⟩
  · rw [hothers i hi]
    exact htable (h.spaces i)

end G9OS.Kernel
