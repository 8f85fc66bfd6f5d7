import G9OS.Kernel.Sharing
import G9OS.Kernel.Vacancy

/-! # Address spaces end at their size

Each process has nothing mapped above its size, the trampoline and the trapframe apart,
and so the kernel never maps a page twice and never tears down a page table with a leaf
left. This holds as long as no size given to `shm_open` overflows.
-/

namespace G9OS.Kernel

open Lib

/-- No process has anything mapped above its size. -/
def Contained (s : State) : Prop :=
  ∀ p pt, (s.proc p).pagetable = some pt → Vacant pt (sizePages (s.proc p).sz)

section
variable {s t : State} {p : Fin NPROC}

theorem Contained.same (h : Contained s) (hpt : ∀ q, (t.proc q).pagetable = (s.proc q).pagetable)
    (hsz : ∀ q, (t.proc q).sz = (s.proc q).sz) : Contained t := by
  intro q pt hq
  rw [hpt] at hq
  rw [hsz]
  exact h q pt hq

theorem Contained.replace (h : Contained s) (hothers : ∀ q, q ≠ p → t.proc q = s.proc q)
    (hp : ∀ pt, (t.proc p).pagetable = some pt → Vacant pt (sizePages (t.proc p).sz)) :
    Contained t := by
  intro q pt hq
  by_cases hqp : q = p
  · subst hqp
    exact hp pt hq
  · rw [hothers q hqp] at hq ⊢
    exact h q pt hq

theorem Contained.modProc {f : Proc → Proc} (h : Contained s)
    (hpt : (f (s.proc p)).pagetable = (s.proc p).pagetable)
    (hsz : (f (s.proc p)).sz = (s.proc p).sz) : Contained (s.modProc p f) := by
  refine h.replace (fun q hq => modProc_of_ne _ _ _ hq) fun pt hp => ?_
  rw [modProc_self] at hp ⊢
  rw [hpt] at hp
  rw [hsz]
  exact h p pt hp

theorem Contained.setSpace {f : Proc → Proc} {pt : PageTable} {m : Kmem} (h : Contained s)
    (hpt : (f { s.proc p with pagetable := some pt }).pagetable = some pt)
    (hv : Vacant pt (sizePages (f { s.proc p with pagetable := some pt }).sz)) :
    Contained ((s.setSpace p pt m).modProc p f) := by
  refine h.replace (fun q hq => setSpace_modProc_of_ne _ _ _ _ _ hq) fun pt' hp => ?_
  rw [modProc_self, setSpace_self] at hp ⊢
  rw [hpt] at hp
  cases hp
  exact hv

theorem Contained.setTable {pt : PageTable} {m : Kmem} (h : Contained s)
    (hv : Vacant pt (sizePages (s.proc p).sz)) : Contained (s.setSpace p pt m) := by
  refine h.replace (fun q hq => setSpace_of_ne _ _ _ _ hq) fun pt' hp => ?_
  rw [setSpace_self] at hp ⊢
  cases hp
  exact hv

theorem Poked.kept {q q' : Proc} (h : Poked q q') : q'.pagetable = q.pagetable ∧ q'.sz = q.sz := by
  obtain ⟨_, _, _, _, _, _, rfl⟩ := h.fields
  exact ⟨rfl, rfl⟩

theorem Contained.poked (h : Contained s) (hp : PokedAll s t) : Contained t :=
  h.same (fun q => (hp.slots q).kept.1) fun q => (hp.slots q).kept.2

end

/-! ## Processes come and go -/

section
variable [Link] {s t : State} {p i : Fin NPROC} {op : Op}

theorem freeproc_avoids (h : Contained s) (hsz : (s.proc i).sz ≤ TRAPFRAME) :
    Avoids StrayLeaf Contained (freeproc s i) := by
  refine Avoids.mono (P := fun _ => True) ?_ fun t ht _ => ?_
  · unfold freeproc
    refine Avoids.bind (P := fun _ => True) ?_ fun m1 _ _ => ?_
    · split
      · exact kfree_avoids _ _
      · exact .returns trivial
    · refine Avoids.bind (P := fun _ => True) ?_ fun _ _ _ => .returns trivial
      split
      · rename_i pt hpt
        exact procFreepagetable_avoids hsz (h i pt hpt) m1
      · exact .returns trivial
  · obtain ⟨m, rfl, -⟩ := freeproc_spec hsz ht
    refine h.replace (fun q hq => modProc_of_ne _ _ _ hq) fun pt hpt => ?_
    rw [modProc_self] at hpt
    cases hpt

omit [Link] in
theorem Unspawned.contained (h : Contained s) (hu : Unspawned s t) : Contained t := by
  obtain ⟨i, m, -, -, rfl⟩ := hu
  refine h.replace (fun q hq => modProc_of_ne _ _ _ hq) fun pt hpt => ?_
  rw [modProc_self] at hpt
  cases hpt

omit [Link] in
theorem claimSlot_contained (h : Contained s) {f : Proc → Proc} (m : Kmem)
    (hpt : (f (claimed s.nextpid s.ticks (s.proc i))).pagetable = none) :
    Contained (((claimSlot s i).setKmem m).modProc i f) := by
  refine h.replace (p := i) (fun q hq => ?_) fun pt hp => ?_
  · rw [modProc_of_ne _ _ _ hq, setKmem_proc, claimSlot, modProc_of_ne _ _ _ hq]
  · rw [modProc_self, setKmem_proc, claimSlot, modProc_self] at hp
    rw [show _ = none from hpt] at hp
    cases hp

theorem allocproc_avoids (h : Contained s) (hs : Tidy s) :
    Avoids StrayLeaf (fun _ => True) (allocproc s) := by
  unfold allocproc
  cases hu : unusedSlot s with
  | none => exact .returns trivial
  | some i =>
      have hsz : ∀ (f : Proc → Proc) m, (∀ q, (f q).sz = q.sz) →
          ((((claimSlot s i).setKmem m).modProc i f).proc i).sz ≤ TRAPFRAME := by
        intro f m hf
        rw [modProc_self, hf, setKmem_proc, claimSlot, modProc_self]
        exact (hs i).sz_le
      dsimp only
      unfold outfit
      split
      · rename_i m _
        have hc := claimSlot_contained h (f := fun p => { p with trapframe := none }) m
          ((hs i).noPagetable (unusedSlot_unused hu))
        exact (freeproc_avoids hc (hsz _ m fun _ => rfl)).bind fun _ _ _ => .returns trivial
      · rename_i tf m _
        refine (procPagetable_avoids tf m).bind ?_
        rintro ⟨pt, m1⟩ - -
        cases pt with
        | some pt => exact .returns trivial
        | none =>
            have hc := claimSlot_contained h (i := i)
              (f := fun p => { p with trapframe := some tf, pagetable := none }) m1 rfl
            exact (freeproc_avoids hc (hsz _ m1 fun _ => rfl)).bind fun _ _ _ => .returns trivial

theorem kfork_avoids (h : Contained s) (hs : Tidy s) (hrun : (s.proc p).state = .running) :
    Avoids StrayLeaf (fun r => Contained r.2) (kfork s p) := by
  unfold kfork
  refine (allocproc_avoids h hs).bind ?_
  rintro ⟨a, s1⟩ ha -
  rcases allocproc_cases hs ha with ⟨rfl, rfl | hu⟩ | ⟨i, tf, new, m, rfl, hu, hfresh, -, rfl⟩
  · exact .returns h
  · exact .returns (hu.contained h)
  · have hun := unusedSlot_unused hu
    have hpi : p ≠ i := by
      rintro rfl
      cases hrun.symm.trans hun
    have hv0 : Vacant new 0 := fun v _ hr => hfresh.nothing v hr
    have hself : ((s.bump m).modProc i (outfitted s tf new)).proc i =
        outfitted s tf new (s.proc i) := by rw [modProc_self, bump_proc]
    have hother : ((s.bump m).modProc i (outfitted s tf new)).proc p = s.proc p := by
      rw [modProc_of_ne _ _ _ hpi, bump_proc]
    have hc : Contained ((s.bump m).modProc i (outfitted s tf new)) := by
      refine h.replace (fun q hq => modProc_of_ne _ _ _ hq) fun pt hpt => ?_
      rw [hself] at hpt
      cases hpt
      exact hv0.mono (Nat.zero_le _)
    dsimp only
    unfold forkInto
    rw [hself, hother]
    split
    · rename_i old new' hold hnew
      cases hnew
      have hsz := (hs p).sz_le
      refine (uvmcopy_avoids hsz hv0).bind ?_
      rintro ⟨ok, new', m'⟩ hcopy -
      have hfree : ∀ v < pagesBetween 0 (s.proc p).sz, new.leaf v = none := by
        intro v hv
        apply hv0 v (Nat.zero_le v)
        apply lt_trapframe_not_reserved
        rw [pagesBetween] at hv
        norm_num at hv hsz ⊢
        omega
      have hext := uvmcopy_spec hsz hfree hcopy
      dsimp only
      cases ok with
      | true =>
          have hv : Vacant new' (sizePages (s.proc p).sz) := by
            refine hext.vacant_of (hv0.mono (Nat.zero_le _)) fun v hv => ?_
            rw [sizePages_eq hsz]
            exact Finset.mem_range.1 (Finset.mem_filter.1 hv).1
          exact .returns (hc.setSpace rfl hv)
      | false =>
          have hv : Vacant new' 0 := hext.vacant_of hv0 (by simp)
          have hc' : Contained (((s.bump m).modProc i (outfitted s tf new)).setSpace i new' m') :=
            hc.setTable (hv.mono (Nat.zero_le _))
          refine (freeproc_avoids hc' ?_).bind fun _ _ hc'' => .returns hc''
          rw [setSpace_self, hself]
          exact (hs i).sz_le
    · exact .halts (by simp [StrayLeaf])

omit [Link] in
theorem kexit_avoids (h : Contained s) (status : Int) :
    Avoids StrayLeaf Contained (kexit s p status) := by
  refine Avoids.mono (P := fun _ => True) ?_ fun t ht _ => ?_
  · unfold kexit
    split
    · exact .halts (by simp [StrayLeaf])
    · exact .returns trivial
  · obtain ⟨hothers, ⟨q, hq, hself⟩, -⟩ := kexit_spec ht
    have hkept : ∀ i, (t.proc i).pagetable = (s.proc i).pagetable ∧
        (t.proc i).sz = (s.proc i).sz := by
      intro i
      by_cases hi : i = p
      · subst hi
        rw [hself]
        exact hq.kept
      · exact (hothers i hi).kept
    exact h.same (fun i => (hkept i).1) fun i => (hkept i).2

theorem copyouts_avoids {sz : Nat} (hsz : sz ≤ TRAPFRAME) (addrs : List Nat) {own : PageTable}
    {m : Kmem} (hv : Vacant own (sizePages sz)) :
    Avoids StrayLeaf (fun r => Vacant r.2.1 (sizePages sz)) (copyouts sz addrs own m) := by
  induction addrs generalizing own m with
  | nil => exact .returns hv
  | cons addr rest ih =>
      unfold copyouts
      split
      · exact ih hv
      · refine (copyoutLoop_own_avoids hsz hv).bind ?_
        rintro ⟨ok, own1, m1⟩ - hv1
        dsimp only at hv1 ⊢
        split
        · exact ih hv1
        · exact .returns hv1

theorem waitTurn_avoids (h : Contained s) (hs : Tidy s) (addrs : List Nat) :
    Avoids StrayLeaf (fun r => Contained r.2) (waitTurn s p addrs) := by
  have hawake : Contained (s.modProc p awake) := h.modProc rfl rfl
  unfold waitTurn
  split
  · rename_i c _
    unfold reapChild
    split
    · exact .halts (by simp [StrayLeaf])
    · rename_i own hown
      have hsz : ((s.modProc p awake).proc p).sz ≤ TRAPFRAME := by
        rw [modProc_self]
        exact (hs p).sz_le
      refine (copyouts_avoids hsz addrs (hawake p own hown)).bind ?_
      rintro ⟨ok, own1, m1⟩ - hv
      have hc : Contained ((s.modProc p awake).setSpace p own1 m1) := hawake.setTable hv
      dsimp only
      cases ok with
      | true =>
          refine (freeproc_avoids hc ?_).bind fun t _ ht => .returns ht
          by_cases hcp : c = p
          · rw [hcp, setSpace_self]
            exact hsz
          · rw [setSpace_of_ne _ _ _ _ hcp, modProc_of_ne _ _ _ hcp]
            exact (hs c).sz_le
      | false => exact .returns hc
  · split
    · exact .returns hawake
    · exact .returns (h.modProc rfl rfl)

/-! ## Programs and memory -/

theorem length_le_trapframe {m : Kmem} (hn : m.Nodup) (hok : ∀ q ∈ m, PageOk q) :
    m.length ≤ TRAPFRAME / PGSIZE := by
  have hcard : m.toFinset.card ≤ (Finset.range (PHYSTOP / PGSIZE)).card := by
    refine Finset.card_le_card_of_injOn (fun q => q / PGSIZE) (fun q hq => ?_) fun q hq r hr heq => ?_
    · have hq' := hok q (List.mem_toFinset.1 hq)
      exact Finset.mem_coe.2 (Finset.mem_range.2 (Nat.div_lt_div_of_lt_of_dvd (by decide) hq'.2.2))
    · have h1 := (hok q (List.mem_toFinset.1 hq)).1
      have h2 := (hok r (List.mem_toFinset.1 hr)).1
      rw [← Nat.div_mul_cancel (Nat.dvd_of_mod_eq_zero h1),
        ← Nat.div_mul_cancel (Nat.dvd_of_mod_eq_zero h2)]
      exact congrArg (· * PGSIZE) heq
  rw [List.toFinset_card_of_nodup hn, Finset.card_range] at hcard
  exact hcard.trans (by decide)

theorem Good.length_le (h : Good s) : s.kmem.length ≤ TRAPFRAME / PGSIZE := by
  refine length_le_trapframe h.noUseAfterFree.nodup fun q hq => h.usable q ?_
  have := List.count_pos_iff.2 hq
  rw [mass_def]
  omega

theorem kexec_avoids {file : Option ExecFile} {argv : List Nat} {name : String} (h : Contained s)
    (hs : Tidy s) (htotal : s.kmem.length ≤ TRAPFRAME / PGSIZE)
    (hfit : (s.proc p).sz = 0 ∨ ∀ len ∈ argv, len < PGSIZE) :
    Avoids StrayLeaf (fun r => Contained r.2) (kexec s p file argv name) := by
  unfold kexec
  split
  · rename_i own tf hown htf
    refine (kexecImage_avoids htotal hfit).bind ?_
    rintro ⟨image, own1, m1⟩ - ⟨hsame, himage⟩
    dsimp only at hsame himage ⊢
    subst hsame
    cases image with
    | none => exact .returns (h.setTable (h p own1 hown))
    | some image =>
        refine (procFreepagetable_avoids (hs p).sz_le (h p own1 hown) m1).bind fun m2 _ _ => ?_
        refine .returns ?_
        dsimp only
        exact h.setSpace rfl (himage image.1 image.2 rfl)
  · exact .halts (by simp [StrayLeaf])

theorem growproc_avoids (h : Contained s) (hs : Tidy s) (n : Int) :
    Avoids StrayLeaf (fun r => Contained r.2) (growproc s p n) := by
  unfold growproc
  split
  · exact .halts (by simp [StrayLeaf])
  · rename_i pt hpt
    have hv := h p pt hpt
    have hsz := (hs p).sz_le
    dsimp only
    split
    · split
      · exact .returns h
      · rename_i hle
        refine (uvmalloc_avoids hsz hv (.inl (Nat.not_lt.1 hle))).bind ?_
        rintro ⟨sz', pt', m'⟩ - he
        dsimp only
        split
        · rename_i h0
          exact .returns (h.setTable (he.failed h0))
        · rename_i h0
          refine .returns ?_
          dsimp only
          exact h.setSpace rfl (he.done h0)
    · split
      · refine (uvmdealloc_avoids _ _ _ _).bind ?_
        rintro ⟨sz', pt', m'⟩ hd -
        refine .returns ?_
        dsimp only
        exact h.setSpace rfl (uvmdealloc_vacant hsz hv hd)
      · exact .returns h

theorem sysSbrk_avoids (h : Contained s) (hs : Tidy s) (n ty : Int) :
    Avoids StrayLeaf (fun r => Contained r.2) (sysSbrk s p n ty) := by
  unfold sysSbrk
  dsimp only
  split
  · refine (growproc_avoids h hs n).bind ?_
    rintro ⟨ok, t⟩ - ht
    exact .returns ht
  split
  · exact .returns h
  split
  · exact .returns h
  · -- a lazy increase maps nothing
    rename_i hge hle
    refine .returns ?_
    dsimp only
    refine h.replace (fun q hq => modProc_of_ne _ _ _ hq) fun pt hpt => ?_
    rw [modProc_self] at hpt ⊢
    exact (h p pt hpt).mono (sizePages_mono (Nat.not_lt.1 hge) (Nat.not_lt.1 hle))

theorem pageFault_avoids (h : Contained s) (hs : Tidy s) (va : Nat) :
    Avoids StrayLeaf Contained (pageFault s p va) := by
  unfold pageFault
  split
  · exact .halts (by simp [StrayLeaf])
  · rename_i own hown
    refine (vmfault_own_avoids (hs p).sz_le (h p own hown)).bind ?_
    rintro ⟨pa, own1, m1⟩ - hv
    dsimp only at hv ⊢
    cases pa with
    | some pa => exact .returns (h.setTable hv)
    | none => exact .returns (h.setSpace rfl hv)

/-! ## Regions -/

theorem kfreePages_avoids (pages : Nat → PA) (n k : Nat) (m : Kmem) :
    Avoids StrayLeaf (fun _ => True) (kfreePages pages n k m) := by
  induction n generalizing k m with
  | zero => exact .returns trivial
  | succ n ih => exact (kfree_avoids _ _).bind fun m1 _ _ => ih _ _

theorem shmAllocPages_avoids (n j : Nat) (pages : Nat → PA) (m : Kmem) :
    Avoids StrayLeaf (fun _ => True) (shmAllocPages n j pages m) := by
  induction n generalizing j pages m with
  | zero => exact .returns trivial
  | succ n ih =>
      unfold shmAllocPages
      split
      · exact (kfreePages_avoids _ _ _ _).bind fun _ _ _ => .returns trivial
      · exact ih _ _ _

theorem shmGet_avoids (key size : Int) : Avoids StrayLeaf (fun _ => True) (shmGet s key size) := by
  unfold shmGet
  split
  · exact .returns trivial
  · split
    · exact .returns trivial
    · exact (shmAllocPages_avoids _ _ _ _).bind fun _ _ _ => .returns trivial

omit [Link] in
theorem shmMapLoop_avoids {pages : Nat → PA} {uva n k : Nat} {pt : PageTable} {m : Kmem}
    (hv : Vacant pt (uva / PGSIZE + k)) (hn : uva / PGSIZE + k + n ≤ TRAPFRAME / PGSIZE)
    (hlt : uva + (k + n) * PGSIZE < 2 ^ 64) :
    Avoids StrayLeaf (fun _ => True) (shmMapLoop pages uva n k pt m) := by
  induction n generalizing k pt m with
  | zero => exact .returns trivial
  | succ n ih =>
      have hle : k * PGSIZE ≤ (k + (n + 1)) * PGSIZE := Nat.mul_le_mul_right _ (Nat.le_add_right _ _)
      have haddr : addU64 uva (k * PGSIZE) = uva + k * PGSIZE := by
        apply addU64_of_lt
        exact lt_of_le_of_lt (Nat.add_le_add_left hle uva) hlt
      have hdiv : (uva + k * PGSIZE) / PGSIZE = uva / PGSIZE + k :=
        Nat.add_mul_div_right _ _ (by decide)
      unfold shmMapLoop
      rw [haddr]
      have hleaf : pt.leaf ((uva + k * PGSIZE) / PGSIZE) = none := by
        rw [hdiv]
        exact hv _ le_rfl (lt_trapframe_not_reserved (by omega))
      refine (mappages_avoids hleaf).bind ?_
      rintro ⟨ok, pt1, m1⟩ hm -
      dsimp only
      cases ok with
      | true =>
          have hk : k + 1 + n = k + (n + 1) := by omega
          refine ih ?_ (by omega) (by rw [hk]; exact hlt)
          refine (mappages_one hm).extends.vacant_of (hv.mono (Nat.le_succ _)) fun v hvm => ?_
          rw [Finset.mem_singleton.1 hvm, hdiv]
          exact Nat.lt_succ_self _
      | false => exact .returns trivial

/-- Attaching to a region. With a negative number of pages the size goes down instead of up. -/
theorem shmAttach_avoids {r : Fin SHM_SLOTS} {key : Int} (h : Contained s) (hs : Tidy s)
    (hmax : (s.shmTable r).npages ≤ SHM_MAXPGS) :
    Avoids StrayLeaf (fun x => 0 ≤ (s.shmTable r).npages → Contained x.2)
      (shmAttach s p r key) := by
  unfold shmAttach
  split
  · exact .returns fun _ => h
  split
  · exact .returns fun _ => h
  rename_i pslot _
  dsimp only
  split
  · exact .returns fun _ => h
  rename_i hfits
  split
  · exact .halts (by simp [StrayLeaf])
  rename_i pt hpt
  have hv : Vacant pt (sizePages (s.proc p).sz) := h p pt hpt
  have hup := pgroundup_le_trapframe (hs p).sz_le
  have hal := pgroundup_aligned (s.proc p).sz
  set npages := (s.shmTable r).npages with hnp
  -- with a non-negative number of pages nothing wraps around
  have hend : 0 ≤ npages → addU64 (pgroundup (s.proc p).sz) (toU64 npages * PGSIZE % 2 ^ 64) =
      pgroundup (s.proc p).sz + npages.toNat * PGSIZE := by
    intro h0
    rw [show toU64 npages * PGSIZE % 2 ^ 64 = npages.toNat * PGSIZE from mapBytes_of_nonneg h0 hmax]
    apply addU64_of_lt
    norm_num at hup hmax ⊢
    omega
  have hroom : sizePages (s.proc p).sz + npages.toNat ≤ TRAPFRAME / PGSIZE := by
    rcases lt_or_ge npages 0 with hneg | h0
    · rw [Int.toNat_of_nonpos hneg.le]
      exact sizePages_le (hs p).sz_le
    · rw [hend h0] at hfits
      rw [sizePages]
      norm_num at hfits hal ⊢
      omega
  have hlt : pgroundup (s.proc p).sz + (0 + npages.toNat) * PGSIZE < 2 ^ 64 := by
    norm_num at hup hmax ⊢
    omega
  refine (shmMapLoop_avoids hv hroom hlt).bind ?_
  rintro ⟨ok, i, pt1, m1⟩ hloop -
  obtain ⟨hmaps, -, hi, hall⟩ := shmMapLoop_maps (pgroundup_lt_u64 _) hloop
  dsimp only
  cases ok with
  | true =>
      refine .returns fun h0 => ?_
      have hi' : i = npages.toNat := hall rfl
      subst hi'
      have hle := Nat.not_lt.1 hfits
      rw [hend h0] at hle ⊢
      have hsize : sizePages (pgroundup (s.proc p).sz + npages.toNat * PGSIZE) =
          sizePages (s.proc p).sz + npages.toNat := by
        rw [sizePages_eq hle, sizePages]
        norm_num at hal ⊢
        omega
      have hv1 : Vacant pt1 (sizePages (pgroundup (s.proc p).sz + npages.toNat * PGSIZE)) := by
        intro v hn hr
        rw [hsize] at hn
        rw [hmaps.outside v fun hm => absurd (Finset.mem_Ico.1 hm).2 (Nat.not_lt.2 hn)]
        exact hv v (le_trans (Nat.le_add_right _ _) hn) hr
      have hc : Contained ((s.setSpace p pt1 m1).modProc p fun q =>
          { q with
            sz := pgroundup (s.proc p).sz + npages.toNat * PGSIZE
            shm := Function.update q.shm pslot ⟨key, pgroundup (s.proc p).sz, npages⟩ }) :=
        h.setSpace rfl hv1
      exact hc
  | false =>
      simp only [Bool.false_eq_true, if_false]
      refine (uvmunmap_avoids _ _ _ _ _).bind ?_
      rintro ⟨pt2, m2⟩ hu -
      refine .returns fun _ => ?_
      have hle : i * PGSIZE ≤ (0 + npages.toNat) * PGSIZE :=
        Nat.mul_le_mul_right _ (by rwa [Nat.zero_add])
      have hext := hmaps.undo (lt_of_le_of_lt (Nat.add_le_add_left hle _) hlt) hu
      exact h.setTable (hext.vacant_of hv (by simp))

theorem shmOpen_avoids {key size : Int} (h : Contained s) (hs : Sound s) :
    Avoids StrayLeaf (fun x => SizeOk size → Contained x.2) (shmOpen s p key size) := by
  unfold shmOpen
  split
  · exact .returns fun _ => h
  rename_i hpos
  refine (shmGet_avoids key size).bind ?_
  rintro ⟨r, s1⟩ hg -
  have hm := shmGet_made hg
  have hc : Contained s1 := by
    refine h.same (fun q => ?_) fun q => ?_
    · rw [hm.proc]
    · rw [hm.proc]
  cases r with
  | none => exact .returns fun _ => hc
  | some r =>
      have hs1 : Tidy s1 := fun i => by
        rw [hm.proc]
        exact hs.tidy i
      have hk : 0 < key := by omega
      obtain ⟨hkey, hmax⟩ := hm.region (State.ShmOk.bounded hs.shm) hk
      refine (shmAttach_avoids hc hs1 hmax).mono fun x _ hx hsize => hx ?_
      cases hm with
      | found hr =>
          have := hs.sized r (by rw [hkey]; exact hk.ne')
          omega
      | created =>
          rw [setRegion_self]
          have := one_le_shmPages (by omega) hsize
          dsimp only
          omega

theorem shmClose_avoids {key : Int} (h : Contained s) :
    Avoids StrayLeaf (fun x => Contained x.2) (shmClose s p key) := by
  unfold shmClose
  split
  · exact .returns h
  split
  · exact .returns h
  rename_i pslot _
  split
  · exact .returns h
  rename_i r _
  split
  · exact .halts (by simp [StrayLeaf])
  rename_i pt hpt
  dsimp only
  refine (uvmunmap_avoids _ _ _ _ _).bind ?_
  rintro ⟨pt1, m1⟩ hu -
  have hv1 : Vacant pt1 (sizePages (s.proc p).sz) := (h p pt hpt).cut (uvmunmap_spec hu).1
  have hc : Contained ((s.setSpace p pt1 m1).modProc p (dropAttach pslot)) := h.setSpace rfl hv1
  refine Avoids.bind (P := fun _ => True) ?_ fun t ht _ => .returns ?_
  · unfold shmRelease
    dsimp only
    split
    · exact (kfreePages_avoids _ _ _ _).bind fun _ _ _ => .returns trivial
    · exact .returns trivial
  · rcases shmRelease_cases ht with ⟨-, rfl⟩ | ⟨-, m2, -, rfl⟩
    · exact hc
    · exact hc

/-! ## Steps and runs -/

/-- `sys_exec` copies each argument into a page of its own. -/
def ArgsFit : Op → Prop
  | .exec _ _ argv _ => ∀ len ∈ argv, len < PGSIZE
  | _ => True

/-- No step runs into a stray leaf, and none leaves one behind. -/
theorem run_avoids (h : Contained s) (hs : Sound s) (he : Enabled s op) (hfit : ArgsFit op) :
    Avoids StrayLeaf (fun t => Careful s op → Contained t) (run s op) := by
  have keep : ∀ {f : Proc → Proc} {p}, (f (s.proc p)).pagetable = (s.proc p).pagetable →
      (f (s.proc p)).sz = (s.proc p).sz →
      Avoids StrayLeaf (fun t => Careful s op → Contained t) (.ok (s.modProc p f)) :=
    fun hpt hsz => .returns fun _ => h.modProc hpt hsz
  cases op with
  | fork p => exact (kfork_avoids h hs.tidy he.1.1).map fun r _ hr _ => hr
  | exit p status => exact (kexit_avoids h status).mono fun t _ ht _ => ht
  | wait p addr => exact (waitTurn_avoids h hs.tidy _).map fun r _ hr _ => hr
  | waitStat p a b c => exact (waitTurn_avoids h hs.tidy _).map fun r _ hr _ => hr
  | exec p file argv name =>
      exact (kexec_avoids h hs.tidy hs.length_le (.inr hfit)).map fun r _ hr _ => hr
  | sbrk p n ty => exact (sysSbrk_avoids h hs.tidy n ty).map fun r _ hr _ => hr
  | pageFault p va => exact (pageFault_avoids h hs.tidy va).mono fun t _ ht _ => ht
  | shmOpen p key size =>
      exact (shmOpen_avoids h hs).map fun r _ hr hc => hr (hc.2 p key size rfl)
  | shmClose p key => exact (shmClose_avoids h).map fun r _ hr _ => hr
  | setpriority p pid priority => exact .returns fun _ => h.poked (setpriority_poked s pid priority)
  | kill p pid => exact .returns fun _ => h.poked (kkill_poked s pid)
  | fdalloc p file =>
      obtain ⟨-, hsz, -, -, hsp⟩ := fdalloc_state file (s.proc p)
      exact keep (congrArg Space.pagetable hsp) hsz
  | close p fd => exact keep rfl rfl
  | sleep p chan => exact keep rfl rfl
  | resume p => exact keep rfl rfl
  | yield p => exact keep rfl rfl
  | dispatch p => exact keep rfl rfl
  | wakeup me chan => exact .returns fun _ => h.poked (PokedAll.wakeup s me chan)
  | clock me => exact .returns fun _ => h.poked (clockintr_poked s me)

theorem Booted.contained (h : Booted s) : Contained s := by
  obtain ⟨m, init, argv, hm, hb⟩ := h
  obtain ⟨s0, i, tf, pt, hf, hc, htidy, -, hrest, -, hpt, -, -, hself, ⟨argc, hk⟩, -⟩ := boot_steps hb
  have h0 : Contained s0 := by
    intro p pt' hp
    by_cases hpi : p = i
    · subst hpi
      rw [hpt] at hp
      cases hp
      exact fun v _ hr => hf.nothing v hr
    · rw [hrest p hpi] at hp
      cases hp
  have hlen : s0.kmem.length ≤ TRAPFRAME / PGSIZE := by
    refine (length_le_of_count fun q => ?_).trans (length_le_trapframe hm.1 hm.2)
    have := hc q
    omega
  exact (kexec_avoids h0 htidy hlen (.inl (by rw [hself]; rfl))).ok _ hk

def Ordinary (s : State) (op : Op) : Prop := Careful s op ∧ ArgsFit op

theorem contained_of_reach (h : Reach next Ordinary Booted s) : Sound s ∧ Contained s := by
  refine Reach.inv (I := fun s => Sound s ∧ Contained s)
    (fun u hb => ⟨sound_of_reach (.start hb), hb.contained⟩) ?_ h
  rintro u op v ⟨hs, hc⟩ hok hn
  exact ⟨hs.step hok.1 hn,
    (run_avoids hc hs (next_some hn).1 hok.2).ok v (next_some hn).2 hok.1⟩

/-- No address space reaches the trapframe, and none has a leaf above its size. -/
structure InBounds (s : State) : Prop where
  size_le : ∀ p, (s.proc p).sz ≤ TRAPFRAME
  leaf_lt : ∀ p pt v e, (s.proc p).pagetable = some pt → pt.leaf v = some e →
    v * PGSIZE ≠ TRAMPOLINE → v * PGSIZE ≠ TRAPFRAME → v * PGSIZE < pgroundup (s.proc p).sz

omit [Link] in
theorem Contained.inBounds (h : Contained s) (hs : Tidy s) : InBounds s := by
  refine ⟨fun p => (hs p).sz_le, fun p pt v e hpt hl htramp htrap => ?_⟩
  have hr : v ∉ reserved := by
    simp only [Finset.mem_insert, Finset.mem_singleton]
    rintro (rfl | rfl)
    · exact htramp (by decide)
    · exact htrap (by decide)
  by_contra hge
  have hle : sizePages (s.proc p).sz ≤ v := by
    have hdiv := Nat.div_le_div_right (c := PGSIZE) (Nat.not_lt.1 hge)
    rwa [Nat.mul_div_cancel _ (by decide)] at hdiv
  rw [h p pt hpt v hle hr] at hl
  cases hl

/-- Over every run of ordinary steps the address spaces are in bounds, and no step runs into one
of the two panics. -/
theorem reachable_inBounds (h : Reach next Ordinary Booted s) :
    InBounds s ∧ ∀ op, Enabled s op → ArgsFit op →
      run s op ≠ .error .mappagesRemap ∧ run s op ≠ .error .freewalkLeaf := by
  obtain ⟨hs, hc⟩ := contained_of_reach h
  refine ⟨hc.inBounds hs.tidy, fun op he hfit => ?_⟩
  have hrun := run_avoids hc hs he hfit
  exact ⟨fun hp => hrun.error _ hp (.inl rfl), fun hp => hrun.error _ hp (.inr rfl)⟩

end

def ordinarily (s : State) (op : Op) : Bool :=
  carefully s op &&
    match op with
    | .exec _ _ argv _ => argv.all fun len => decide (len < PGSIZE)
    | _ => true

theorem ordinary_of_ordinarily [Link] {s : State} {op : Op} (h : ordinarily s op = true) :
    Ordinary s op := by
  obtain ⟨hcareful, hfit⟩ := (Bool.and_eq_true _ _).mp h
  refine ⟨careful_of_carefully hcareful, ?_⟩
  cases op with
  | exec p file argv name =>
      intro len hlen
      exact of_decide_eq_true (List.all_eq_true.1 hfit len hlen)
  | _ => trivial

/-- Parent and child share a region, above which the parent has grown lazily, after other steps have
freed memory. -/
theorem reachable_inBounds_shared : ∃ s,
    sampleRun (freeingRun ++ [.sbrk 0 8192 2, .pageFault 0 24000, .fork 0, .yield 0, .dispatch 1,
      .shmOpen 1 7 4096]) = some s ∧
      (s.proc 0).sz = 28672 ∧ (s.proc 1).sz = 32768 ∧ InBounds s ∧ ∀ op, Enabled s op → ArgsFit op →
        @run sampleLink s op ≠ .error .mappagesRemap ∧
          @run sampleLink s op ≠ .error .freewalkLeaf := by
  obtain ⟨s, hs, ⟨h0, h1⟩, hreach⟩ := sampleRun_checked
    (freeingRun ++ [.sbrk 0 8192 2, .pageFault 0 24000, .fork 0, .yield 0, .dispatch 1,
      .shmOpen 1 7 4096]) (ordinarily · · = true)
    (fun s => (s.proc 0).sz = 28672 ∧ (s.proc 1).sz = 32768)
    (by set_option maxRecDepth 100000 in decide +kernel)
  obtain ⟨hin, hrun⟩ := @reachable_inBounds sampleLink s
    (hreach.mono fun _ _ h => @ordinary_of_ordinarily sampleLink _ _ h)
  exact ⟨s, hs, h0, h1, hin, hrun⟩

/-- The first process grows lazily by almost two gigabytes, touches a page at the bottom of its new
memory, and opens a region of a size that overflows: its size comes down again and the page
stays mapped above it. Running a new program then panics, and so does growing over the page. -/
theorem shmOpen_strands_page : ∃ s,
    Reach (@next sampleLink) Free (@Booted sampleLink) s ∧
      sampleRun [.sbrk 0 0x7fffffff 2, .pageFault 0 16384, .shmOpen 0 1 0x7fffffff] = some s ∧
      ¬ InBounds s ∧ Enabled s (.exec 0 (some sampleInit) [4] "init") ∧
      @run sampleLink s (.exec 0 (some sampleInit) [4] "init") = .error .freewalkLeaf ∧
      Enabled s (.sbrk 0 8192 SBRK_EAGER) ∧
      @run sampleLink s (.sbrk 0 8192 SBRK_EAGER) = .error .mappagesRemap := by
  obtain ⟨s, hs, hsz, hleaf, he, hexec, he', hsbrk⟩ := sampleRun_exists
    [.sbrk 0 0x7fffffff 2, .pageFault 0 16384, .shmOpen 0 1 0x7fffffff]
    (fun s => (s.proc 0).sz = 16384 ∧ (s.proc 0).pagetable.any (fun pt => (pt.leaf 4).isSome) = true ∧
      Enabled s (.exec 0 (some sampleInit) [4] "init") ∧
      reason (@run sampleLink s (.exec 0 (some sampleInit) [4] "init")) = some .freewalkLeaf ∧
      Enabled s (.sbrk 0 8192 SBRK_EAGER) ∧
      reason (@run sampleLink s (.sbrk 0 8192 SBRK_EAGER)) = some .mappagesRemap)
    (by set_option maxRecDepth 100000 in decide +kernel)
  refine ⟨s, sampleRun_reach (fun _ _ _ => trivial) hs, hs, fun hin => ?_, he, reason_some.1 hexec,
    he', reason_some.1 hsbrk⟩
  obtain ⟨pt, hpt, hsome⟩ := (Option.any_eq_true _ _).1 hleaf
  obtain ⟨e, hl⟩ := Option.isSome_iff_exists.1 hsome
  have hlt := hin.leaf_lt 0 pt 4 e hpt hl (by decide) (by decide)
  rw [hsz] at hlt
  exact absurd hlt (by decide)

end G9OS.Kernel
