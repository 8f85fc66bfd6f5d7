import G9OS.Kernel.Effects
import G9OS.Kernel.ShmTable

/-! # Where every physical page is

A page given to the allocator at boot is at any time in one place: on the free
list, a trapframe, a page-table page, a private page of one address space, or a
page of one region. `mass` counts the places; all steps keep it, so that a page is
never in two places at once. Shared mappings are not places of their own: an
attachment's pages are counted with the region.
-/

namespace G9OS.Kernel

open Lib

variable {r : Fin SHM_SLOTS} {j v : Nat} {pt : PageTable} {e : Pte}

/-- The virtual pages that a process has for its attachments. -/
def covered (shm : Fin PROC_SHM_SLOTS → ShmAttach) : Finset Nat :=
  Finset.univ.biUnion fun i => (shm i).range

/-- The positions of a user page table whose pages are not the process's own. -/
def foreign (shm : Fin PROC_SHM_SLOTS → ShmAttach) : Finset Nat := reserved ∪ covered shm

def Space.weight (x : Space) (q : PA) : Nat :=
  hitOpt x.trapframe q + heldOpt (foreign x.shm) x.pagetable q

def ShmRegion.weight (x : ShmRegion) (q : PA) : Nat :=
  if x.key = 0 then 0 else occ (Finset.range x.npages.toNat) (pageCells x.pages) q

/-- In how many places a page is. -/
def mass (s : State) (q : PA) : Nat :=
  s.kmem.count q + ∑ p, (s.proc p).space.weight q + ∑ r, (s.shmTable r).weight q

theorem Space.weight_def (x : Space) (q : PA) :
    x.weight q = hitOpt x.trapframe q + heldOpt (foreign x.shm) x.pagetable q := rfl

theorem mass_def (s : State) (q : PA) : mass s q =
    s.kmem.count q + ∑ p, (s.proc p).space.weight q + ∑ r, (s.shmTable r).weight q := rfl

attribute [irreducible] Space.weight mass

theorem Proc.weight_full {x : Proc} {tf : PA} {S : Finset Nat} (hpt : x.pagetable = some pt)
    (htf : x.trapframe = some tf) (hS : foreign x.shm = S) (q : PA) :
    x.space.weight q = hit tf q + pt.held S q := by
  rw [Space.weight_def, Proc.space, hpt, htf, hS, heldOpt_some, hitOpt_some]

theorem Proc.weight_empty {x : Proc} (hpt : x.pagetable = none) (htf : x.trapframe = none)
    (q : PA) : x.space.weight q = 0 := by
  rw [Space.weight_def, Proc.space, hpt, htf, heldOpt_none, hitOpt_none]

theorem region_pos {x : ShmRegion} (hk : x.key ≠ 0) (hj : j < x.npages.toNat) :
    0 < x.weight (x.pages j) := by
  unfold ShmRegion.weight
  rw [if_neg hk]
  exact occ_pos (Finset.mem_range.2 hj) rfl

theorem region_mass {s : State} (hk : (s.shmTable r).key ≠ 0)
    (hj : j < (s.shmTable r).npages.toNat) : 0 < mass s ((s.shmTable r).pages j) := by
  have h1 := region_pos hk hj
  have h2 := le_sum (fun r' => (s.shmTable r').weight ((s.shmTable r).pages j)) r
  rw [mass_def]
  omega

theorem weight_pos_of_own {x : Space} (hpt : x.pagetable = some pt) (hl : pt.leaf v = some e)
    (hv : v ∉ foreign x.shm) :
    0 < x.weight e.pa := by
  have hcut : cut pt.mapped (foreign x.shm) v = some e.pa := by
    simp only [cut, hv, if_false, Node.mapped, hl, Option.map_some]
  have hpos : 0 < occ vpns (cut pt.mapped (foreign x.shm)) e.pa :=
    occ_pos (Finset.mem_range.2 (Node.mapped_lt hl)) hcut
  rw [Space.weight_def, hpt, heldOpt_some, Node.held]
  omega

/-! ## Attachments and the pages they cover -/

/-- An attachment covers as many pages as its region has; a negative number of
pages, which an overflowing size leads to, covers none. -/
theorem AttachOk.range_eq {a : ShmAttach} (h : AttachOk a) (hlo : -2 ^ 31 ≤ a.npages)
    (hhi : a.npages ≤ SHM_MAXPGS) : a.range = pageRange a.uva a.npages.toNat := by
  have h1 := h.uva_le
  have h2 := h.end_le
  unfold ShmAttach.range unmapRange
  have hlen : (addU64 a.uva (toU64 a.npages * PGSIZE) - a.uva) / PGSIZE = a.npages.toNat := by
    unfold addU64 toU64 at h2 ⊢
    norm_num at h1 h2 hlo hhi ⊢
    omega
  rw [hlen]

theorem AttachOk.range_lt {a : ShmAttach} (h : AttachOk a) (hv : v ∈ a.range) :
    v < TRAPFRAME / PGSIZE := by
  have h1 := h.uva_le
  have h2 := h.end_le
  unfold ShmAttach.range unmapRange at hv
  rw [Finset.mem_Ico] at hv
  norm_num at h1 h2 hv ⊢
  omega

theorem mem_covered {shm : Fin PROC_SHM_SLOTS → ShmAttach} :
    v ∈ covered shm ↔ ∃ i, v ∈ (shm i).range := by
  simp [covered]

def AttachMapped (table : Regions) (pt : PageTable) (a : ShmAttach) : Prop :=
  ∀ r, a.key ≠ 0 → (table r).key = a.key → ∀ j < a.npages.toNat,
    pt.leaf (a.uva / PGSIZE + j) = some ⟨(table r).pages j, permRWU⟩

/-- The memory of a slot is in order: either it has none, and no attachment that
covers anything, or it has a user page table in which all attachments are mapped. -/
inductive SpaceOk [Link] (table : Regions) (x : Space) : Prop
  | empty : x.pagetable = none → x.trapframe = none → (∀ i, (x.shm i).npages ≤ 0) → SpaceOk table x
  | full {pt : PageTable} {tf : PA} : x.pagetable = some pt → x.trapframe = some tf →
      UserTable tf pt → (∀ i, AttachMapped table pt (x.shm i)) → SpaceOk table x

structure Good [Link] (s : State) : Prop where
  tidy : Tidy s
  shm : ShmOk s.attachments s.shmTable
  once : ∀ q, mass s q ≤ 1
  usable : ∀ q, 0 < mass s q → PageOk q
  spaces : ∀ p, SpaceOk s.shmTable (s.proc p).space

section
variable [Link] {s t : State} {p : Fin NPROC}

theorem Good.attach_bounds (h : Good s) (p : Fin NPROC) (i : Fin PROC_SHM_SLOTS) :
    -2 ^ 31 ≤ ((s.proc p).shm i).npages ∧ ((s.proc p).shm i).npages ≤ SHM_MAXPGS := by
  by_cases hk : ((s.proc p).shm i).key = 0
  · have h0 : (s.proc p).shm i = {} := h.shm.attachClear p i hk
    rw [h0]
    norm_num
  · obtain ⟨r, h1, h2⟩ := h.shm.attachRegion p i hk
    have hb := h.shm.bounded r (h1 ▸ hk)
    rwa [h2] at hb

theorem Good.range_eq (h : Good s) (p : Fin NPROC) (i : Fin PROC_SHM_SLOTS) :
    ((s.proc p).shm i).range =
      pageRange ((s.proc p).shm i).uva ((s.proc p).shm i).npages.toNat :=
  (h.shm.attachOk p i).range_eq (h.attach_bounds p i).1 (h.attach_bounds p i).2

theorem Good.full (h : Good s) (hpt : (s.proc p).pagetable = some pt) :
    ∃ tf, (s.proc p).trapframe = some tf ∧ UserTable tf pt ∧
      ∀ i, AttachMapped s.shmTable pt ((s.proc p).shm i) := by
  cases h.spaces p with
  | empty hnone _ _ => rw [show (s.proc p).pagetable = none from hnone] at hpt; cases hpt
  | full hsome htf hu hmap =>
      rw [show (s.proc p).pagetable = some _ from hsome] at hpt
      cases hpt
      exact ⟨_, htf, hu, hmap⟩

theorem Good.covered_mapped (h : Good s) (hpt : (s.proc p).pagetable = some pt)
    {i : Fin PROC_SHM_SLOTS} (hv : v ∈ ((s.proc p).shm i).range) :
    ∃ r j, (s.shmTable r).key = ((s.proc p).shm i).key ∧ (s.shmTable r).key ≠ 0 ∧
      j < (s.shmTable r).npages.toNat ∧ v = ((s.proc p).shm i).uva / PGSIZE + j ∧
      pt.leaf v = some ⟨(s.shmTable r).pages j, permRWU⟩ := by
  rw [h.range_eq, Finset.mem_Ico] at hv
  have hk : ((s.proc p).shm i).key ≠ 0 := by
    intro hk
    have h0 : (s.proc p).shm i = {} := h.shm.attachClear p i hk
    rw [h0] at hv
    norm_num at hv
  obtain ⟨r, h1, h2⟩ := h.shm.attachRegion p i hk
  have h1' : (s.shmTable r).key = ((s.proc p).shm i).key := h1
  have h2' : (s.shmTable r).npages = ((s.proc p).shm i).npages := h2
  obtain ⟨j, rfl⟩ := Nat.exists_eq_add_of_le hv.1
  have hj : j < ((s.proc p).shm i).npages.toNat := by omega
  obtain ⟨tf, -, -, hmap⟩ := h.full hpt
  exact ⟨r, j, h1', h1' ▸ hk, by rw [h2']; exact hj, rfl, hmap i r hk h1' j hj⟩

theorem Good.foreign_mapped (h : Good s) (hpt : (s.proc p).pagetable = some pt)
    (hv : v ∈ foreign (s.proc p).shm) :
    pt.leaf v ≠ none := by
  rcases Finset.mem_union.1 hv with hv | hv
  · obtain ⟨tf, -, hu, -⟩ := h.full hpt
    exact hu.mapped_reserved hv
  · obtain ⟨i, hi⟩ := mem_covered.1 hv
    obtain ⟨r, j, -, -, -, -, hl⟩ := h.covered_mapped hpt hi
    simp [hl]

/-! ## What the counts say -/

theorem Good.region_alone (h : Good s) (hk : (s.shmTable r).key ≠ 0)
    (hj : j < (s.shmTable r).npages.toNat) :
    s.kmem.count ((s.shmTable r).pages j) = 0 ∧
      ∀ p, (s.proc p).space.weight ((s.shmTable r).pages j) = 0 := by
  have h1 := region_pos hk hj
  have h2 := le_sum (fun r' => (s.shmTable r').weight ((s.shmTable r).pages j)) r
  have h3 := h.once ((s.shmTable r).pages j)
  rw [mass_def] at h3
  refine ⟨by omega, fun p => ?_⟩
  have h4 := le_sum (fun p => (s.proc p).space.weight ((s.shmTable r).pages j)) p
  omega

/-- Two regions in use have no page in common, and a region has no page twice. -/
theorem Good.region_inj (h : Good s) {r' : Fin SHM_SLOTS} {j' : Nat} (hk : (s.shmTable r).key ≠ 0)
    (hk' : (s.shmTable r').key ≠ 0) (hj : j < (s.shmTable r).npages.toNat)
    (hj' : j' < (s.shmTable r').npages.toNat)
    (he : (s.shmTable r).pages j = (s.shmTable r').pages j') : r = r' ∧ j = j' := by
  have h1 := region_pos hk hj
  have h2 := region_pos hk' hj'
  rw [← he] at h2
  have h3 := h.once ((s.shmTable r).pages j)
  rw [mass_def] at h3
  by_cases hr : r = r'
  · subst hr
    refine ⟨rfl, ?_⟩
    by_contra hne
    have hle := le_sum (fun r' => (s.shmTable r').weight ((s.shmTable r).pages j)) r
    have htwo : 2 ≤ (s.shmTable r).weight ((s.shmTable r).pages j) := by
      unfold ShmRegion.weight
      rw [if_neg hk]
      unfold occ
      have hsub : ({j, j'} : Finset Nat) ⊆ (Finset.range (s.shmTable r).npages.toNat).filter
          fun v => pageCells (s.shmTable r).pages v = some ((s.shmTable r).pages j) := by
        intro v hv
        rcases Finset.mem_insert.1 hv with rfl | hv
        · exact Finset.mem_filter.2 ⟨Finset.mem_range.2 hj, rfl⟩
        · rw [Finset.mem_singleton] at hv
          subst hv
          exact Finset.mem_filter.2 ⟨Finset.mem_range.2 hj', by rw [pageCells, he]⟩
      calc 2 = ({j, j'} : Finset Nat).card := (Finset.card_pair hne).symm
        _ ≤ _ := Finset.card_le_card hsub
    omega
  · exfalso
    have hpair : (s.shmTable r).weight ((s.shmTable r).pages j) +
        (s.shmTable r').weight ((s.shmTable r).pages j) ≤
        ∑ r'', (s.shmTable r'').weight ((s.shmTable r).pages j) := by
      rw [← Finset.sum_pair (f := fun r'' => (s.shmTable r'').weight ((s.shmTable r).pages j)) hr]
      exact Finset.sum_le_sum_of_subset (Finset.subset_univ _)
    omega

/-- A page of the allocator that a process maps and does not hold is one that an
attachment covers. -/
theorem Good.mapped_covered (h : Good s) (hpt : (s.proc p).pagetable = some pt)
    (hl : pt.leaf v = some e) (hok : PageOk e.pa) (hzero : (s.proc p).space.weight e.pa = 0) : v ∈
    covered (s.proc p).shm := by
  obtain ⟨tf, htf, hu, -⟩ := h.full hpt
  by_contra hv
  by_cases hr : v ∈ reserved
  · rcases Finset.mem_insert.1 hr with rfl | hr
    · -- the trampoline lies below the first page of the allocator
      have htr : some e.pa = some Link.trampoline := by
        rw [← Node.mapped_of_leaf hl, hu.trampoline]
      rw [Option.some.inj htr] at hok
      exact absurd hok.2.1 (Nat.not_le.2 Link.trampoline_lt)
    · rw [Finset.mem_singleton] at hr
      subst hr
      have htr : some e.pa = some tf := by
        rw [← Node.mapped_of_leaf hl, hu.trapframe]
      rw [Space.weight_def, show (s.proc p).space.trapframe = some tf from htf, hitOpt_some,
        Option.some.inj htr, hit_self] at hzero
      omega
  · have hpos := weight_pos_of_own (x := (s.proc p).space) hpt hl
      fun hf => (Finset.mem_union.1 hf).elim hr hv
    omega

/-- A region page is mapped only where an attachment to the region covers it. -/
theorem Good.region_page_covered (h : Good s) (hpt : (s.proc p).pagetable = some pt)
    (hl : pt.leaf v = some e) (hk : (s.shmTable r).key ≠ 0) (hj : j < (s.shmTable r).npages.toNat)
    (he : e.pa = (s.shmTable r).pages j) :
    ∃ i, ((s.proc p).shm i).key = (s.shmTable r).key ∧
      v = ((s.proc p).shm i).uva / PGSIZE + j := by
  have hv : v ∈ covered (s.proc p).shm := by
    refine h.mapped_covered hpt hl ?_ ?_
    · rw [he]
      exact h.usable _ (region_mass hk hj)
    · rw [he]
      exact (h.region_alone hk hj).2 p
  obtain ⟨i, hi⟩ := mem_covered.1 hv
  obtain ⟨r', j', h1, h2, h3, h4, h5⟩ := h.covered_mapped hpt hi
  rw [hl] at h5
  have h6 : (s.shmTable r).pages j = (s.shmTable r').pages j' := by
    rw [← he]
    cases h5
    rfl
  obtain ⟨rfl, rfl⟩ := h.region_inj hk h2 hj h3 h6
  exact ⟨i, h1.symm, h4⟩

end

end G9OS.Kernel
