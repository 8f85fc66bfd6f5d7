import G9OS.Kernel.ProcSteps

/-! # What shm_open and shm_close can do

Creating a region moves pages from the free list to the region; attaching maps
them into one address space, whose page table may take further pages; detaching
unmaps them, and the last detach gives the pages back.
-/

namespace G9OS.Kernel

open Lib

variable {ok : Bool} {m' m1 m2 : Kmem} {k n : Nat} {pt' pt1 pt2 : PageTable} {t : State}

def pageCells (pages : Nat → PA) (j : Nat) : Option PA := some (pages j)

theorem occ_pageCells_succ (pages : Nat → PA) (n : Nat) (q : PA) :
    occ (Finset.range (n + 1)) (pageCells pages) q =
      occ (Finset.range n) (pageCells pages) q + hit (pages n) q := by
  rw [Finset.range_add_one, occ_insert Finset.notMem_range_self, pageCells, hitOpt_some]

theorem occ_pageCells_update (pages : Nat → PA) (n : Nat) (pa q : PA) :
    occ (Finset.range n) (pageCells (Function.update pages n pa)) q =
      occ (Finset.range n) (pageCells pages) q := by
  apply occ_congr
  intro v hv
  have hne : v ≠ n := (Finset.mem_range.1 hv).ne
  simp [pageCells, hne]

/-! ## Searching the tables -/

section
variable {s : State} {p : Proc} {key : Int}

theorem regionSlot_some {r : Fin SHM_SLOTS} (h : regionSlot s key = some r) :
    (s.shmTable r).key = key := by
  simpa using (Fin.find?_eq_some_iff.1 h).1

theorem regionSlot_none (h : regionSlot s key = none) (r : Fin SHM_SLOTS) :
    (s.shmTable r).key ≠ key := by
  simpa using Fin.find?_eq_none_iff.1 h r

theorem attachSlot_some {i : Fin PROC_SHM_SLOTS} (h : attachSlot p key = some i) :
    (p.shm i).key = key := by
  simpa using (Fin.find?_eq_some_iff.1 h).1

theorem attachSlot_none (h : attachSlot p key = none) (i : Fin PROC_SHM_SLOTS) :
    (p.shm i).key ≠ key := by
  simpa using Fin.find?_eq_none_iff.1 h i

end

theorem shmPages_le (size : Int) : shmPages size ≤ SHM_MAXPGS := min_le_right _ _

theorem le_shmPages (size : Int) : -2 ^ 31 ≤ shmPages size := by
  obtain ⟨h1, -⟩ := int32_range (size + PGSIZE - 1)
  unfold shmPages
  refine le_min ?_ (by norm_num)
  set x := int32 (size + PGSIZE - 1)
  rcases le_or_gt 0 x with hx | hx
  · have : 0 ≤ x.tdiv PGSIZE := Int.tdiv_nonneg hx (by norm_num)
    omega
  · have h4 : x.tdiv PGSIZE = -((-x).tdiv PGSIZE) := by rw [Int.neg_tdiv]; omega
    have h5 : (-x).tdiv PGSIZE ≤ -x := Int.tdiv_le_self _ (by omega)
    omega

/-! ## Mapping a region -/

/-- The first `k` of `pages` have been mapped from `uva` on, where nothing was. -/
structure Maps (pages : Nat → PA) (uva k : Nat) (pt : PageTable) (m : Kmem) (pt' : PageTable)
    (m' : Kmem) : Prop where
  outside : ∀ v, v ∉ pageRange uva k → pt'.leaf v = pt.leaf v
  vacant : ∀ v ∈ pageRange uva k, pt.leaf v = none
  mapped : ∀ j < k, pt'.leaf (uva / PGSIZE + j) = some ⟨pages j, permRWU⟩
  pages : ∀ q, m'.count q + pt'.tables q = m.count q + pt.tables q

section
variable {pages : Nat → PA} {uva : Nat} {pt : PageTable} {m : Kmem}

theorem Maps.refl : Maps pages uva 0 pt m pt m :=
  ⟨fun _ _ => rfl, by simp, by simp, fun _ => rfl⟩

theorem Maps.succ (h : Maps pages uva k pt m pt1 m1)
    (h' : MapsPage pt1 (uva + k * PGSIZE) ⟨pages k, permRWU⟩ m1 true pt2 m2) :
    Maps pages uva (k + 1) pt m pt2 m2 := by
  have hd : (uva + k * PGSIZE) / PGSIZE = uva / PGSIZE + k :=
    Nat.add_mul_div_right _ _ (by decide)
  have hleaf := h'.done rfl
  have hvac := h'.vacant rfl
  rw [hd] at hleaf hvac
  refine ⟨fun v hv => ?_, fun v hv => ?_, fun j hj => ?_, fun q => ?_⟩
  · simp only [Finset.mem_Ico] at hv
    rw [hleaf, Function.update_of_ne (by omega)]
    exact h.outside v (by simp only [Finset.mem_Ico]; omega)
  · by_cases hk : v = uva / PGSIZE + k
    · rw [hk, ← h.outside _ (by simp)]
      exact hvac
    · refine h.vacant v ?_
      simp only [Finset.mem_Ico] at hv ⊢
      omega
  · by_cases hk : j = k
    · subst hk
      rw [hleaf, Function.update_self]
    · rw [hleaf, Function.update_of_ne (by omega)]
      exact h.mapped j (by omega)
  · rw [h'.pages, h.pages]

theorem Maps.failed {va : Nat} {pte : Pte} (h : Maps pages uva k pt m pt1 m1)
    (h' : MapsPage pt1 va pte m1 false pt2 m2) :
    Maps pages uva k pt m pt2 m2 := by
  have hleaf := h'.failed rfl
  refine ⟨fun v hv => ?_, h.vacant, fun j hj => ?_, fun q => ?_⟩
  · rw [hleaf, h.outside v hv]
  · rw [hleaf, h.mapped j hj]
  · rw [h'.pages, h.pages]

theorem MapsPage.next_le {pt : PageTable} {pte : Pte} {m : Kmem}
    (h : MapsPage pt (uva + k * PGSIZE) pte m ok pt' m') : uva + (k + 1) * PGSIZE ≤ MAXVA := by
  have h1 := h.aligned
  have h2 := h.lt
  norm_num at h1 h2 ⊢
  omega

/-- The mapping loop after `k` pages, with `n` to come. -/
theorem shmMapLoop_spec {i : Nat} (hu : uva < 2 ^ 64) (hk : 0 < k → uva + k * PGSIZE ≤ MAXVA)
    (hm : Maps pages uva k pt m pt1 m1)
    (h : shmMapLoop pages uva n k pt1 m1 = .ok (ok, i, pt', m')) :
    Maps pages uva i pt m pt' m' ∧ (0 < i → uva + i * PGSIZE ≤ MAXVA) ∧ i ≤ k + n ∧
      (ok = true → i = k + n) := by
  induction n generalizing k pt1 m1 with
  | zero =>
      cases h
      exact ⟨hm, hk, Nat.le_add_right _ _, fun _ => (Nat.add_zero _).symm⟩
  | succ n ih =>
      unfold shmMapLoop at h
      have hva : addU64 uva (k * PGSIZE) = uva + k * PGSIZE := by
        refine addU64_of_lt ?_
        rcases Nat.eq_zero_or_pos k with rfl | hpos
        · simpa using hu
        · exact lt_of_le_of_lt (hk hpos) (by decide)
      rw [hva, bind_ok] at h
      obtain ⟨⟨ok1, pt2, m2⟩, hp, h⟩ := h
      have hmp := mappages_one hp
      cases ok1 with
      | true =>
          simp only [if_true] at h
          obtain ⟨h1, h2, h3, h4⟩ := ih (fun _ => hmp.next_le) (hm.succ hmp) h
          exact ⟨h1, h2, by omega, fun hok => by rw [h4 hok]; omega⟩
      | false =>
          cases h
          exact ⟨hm.failed hmp, hk, by omega, fun hok => by cases hok⟩

theorem shmMapLoop_maps {i : Nat} (hu : uva < 2 ^ 64)
    (h : shmMapLoop pages uva n 0 pt m = .ok (ok, i, pt', m')) :
    Maps pages uva i pt m pt' m' ∧ (0 < i → uva + i * PGSIZE ≤ MAXVA) ∧ i ≤ n ∧
      (ok = true → i = n) := by
  have hspec := shmMapLoop_spec hu (by simp) Maps.refl h
  rwa [Nat.zero_add] at hspec

end

/-- The bytes that `shm_open` adds to the size for a region of `npages` pages. -/
def mapBytes (npages : Int) : Nat := toU64 npages * PGSIZE % 2 ^ 64

theorem mapBytes_of_nonneg {npages : Int} (h0 : 0 ≤ npages) (h4 : npages ≤ SHM_MAXPGS) :
    mapBytes npages = npages.toNat * PGSIZE := by
  unfold mapBytes toU64
  norm_num at h4 ⊢
  omega

variable [Link]

/-! ## The pages of a region -/

theorem kfreePages_ok {pages : Nat → PA} (m : Kmem)
    (h : ∀ j, k ≤ j → j < k + n → PageOk (pages j)) : ∃ m', kfreePages pages n k m = .ok m' := by
  induction n generalizing k m with
  | zero => exact ⟨m, rfl⟩
  | succ n ih =>
      unfold kfreePages kfree
      rw [if_pos (h k le_rfl (by omega)), ok_bind]
      exact ih _ fun j h1 h2 => h j (by omega) (by omega)

theorem kfreePages_spec {pages : Nat → PA} {m : Kmem} (h : kfreePages pages n k m = .ok m')
    (q : PA) :
    m'.count q + occ (Finset.range k) (pageCells pages) q =
      m.count q + occ (Finset.range (k + n)) (pageCells pages) q := by
  induction n generalizing k m with
  | zero => cases h; rfl
  | succ n ih =>
      unfold kfreePages at h
      obtain ⟨m1, hf, h⟩ := bind_ok.1 h
      have h1 := ih h
      have h2 := kfree_count hf q
      have h3 := occ_pageCells_succ pages k q
      have h4 : k + 1 + n = k + (n + 1) := by omega
      rw [h4] at h1
      omega

/-- Allocation of a region's pages after `j` of them, all of which `c` counts. -/
theorem shmAllocPages_spec {j : Nat} {pages pages' : Nat → PA} {m : Kmem} {c : PA → Nat}
    (hc : ∀ q, m.count q + occ (Finset.range j) (pageCells pages) q = c q)
    (h : shmAllocPages n j pages m = .ok (ok, pages', m')) (q : PA) :
    m'.count q + (if ok then occ (Finset.range (j + n)) (pageCells pages') q else 0) = c q := by
  induction n generalizing j pages m with
  | zero => cases h; exact hc q
  | succ n ih =>
      unfold shmAllocPages at h
      cases hk : kalloc m with
      | mk a m1 =>
      rw [hk] at h
      rcases kalloc_cases hk with ⟨rfl, rfl, rfl⟩ | ⟨pa, rfl, rfl⟩
      · obtain ⟨m2, hf, h⟩ := bind_ok.1 h
        cases h
        have h1 := kfreePages_spec hf q
        have h2 := hc q
        simp only [Nat.zero_add, Finset.range_zero, occ_empty] at h1
        simp only [Bool.false_eq_true, if_false]
        omega
      · have h1 := ih (j := j + 1) (m := m1) (fun q => by
          rw [occ_pageCells_succ, occ_pageCells_update, Function.update_self, ← hc q, count_cons_hit]
          omega) h
        rwa [Nat.add_right_comm, Nat.add_assoc] at h1

theorem shmAllocPages_length {j : Nat} {pages pages' : Nat → PA} {m : Kmem}
    (h : shmAllocPages n j pages m = .ok (true, pages', m')) : m'.length + n = m.length := by
  induction n generalizing j pages m with
  | zero => cases h; rfl
  | succ n ih =>
      unfold shmAllocPages at h
      cases m with
      | nil =>
          obtain ⟨m2, -, h⟩ := bind_ok.1 h
          cases h
      | cons pa m =>
          have h1 := ih h
          rw [List.length_cons]
          omega

inductive Made (s : State) (key size : Int) : Option (Fin SHM_SLOTS) → State → Prop
  | found {r : Fin SHM_SLOTS} : regionSlot s key = some r → Made s key size (some r) s
  | full : regionSlot s key = none → regionSlot s 0 = none → Made s key size none s
  | failed {r : Fin SHM_SLOTS} {pages : Nat → PA} {m : Kmem} : regionSlot s key = none →
      regionSlot s 0 = some r → (∀ q, m.count q = s.kmem.count q) →
      Made s key size none ((s.setKmem m).setRegion r ⟨0, shmPages size, pages, 0⟩)
  | created {r : Fin SHM_SLOTS} {pages : Nat → PA} {m : Kmem} : regionSlot s key = none →
      regionSlot s 0 = some r →
      (∀ q, m.count q + occ (Finset.range (shmPages size).toNat) (pageCells pages) q =
        s.kmem.count q) → m.length + (shmPages size).toNat = s.kmem.length →
      Made s key size (some r) ((s.setKmem m).setRegion r ⟨key, shmPages size, pages, 0⟩)

theorem shmGet_made {s : State} {key size : Int} {r : Option (Fin SHM_SLOTS)}
    (h : shmGet s key size = .ok (r, t)) : Made s key size r t := by
  unfold shmGet at h
  cases hk : regionSlot s key with
  | some r =>
      rw [hk] at h
      cases h
      exact .found hk
  | none =>
      rw [hk] at h
      cases hf : regionSlot s 0 with
      | none =>
          rw [hf] at h
          cases h
          exact .full hk hf
      | some r =>
          rw [hf] at h
          obtain ⟨⟨ok, pages, m⟩, ha, h⟩ := bind_ok.1 h
          have hc := shmAllocPages_spec (c := fun q => s.kmem.count q) (fun q => by simp) ha
          cases ok with
          | true =>
              cases h
              exact .created hk hf (by simpa using hc) (shmAllocPages_length ha)
          | false =>
              cases h
              exact .failed hk hf (by simpa using hc)

/-! ## Attaching -/

omit [Link] in
/-- With two free pages for each page to map, the mapping loop does not run out. -/
theorem shmMapLoop_enough {pages : Nat → PA} {uva i i' : Nat} {pt : PageTable} {m : Kmem}
    (hm : 2 * n ≤ m.length) (h : shmMapLoop pages uva n i pt m = .ok (ok, i', pt', m')) :
    ok = true := by
  induction n generalizing i pt m with
  | zero => cases h; rfl
  | succ n ih =>
      unfold shmMapLoop at h
      rw [bind_ok] at h
      obtain ⟨⟨ok1, pt1, m1⟩, hp, h⟩ := h
      obtain ⟨rfl, hlen⟩ := mappages_enough (by omega) hp
      exact ih (by omega) h

theorem Maps.undo {pages : Nat → PA} {uva : Nat} {pt : PageTable} {m : Kmem}
    (h : Maps pages uva k pt m pt1 m1) (hu : uva + k * PGSIZE < 2 ^ 64)
    (h' : uvmunmap pt1 uva k false m1 = .ok (pt2, m2)) : Extends pt m ∅ pt2 m2 := by
  obtain ⟨hl, ht, hc⟩ := uvmunmap_spec h'
  rw [unmapRange_eq hu] at hl
  refine ⟨fun v _ => ?_, by simp, by simp, fun q => ?_⟩
  · rw [hl]
    by_cases hv : v ∈ pageRange uva k
    · simp only [cut, hv, if_true, h.vacant v hv]
    · simp only [cut, hv, if_false, h.outside v hv]
  · have h1 := hc q
    have h2 := ht q
    have h3 := h.pages q
    simp only [Bool.false_eq_true, if_false] at h1
    simp only [occ_empty]
    omega

structure Attaches (s : State) (p : Fin NPROC) (r : Fin SHM_SLOTS) (key : Int)
    (pslot : Fin PROC_SHM_SLOTS) (pt pt' : PageTable) (m : Kmem) : Prop where
  fresh : attachSlot (s.proc p) key = none
  slot : attachSlot (s.proc p) 0 = some pslot
  pagetable : (s.proc p).pagetable = some pt
  fits : addU64 (pgroundup (s.proc p).sz) (mapBytes (s.shmTable r).npages) ≤ TRAPFRAME
  maps : Maps (s.shmTable r).pages (pgroundup (s.proc p).sz) (s.shmTable r).npages.toNat pt s.kmem
    pt' m

def attachedState (s : State) (p : Fin NPROC) (r : Fin SHM_SLOTS) (key : Int)
    (pslot : Fin PROC_SHM_SLOTS) (pt' : PageTable) (m : Kmem) : State :=
  attached (s.setSpace p pt' m) p pslot r
    ⟨key, pgroundup (s.proc p).sz, (s.shmTable r).npages⟩
    (addU64 (pgroundup (s.proc p).sz) (mapBytes (s.shmTable r).npages))

/-- Why a process cannot attach to region `r`: no free attachment, no address space, or
too few free pages for the page table. -/
def NoRoom (s : State) (p : Fin NPROC) (r : Fin SHM_SLOTS) : Prop :=
  attachSlot (s.proc p) 0 = none ∨
    TRAPFRAME < addU64 (pgroundup (s.proc p).sz) (mapBytes (s.shmTable r).npages) ∨
    s.kmem.length < 2 * (s.shmTable r).npages.toNat

theorem shmAttach_cases {s : State} {p : Fin NPROC} {r : Fin SHM_SLOTS} {key : Int} {ret : Nat}
    (h : shmAttach s p r key = .ok (ret, t)) :
    (∃ i, attachSlot (s.proc p) key = some i ∧ ret = ((s.proc p).shm i).uva ∧ t = s) ∨
      (ret = MINUS1 ∧ NoRoom s p r ∧ (t = s ∨ ∃ own own' m, (s.proc p).pagetable = some own ∧
        Extends own s.kmem ∅ own' m ∧ t = s.setSpace p own' m)) ∨
      ∃ pslot pt pt' m, Attaches s p r key pslot pt pt' m ∧
        (0 < (s.shmTable r).npages.toNat →
          pgroundup (s.proc p).sz + (s.shmTable r).npages.toNat * PGSIZE ≤ MAXVA) ∧
        ret = pgroundup (s.proc p).sz ∧ t = attachedState s p r key pslot pt' m := by
  unfold shmAttach at h
  cases hk : attachSlot (s.proc p) key with
  | some i =>
      rw [hk] at h
      cases h
      exact .inl ⟨i, rfl, rfl, rfl⟩
  | none =>
      rw [hk] at h
      cases hf : attachSlot (s.proc p) 0 with
      | none =>
          rw [hf] at h
          cases h
          exact .inr (.inl ⟨rfl, .inl hf, .inl rfl⟩)
      | some pslot =>
          rw [hf] at h
          dsimp only at h
          split at h
          · rename_i hfit
            cases h
            exact .inr (.inl ⟨rfl, .inr (.inl hfit), .inl rfl⟩)
          · rename_i hfit
            cases ho : (s.proc p).pagetable with
            | none => simp [ho] at h
            | some pt =>
                simp only [ho] at h
                rw [bind_ok] at h
                obtain ⟨⟨ok, i, pt1, m1⟩, hl, h⟩ := h
                have hu64 := pgroundup_lt_u64 (s.proc p).sz
                obtain ⟨hmaps, hbelow, -, hall⟩ := shmMapLoop_maps hu64 hl
                cases ok with
                | true =>
                    cases h
                    rw [hall rfl] at hmaps hbelow
                    exact .inr (.inr ⟨pslot, pt, pt1, m1,
                      ⟨hk, hf, ho, Nat.le_of_not_lt hfit, hmaps⟩, hbelow, rfl, rfl⟩)
                | false =>
                    simp only [Bool.false_eq_true, if_false] at h
                    rw [bind_ok] at h
                    obtain ⟨⟨pt2, m2⟩, hu, h⟩ := h
                    cases h
                    have hend : pgroundup (s.proc p).sz + i * PGSIZE < 2 ^ 64 := by
                      rcases Nat.eq_zero_or_pos i with rfl | hpos
                      · simpa using hu64
                      · exact lt_of_le_of_lt (hbelow hpos) (by decide)
                    have hfew : s.kmem.length < 2 * (s.shmTable r).npages.toNat :=
                      Nat.lt_of_not_le fun hge => by cases shmMapLoop_enough hge hl
                    exact .inr (.inl ⟨rfl, .inr (.inr hfew),
                      .inr ⟨pt, pt2, m2, rfl, hmaps.undo hend hu, rfl⟩⟩)

/-! ## Detaching -/

/-- A detachment of `p` up to the release of the region. -/
structure Detaches (s : State) (p : Fin NPROC) (key : Int) (pslot : Fin PROC_SHM_SLOTS)
    (r : Fin SHM_SLOTS) (pt pt' : PageTable) (m : Kmem) : Prop where
  pos : 0 < key
  slot : attachSlot (s.proc p) key = some pslot
  region : regionSlot s key = some r
  pagetable : (s.proc p).pagetable = some pt
  leaf : pt'.leaf = cut pt.leaf
    (unmapRange ((s.proc p).shm pslot).uva (toU64 ((s.proc p).shm pslot).npages))
  tables : ∀ q, pt'.tables q = pt.tables q
  pages : ∀ q, m.count q = s.kmem.count q

/-- The state in which `shm_close` gives up its reference. -/
def detachedState (s : State) (p : Fin NPROC) (pslot : Fin PROC_SHM_SLOTS) (pt' : PageTable)
    (m : Kmem) : State :=
  (s.setSpace p pt' m).modProc p (dropAttach pslot)

theorem shmClose_cases {s : State} {p : Fin NPROC} {key ret : Int}
    (h : shmClose s p key = .ok (ret, t)) :
    (ret = -1 ∧ t = s) ∨
      ∃ pslot r pt pt' m, Detaches s p key pslot r pt pt' m ∧ ret = 0 ∧
        shmRelease (detachedState s p pslot pt' m) r = .ok t := by
  unfold shmClose at h
  split at h
  · cases h
    exact .inl ⟨rfl, rfl⟩
  · rename_i hpos
    cases hk : attachSlot (s.proc p) key with
    | none =>
        rw [hk] at h
        cases h
        exact .inl ⟨rfl, rfl⟩
    | some pslot =>
        rw [hk] at h
        cases hr : regionSlot s key with
        | none =>
            rw [hr] at h
            cases h
            exact .inl ⟨rfl, rfl⟩
        | some r =>
            simp only [hr] at h
            cases ho : (s.proc p).pagetable with
            | none => simp [ho] at h
            | some pt =>
                simp only [ho] at h
                rw [bind_ok] at h
                obtain ⟨⟨pt', m⟩, hu, h⟩ := h
                obtain ⟨t', hrel, h⟩ := bind_ok.1 h
                cases h
                obtain ⟨hl, ht, hc⟩ := uvmunmap_spec hu
                exact .inr ⟨pslot, r, pt, pt', m,
                  ⟨by omega, hk, hr, ho, hl, ht, by simpa using hc⟩, rfl, hrel⟩

/-- Giving up a reference that is not the last one, or freeing the region. -/
theorem shmRelease_cases {s : State} {r : Fin SHM_SLOTS} (h : shmRelease s r = .ok t) :
    (0 < int32 ((s.shmTable r).refcount - 1) ∧
        t = s.setRegion r ((s.shmTable r).setRefcount (int32 ((s.shmTable r).refcount - 1)))) ∨
      (int32 ((s.shmTable r).refcount - 1) ≤ 0 ∧
        ∃ m, (∀ q, m.count q = s.kmem.count q +
            occ (Finset.range (s.shmTable r).npages.toNat) (pageCells (s.shmTable r).pages) q) ∧
          t = (s.setKmem m).setRegion r
            { s.shmTable r with key := 0, npages := 0, refcount := 0 }) := by
  unfold shmRelease at h
  dsimp only at h
  split at h
  · rename_i hle
    obtain ⟨m, hf, h⟩ := bind_ok.1 h
    cases h
    refine .inr ⟨hle, m, fun q => ?_, rfl⟩
    have := kfreePages_spec hf q
    simpa using this
  · rename_i hgt
    cases h
    exact .inl ⟨by omega, rfl⟩

end G9OS.Kernel
