import G9OS.Kernel.PageTableFacts
import G9OS.Kernel.Vm

/-! # What the address-space operations do to mappings and to the free list

Growing an address space, faulting a page in and copying one all add fresh pages
at vacant positions; they share one specification, `Extends`. Shrinking and
freeing give the pages of a range back.
-/

namespace G9OS.Kernel

open Lib

variable {ok : Bool} {R : Finset Nat} {m' m'' m1 : Kmem} {a base k newsz oldsz sz sz' v va : Nat}
  {tf : PA} {new' own own' pt pt' : PageTable}

abbrev vpns : Finset Nat := Finset.range NVPN

/-- The two pages at the top that every user page table maps. -/
abbrev reserved : Finset Nat := {TRAMPOLINE / PGSIZE, TRAPFRAME / PGSIZE}

theorem lt_trapframe_not_reserved (h : v < TRAPFRAME / PGSIZE) : v ∉ reserved := by
  simp only [Finset.mem_insert, Finset.mem_singleton]
  norm_num at h ⊢
  omega

/-- Fresh pages have been mapped at the vacant positions `R`, and nothing else has
changed hands. -/
structure Extends (pt : PageTable) (m : Kmem) (R : Finset Nat) (pt' : PageTable) (m' : Kmem) :
    Prop where
  outside : ∀ v, v ∉ R → pt'.leaf v = pt.leaf v
  vacant : ∀ v ∈ R, pt.leaf v = none
  filled : ∀ v ∈ R, ∃ e, pt'.leaf v = some e
  pages : ∀ q, m'.count q + pt'.tables q + occ R pt'.mapped q = m.count q + pt.tables q

theorem Extends.refl (pt : PageTable) (m : Kmem) : Extends pt m ∅ pt m :=
  ⟨fun _ _ => rfl, by simp, by simp, by simp⟩

theorem Extends.leaf_eq {m : Kmem} (h : Extends pt m ∅ pt' m') :
    pt'.leaf = pt.leaf := by
  funext v
  exact h.outside v (by simp)

theorem Extends.trans {pt'' : PageTable} {m : Kmem} {R' : Finset Nat} (h : Extends pt m R pt' m')
    (h' : Extends pt' m' R' pt'' m'') :
    Extends pt m (R ∪ R') pt'' m'' := by
  have hdis : ∀ v ∈ R, v ∉ R' := by
    intro v hv hv'
    obtain ⟨e, he⟩ := h.filled v hv
    rw [h'.vacant v hv'] at he
    cases he
  refine ⟨fun v hv => ?_, fun v hv => ?_, fun v hv => ?_, fun q => ?_⟩
  · simp only [Finset.mem_union, not_or] at hv
    rw [h'.outside v hv.2, h.outside v hv.1]
  · rcases Finset.mem_union.1 hv with hv | hv
    · exact h.vacant v hv
    · rw [← h.outside v fun hr => hdis v hr hv]
      exact h'.vacant v hv
  · by_cases hv' : v ∈ R'
    · exact h'.filled v hv'
    · rw [h'.outside v hv']
      exact h.filled v ((Finset.mem_union.1 hv).resolve_right hv')
  · have hsplit : occ (R ∪ R') pt''.mapped q = occ R pt'.mapped q + occ R' pt''.mapped q := by
      have hR : occ R pt'.mapped q = occ R pt''.mapped q := by
        apply occ_congr
        intro v hv
        simp only [Node.mapped, h'.outside v (hdis v hv)]
      rw [hR]
      unfold occ
      rw [Finset.filter_union, Finset.card_union_of_disjoint]
      rw [Finset.disjoint_left]
      intro v hv hv'
      exact hdis v (Finset.mem_filter.1 hv).1 (Finset.mem_filter.1 hv').1
    have h1 := h.pages q
    have h2 := h'.pages q
    omega

theorem MapsPage.extends {pa : PA} {perm : Perm} {m : Kmem}
    (h : MapsPage pt va ⟨pa, perm⟩ m true pt' m') :
    Extends pt (pa :: m) {va / PGSIZE} pt' m' := by
  have hleaf := h.done rfl
  refine ⟨fun v hv => ?_, fun v hv => ?_, fun v hv => ?_, fun q => ?_⟩
  · rw [hleaf, Function.update_of_ne (by simpa using hv)]
  · rw [Finset.mem_singleton.1 hv]
    exact h.vacant rfl
  · rw [Finset.mem_singleton.1 hv]
    exact ⟨_, by rw [hleaf, Function.update_self]⟩
  · have hone : occ {va / PGSIZE} pt'.mapped q = hit pa q := by
      rw [← Finset.insert_empty, occ_insert (Finset.notMem_empty _)]
      simp [Node.mapped, hleaf]
    rw [hone, count_cons_hit]
    have := h.pages q
    omega

theorem MapsPage.extends_failed {pte : Pte} {m : Kmem} (h : MapsPage pt va pte m false pt' m') :
    Extends pt m ∅ pt' m' :=
  ⟨fun v _ => by rw [h.failed rfl], by simp, by simp, fun q => by simpa using h.pages q⟩

theorem Extends.undo {pt'' : PageTable} {m : Kmem} {T : Finset Nat} (h : Extends pt m R pt' m')
    (hRT : R ⊆ T) (hT : ∀ v ∈ T, pt.leaf v = none) (hleaf : pt''.leaf = cut pt'.leaf T)
    (htab : ∀ q, pt''.tables q = pt'.tables q)
    (hm : ∀ q, m''.count q = m'.count q + occ T pt'.mapped q) : Extends pt m ∅ pt'' m'' := by
  refine ⟨fun v _ => ?_, by simp, by simp, fun q => ?_⟩
  · rw [hleaf]
    by_cases hv : v ∈ T
    · simp [cut, hv, hT v hv]
    · simp [cut, hv, h.outside v fun hr => hv (hRT hr)]
  · have hocc : occ T pt'.mapped q = occ R pt'.mapped q :=
      (occ_mono_eq hRT fun v hv hr => by simp [Node.mapped, h.outside v hr, hT v hv]) q
    have h1 := h.pages q
    have h2 := htab q
    have h3 := hm q
    simp only [occ_empty]
    omega

/-! ## Rounding -/

theorem pgroundup_aligned (a : Nat) : pgroundup a % PGSIZE = 0 := Nat.mul_mod_left _ _

theorem pgroundup_of_aligned (ha : a % PGSIZE = 0) (hlt : a < 2 ^ 63) :
    pgroundup a = a := by
  unfold pgroundup addU64
  norm_num at ha hlt ⊢
  omega

theorem pgroundup_le (hlt : a < 2 ^ 63) : a ≤ pgroundup a := by
  unfold pgroundup addU64
  norm_num at hlt ⊢
  omega

theorem pgroundup_lt (hlt : a < 2 ^ 63) : pgroundup a < a + PGSIZE := by
  unfold pgroundup addU64
  norm_num at hlt ⊢
  omega

theorem pgroundup_le_of_le {b : Nat} (hb : b % PGSIZE = 0) (hlt : b < 2 ^ 63) (h : a ≤ b) :
    pgroundup a ≤ b := by
  unfold pgroundup addU64
  norm_num at hb hlt ⊢
  omega

theorem pgroundup_lt_u64 (sz : Nat) : pgroundup sz < 2 ^ 64 :=
  lt_of_le_of_lt (Nat.div_mul_le_self _ _) (Nat.mod_lt _ (by decide))

theorem pgroundup_le_trapframe (h : sz ≤ TRAPFRAME) : pgroundup sz ≤ TRAPFRAME :=
  pgroundup_le_of_le (by decide) (by decide) h

theorem addU64_of_lt {b : Nat} (h : a + b < 2 ^ 64) : addU64 a b = a + b := Nat.mod_eq_of_lt h

theorem toU64_natCast {n : Nat} (h : n < 2 ^ 64) : toU64 (n : Int) = n := by
  unfold toU64
  norm_num at h ⊢
  omega

/-! ## uvmdealloc -/

/-- The pages that `uvmdealloc` gives back. -/
def deallocRange (oldsz newsz : Nat) : Finset Nat :=
  if oldsz ≤ newsz then ∅
  else if pgroundup newsz < pgroundup oldsz then
    unmapRange (pgroundup newsz) (deallocPages oldsz newsz)
  else ∅

theorem cut_nothing {β : Type} (f : Nat → Option β) : cut f ∅ = f := by
  funext v
  simp [cut]

theorem uvmdealloc_spec [Link] {m : Kmem} (h : uvmdealloc pt oldsz newsz m = .ok (sz', pt', m')) :
    sz' = min oldsz newsz ∧ pt'.leaf = cut pt.leaf (deallocRange oldsz newsz) ∧
      (∀ q, pt'.tables q = pt.tables q) ∧
      ∀ q, m'.count q = m.count q + occ (deallocRange oldsz newsz) pt.mapped q := by
  unfold uvmdealloc at h
  split at h
  · rename_i hle
    cases h
    rw [deallocRange, if_pos hle]
    exact ⟨by omega, (cut_nothing _).symm, fun _ => rfl, by simp⟩
  · rename_i hle
    split at h
    · rename_i hlt
      obtain ⟨⟨pt1, m1⟩, hu, h⟩ := bind_ok.1 h
      cases h
      rw [deallocRange, if_neg hle, if_pos hlt]
      obtain ⟨h1, h2, h3⟩ := uvmunmap_spec hu
      exact ⟨by omega, h1, h2, by simpa using h3⟩
    · rename_i hlt
      cases h
      rw [deallocRange, if_neg hle, if_neg hlt]
      exact ⟨by omega, (cut_nothing _).symm, fun _ => rfl, by simp⟩

theorem deallocRange_pages (hb : base % PGSIZE = 0) (hlt : base + k * PGSIZE < 2 ^ 40) :
    deallocRange (base + k * PGSIZE) base =
      Finset.Ico (base / PGSIZE) (base / PGSIZE + k) := by
  have hr : pgroundup base = base := pgroundup_of_aligned hb (by norm_num at hlt ⊢; omega)
  have hr' : pgroundup (base + k * PGSIZE) = base + k * PGSIZE :=
    pgroundup_of_aligned (by rw [Nat.add_mul_mod_self_right]; exact hb)
      (by norm_num at hlt ⊢; omega)
  unfold deallocRange
  rw [hr, hr']
  by_cases hk : k = 0
  · subst hk; simp
  · have hpos : base < base + k * PGSIZE := by norm_num; omega
    rw [if_neg (by omega), if_pos hpos]
    have hpages : deallocPages (base + k * PGSIZE) base = k := by
      unfold deallocPages
      rw [hr, hr', Nat.add_sub_cancel_left, Nat.mul_div_cancel _ (by decide)]
      rw [int32_of_range (by norm_num) (by norm_num at hlt ⊢; omega)]
      exact toU64_natCast (by norm_num at hlt ⊢; omega)
    rw [hpages, unmapRange_eq (by norm_num at hlt ⊢; omega)]

/-- Below the trapframe the sizes do not overflow: all pages between them go. -/
theorem deallocRange_eq (hold : oldsz ≤ TRAPFRAME) (hlt : newsz < oldsz) :
    deallocRange oldsz newsz =
      Finset.Ico (pgroundup newsz / PGSIZE) (pgroundup oldsz / PGSIZE) := by
  have h1 := pgroundup_le_trapframe hold
  have h2 := pgroundup_le_trapframe (le_trans hlt.le hold)
  have h3 := pgroundup_aligned newsz
  have h4 := pgroundup_aligned oldsz
  unfold deallocRange
  rw [if_neg (by omega)]
  split
  · rename_i hup
    have hpages : deallocPages oldsz newsz = (pgroundup oldsz - pgroundup newsz) / PGSIZE := by
      unfold deallocPages
      rw [int32_of_range (le_trans (by norm_num) (Int.natCast_nonneg _))
        (by norm_num at h1 ⊢; omega)]
      exact toU64_natCast (by norm_num at h1 ⊢; omega)
    have hend : pgroundup newsz / PGSIZE + (pgroundup oldsz - pgroundup newsz) / PGSIZE =
        pgroundup oldsz / PGSIZE := by
      norm_num at h3 h4 hup ⊢
      omega
    rw [hpages, unmapRange_eq (by norm_num at h1 h2 ⊢; omega), hend]
  · rename_i hup
    rw [Finset.Ico_eq_empty]
    norm_num at h3 h4 ⊢
    omega

theorem deallocRange_lt (hold : oldsz ≤ TRAPFRAME) (hv : v ∈ deallocRange oldsz newsz) : v <
    TRAPFRAME / PGSIZE := by
  by_cases hlt : newsz < oldsz
  · rw [deallocRange_eq hold hlt, Finset.mem_Ico] at hv
    have h1 := pgroundup_le_trapframe hold
    exact lt_of_lt_of_le hv.2 (Nat.div_le_div_right h1)
  · rw [deallocRange, if_pos (by omega)] at hv
    exact absurd hv (Finset.notMem_empty v)

/-! ## uvmalloc -/

theorem kalloc_cases {m : Kmem} {r : Option PA} (h : kalloc m = (r, m')) :
    (r = none ∧ m = [] ∧ m' = []) ∨ ∃ pa, r = some pa ∧ m = pa :: m' := by
  cases m with
  | nil => cases h; simp
  | cons pa m => cases h; simp

theorem MapsPage.given_back [Link] {pte : Pte} {mem : PA} {m : Kmem}
    (h : MapsPage pt va pte m false pt' m') (hf : kfree mem m' = .ok m'') :
    Extends pt (mem :: m) ∅ pt' m'' := by
  refine ⟨h.extends_failed.outside, by simp, by simp, fun q => ?_⟩
  have h1 := h.extends_failed.pages q
  have h2 := kfree_count hf q
  rw [count_cons_hit]
  simp only [occ_empty] at h1 ⊢
  omega

abbrev pageRange (base k : Nat) : Finset Nat :=
  Finset.Ico (base / PGSIZE) (base / PGSIZE + k)

theorem pageRange_succ (base k : Nat) :
    pageRange base k ∪ {(base + k * PGSIZE) / PGSIZE} = pageRange base (k + 1) := by
  have hd : (base + k * PGSIZE) / PGSIZE = base / PGSIZE + k := Nat.add_mul_div_right _ _ (by decide)
  ext v
  simp only [hd, Finset.mem_union, Finset.mem_Ico, Finset.mem_singleton]
  omega

/-- Shrinking back to `base` undoes an extension by the first `k` pages. -/
theorem uvmdealloc_undo [Link] {pt1 : PageTable} {m : Kmem} (hb : base % PGSIZE = 0)
    (hlt : base + k * PGSIZE < 2 ^ 40) (he : Extends pt m (pageRange base k) pt1 m1)
    (h : uvmdealloc pt1 (base + k * PGSIZE) base m1 = .ok (sz', pt', m')) :
    Extends pt m ∅ pt' m' := by
  obtain ⟨-, hl, ht, hc⟩ := uvmdealloc_spec h
  rw [deallocRange_pages hb hlt] at hl hc
  exact he.undo subset_rfl he.vacant hl ht hc

def Allocated (pt : PageTable) (m : Kmem) (newsz : Nat) (R : Finset Nat)
    (sz' : Nat) (pt' : PageTable) (m' : Kmem) : Prop :=
  (sz' = newsz ∧ Extends pt m R pt' m') ∨ (sz' = 0 ∧ Extends pt m ∅ pt' m')

/-- The loop of `uvmalloc` after `k` pages, with `n` still to come. -/
theorem uvmallocLoop_spec [Link] {perm : Perm} {n : Nat} {pt1 : PageTable} {m : Kmem}
    (hb : base % PGSIZE = 0) (hlt : base + k * PGSIZE < 2 ^ 39)
    (he : Extends pt m (pageRange base k) pt1 m1)
    (h : uvmallocLoop perm base newsz n pt1 (base + k * PGSIZE) m1 = .ok (sz', pt', m')) :
    Allocated pt m newsz (pageRange base (k + n)) sz' pt' m' := by
  have hlt' : base + k * PGSIZE < 2 ^ 40 := lt_trans hlt (by norm_num)
  induction n generalizing k pt1 m1 with
  | zero =>
      cases h
      exact .inl ⟨rfl, he⟩
  | succ n ih =>
      unfold uvmallocLoop at h
      cases hk : kalloc m1 with
      | mk r m2 =>
      rcases kalloc_cases hk with ⟨rfl, rfl, rfl⟩ | ⟨mem, rfl, rfl⟩
      · rw [hk] at h
        obtain ⟨⟨sz2, pt2, m3⟩, hd, h⟩ := bind_ok.1 h
        cases h
        exact .inr ⟨rfl, uvmdealloc_undo hb hlt' he hd⟩
      · rw [hk] at h
        obtain ⟨⟨ok, pt2, m3⟩, hm, h⟩ := bind_ok.1 h
        have hmap := mappages_one hm
        cases ok with
        | true =>
            have he2 := he.trans hmap.extends
            rw [pageRange_succ] at he2
            have hnext : base + k * PGSIZE + PGSIZE = base + (k + 1) * PGSIZE := by ring
            have hbound := hmap.lt
            simp only [if_true] at h
            rw [hnext] at h
            have hr := ih (k := k + 1) (by rw [← hnext]; norm_num at hbound ⊢; omega) he2 h
              (by rw [← hnext]; norm_num at hbound ⊢; omega)
            rwa [Nat.add_right_comm, Nat.add_assoc] at hr
        | false =>
            simp only [Bool.false_eq_true, if_false] at h
            obtain ⟨m4, hf, h⟩ := bind_ok.1 h
            obtain ⟨⟨sz2, pt3, m5⟩, hd, h⟩ := bind_ok.1 h
            cases h
            have he2 := he.trans (hmap.given_back hf)
            rw [Finset.union_empty] at he2
            exact .inr ⟨rfl, uvmdealloc_undo hb hlt' he2 hd⟩

theorem uvmalloc_spec [Link] {xperm : Perm} {m : Kmem} (hold : oldsz < 2 ^ 38)
    (h : uvmalloc pt oldsz newsz xperm m = .ok (sz', pt', m')) :
    (newsz < oldsz ∧ sz' = oldsz ∧ pt' = pt ∧ m' = m) ∨
      (oldsz ≤ newsz ∧ Allocated pt m newsz
        (pageRange (pgroundup oldsz) (pagesBetween (pgroundup oldsz) newsz)) sz' pt' m') := by
  unfold uvmalloc at h
  split at h
  · rename_i hlt
    cases h
    exact .inl ⟨hlt, rfl, rfl, rfl⟩
  · rename_i hle
    refine .inr ⟨by omega, ?_⟩
    have hup := pgroundup_lt (a := oldsz) (by norm_num at hold ⊢; omega)
    have hr := uvmallocLoop_spec (k := 0) (m := m) (pgroundup_aligned oldsz)
      (by norm_num at hold hup ⊢; omega) (by simpa using Extends.refl pt m) (by simpa using h)
    simpa using hr

/-! ## uvmcopy -/

def mappedBelow (pt : PageTable) (n : Nat) : Finset Nat :=
  (Finset.range n).filter fun v => pt.leaf v ≠ none

theorem mappedBelow_succ_some {n : Nat} {e : Pte} (h : pt.leaf n = some e) :
    mappedBelow pt (n + 1) = mappedBelow pt n ∪ {n} := by
  ext v
  simp only [mappedBelow, Finset.mem_filter, Finset.mem_range, Finset.mem_union,
    Finset.mem_singleton]
  constructor
  · rintro ⟨hv, hl⟩
    rcases Nat.lt_succ_iff_lt_or_eq.1 hv with hv | hv
    · exact .inl ⟨hv, hl⟩
    · exact .inr hv
  · rintro (⟨hv, hl⟩ | rfl)
    · exact ⟨by omega, hl⟩
    · exact ⟨by omega, by simp [h]⟩

theorem mappedBelow_succ_none {n : Nat} (h : pt.leaf n = none) :
    mappedBelow pt (n + 1) = mappedBelow pt n := by
  ext v
  simp only [mappedBelow, Finset.mem_filter, Finset.mem_range]
  constructor
  · rintro ⟨hv, hl⟩
    rcases Nat.lt_succ_iff_lt_or_eq.1 hv with hv | rfl
    · exact ⟨hv, hl⟩
    · exact (hl h).elim
  · rintro ⟨hv, hl⟩
    exact ⟨by omega, hl⟩

theorem walkaddr_of_leaf {pa : PA} {m : Kmem} (hlt : va < MAXVA)
    (h : pt.leaf (va / PGSIZE) = some ⟨pa, permRWU⟩) : walkaddr pt va m = .ok (some pa) := by
  obtain ⟨r, hw, hjoin, -⟩ := walk_noalloc hlt pt m
  rw [h, Option.join_eq_some_iff] at hjoin
  unfold walkaddr
  rw [if_neg (by omega), hw, hjoin]
  rfl

theorem walk_leaf {m : Kmem} {r : Option (Option Pte) × PageTable × Kmem}
    (h : walk pt va false m = .ok r) :
    (∀ e, r.1 = some (some e) ↔ pt.leaf (va / PGSIZE) = some e) ∧ r.2 = (pt, m) := by
  obtain ⟨r', hw, hjoin, -⟩ := walk_noalloc (walk_lt h) pt m
  rw [hw] at h
  cases h
  refine ⟨fun e => ?_, rfl⟩
  rw [← hjoin]
  exact Option.join_eq_some_iff.symm

section Copy
variable [Link] {old new : PageTable} {m : Kmem} {n : Nat}

theorem uvmcopy_undo {new1 : PageTable} (hk : k ≤ n) (hn : n < NVPN)
    (hfree : ∀ v < n, new.leaf v = none) (he : Extends new m (mappedBelow old k) new1 m1)
    (h : uvmunmap new1 0 (k * PGSIZE / PGSIZE) true m1 = .ok (new', m')) :
    Extends new m ∅ new' m' := by
  rw [Nat.mul_div_cancel _ (by decide)] at h
  obtain ⟨hl, ht, hc⟩ := uvmunmap_spec h
  have hrange : unmapRange 0 k = Finset.range k := by
    rw [unmapRange_eq (by norm_num at hn ⊢; omega)]
    ext v
    simp
  rw [hrange] at hl hc
  exact he.undo (Finset.filter_subset _ _) (fun v hv => hfree v (by
    have := Finset.mem_range.1 hv
    omega)) hl ht (by simpa using hc)

/-- The loop of `uvmcopy` at page `k`, with `j` pages still to come. -/
theorem uvmcopyLoop_spec (hn : n < NVPN) (hfree : ∀ v < n, new.leaf v = none) {j : Nat}
    (hk : k + j = n) {new1 : PageTable} (he : Extends new m (mappedBelow old k) new1 m1)
    (h : uvmcopyLoop old j new1 (k * PGSIZE) m1 = .ok (ok, new', m')) :
    Extends new m (if ok then mappedBelow old n else ∅) new' m' := by
  induction j generalizing k new1 m1 with
  | zero =>
      cases h
      obtain rfl : k = n := by omega
      exact he
  | succ j ih =>
      have hpage : k * PGSIZE / PGSIZE = k := Nat.mul_div_cancel _ (by decide)
      have hnext : k * PGSIZE + PGSIZE = (k + 1) * PGSIZE := by ring
      unfold uvmcopyLoop at h
      rw [bind_ok] at h
      obtain ⟨r, hw, h⟩ := h
      obtain ⟨hleaf, -⟩ := walk_leaf hw
      rw [hpage] at hleaf
      split at h
      · rename_i e hr
        have hold := (hleaf e).1 hr
        cases hka : kalloc m1 with
        | mk a m2 =>
        rw [hka] at h
        rcases kalloc_cases hka with ⟨rfl, rfl, rfl⟩ | ⟨mem, rfl, rfl⟩
        · obtain ⟨⟨new2, m3⟩, hu, h⟩ := bind_ok.1 h
          cases h
          exact uvmcopy_undo (by omega) hn hfree he hu
        · obtain ⟨⟨ok2, new2, m3⟩, hm, h⟩ := bind_ok.1 h
          have hmap := mappages_one hm
          cases ok2 with
          | true =>
              have he2 := he.trans hmap.extends
              rw [hpage, ← mappedBelow_succ_some hold] at he2
              simp only [if_true, hnext] at h
              exact ih (by omega) he2 h
          | false =>
              simp only [Bool.false_eq_true, if_false] at h
              obtain ⟨m4, hf, h⟩ := bind_ok.1 h
              obtain ⟨⟨new3, m5⟩, hu, h⟩ := bind_ok.1 h
              cases h
              have he2 := he.trans (hmap.given_back hf)
              rw [Finset.union_empty] at he2
              exact uvmcopy_undo (by omega) hn hfree he2 hu
      · rename_i hr
        have hold : old.leaf k = none := by
          cases hl : old.leaf k with
          | none => rfl
          | some e => exact (hr e ((hleaf e).2 hl)).elim
        rw [hnext] at h
        exact ih (by omega) (by rwa [mappedBelow_succ_none hold]) h

/-- A copy fills exactly the positions that the parent maps; a failed one leaves
the new table as it was, up to added tables. -/
theorem uvmcopy_spec (hsz : sz ≤ TRAPFRAME) (hfree : ∀ v < pagesBetween 0 sz, new.leaf v = none)
    (h : uvmcopy old new sz m = .ok (ok, new', m')) :
    Extends new m (if ok then mappedBelow old (pagesBetween 0 sz) else ∅) new' m' := by
  have hn : pagesBetween 0 sz < NVPN := by
    unfold pagesBetween
    norm_num at hsz ⊢
    omega
  have hempty : mappedBelow old 0 = ∅ := by simp [mappedBelow]
  exact uvmcopyLoop_spec hn hfree (k := 0) (Nat.zero_add _) (by rw [hempty]; exact Extends.refl _ _)
    (by simpa [uvmcopy] using h)

end Copy

/-! ## Faults and copies into user memory -/

theorem pgrounddown_page (va : Nat) : pgrounddown va / PGSIZE = va / PGSIZE :=
  Nat.mul_div_cancel _ (by decide)

theorem vmfault_spec [Link] {m : Kmem} {r : Option PA}
    (h : vmfault sz own pt va m = .ok (r, own', m')) : ∃ R, Extends own m R own' m' := by
  unfold vmfault at h
  split at h
  · cases h
    exact ⟨∅, Extends.refl _ _⟩
  · rw [bind_ok] at h
    obtain ⟨b, -, h⟩ := h
    split at h
    · cases h
      exact ⟨∅, Extends.refl _ _⟩
    · cases hka : kalloc m with
      | mk a m2 =>
      rw [hka] at h
      rcases kalloc_cases hka with ⟨rfl, rfl, rfl⟩ | ⟨mem, rfl, rfl⟩
      · cases h
        exact ⟨∅, Extends.refl _ _⟩
      · obtain ⟨⟨ok, own2, m3⟩, hm, h⟩ := bind_ok.1 h
        have hmap := mappages_one hm
        cases ok with
        | true =>
            cases h
            exact ⟨_, hmap.extends⟩
        | false =>
            obtain ⟨m4, hf, h⟩ := bind_ok.1 h
            cases h
            exact ⟨∅, hmap.given_back hf⟩

theorem copyoutLoop_spec [Link] {n dstva len : Nat} {other : Option PageTable} {m : Kmem}
    (h : copyoutLoop sz other n own dstva len m = .ok (ok, own', m')) :
    ∃ R, Extends own m R own' m' := by
  induction n generalizing own dstva len m with
  | zero =>
      cases h
      exact ⟨∅, Extends.refl _ _⟩
  | succ n ih =>
      unfold copyoutLoop at h
      split at h
      · cases h
        exact ⟨∅, Extends.refl _ _⟩
      split at h
      · cases h
        exact ⟨∅, Extends.refl _ _⟩
      rw [bind_ok] at h
      obtain ⟨pa0, -, h⟩ := h
      rw [bind_ok] at h
      obtain ⟨⟨pa1, own1, m1⟩, hf, h⟩ := h
      have hstep : ∃ R, Extends own m R own1 m1 := by
        cases pa0 with
        | some pa => cases hf; exact ⟨∅, Extends.refl _ _⟩
        | none => exact vmfault_spec hf
      obtain ⟨R, hR⟩ := hstep
      cases pa1 with
      | none =>
          cases h
          exact ⟨R, hR⟩
      | some pa =>
          dsimp only at h
          rw [bind_ok] at h
          obtain ⟨r, -, h⟩ := h
          split at h
          · split at h
            · obtain ⟨R', hR'⟩ := ih h
              exact ⟨R ∪ R', hR.trans hR'⟩
            · cases h
              exact ⟨R, hR⟩
          · cases h
            exact ⟨R, hR⟩
          · cases h

theorem copyout_spec [Link] {dstva len : Nat} {other : Option PageTable} {m : Kmem}
    (h : copyout sz own other dstva len m = .ok (ok, own', m')) :
    ∃ R, Extends own m R own' m' := copyoutLoop_spec h

theorem uvmclear_spec {m : Kmem} (h : uvmclear pt va m = .ok pt') :
    pt'.mapped = pt.mapped ∧ ∀ q, pt'.tables q = pt.tables q := by
  unfold uvmclear at h
  obtain ⟨⟨r, pt1, m1⟩, hw, h⟩ := bind_ok.1 h
  obtain ⟨r', hw', hjoin, hpath⟩ := walk_noalloc (walk_lt hw) pt m
  rw [hw'] at hw
  cases hw
  dsimp only at h
  split at h
  · cases h
  · cases h
    exact ⟨rfl, fun _ => rfl⟩
  · rename_i e
    cases h
    have hleaf : pt.leaf (va / PGSIZE) = some e := by simpa using hjoin.symm
    refine ⟨?_, fun q => Node.tables_store _ _ _ _⟩
    funext v
    rw [Node.mapped, Node.leaf_store (walk_lt hw') (hpath e rfl)]
    by_cases hv : v = va / PGSIZE
    · subst hv
      simp [Node.mapped, hleaf]
    · rw [Function.update_of_ne hv, Node.mapped]

/-! ## Whole user page tables -/

/-- Pages held through a page table: its own pages, and the pages it maps outside
the positions `S`. -/
@[irreducible] def Node.held (S : Finset Nat) (pt : PageTable) (q : PA) : Nat :=
  pt.tables q + occ vpns (cut pt.mapped S) q

def heldOpt (S : Finset Nat) (pt : Option PageTable) (q : PA) : Nat :=
  match pt with
  | none => 0
  | some pt => pt.held S q

-- Not proved by `rfl`: the kernel would try to evaluate the counts.
theorem heldOpt_none (S : Finset Nat) (q : PA) : heldOpt S none q = 0 := by
  rw [heldOpt]

theorem heldOpt_some (S : Finset Nat) (pt : PageTable) (q : PA) :
    heldOpt S (some pt) q = pt.held S q := by
  rw [heldOpt]

theorem Node.mapped_lt {e : Pte} (h : pt.leaf v = some e) :
    v < NVPN := by
  by_contra hv
  rw [Node.leaf_of_ge (by omega)] at h
  cases h

theorem Extends.held {m : Kmem} {S : Finset Nat} (h : Extends pt m R pt' m') (hRS : ∀ v ∈ R, v ∉ S)
    (q : PA) :
    m'.count q + pt'.held S q = m.count q + pt.held S q := by
  have hsub : R ⊆ vpns := by
    intro v hv
    obtain ⟨e, he⟩ := h.filled v hv
    exact Finset.mem_range.2 (Node.mapped_lt he)
  have hnew : occ (vpns ∩ R) (cut pt'.mapped S) q = occ R pt'.mapped q := by
    rw [Finset.inter_eq_right.2 hsub]
    exact occ_congr (fun v hv => by simp [cut, hRS v hv]) q
  have hold : occ vpns (cut (cut pt'.mapped S) R) q = occ vpns (cut pt.mapped S) q := by
    apply occ_congr
    intro v _
    by_cases hv : v ∈ R
    · simp [cut, hv, Node.mapped, h.vacant v hv]
    · simp [cut, hv, Node.mapped, h.outside v hv]
  have hsplit := occ_cut_add vpns R (cut pt'.mapped S) q
  have := h.pages q
  unfold Node.held
  omega

structure UserTable [Link] (tf : PA) (pt : PageTable) : Prop where
  trampoline : pt.mapped (TRAMPOLINE / PGSIZE) = some Link.trampoline
  trapframe : pt.mapped (TRAPFRAME / PGSIZE) = some tf

theorem UserTable.mapped_reserved [Link] (h : UserTable tf pt) (hv : v ∈ reserved) : pt.leaf v ≠
    none := by
  intro hl
  rcases Finset.mem_insert.1 hv with rfl | hv
  · have := h.trampoline
    simp only [Node.mapped, hl] at this
    cases this
  · rw [Finset.mem_singleton] at hv
    subst hv
    have := h.trapframe
    simp only [Node.mapped, hl] at this
    cases this

theorem Extends.disjoint_reserved [Link] {m : Kmem} (h : Extends pt m R pt' m')
    (hu : UserTable tf pt) :
    ∀ v ∈ R, v ∉ reserved := fun v hv hr => hu.mapped_reserved hr (h.vacant v hv)

theorem Extends.userTable [Link] {m : Kmem} (h : Extends pt m R pt' m') (hu : UserTable tf pt) :
    UserTable tf pt' := by
  have hkeep : ∀ v ∈ reserved, pt'.mapped v = pt.mapped v := fun v hv => by
    simp only [Node.mapped, h.outside v fun hr => h.disjoint_reserved hu v hr hv]
  exact ⟨(hkeep _ (by simp)).trans hu.trampoline, (hkeep _ (by simp)).trans hu.trapframe⟩

theorem Extends.held_reserved [Link] {m : Kmem} (h : Extends pt m R pt' m') (hu : UserTable tf pt)
    (q : PA) :
    m'.count q + pt'.held reserved q = m.count q + pt.held reserved q :=
  h.held (h.disjoint_reserved hu) q

/-- A freed table had nothing mapped above its size, and all its pages are back. -/
theorem uvmfree_spec [Link] {m : Kmem} (hsz : sz ≤ TRAPFRAME) (h : uvmfree pt sz m = .ok m') :
    (∀ v, pgroundup sz / PGSIZE ≤ v → pt.leaf v = none) ∧
      ∀ q, m'.count q = m.count q + pt.tables q + occ vpns pt.mapped q := by
  unfold uvmfree at h
  obtain ⟨⟨pt1, m1⟩, h1, h⟩ := bind_ok.1 h
  obtain ⟨hleaf, hcount⟩ := freewalk_spec h
  have hup : sz ≤ pgroundup sz ∧ pgroundup sz < sz + PGSIZE :=
    ⟨pgroundup_le (by norm_num at hsz ⊢; omega), pgroundup_lt (by norm_num at hsz ⊢; omega)⟩
  set T := Finset.range (pgroundup sz / PGSIZE) with hT
  have hcut : pt1.leaf = cut pt.leaf T ∧ (∀ q, pt1.tables q = pt.tables q) ∧
      ∀ q, m1.count q = m.count q + occ T pt.mapped q := by
    split at h1
    · obtain ⟨hl, ht, hc⟩ := uvmunmap_spec h1
      have hrange : unmapRange 0 (pgroundup sz / PGSIZE) = T := by
        rw [unmapRange_eq (by norm_num at hsz hup ⊢; omega)]
        ext v
        simp [hT]
      rw [hrange] at hl hc
      exact ⟨hl, ht, by simpa using hc⟩
    · rename_i hpos
      cases h1
      have hzero : T = ∅ := by
        obtain rfl : sz = 0 := by omega
        rfl
      rw [hzero]
      exact ⟨(cut_nothing _).symm, fun _ => rfl, by simp⟩
  obtain ⟨hl, ht, hc⟩ := hcut
  have habove : ∀ v, v ∉ T → pt.leaf v = none := fun v hv => by
    have := hleaf v
    rw [hl] at this
    simpa [cut, hv] using this
  refine ⟨fun v hv => habove v (by simp [hT, hv]), fun q => ?_⟩
  have hsub : T ⊆ vpns := Finset.range_subset_range.2 (by norm_num at hsz hup ⊢; omega)
  have hocc : occ vpns pt.mapped q = occ T pt.mapped q :=
    occ_mono_eq hsub (fun v _ hv => by simp [Node.mapped, habove v hv]) q
  rw [hcount, hc, ht, hocc]
  omega

theorem unmapRange_trampoline : unmapRange TRAMPOLINE 1 = {TRAMPOLINE / PGSIZE} := by
  rw [unmapRange_eq (by decide)]
  simp

theorem unmapRange_trapframe : unmapRange TRAPFRAME 1 = {TRAPFRAME / PGSIZE} := by
  rw [unmapRange_eq (by decide)]
  simp

theorem cut_cut {β : Type} (f : Nat → Option β) (S T : Finset Nat) :
    cut (cut f S) T = cut f (S ∪ T) := by
  funext v
  by_cases hT : v ∈ T <;> by_cases hS : v ∈ S <;> simp [cut, hS, hT]

theorem Node.mapped_cut {S : Finset Nat} (h : pt'.leaf = cut pt.leaf S) :
    pt'.mapped = cut pt.mapped S := by
  funext v
  by_cases hv : v ∈ S <;> simp [Node.mapped, h, cut, hv]

/-- Freeing a user page table gives back all it holds, the trampoline and the
trapframe apart. -/
theorem procFreepagetable_spec [Link] {m : Kmem} (hsz : sz ≤ TRAPFRAME)
    (h : procFreepagetable pt sz m = .ok m') :
    (∀ v, pgroundup sz / PGSIZE ≤ v → v ∉ reserved → pt.leaf v = none) ∧
      ∀ q, m'.count q = m.count q + pt.held reserved q := by
  unfold procFreepagetable at h
  obtain ⟨⟨pt1, m1⟩, h1, h⟩ := bind_ok.1 h
  obtain ⟨⟨pt2, m2⟩, h2, h⟩ := bind_ok.1 h
  obtain ⟨hl1, ht1, hc1⟩ := uvmunmap_spec h1
  obtain ⟨hl2, ht2, hc2⟩ := uvmunmap_spec h2
  obtain ⟨habove, hc⟩ := uvmfree_spec hsz h
  rw [unmapRange_trampoline] at hl1
  rw [unmapRange_trapframe, hl1, cut_cut] at hl2
  have hres : ({TRAMPOLINE / PGSIZE} ∪ {TRAPFRAME / PGSIZE} : Finset Nat) = reserved := rfl
  rw [hres] at hl2
  refine ⟨fun v hv hr => ?_, fun q => ?_⟩
  · have := habove v hv
    rw [hl2] at this
    simpa [cut, hr] using this
  · have h3 := hc q
    have h4 := hc1 q
    have h5 := hc2 q
    have h6 := ht1 q
    have h7 := ht2 q
    rw [Node.mapped_cut hl2] at h3
    simp only [Bool.false_eq_true, if_false] at h4 h5
    unfold Node.held
    omega

structure FreshTable [Link] (tf : PA) (pt : PageTable) : Prop extends UserTable tf pt where
  nothing : ∀ v, v ∉ reserved → pt.leaf v = none

theorem FreshTable.held [Link] (h : FreshTable tf pt) (q : PA) :
    pt.held reserved q = pt.tables q := by
  have hnone : occ vpns (cut pt.mapped reserved) q = occ vpns (fun _ => none) q := by
    apply occ_congr
    intro v _
    by_cases hv : v ∈ reserved
    · simp only [cut, hv, if_true]
    · simp only [cut, hv, if_false, Node.mapped, h.nothing v hv, Option.map_none]
  unfold Node.held
  rw [hnone, occ_none, Nat.add_zero]

theorem uvmfree_zero [Link] {m : Kmem} (h : uvmfree pt 0 m = .ok m') (q : PA) :
    m'.count q = m.count q + pt.tables q := by
  obtain ⟨hnone, hc⟩ := uvmfree_spec (Nat.zero_le _) h
  have hzero : occ vpns pt.mapped q = occ vpns (fun _ => none) q :=
    occ_congr (fun v _ => by simp only [Node.mapped, hnone v (Nat.zero_le v), Option.map_none]) q
  rw [hc, hzero, occ_none, Nat.add_zero]

theorem procPagetable_spec [Link] {m : Kmem} {r : Option PageTable}
    (h : procPagetable tf m = .ok (r, m')) :
    (r = none ∧ ∀ q, m'.count q = m.count q) ∨
      ∃ pt, r = some pt ∧ FreshTable tf pt ∧ ∀ q, m'.count q + pt.tables q = m.count q := by
  unfold procPagetable uvmcreate at h
  cases m with
  | nil => cases h; simp
  | cons page m =>
      simp only [kalloc] at h
      obtain ⟨⟨ok1, pt1, m1⟩, h1, h⟩ := bind_ok.1 h
      have hm1 := mappages_one h1
      have hp1 : ∀ q, m1.count q + pt1.tables q = (page :: m).count q := fun q => by
        have := hm1.pages q
        rw [Node.tables_empty] at this
        rw [count_cons_hit, this]
      cases ok1 with
      | false =>
          obtain ⟨m2, h2, h⟩ := bind_ok.1 h
          cases h
          exact .inl ⟨rfl, fun q => by rw [uvmfree_zero h2, hp1]⟩
      | true =>
          simp only [if_true] at h
          obtain ⟨⟨ok2, pt2, m2⟩, h2, h⟩ := bind_ok.1 h
          have hm2 := mappages_one h2
          have hp2 : ∀ q, m2.count q + pt2.tables q = (page :: m).count q := fun q =>
            (hm2.pages q).trans (hp1 q)
          cases ok2 with
          | false =>
              obtain ⟨⟨pt3, m3⟩, h3, h⟩ := bind_ok.1 h
              obtain ⟨m4, h4, h⟩ := bind_ok.1 h
              cases h
              obtain ⟨-, ht3, hc3⟩ := uvmunmap_spec h3
              refine .inl ⟨rfl, fun q => ?_⟩
              have := hc3 q
              simp only [Bool.false_eq_true, if_false] at this
              rw [uvmfree_zero h4, ht3, this, Nat.add_zero, hp2]
          | true =>
              cases h
              refine .inr ⟨pt2, rfl, ⟨⟨?_, ?_⟩, fun v hv => ?_⟩, hp2⟩
              · rw [Node.mapped, hm2.done rfl, Function.update_of_ne (by decide), hm1.done rfl,
                  Function.update_self]
                rfl
              · rw [Node.mapped, hm2.done rfl, Function.update_self]
                rfl
              · simp only [Finset.mem_insert, Finset.mem_singleton, not_or] at hv
                rw [hm2.done rfl, Function.update_of_ne hv.2, hm1.done rfl,
                  Function.update_of_ne hv.1, Node.leaf_empty]

end G9OS.Kernel
