import G9OS.Kernel.ExecFacts

/-! # Where nothing is mapped

The kernel panics when it is to map a page that is mapped already, and when it tears
down a page table that still has a leaf. Neither can happen to an address space with
nothing mapped above its size, the two pages at the top apart. For each operation on
address spaces: what has to be vacant before, and what is vacant after.
-/

namespace G9OS.Kernel

open Lib

variable {len newsz oldsz psz sz total : Nat} {own : PageTable}

def StrayLeaf (e : Panic) : Prop := e = .mappagesRemap ∨ e = .freewalkLeaf

/-- From page `n` on nothing is mapped but the trampoline and the trapframe. -/
def Vacant (pt : PageTable) (n : Nat) : Prop := ∀ v, n ≤ v → v ∉ reserved → pt.leaf v = none

abbrev sizePages (sz : Nat) : Nat := pgroundup sz / PGSIZE

section
variable {pt pt' : PageTable} {n n' : Nat} {m m' : Kmem}

theorem Vacant.mono (h : Vacant pt n) (hn : n ≤ n') : Vacant pt n' :=
  fun v hv hr => h v (hn.trans hv) hr

theorem Vacant.cut {S : Finset Nat} (h : Vacant pt n) (hl : pt'.leaf = cut pt.leaf S) :
    Vacant pt' n := by
  intro v hv hr
  rw [hl]
  by_cases hS : v ∈ S
  · simp only [Lib.cut, hS, if_true]
  · simp only [Lib.cut, hS, if_false, h v hv hr]

theorem Extends.vacant_of {R : Finset Nat} (he : Extends pt m R pt' m') (h : Vacant pt n)
    (hR : ∀ v ∈ R, v < n) : Vacant pt' n := by
  intro v hv hr
  rw [he.outside v fun hm => absurd (hR v hm) (Nat.not_lt.2 hv)]
  exact h v hv hr

end

/-! ## Sizes -/

theorem sizePages_eq (h : sz ≤ TRAPFRAME) : sizePages sz = (sz + PGSIZE - 1) / PGSIZE := by
  have hlt : sz + (PGSIZE - 1) < 2 ^ 64 := by norm_num at h ⊢; omega
  rw [sizePages, pgroundup, addU64_of_lt hlt, Nat.mul_div_cancel _ (by decide), Nat.add_sub_assoc]
  decide

theorem sizePages_mono {a b : Nat} (h : a ≤ b) (hb : b ≤ TRAPFRAME) : sizePages a ≤ sizePages b := by
  rw [sizePages_eq (h.trans hb), sizePages_eq hb]
  exact Nat.div_le_div_right (by omega)

theorem sizePages_le (h : sz ≤ TRAPFRAME) : sizePages sz ≤ TRAPFRAME / PGSIZE :=
  Nat.div_le_div_right (pgroundup_le_trapframe h)

theorem pgroundup_eq_pages (h : sz ≤ TRAPFRAME) :
    pgroundup sz = (sz + PGSIZE - 1) / PGSIZE * PGSIZE := by
  rw [← sizePages_eq h, Nat.div_mul_cancel (Nat.dvd_of_mod_eq_zero (pgroundup_aligned sz))]

theorem sizePages_add (h : oldsz ≤ newsz) (hn : newsz ≤ TRAPFRAME) :
    sizePages newsz = sizePages oldsz + pagesBetween (pgroundup oldsz) newsz := by
  rw [pagesBetween, sizePages_eq hn, sizePages_eq (h.trans hn), pgroundup_eq_pages (h.trans hn)]
  norm_num
  omega

theorem page_lt_sizePages {va : Nat} (h : va < sz) (hsz : sz ≤ TRAPFRAME) :
    va / PGSIZE < sizePages sz := by
  rw [sizePages_eq hsz]
  norm_num
  omega

/-! ## Mapping and unmapping -/

section
variable {pt : PageTable} {m : Kmem} {va : Nat}

theorem walk_avoids (pt : PageTable) (va : Nat) (alloc : Bool) (m : Kmem) :
    Avoids StrayLeaf (fun r => r.2.2.length ≤ m.length) (walk pt va alloc m) := by
  have hdescend : ∀ {α : Type} (t : Node (Node α)) i (m : Kmem),
      (t.descend i alloc m).2.2.length ≤ m.length := by
    intro α t i m
    unfold Node.descend
    split
    · exact le_rfl
    · split
      · cases m with
        | nil => exact le_rfl
        | cons page m => exact Nat.le_succ _
      · exact le_rfl
  unfold walk
  split
  · exact .halts (by simp [StrayLeaf])
  · have h2 := hdescend pt (px 2 va) m
    split
    · rename_i hd
      rw [hd] at h2
      exact .returns h2
    · rename_i l1 pt1 m1 hd
      rw [hd] at h2
      have h1 := hdescend l1 (px 1 va) m1
      split
      · rename_i hd1
        rw [hd1] at h1
        exact .returns (h1.trans h2)
      · rename_i hd1
        rw [hd1] at h1
        exact .returns (h1.trans h2)

theorem mappages_avoids {pa : PA} {perm : Perm} (hv : pt.leaf (va / PGSIZE) = none) :
    Avoids StrayLeaf (fun r => r.2.2.length ≤ m.length) (mappages pt va PGSIZE pa perm m) := by
  unfold mappages
  split
  · exact .halts (by simp [StrayLeaf])
  · rw [if_neg (by decide), if_neg (by decide), Nat.div_self (by decide), mappagesLoop]
    refine (walk_avoids pt va true m).bind ?_
    rintro ⟨pte, pt1, m1⟩ hw hlen
    dsimp only
    cases pte with
    | none => exact .returns hlen
    | some x =>
        have hx := ((walk_alloc hw).2 x rfl).1
        rw [hv] at hx
        subst hx
        exact .returns hlen

variable [Link]

theorem kfree_avoids (pa : PA) (m : Kmem) : Avoids StrayLeaf (fun _ => True) (kfree pa m) := by
  unfold kfree
  split
  · exact .returns trivial
  · exact .halts (by simp [StrayLeaf])

theorem uvmunmapLoop_avoids (doFree : Bool) (n : Nat) (pt : PageTable) (a : Nat) (m : Kmem) :
    Avoids StrayLeaf (fun _ => True) (uvmunmapLoop doFree n pt a m) := by
  induction n generalizing pt a m with
  | zero => exact .returns trivial
  | succ n ih =>
      unfold uvmunmapLoop
      refine (walk_avoids pt a false m).bind fun r _ _ => ?_
      split
      · rename_i e _
        refine Avoids.bind (P := fun _ => True) ?_ fun m1 _ _ => ih _ _ _
        cases doFree with
        | true => exact kfree_avoids e.pa m
        | false => exact .returns trivial
      · exact ih _ _ _

theorem uvmunmap_avoids (pt : PageTable) (va npages : Nat) (doFree : Bool) (m : Kmem) :
    Avoids StrayLeaf (fun _ => True) (uvmunmap pt va npages doFree m) := by
  unfold uvmunmap
  split
  · exact .halts (by simp [StrayLeaf])
  · exact uvmunmapLoop_avoids _ _ _ _ _

theorem uvmdealloc_avoids (pt : PageTable) (oldsz newsz : Nat) (m : Kmem) :
    Avoids StrayLeaf (fun _ => True) (uvmdealloc pt oldsz newsz m) := by
  unfold uvmdealloc
  split
  · exact .returns trivial
  · split
    · exact (uvmunmap_avoids _ _ _ _ _).bind fun _ _ _ => .returns trivial
    · exact .returns trivial

theorem uvmdealloc_vacant {sz' : Nat} {pt' : PageTable} {m' : Kmem} (hsz : oldsz ≤ TRAPFRAME)
    (hv : Vacant pt (sizePages oldsz)) (h : uvmdealloc pt oldsz newsz m = .ok (sz', pt', m')) :
    Vacant pt' (sizePages sz') := by
  obtain ⟨rfl, hl, -⟩ := uvmdealloc_spec h
  rcases Nat.lt_or_ge newsz oldsz with hlt | hge
  · rw [Nat.min_eq_right hlt.le]
    intro v hn hr
    rw [hl, deallocRange_eq hsz hlt]
    by_cases hup : v < sizePages oldsz
    · simp only [Lib.cut, Finset.mem_Ico, hn, hup, and_self, if_true]
    · simp only [Lib.cut, Finset.mem_Ico, hup, and_false, if_false]
      exact hv v (Nat.not_lt.1 hup) hr
  · rw [Nat.min_eq_left hge]
    exact hv.cut hl

/-! ## uvmalloc -/

/-- The loop of `uvmalloc`, with `n` pages to come. Each page mapped is one page less on the
free list, so that the loop ends before it gets to the trapframe if there are too few. -/
theorem uvmallocLoop_avoids {perm : Perm} {base n a : Nat} (ha : a % PGSIZE = 0)
    (hv : Vacant pt (a / PGSIZE)) (hroom : a / PGSIZE + min n m.length ≤ TRAPFRAME / PGSIZE) :
    Avoids StrayLeaf (fun r => r.1 ≠ 0 → n + r.2.2.length ≤ m.length)
      (uvmallocLoop perm base newsz n pt a m) := by
  induction n generalizing pt a m with
  | zero => exact .returns fun _ => (Nat.zero_add _).le
  | succ n ih =>
      unfold uvmallocLoop
      cases m with
      | nil =>
          refine (uvmdealloc_avoids _ _ _ _).bind fun r _ _ => ?_
          exact .returns fun h => absurd rfl h
      | cons mem m =>
          rw [List.length_cons] at hroom
          have hlt : a / PGSIZE < TRAPFRAME / PGSIZE := by omega
          have hleaf : pt.leaf (a / PGSIZE) = none :=
            hv _ le_rfl (lt_trapframe_not_reserved hlt)
          refine (mappages_avoids hleaf).bind ?_
          rintro ⟨ok, pt1, m1⟩ hm hlen
          dsimp only at hlen ⊢
          cases ok with
          | true =>
              have hmap := (mappages_one hm).extends
              have hv1 : Vacant pt1 ((a + PGSIZE) / PGSIZE) := by
                apply hmap.vacant_of (hv.mono ?_)
                · intro v hvm
                  rw [Finset.mem_singleton.1 hvm, succ_page]
                  exact Nat.lt_succ_self _
                · rw [succ_page]
                  exact Nat.le_succ _
              have ha1 : (a + PGSIZE) % PGSIZE = 0 := by rwa [Nat.add_mod_right]
              have hroom1 : (a + PGSIZE) / PGSIZE + min n m1.length ≤ TRAPFRAME / PGSIZE := by
                rw [succ_page]
                omega
              refine (ih ha1 hv1 hroom1).mono fun r _ hr hne => ?_
              have := hr hne
              rw [List.length_cons]
              omega
          | false =>
              refine (kfree_avoids _ _).bind fun m2 _ _ => ?_
              refine (uvmdealloc_avoids _ _ _ _).bind fun r _ _ => ?_
              exact .returns fun h => absurd rfl h

structure Enlarged (oldsz : Nat) (m : Kmem) (r : Nat × PageTable × Kmem) : Prop where
  size_le : r.1 ≤ TRAPFRAME
  failed : r.1 = 0 → Vacant r.2.1 (sizePages oldsz)
  done : r.1 ≠ 0 → Vacant r.2.1 (sizePages r.1)
  pages : r.1 ≠ 0 → sizePages r.1 + r.2.2.length ≤ sizePages oldsz + m.length

theorem uvmalloc_avoids {xperm : Perm} (hsz : oldsz ≤ TRAPFRAME) (hv : Vacant pt (sizePages oldsz))
    (hroom : newsz ≤ TRAPFRAME ∨ sizePages oldsz + m.length ≤ TRAPFRAME / PGSIZE) :
    Avoids StrayLeaf (Enlarged oldsz m) (uvmalloc pt oldsz newsz xperm m) := by
  have hspec : ∀ sz' pt' m', uvmalloc pt oldsz newsz xperm m = .ok (sz', pt', m') → _ :=
    fun _ _ _ => uvmalloc_spec (lt_of_le_of_lt hsz (by decide))
  unfold uvmalloc at hspec ⊢
  split
  · exact .returns ⟨hsz, fun _ => hv, fun _ => hv, fun _ => le_rfl⟩
  · rename_i hle
    rw [if_neg hle] at hspec
    have hle' : oldsz ≤ newsz := Nat.not_lt.1 hle
    have hbound : sizePages oldsz + min (pagesBetween (pgroundup oldsz) newsz) m.length ≤
        TRAPFRAME / PGSIZE := by
      rcases hroom with hn | hm
      · have h1 := sizePages_add hle' hn
        have h2 := sizePages_le hn
        omega
      · omega
    refine (uvmallocLoop_avoids (pgroundup_aligned oldsz) hv hbound).mono ?_
    rintro ⟨sz', pt', m'⟩ hok hlen
    dsimp only at hlen
    rcases (hspec sz' pt' m' hok).resolve_left fun h => hle h.1 with ⟨-, ⟨rfl, he⟩ | ⟨rfl, he⟩⟩
    · have hn : sz' ≤ TRAPFRAME := by
        rcases hroom with hn | hm
        · exact hn
        · by_cases h0 : sz' = 0
          · exact h0 ▸ Nat.zero_le _
          · have h1 := hlen h0
            have h2 := pgroundup_aligned oldsz
            rw [pagesBetween] at h1
            rw [sizePages] at hm
            norm_num at h1 h2 hm ⊢
            omega
      have hadd := sizePages_add hle' hn
      have hv' : Vacant pt' (sizePages sz') := by
        rw [hadd]
        apply he.vacant_of (hv.mono (Nat.le_add_right _ _))
        intro v hvm
        exact (Finset.mem_Ico.1 hvm).2
      refine ⟨hn, fun h0 => ?_, fun _ => hv', fun h0 => ?_⟩
      · have h0' : sz' = 0 := h0
        subst h0'
        exact hv'.mono (sizePages_mono (Nat.zero_le _) hsz)
      · have := hlen h0
        dsimp only
        omega
    · have hv' : Vacant pt' (sizePages oldsz) := he.vacant_of hv (by simp)
      exact ⟨Nat.zero_le _, fun _ => hv', fun h => absurd rfl h, fun h => absurd rfl h⟩

/-! ## Tearing down -/

omit [Link] in
theorem freeEntries_avoids {α : Type} {free : α → Kmem → Except Panic Kmem} {t : Node α}
    (hf : ∀ i c m, t.entry i = some c → Avoids StrayLeaf (fun _ => True) (free c m))
    (is : List (Fin 512)) (m : Kmem) :
    Avoids StrayLeaf (fun _ => True) (freeEntries free t is m) := by
  induction is generalizing m with
  | nil => exact .returns trivial
  | cons i is ih =>
      unfold freeEntries
      refine Avoids.bind (P := fun _ => True) ?_ fun m1 _ _ => ih m1
      split
      · rename_i c hc
        exact hf i c m hc
      · exact .returns trivial

theorem Node.freewalk_avoids {α : Type} {free : α → Kmem → Except Panic Kmem} {t : Node α}
    (hf : ∀ i c m, t.entry i = some c → Avoids StrayLeaf (fun _ => True) (free c m)) (m : Kmem) :
    Avoids StrayLeaf (fun _ => True) (t.freewalk free m) := by
  unfold Node.freewalk
  exact (freeEntries_avoids hf _ m).bind fun _ _ _ => kfree_avoids _ _

omit [Link] in
theorem exists_page (i j k : Fin 512) : ∃ v < NVPN, ix 2 v = i ∧ ix 1 v = j ∧ ix 0 v = k := by
  refine ⟨i * 512 ^ 2 + j * 512 + k, ?_, ?_, ?_, ?_⟩
  · norm_num
    omega
  all_goals
    apply Fin.ext
    simp only [ix]
    norm_num
    omega

theorem freewalk_avoids (h : ∀ v, pt.leaf v = none) (m : Kmem) :
    Avoids StrayLeaf (fun _ => True) (freewalk pt m) := by
  have hpath : ∀ i j k, pt.path i j k = none := by
    intro i j k
    obtain ⟨v, hv, rfl, rfl, rfl⟩ := exists_page i j k
    rw [← Node.leaf_of_lt hv]
    exact h v
  apply Node.freewalk_avoids
  intro i l1 m hi
  apply Node.freewalk_avoids
  intro j l0 m hj
  apply Node.freewalk_avoids
  intro k e m hk
  have hleaf := hpath i j k
  rw [Node.path, hi, Option.bind_some, hj, Option.bind_some, hk] at hleaf
  cases hleaf

theorem uvmfree_avoids (hsz : sz ≤ TRAPFRAME) (h : ∀ v, sizePages sz ≤ v → pt.leaf v = none)
    (m : Kmem) :
    Avoids StrayLeaf (fun _ => True) (uvmfree pt sz m) := by
  unfold uvmfree
  split
  · refine (uvmunmap_avoids _ _ _ _ _).bind ?_
    rintro ⟨pt1, m1⟩ hu -
    obtain ⟨hl, -⟩ := uvmunmap_spec hu
    refine freewalk_avoids (fun v => ?_) m1
    have hup := pgroundup_le_trapframe hsz
    rw [hl, unmapRange_eq (by norm_num at hup ⊢; omega), Nat.zero_div, Nat.zero_add]
    by_cases hv : v < sizePages sz
    · simp only [Lib.cut, Finset.mem_Ico, Nat.zero_le, hv, and_self, if_true]
    · simp only [Lib.cut, Finset.mem_Ico, hv, and_false, if_false]
      exact h v (Nat.not_lt.1 hv)
  · rename_i h0
    have hzero : sz = 0 := Nat.eq_zero_of_not_pos h0
    subst hzero
    rw [ok_bind]
    exact freewalk_avoids (fun v => h v (Nat.zero_le v)) m

theorem procFreepagetable_avoids (hsz : sz ≤ TRAPFRAME) (hv : Vacant pt (sizePages sz)) (m : Kmem) :
    Avoids StrayLeaf (fun _ => True) (procFreepagetable pt sz m) := by
  unfold procFreepagetable
  refine (uvmunmap_avoids _ _ _ _ _).bind ?_
  rintro ⟨pt1, m1⟩ hu1 -
  refine (uvmunmap_avoids _ _ _ _ _).bind ?_
  rintro ⟨pt2, m2⟩ hu2 -
  refine uvmfree_avoids hsz (fun v hn => ?_) m2
  rw [(uvmunmap_spec hu2).1, (uvmunmap_spec hu1).1, cut_cut, unmapRange_trampoline,
    unmapRange_trapframe]
  have hunion : ({TRAMPOLINE / PGSIZE} ∪ {TRAPFRAME / PGSIZE} : Finset Nat) = reserved := rfl
  rw [hunion]
  by_cases hr : v ∈ reserved
  · simp only [Lib.cut, hr, if_true]
  · simp only [Lib.cut, hr, if_false]
    exact hv v hn hr

/-! ## Faults and copies -/

omit [Link] in
theorem ismapped_avoids (pt : PageTable) (va : Nat) (m : Kmem) :
    Avoids StrayLeaf (fun b => b = true ↔ pt.leaf (va / PGSIZE) ≠ none) (ismapped pt va m) := by
  unfold ismapped
  refine (walk_avoids pt va false m).bind fun r hw _ => ?_
  have hr := (walk_leaf hw).1
  split
  · rename_i e he
    refine .returns ?_
    rw [(hr e).1 he]
    simp
  · rename_i hnone
    refine .returns ?_
    have hleaf : pt.leaf (va / PGSIZE) = none := by
      cases hl : pt.leaf (va / PGSIZE) with
      | none => rfl
      | some e => exact (hnone e ((hr e).2 hl)).elim
    rw [hleaf]
    simp

theorem vmfault_own_avoids (hsz : sz ≤ TRAPFRAME) (hv : Vacant pt (sizePages sz)) :
    Avoids StrayLeaf (fun r => Vacant r.2.1 (sizePages sz)) (vmfault sz pt pt va m) := by
  unfold vmfault
  split
  · exact .returns hv
  · rename_i hlt
    refine (ismapped_avoids pt _ m).bind fun b _ hb => ?_
    cases b with
    | true => exact .returns hv
    | false =>
        have hleaf : pt.leaf (pgrounddown va / PGSIZE) = none := by simpa using hb
        cases m with
        | nil => exact .returns hv
        | cons mem m =>
            refine Avoids.bind (mappages_avoids hleaf) ?_
            rintro ⟨ok, own, m1⟩ hm -
            cases ok with
            | true =>
                refine .returns ((mappages_one hm).extends.vacant_of hv fun v hvm => ?_)
                rw [Finset.mem_singleton.1 hvm, pgrounddown_page]
                exact page_lt_sizePages (Nat.not_le.1 hlt) hsz
            | false =>
                refine (kfree_avoids _ _).bind fun m2 _ _ => .returns ?_
                exact (mappages_one hm).extends_failed.vacant_of hv (by simp)

/-- A fault on a page that is mapped in the table asked about changes nothing, and neither does
one of a process without memory. -/
theorem vmfault_mapped_avoids (h : sz = 0 ∨ pt.leaf (pgrounddown va / PGSIZE) ≠ none) :
    Avoids StrayLeaf (fun r => r = (none, own, m)) (vmfault sz own pt va m) := by
  unfold vmfault
  split
  · exact .returns rfl
  · rename_i hlt
    refine (ismapped_avoids pt _ m).bind fun b _ hb => ?_
    rw [if_pos (hb.2 (h.resolve_left fun h0 => hlt (h0 ▸ Nat.zero_le va)))]
    exact .returns rfl

omit [Link] in
theorem walkaddr_avoids (pt : PageTable) (va : Nat) (m : Kmem) :
    Avoids StrayLeaf (fun _ => True) (walkaddr pt va m) := by
  unfold walkaddr
  split
  · exact .returns trivial
  · refine (walk_avoids pt va false m).bind fun r _ _ => ?_
    split
    · exact .returns trivial
    · exact .returns trivial

/-- Copying out to the process's own memory, which may fault pages in. -/
theorem copyoutLoop_own_avoids {n dstva : Nat} (hsz : sz ≤ TRAPFRAME)
    (hv : Vacant pt (sizePages sz)) :
    Avoids StrayLeaf (fun r => Vacant r.2.1 (sizePages sz))
      (copyoutLoop sz none n pt dstva len m) := by
  induction n generalizing pt dstva len m with
  | zero => exact .returns hv
  | succ n ih =>
      unfold copyoutLoop
      rw [Option.getD_none]
      split
      · exact .returns hv
      split
      · exact .returns hv
      refine (walkaddr_avoids _ _ _).bind fun pa0 _ _ => ?_
      refine Avoids.bind (P := fun r => Vacant r.2.1 (sizePages sz)) ?_ ?_
      · cases pa0 with
        | some pa => exact .returns hv
        | none => exact vmfault_own_avoids hsz hv
      · rintro ⟨pa0, own, m1⟩ - hv1
        cases pa0 with
        | none => exact .returns hv1
        | some pa =>
            refine (walk_avoids _ _ _ _).bind fun r _ _ => ?_
            split
            · split
              · exact ih hv1
              · exact .returns hv1
            · exact .returns hv1
            · exact .halts (by simp [StrayLeaf])

theorem copyoutLoop_other_avoids {n dstva : Nat}
    (h : sz = 0 ∨ ∀ v, dstva / PGSIZE ≤ v → v * PGSIZE < dstva + len → pt.leaf v ≠ none) :
    Avoids StrayLeaf (fun r => r.2 = (own, m)) (copyoutLoop sz (some pt) n own dstva len m) := by
  induction n generalizing dstva len with
  | zero => exact .returns rfl
  | succ n ih =>
      unfold copyoutLoop
      rw [Option.getD_some]
      split
      · exact .returns rfl
      rename_i hlen
      split
      · exact .returns rfl
      have hpage : sz = 0 ∨ pt.leaf (pgrounddown (pgrounddown dstva) / PGSIZE) ≠ none := by
        refine h.imp_right fun h => ?_
        rw [pgrounddown_page, pgrounddown_page]
        apply h _ le_rfl
        have := Nat.div_mul_le_self dstva PGSIZE
        omega
      refine (walkaddr_avoids _ _ _).bind fun pa0 _ _ => ?_
      refine Avoids.bind (P := fun r => r.2 = (own, m)) ?_ ?_
      · cases pa0 with
        | some pa => exact .returns rfl
        | none => exact (vmfault_mapped_avoids hpage).mono fun r _ hr => by rw [hr]
      · rintro ⟨pa0, own1, m1⟩ - hr
        cases hr
        cases pa0 with
        | none => exact .returns rfl
        | some pa =>
            refine (walk_avoids _ _ _ _).bind fun r _ _ => ?_
            split
            · split
              · -- the next page, if anything is left to copy
                apply ih
                refine h.imp_right fun h v h1 h2 => ?_
                unfold pgrounddown at h1 h2
                apply h v
                · norm_num at h1 ⊢
                  omega
                · norm_num at h1 h2 ⊢
                  omega
              · exact .returns rfl
            · exact .returns rfl
            · exact .halts (by simp [StrayLeaf])

theorem uvmcopyLoop_avoids {old : PageTable} {n i : Nat}
    (hv : Vacant pt (i / PGSIZE)) (hn : i / PGSIZE + n ≤ TRAPFRAME / PGSIZE) :
    Avoids StrayLeaf (fun _ => True) (uvmcopyLoop old n pt i m) := by
  induction n generalizing pt i m with
  | zero => exact .returns trivial
  | succ n ih =>
      have hn1 : (i + PGSIZE) / PGSIZE + n ≤ TRAPFRAME / PGSIZE := by
        rw [succ_page]
        omega
      have hle : i / PGSIZE ≤ (i + PGSIZE) / PGSIZE := by
        rw [succ_page]
        exact Nat.le_succ _
      unfold uvmcopyLoop
      refine (walk_avoids _ _ _ _).bind fun r _ _ => ?_
      split
      · rename_i e _
        have hleaf : pt.leaf (i / PGSIZE) = none :=
          hv _ le_rfl (lt_trapframe_not_reserved
            (Nat.lt_of_lt_of_le (Nat.lt_add_of_pos_right n.succ_pos) hn))
        cases m with
        | nil => exact (uvmunmap_avoids _ _ _ _ _).bind fun _ _ _ => .returns trivial
        | cons mem m =>
            refine Avoids.bind (mappages_avoids hleaf) ?_
            rintro ⟨ok, new, m1⟩ hm -
            cases ok with
            | true =>
                refine ih ((mappages_one hm).extends.vacant_of (hv.mono hle) fun v hvm => ?_) hn1
                rw [Finset.mem_singleton.1 hvm, succ_page]
                exact Nat.lt_succ_self _
            | false =>
                refine (kfree_avoids _ _).bind fun m2 _ _ => ?_
                exact (uvmunmap_avoids _ _ _ _ _).bind fun _ _ _ => .returns trivial
      · exact ih (hv.mono hle) hn1

theorem uvmcopy_avoids {old : PageTable} (hsz : sz ≤ TRAPFRAME) (hv : Vacant pt 0) :
    Avoids StrayLeaf (fun _ => True) (uvmcopy old pt sz m) := by
  apply uvmcopyLoop_avoids
  · rwa [Nat.zero_div]
  · rw [Nat.zero_div, Nat.zero_add, pagesBetween]
    norm_num at hsz ⊢
    omega

/-! ## New page tables -/

theorem procPagetable_avoids (tf : PA) (m : Kmem) :
    Avoids StrayLeaf (fun _ => True) (procPagetable tf m) := by
  unfold procPagetable
  cases m with
  | nil => exact .returns trivial
  | cons page m =>
      refine Avoids.bind (mappages_avoids (Node.leaf_empty page _)) ?_
      rintro ⟨ok, pt1, m1⟩ hm -
      have hmap := mappages_one hm
      cases ok with
      | true =>
          have hne : TRAPFRAME / PGSIZE ≠ TRAMPOLINE / PGSIZE := by decide
          have hleaf : pt1.leaf (TRAPFRAME / PGSIZE) = none := by
            rw [hmap.done rfl, Function.update_of_ne hne, Node.leaf_empty]
          refine Avoids.bind (mappages_avoids hleaf) ?_
          rintro ⟨ok, pt2, m2⟩ hm2 -
          cases ok with
          | true => exact .returns trivial
          | false =>
              refine (uvmunmap_avoids _ _ _ _ _).bind ?_
              rintro ⟨pt3, m3⟩ hu -
              refine (uvmfree_avoids (Nat.zero_le _) (fun v _ => ?_) m3).bind
                fun _ _ _ => .returns trivial
              rw [(uvmunmap_spec hu).1, unmapRange_trampoline, (mappages_one hm2).failed rfl,
                hmap.done rfl]
              by_cases h : v = TRAMPOLINE / PGSIZE
              · simp only [Lib.cut, Finset.mem_singleton, h, if_true]
              · simp only [Lib.cut, Finset.mem_singleton, h, if_false]
                rw [Function.update_of_ne h, Node.leaf_empty]
      | false =>
          refine (uvmfree_avoids (Nat.zero_le _) (fun v _ => ?_) m1).bind
            fun _ _ _ => .returns trivial
          rw [hmap.failed rfl, Node.leaf_empty]

/-! ## Program images -/

omit [Link] in
theorem loadsegLoop_avoids (pt : PageTable) (ph : ProgHdr) (n k : Nat) (m : Kmem) :
    Avoids StrayLeaf (fun _ => True) (loadsegLoop pt ph n k m) := by
  induction n generalizing k with
  | zero => exact .returns trivial
  | succ n ih =>
      unfold loadsegLoop
      refine (walkaddr_avoids _ _ _).bind fun r _ _ => ?_
      split
      · exact .halts (by simp [StrayLeaf])
      · split
        · exact ih _
        · exact .returns trivial

structure Built (total : Nat) (pt : PageTable) (sz : Nat) (m : Kmem) : Prop where
  vacant : Vacant pt (sizePages sz)
  size_le : sz ≤ TRAPFRAME
  pages : sizePages sz + m.length ≤ total

structure Attempted (total : Nat) (r : Bool × PageTable × Nat × Kmem) : Prop where
  vacant : Vacant r.2.1 (sizePages r.2.2.1)
  size_le : r.2.2.1 ≤ TRAPFRAME
  pages : r.1 = true → sizePages r.2.2.1 + r.2.2.2.length ≤ total

omit [Link] in
theorem Attempted.failed (hv : Vacant pt (sizePages sz)) (hsz : sz ≤ TRAPFRAME) :
    Attempted total (false, pt, sz, m) :=
  ⟨hv, hsz, fun h => absurd h Bool.false_ne_true⟩

theorem loadSegments_avoids (htotal : total ≤ TRAPFRAME / PGSIZE) (phdrs : List (Option ProgHdr))
    (hb : Built total pt sz m) :
    Avoids StrayLeaf (Attempted total) (loadSegments phdrs pt sz m) := by
  have hstop : Attempted total (false, pt, sz, m) := .failed hb.vacant hb.size_le
  induction phdrs generalizing pt sz m with
  | nil => exact .returns ⟨hb.vacant, hb.size_le, fun _ => hb.pages⟩
  | cons ph rest ih =>
      cases ph with
      | none => exact .returns hstop
      | some ph =>
          unfold loadSegments
          split
          · exact ih hb hstop
          split
          · exact .returns hstop
          split
          · exact .returns hstop
          split
          · exact .returns hstop
          refine (uvmalloc_avoids hb.size_le hb.vacant (.inr (hb.pages.trans htotal))).bind ?_
          rintro ⟨sz1, pt1, m1⟩ - he
          dsimp only
          split
          · rename_i h0
            exact .returns (.failed (he.failed h0) hb.size_le)
          · rename_i h0
            have hb1 : Built total pt1 sz1 m1 :=
              ⟨he.done h0, he.size_le, (he.pages h0).trans hb.pages⟩
            have hstop1 : Attempted total (false, pt1, sz1, m1) := .failed hb1.vacant hb1.size_le
            refine (loadsegLoop_avoids _ _ _ _ _).bind fun b _ _ => ?_
            split
            · exact ih hb1 hstop1
            · exact .returns hstop1

structure Stacked (pt : PageTable) (sz : Nat) : Prop where
  aligned : sz % PGSIZE = 0
  two_le : 2 * PGSIZE ≤ sz
  top : pt.leaf (sz / PGSIZE - 1) ≠ none

theorem buildStack_avoids (htotal : total ≤ TRAPFRAME / PGSIZE) (hb : Built total pt sz m) :
    Avoids StrayLeaf (fun r => Vacant r.2.1 (sizePages r.2.2.1) ∧ r.2.2.1 ≤ TRAPFRAME ∧
      (r.1 = true → Stacked r.2.1 r.2.2.1)) (buildStack pt sz m) := by
  have hup := pgroundup_le_trapframe hb.size_le
  have hsame : sizePages (pgroundup sz) = sizePages sz := by
    rw [sizePages, pgroundup_of_aligned (pgroundup_aligned sz) (lt_of_le_of_lt hup (by decide))]
  have hv : Vacant pt (sizePages (pgroundup sz)) := by
    rw [hsame]
    exact hb.vacant
  have hroom : sizePages (pgroundup sz) + m.length ≤ TRAPFRAME / PGSIZE := by
    rw [hsame]
    exact hb.pages.trans htotal
  unfold buildStack
  refine (uvmalloc_avoids hup hv (.inr hroom)).bind ?_
  rintro ⟨sz1, pt1, m1⟩ ha he
  dsimp only
  split
  · rename_i h0
    exact .returns ⟨he.failed h0, hup, nofun⟩
  · rename_i h0
    -- what the allocation has mapped
    have hsum : addU64 (pgroundup sz) ((USERSTACK + 1) * PGSIZE) = pgroundup sz + 2 * PGSIZE := by
      apply addU64_of_lt
      norm_num at hup ⊢
      omega
    rw [hsum] at ha
    have hal := pgroundup_aligned sz
    obtain ⟨rfl, hfilled⟩ : sz1 = pgroundup sz + 2 * PGSIZE ∧
        ∃ e, pt1.leaf ((pgroundup sz + 2 * PGSIZE) / PGSIZE - 1) = some e := by
      rcases uvmalloc_spec (lt_of_le_of_lt hup (by decide)) ha with ⟨hlt, -⟩ | ⟨-, halloc⟩
      · omega
      · obtain ⟨hsz1, hext⟩ := halloc.resolve_right fun h => h0 h.1
        refine ⟨hsz1, hext.filled _ ?_⟩
        rw [pgroundup_of_aligned hal (lt_of_le_of_lt hup (by decide)), Finset.mem_Ico, pagesBetween]
        norm_num at hal ⊢
        omega
    refine Avoids.bind (P := fun _ => True) ?_ fun pt2 hc _ => .returns ?_
    · unfold uvmclear
      refine (walk_avoids _ _ _ _).bind fun r _ _ => ?_
      split
      · exact .halts (by simp [StrayLeaf])
      · exact .returns trivial
      · exact .returns trivial
    · have hmap := (uvmclear_spec hc).1
      have hiff : ∀ v, pt2.leaf v = none ↔ pt1.leaf v = none := by
        intro v
        rw [← Option.map_eq_none_iff (f := fun e : Pte => e.pa),
          ← Option.map_eq_none_iff (f := fun e : Pte => e.pa)]
        exact iff_of_eq (congrArg (· = none) (congrFun hmap v))
      refine ⟨fun v hn hr => (hiff v).2 (he.done h0 v hn hr), he.size_le, fun _ => ⟨?_, ?_, ?_⟩⟩
      · norm_num at hal ⊢
        omega
      · exact Nat.le_add_left _ _
      · intro hnone
        obtain ⟨e, hfilled⟩ := hfilled
        rw [(hiff _).1 hnone] at hfilled
        cases hfilled

/-- Pushing bytes that fit into the stack page writes to the image only. So does any push of a
process that has no memory yet. -/
theorem pushBytes_avoids {sp : Nat} (hs : Stacked pt sz) (hsz : sz ≤ TRAPFRAME)
    (hfit : psz = 0 ∨ (sz - PGSIZE ≤ sp ∧ sp ≤ sz) ∧ len ≤ PGSIZE) :
    Avoids StrayLeaf (fun r => r.2 = (own, m) ∧ ∀ sp', r.1 = some sp' →
      psz = 0 ∨ sz - PGSIZE ≤ sp' ∧ sp' ≤ sz) (pushBytes psz pt (sz - PGSIZE) sp len own m) := by
  unfold pushBytes
  dsimp only
  split
  · exact .returns ⟨rfl, nofun⟩
  · rename_i hbase
    have h2 := hs.two_le
    have hpages : psz = 0 ∨ sz - PGSIZE ≤ subU64 sp len - subU64 sp len % 16 ∧
        subU64 sp len - subU64 sp len % 16 + len ≤ sz := by
      refine hfit.imp_right fun ⟨hsp, hlen⟩ => ⟨Nat.not_lt.1 hbase, ?_⟩
      have hsub : subU64 sp len = sp - len := by
        unfold subU64
        norm_num at hsz h2 hsp hlen ⊢
        omega
      rw [hsub]
      norm_num at hsz h2 hsp hlen ⊢
      omega
    have hmapped : psz = 0 ∨ ∀ v, (subU64 sp len - subU64 sp len % 16) / PGSIZE ≤ v →
        v * PGSIZE < subU64 sp len - subU64 sp len % 16 + len → pt.leaf v ≠ none := by
      refine hpages.imp_right fun ⟨h1, h3⟩ v hv1 hv2 => ?_
      have h4 := hs.aligned
      have hv : v = sz / PGSIZE - 1 := by
        norm_num at h1 h2 h3 h4 hv1 hv2 ⊢
        omega
      rw [hv]
      exact hs.top
    refine (copyoutLoop_other_avoids hmapped).bind ?_
    rintro ⟨ok, own1, m1⟩ - hr
    cases hr
    refine .returns ⟨rfl, fun sp' hsp' => ?_⟩
    cases ok with
    | false => cases hsp'
    | true =>
        cases hsp'
        exact hpages.imp_right fun h => ⟨h.1, le_trans (Nat.le_add_right _ _) h.2⟩

theorem pushArgs_avoids {sp argc : Nat} {argv : List Nat} (hs : Stacked pt sz)
    (hsz : sz ≤ TRAPFRAME) (hargc : argc ≤ MAXARG)
    (hfit : psz = 0 ∨ (sz - PGSIZE ≤ sp ∧ sp ≤ sz) ∧ ∀ len ∈ argv, len < PGSIZE) :
    Avoids StrayLeaf (fun r => r.2 = (own, m))
      (pushArgs psz pt (sz - PGSIZE) argv argc sp own m) := by
  induction argv generalizing argc sp with
  | nil =>
      refine (pushBytes_avoids hs hsz (hfit.imp_right fun h => ⟨h.1, ?_⟩)).mono fun r _ hr => hr.1
      norm_num at hargc ⊢
      omega
  | cons len rest ih =>
      unfold pushArgs
      split
      · exact .returns rfl
      · rename_i hlt
        refine (pushBytes_avoids hs hsz
          (hfit.imp_right fun h => ⟨h.1, h.2 len List.mem_cons_self⟩)).bind ?_
        rintro ⟨sp1, own1, m1⟩ - ⟨hr, hsp1⟩
        cases hr
        cases sp1 with
        | none => exact .returns rfl
        | some sp1 =>
            refine ih (Nat.not_le.1 hlt) ?_
            rcases hfit with h0 | h
            · exact .inl h0
            · exact (hsp1 sp1 rfl).imp_right fun h1 =>
                ⟨h1, fun l hl => h.2 l (List.mem_cons_of_mem _ hl)⟩

omit [Link] in
theorem length_le_of_count {m m' : Kmem} (h : ∀ q, m'.count q ≤ m.count q) :
    m'.length ≤ m.length := (List.subperm_ext_iff.2 fun q _ => h q).length_le

/-- Building an image: the old address space is left alone, and the image has nothing above its
size. A process that has memory may push arguments of less than a page only, which is what
`sys_exec` passes on. -/
theorem kexecImage_avoids {tf : PA} {file : Option ExecFile} {argv : List Nat}
    (htotal : m.length ≤ TRAPFRAME / PGSIZE) (hfit : psz = 0 ∨ ∀ len ∈ argv, len < PGSIZE) :
    Avoids StrayLeaf (fun r => r.2.1 = own ∧ ∀ pt sz, r.1 = some (pt, sz) → Vacant pt (sizePages sz))
      (kexecImage psz tf file argv own m) := by
  unfold kexecImage
  cases file with
  | none => exact .returns ⟨rfl, nofun⟩
  | some f =>
      dsimp only
      split
      · exact .returns ⟨rfl, nofun⟩
      refine (procPagetable_avoids tf m).bind ?_
      rintro ⟨r, m0⟩ hp -
      rcases procPagetable_spec hp with ⟨rfl, -⟩ | ⟨pt0, rfl, hf, hc⟩
      · exact .returns ⟨rfl, nofun⟩
      have hlen : m0.length ≤ m.length := length_le_of_count fun q => by
        have := hc q
        omega
      have hb0 : Built m.length pt0 0 m0 :=
        ⟨fun v _ hr => hf.nothing v hr, Nat.zero_le _, by rw [show sizePages 0 = 0 by decide]; omega⟩
      dsimp only
      refine (loadSegments_avoids htotal f.phdrs hb0).bind ?_
      rintro ⟨ok, pt1, sz1, m1⟩ - h1
      dsimp only
      cases ok with
      | false =>
          exact (procFreepagetable_avoids h1.size_le h1.vacant m1).bind
            fun _ _ _ => .returns ⟨rfl, nofun⟩
      | true =>
          have hb1 : Built m.length pt1 sz1 m1 := ⟨h1.vacant, h1.size_le, h1.pages rfl⟩
          simp only [if_true]
          refine (buildStack_avoids htotal hb1).bind ?_
          rintro ⟨ok, pt2, sz2, m2⟩ - ⟨hv2, hsz2, hs2⟩
          dsimp only at hv2 hsz2 hs2 ⊢
          cases ok with
          | false =>
              exact (procFreepagetable_avoids hsz2 hv2 m2).bind fun _ _ _ => .returns ⟨rfl, nofun⟩
          | true =>
              have hs := hs2 rfl
              have htwo := hs.two_le
              have hbase : subU64 sz2 (USERSTACK * PGSIZE) = sz2 - PGSIZE := by
                unfold subU64
                norm_num at hsz2 htwo ⊢
                omega
              have hpush : psz = 0 ∨ (sz2 - PGSIZE ≤ sz2 ∧ sz2 ≤ sz2) ∧ ∀ len ∈ argv, len < PGSIZE :=
                hfit.imp_right fun h => ⟨⟨Nat.sub_le _ _, le_rfl⟩, h⟩
              simp only [if_true]
              rw [hbase]
              refine (pushArgs_avoids hs hsz2 (Nat.zero_le _) hpush).bind ?_
              rintro ⟨sp, own1, m3⟩ - hr
              cases hr
              cases sp with
              | some sp =>
                  refine .returns ⟨rfl, fun pt sz heq => ?_⟩
                  cases heq
                  exact hv2
              | none =>
                  exact (procFreepagetable_avoids hsz2 hv2 m2).bind
                    fun _ _ _ => .returns ⟨rfl, nofun⟩

end

end G9OS.Kernel
