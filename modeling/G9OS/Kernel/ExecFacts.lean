import G9OS.Kernel.VmFacts
import G9OS.Kernel.Exec

/-! # What building a program image does to the free list

`kexec` builds the new image beside the old one. Until the commit, each page that
left the free list is held by the image or was faulted into the old address space;
a failed build gives the pages of the image back.
-/

namespace G9OS.Kernel

open Lib

variable [Link]

/-- A user page table under construction: with the free list it holds the pages
that `c` counts. -/
structure Image (tf : PA) (c : PA → Nat) (pt : PageTable) (m : Kmem) : Prop where
  user : UserTable tf pt
  pages : ∀ q, m.count q + pt.held reserved q = c q

section
variable {tf : PA} {c : PA → Nat} {pt pt' : PageTable} {m m' : Kmem}

theorem Image.extend {R : Finset Nat} (h : Image tf c pt m) (he : Extends pt m R pt' m') :
    Image tf c pt' m' :=
  ⟨he.userTable h.user, fun q => (he.held_reserved h.user q).trans (h.pages q)⟩

theorem Image.congr (h : Image tf c pt m) (hmap : pt'.mapped = pt.mapped)
    (htab : ∀ q, pt'.tables q = pt.tables q) : Image tf c pt' m := by
  refine ⟨⟨?_, ?_⟩, fun q => ?_⟩
  · rw [hmap]; exact h.user.trampoline
  · rw [hmap]; exact h.user.trapframe
  · rw [← h.pages q, Node.held, Node.held, hmap, htab]

theorem Allocated.size_le {oldsz newsz sz' : Nat} (hu : UserTable tf pt) (hold : oldsz ≤ TRAPFRAME)
    (h : Allocated pt m newsz (pageRange (pgroundup oldsz) (pagesBetween (pgroundup oldsz) newsz))
      sz' pt' m') : sz' ≤ TRAPFRAME := by
  rcases h with ⟨rfl, he⟩ | ⟨rfl, -⟩
  · have hnot := fun hr => he.disjoint_reserved hu (TRAPFRAME / PGSIZE) hr (by simp)
    have hbase := pgroundup_le_trapframe hold
    have hal := pgroundup_aligned oldsz
    simp only [Finset.mem_Ico, pagesBetween] at hnot
    norm_num at hnot hbase hal ⊢
    omega
  · exact Nat.zero_le _

theorem uvmalloc_image {xperm : Perm} {oldsz newsz sz' : Nat} (hi : Image tf c pt m)
    (hold : oldsz ≤ TRAPFRAME) (h : uvmalloc pt oldsz newsz xperm m = .ok (sz', pt', m')) :
    Image tf c pt' m' ∧ sz' ≤ TRAPFRAME := by
  rcases uvmalloc_spec (lt_of_le_of_lt hold (by norm_num)) h with
    ⟨-, rfl, rfl, rfl⟩ | ⟨-, ha⟩
  · exact ⟨hi, hold⟩
  · refine ⟨?_, ha.size_le hi.user hold⟩
    rcases ha with ⟨-, he⟩ | ⟨-, he⟩
    · exact hi.extend he
    · exact hi.extend he

theorem loadSegments_spec {phdrs : List (Option ProgHdr)} {sz sz' : Nat} {ok : Bool}
    (hi : Image tf c pt m) (hsz : sz ≤ TRAPFRAME)
    (h : loadSegments phdrs pt sz m = .ok (ok, pt', sz', m')) :
    Image tf c pt' m' ∧ sz' ≤ TRAPFRAME := by
  induction phdrs generalizing pt sz m with
  | nil => cases h; exact ⟨hi, hsz⟩
  | cons ph rest ih =>
      cases ph with
      | none => cases h; exact ⟨hi, hsz⟩
      | some ph =>
          unfold loadSegments at h
          split at h
          · exact ih hi hsz h
          split at h
          · cases h; exact ⟨hi, hsz⟩
          split at h
          · cases h; exact ⟨hi, hsz⟩
          split at h
          · cases h; exact ⟨hi, hsz⟩
          rw [bind_ok] at h
          obtain ⟨⟨sz1, pt1, m1⟩, ha, h⟩ := h
          obtain ⟨hi1, hsz1⟩ := uvmalloc_image hi hsz ha
          dsimp only at h
          split at h
          · cases h; exact ⟨hi1, hsz⟩
          rw [bind_ok] at h
          obtain ⟨b, -, h⟩ := h
          split at h
          · exact ih hi1 hsz1 h
          · cases h; exact ⟨hi1, hsz1⟩

theorem buildStack_spec {sz sz' : Nat} {ok : Bool} (hi : Image tf c pt m) (hsz : sz ≤ TRAPFRAME)
    (h : buildStack pt sz m = .ok (ok, pt', sz', m')) : Image tf c pt' m' ∧ sz' ≤ TRAPFRAME := by
  unfold buildStack at h
  have hup := pgroundup_le_trapframe hsz
  obtain ⟨⟨sz1, pt1, m1⟩, ha, h⟩ := bind_ok.1 h
  obtain ⟨hi1, hsz1⟩ := uvmalloc_image hi hup ha
  dsimp only at h
  split at h
  · cases h; exact ⟨hi1, hup⟩
  · obtain ⟨pt2, hc, h⟩ := bind_ok.1 h
    cases h
    obtain ⟨hmap, htab⟩ := uvmclear_spec hc
    exact ⟨hi1.congr hmap htab, hsz1⟩

end

/-! ## Arguments

Pushing the arguments writes to the image, but a page fault on the way maps the
new page into the old address space. -/

section
variable {psz stackbase sp len : Nat} {pt own own' : PageTable} {m m' : Kmem} {r : Option Nat}

theorem pushBytes_spec (h : pushBytes psz pt stackbase sp len own m = .ok (r, own', m')) :
    ∃ R, Extends own m R own' m' := by
  unfold pushBytes at h
  dsimp only at h
  split at h
  · cases h
    exact ⟨∅, Extends.refl _ _⟩
  · obtain ⟨⟨ok, own1, m1⟩, hc, h⟩ := bind_ok.1 h
    cases h
    exact copyout_spec hc

theorem pushArgs_spec {argv : List Nat} {argc : Nat}
    (h : pushArgs psz pt stackbase argv argc sp own m = .ok (r, own', m')) :
    ∃ R, Extends own m R own' m' := by
  induction argv generalizing argc sp own m with
  | nil => exact pushBytes_spec h
  | cons len rest ih =>
      unfold pushArgs at h
      split at h
      · cases h
        exact ⟨∅, Extends.refl _ _⟩
      · rw [bind_ok] at h
        obtain ⟨⟨sp1, own1, m1⟩, hp, h⟩ := h
        obtain ⟨R, hR⟩ := pushBytes_spec hp
        cases sp1 with
        | none =>
            cases h
            exact ⟨R, hR⟩
        | some sp1 =>
            obtain ⟨R', hR'⟩ := ih h
            exact ⟨R ∪ R', hR.trans hR'⟩

end

/-! ## The whole image -/

theorem Image.freed {tf : PA} {pt own own' : PageTable} {m m1 m2 m' : Kmem} {sz : Nat}
    {R : Finset Nat} (hi : Image tf (fun q => m.count q) pt m1) (hsz : sz ≤ TRAPFRAME)
    (he : Extends own m1 R own' m2) (h : procFreepagetable pt sz m2 = .ok m') :
    Extends own m R own' m' := by
  refine ⟨he.outside, he.vacant, he.filled, fun q => ?_⟩
  have h1 := (procFreepagetable_spec hsz h).2 q
  have h2 := he.pages q
  have h3 := hi.pages q
  omega

/-- `kexec` before its commit: either no image is left, or there is one with a
size below the trapframe, holding what the free list has lost. -/
theorem kexecImage_spec {psz : Nat} {tf : PA} {file : Option ExecFile} {argv : List Nat}
    {own own' : PageTable} {m m' : Kmem} {image : Option (PageTable × Nat)}
    (h : kexecImage psz tf file argv own m = .ok (image, own', m')) :
    ∃ R m1, Extends own m1 R own' m' ∧
      match image with
      | none => ∀ q, m1.count q = m.count q
      | some (pt, sz) => Image tf (fun q => m.count q) pt m1 ∧ sz ≤ TRAPFRAME := by
  unfold kexecImage at h
  cases file with
  | none =>
      cases h
      exact ⟨∅, m, Extends.refl _ _, fun _ => rfl⟩
  | some f =>
      dsimp only at h
      split at h
      · cases h
        exact ⟨∅, m, Extends.refl _ _, fun _ => rfl⟩
      rw [bind_ok] at h
      obtain ⟨⟨r, m0⟩, hp, h⟩ := h
      rcases procPagetable_spec hp with ⟨rfl, hc⟩ | ⟨pt0, rfl, hf, hc⟩
      · cases h
        exact ⟨∅, _, Extends.refl _ _, hc⟩
      have hi0 : Image tf (fun q => m.count q) pt0 m0 :=
        ⟨hf.toUserTable, fun q => by rw [hf.held, hc]⟩
      dsimp only at h
      rw [bind_ok] at h
      obtain ⟨⟨ok1, pt1, sz1, m1⟩, hl, h⟩ := h
      obtain ⟨hi1, hsz1⟩ := loadSegments_spec hi0 (Nat.zero_le _) hl
      cases ok1 with
      | false =>
          obtain ⟨m2, hfree, h⟩ := bind_ok.1 h
          cases h
          exact ⟨∅, m, hi1.freed hsz1 (Extends.refl _ _) hfree, fun _ => rfl⟩
      | true =>
          simp only [if_true] at h
          rw [bind_ok] at h
          obtain ⟨⟨ok2, pt2, sz2, m2⟩, hb, h⟩ := h
          obtain ⟨hi2, hsz2⟩ := buildStack_spec hi1 hsz1 hb
          cases ok2 with
          | false =>
              obtain ⟨m3, hfree, h⟩ := bind_ok.1 h
              cases h
              exact ⟨∅, m, hi2.freed hsz2 (Extends.refl _ _) hfree, fun _ => rfl⟩
          | true =>
              simp only [if_true] at h
              rw [bind_ok] at h
              obtain ⟨⟨sp, own1, m3⟩, ha, h⟩ := h
              obtain ⟨R, hR⟩ := pushArgs_spec ha
              cases sp with
              | some sp =>
                  cases h
                  exact ⟨R, m2, hR, hi2, hsz2⟩
              | none =>
                  obtain ⟨m4, hfree, h⟩ := bind_ok.1 h
                  cases h
                  exact ⟨R, m, hi2.freed hsz2 hR hfree, fun _ => rfl⟩

end G9OS.Kernel
