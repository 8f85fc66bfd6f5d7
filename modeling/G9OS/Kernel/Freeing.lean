import G9OS.Kernel.ProcSteps

/-! # Freeing a process

`kfree` looks at the address of the page only, so whether `freeproc` panics does not depend on
the free list.
-/

namespace G9OS.Kernel

open Lib

variable [Link] {pt pt' : PageTable} {m r : Kmem} {s t u : State} {i : Fin NPROC} {α : Type}

theorem kfree_any {pa : PA} (h : kfree pa m = .ok r) (m' : Kmem) : ∃ r', kfree pa m' = .ok r' :=
  ⟨_, if_pos (kfree_ok h).1⟩

theorem uvmunmapLoop_any {doFree : Bool} {n a : Nat}
    (h : uvmunmapLoop doFree n pt a m = .ok (pt', r)) (m' : Kmem) :
    ∃ r', uvmunmapLoop doFree n pt a m' = .ok (pt', r') := by
  induction n generalizing pt a m m' with
  | zero =>
      cases h
      exact ⟨m', rfl⟩
  | succ n ih =>
      have hwalk : ∀ e pt1 m1, walk pt a false m = .ok (e, pt1, m1) →
          walk pt a false m' = .ok (e, pt1, m') := by
        unfold walk Node.descend
        grind
      obtain ⟨⟨e, pt1, m1⟩, hw, h⟩ := bind_ok.1 h
      unfold uvmunmapLoop
      rw [hwalk _ _ _ hw, ok_bind]
      dsimp only at h ⊢
      split at h
      · obtain ⟨m2, hf, h⟩ := bind_ok.1 h
        cases doFree with
        | false => exact ih h m'
        | true =>
            obtain ⟨m3, hf'⟩ := kfree_any hf m'
            obtain ⟨r', hr⟩ := ih h m3
            exact ⟨r', bind_ok.2 ⟨m3, hf', hr⟩⟩
      · exact ih h m'

theorem uvmunmap_any {doFree : Bool} {va npages : Nat}
    (h : uvmunmap pt va npages doFree m = .ok (pt', r)) (m' : Kmem) :
    ∃ r', uvmunmap pt va npages doFree m' = .ok (pt', r') := by
  unfold uvmunmap at h ⊢
  split at h
  · cases h
  · rename_i hva
    rw [if_neg hva]
    exact uvmunmapLoop_any h m'

omit [Link] in
theorem freeEntries_any {free : α → Kmem → Except Panic Kmem} {t : Node α} {is : List (Fin 512)}
    (hf : ∀ c m r, free c m = .ok r → ∀ m', ∃ r', free c m' = .ok r')
    (h : freeEntries free t is m = .ok r) (m' : Kmem) :
    ∃ r', freeEntries free t is m' = .ok r' := by
  induction is generalizing m m' with
  | nil => exact ⟨m', rfl⟩
  | cons i is ih =>
      obtain ⟨m1, h1, h⟩ := bind_ok.1 h
      unfold freeEntries
      cases hi : t.entry i with
      | none => exact ih h m'
      | some c =>
          rw [hi] at h1
          obtain ⟨m2, h2⟩ := hf c m m1 h1 m'
          obtain ⟨r', hr⟩ := ih h m2
          exact ⟨r', bind_ok.2 ⟨m2, h2, hr⟩⟩

theorem Node.freewalk_any {free : α → Kmem → Except Panic Kmem} {t : Node α}
    (hf : ∀ c m r, free c m = .ok r → ∀ m', ∃ r', free c m' = .ok r')
    (h : t.freewalk free m = .ok r) (m' : Kmem) : ∃ r', t.freewalk free m' = .ok r' := by
  obtain ⟨m1, h1, h⟩ := bind_ok.1 h
  obtain ⟨m2, h2⟩ := freeEntries_any hf h1 m'
  obtain ⟨m3, h3⟩ := kfree_any h m2
  exact ⟨m3, bind_ok.2 ⟨m2, h2, h3⟩⟩

theorem uvmfree_any {sz : Nat} (h : uvmfree pt sz m = .ok r) (m' : Kmem) :
    ∃ r', uvmfree pt sz m' = .ok r' := by
  have hwalk : ∀ {pt m r}, freewalk pt m = .ok r → ∀ m', ∃ r', freewalk pt m' = .ok r' := by
    intro pt m r h
    apply Node.freewalk_any _ h
    intro l1 m r h
    apply Node.freewalk_any _ h
    intro l0 m r h
    exact Node.freewalk_any nofun h
  obtain ⟨⟨pt1, m1⟩, h1, h⟩ := bind_ok.1 h
  unfold uvmfree
  split at h1
  · rename_i hsz
    obtain ⟨m2, h2⟩ := uvmunmap_any h1 m'
    obtain ⟨r', hr⟩ := hwalk h m2
    rw [if_pos hsz]
    exact ⟨r', bind_ok.2 ⟨_, h2, hr⟩⟩
  · rename_i hsz
    cases h1
    rw [if_neg hsz, ok_bind]
    exact hwalk h m'

theorem procFreepagetable_any {sz : Nat} (h : procFreepagetable pt sz m = .ok r) (m' : Kmem) :
    ∃ r', procFreepagetable pt sz m' = .ok r' := by
  obtain ⟨⟨pt1, m1⟩, h1, h⟩ := bind_ok.1 h
  obtain ⟨⟨pt2, m2⟩, h2, h⟩ := bind_ok.1 h
  obtain ⟨m1', h1'⟩ := uvmunmap_any h1 m'
  obtain ⟨m2', h2'⟩ := uvmunmap_any h2 m1'
  obtain ⟨r', hr⟩ := uvmfree_any h m2'
  exact ⟨r', bind_ok.2 ⟨_, h1', bind_ok.2 ⟨_, h2', hr⟩⟩⟩

/-- Whether freeing a process panics depends on nothing but its slot. -/
theorem freeproc_any (h : freeproc s i = .ok t) (hi : u.proc i = s.proc i) :
    ∃ t', freeproc u i = .ok t' := by
  obtain ⟨m1, h1, h⟩ := bind_ok.1 h
  obtain ⟨m2, h2, -⟩ := bind_ok.1 h
  unfold freeproc
  rw [hi]
  cases hp : (s.proc i).pagetable with
  | none =>
      cases htf : (s.proc i).trapframe with
      | none => exact ⟨_, rfl⟩
      | some tf =>
          rw [htf] at h1
          obtain ⟨m1', h1'⟩ := kfree_any h1 u.kmem
          exact ⟨_, bind_ok.2 ⟨m1', h1', rfl⟩⟩
  | some pt =>
      rw [hp] at h2
      cases htf : (s.proc i).trapframe with
      | none =>
          obtain ⟨r', hr⟩ := procFreepagetable_any h2 u.kmem
          exact ⟨_, bind_ok.2 ⟨_, rfl, bind_ok.2 ⟨r', hr, rfl⟩⟩⟩
      | some tf =>
          rw [htf] at h1
          obtain ⟨m1', h1'⟩ := kfree_any h1 u.kmem
          obtain ⟨r', hr⟩ := procFreepagetable_any h2 m1'
          exact ⟨_, bind_ok.2 ⟨m1', h1', bind_ok.2 ⟨r', hr, rfl⟩⟩⟩

end G9OS.Kernel
