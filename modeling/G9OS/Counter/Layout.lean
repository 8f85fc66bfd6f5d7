import G9OS.Counter.Machine

/-! # Where the counter is

The first page of the region holds the counter. The parent and the workers in their loop
have it mapped, at the address their `shm_open` returned, and nobody else has; the
kernel does not use it for anything else as long as the parent is attached.
-/

namespace G9OS.Counter

open Lib Kernel Mutex

variable {n va : Nat} {pa : PA} {pt : PageTable}

section
variable [Link] {d : Demo} {r : Fin SHM_SLOTS} {q : PA} {s t : State} {op : Op} {p : Fin NPROC}

/-! ## The page of the counter -/

/-- Region `r` is the one of the program, and `q` is its first page. -/
structure Region (d : Demo) (r : Fin SHM_SLOTS) (q : PA) (s : State) : Prop where
  sound : Sound s
  key : (s.shmTable r).key = d.key
  page : (s.shmTable r).pages 0 = q

theorem Region.key_ne (h : Region d r q s) : (s.shmTable r).key ≠ 0 := by
  rw [h.key]
  exact d.key_pos.ne'

theorem Region.npages_pos (h : Region d r q s) : 0 < (s.shmTable r).npages.toNat := by
  have := h.sound.sized r h.key_ne
  omega

theorem Region.not_kernelPage (h : Region d r q s) : ¬ KernelPage s q := by
  obtain ⟨hfree, hweight⟩ := h.sound.region_alone h.key_ne h.npages_pos
  rw [h.page] at hfree hweight
  rintro (hq | ⟨p, hq | ⟨pt, hpt, hq⟩⟩)
  · exact List.count_eq_zero.1 hfree hq
  · have h0 := hweight p
    rw [Space.weight_def, show (s.proc p).space.trapframe = some q from hq, hitOpt_some,
      hit_self] at h0
    omega
  · have h0 := hweight p
    rw [Space.weight_def, show (s.proc p).space.pagetable = some pt from hpt, heldOpt_some,
      Node.held] at h0
    omega

theorem Region.attached_of_leaf (h : Region d r q s) (hpt : (s.proc p).pagetable = some pt)
    {v : Nat} {e : Pte} (hl : pt.leaf v = some e) (he : e.pa = q) :
    ∃ j, ((s.proc p).shm j).key = d.key ∧ v = ((s.proc p).shm j).uva / PGSIZE := by
  obtain ⟨j, hj, hv⟩ :=
    h.sound.region_page_covered hpt hl h.key_ne h.npages_pos (he.trans h.page.symm)
  exact ⟨j, hj.trans h.key, hv⟩

theorem Region.unmapped (h : Region d r q s) (hp : ∀ j, ((s.proc p).shm j).key ≠ d.key)
    (hpt : (s.proc p).pagetable = some pt) (v : Nat) : pt.mapped v ≠ some q := by
  intro hv
  obtain ⟨e, hl, he⟩ := Option.map_eq_some_iff.1 hv
  obtain ⟨j, hj, -⟩ := h.attached_of_leaf hpt hl he
  exact hp j hj

theorem Region.walkaddr_eq (h : Region d r q s) {j : Fin PROC_SHM_SLOTS}
    (hj : ((s.proc p).shm j).key = d.key) : ∃ pt, (s.proc p).pagetable = some pt ∧
      walkaddr pt ((s.proc p).shm j).uva s.kmem = .ok (some q) := by
  have hj0 : ((s.proc p).shm j).key ≠ 0 := by
    rw [hj]
    exact d.key_pos.ne'
  obtain ⟨pt, r', hpt, hkey, hn, hw⟩ := h.sound.attach_walkaddr hj0
  obtain rfl : r' = r := h.sound.shm.regionUnique r' r (hkey ▸ hj0) (by rw [hkey, hj, h.key])
  have h0 := hw 0 (by rw [← hn]; exact h.npages_pos)
  rw [Nat.zero_mul, Nat.add_zero, h.page] at h0
  exact ⟨pt, hpt, h0⟩

/-- The region stays as it is until its last user closes it. -/
theorem Region.step (h : Region d r q s) (ht : Sound t) (he : Effect s op t)
    (hlast : ¬ LastClose s op r) : Region d r q t := by
  cases he.regionStep h.sound.tidy h.sound.shm r with
  | kept hk => exact ⟨ht, hk.key.trans h.key, by rw [hk.pages, h.page]⟩
  | unused h0 => exact absurd h0 h.key_ne
  | created _ _ h0 => exact absurd h0 h.key_ne
  | dropped hl => exact absurd hl hlast

/-- A step of the kernel does not touch the counter, unless it copies results to a process that is
attached. -/
theorem Region.preserved {mem mem' : Mem} (h : Region d r q s) (ht : Region d r q t)
    (hcopy : ∀ p, copiesTo op = some p → ∀ j,
      ((s.proc p).shm j).key ≠ d.key ∧ ((t.proc p).shm j).key ≠ d.key)
    (hm : Preserves s t op mem mem') : mem' q = mem q := by
  refine hm q h.not_kernelPage ht.not_kernelPage fun u hu p pt v hp hpt => ?_
  rcases List.mem_pair.1 hu with rfl | rfl
  · exact h.unmapped (fun j => (hcopy p hp j).1) hpt v
  · exact ht.unmapped (fun j => (hcopy p hp j).2) hpt v

/-! ## Loads and stores -/

omit [Link] in
theorem World.page_some {x : World} (h : x.page p va = some pa) :
    ∃ pt, (x.kernel.proc p).pagetable = some pt ∧ walkaddr pt va x.kernel.kmem = .ok (some pa) := by
  unfold World.page at h
  split at h
  · obtain ⟨pt, hpt, hw⟩ := Option.bind_eq_some_iff.1 h
    exact ⟨pt, hpt, toOption_some.1 (Option.join_eq_some_iff.1 hw)⟩
  · cases h

omit [Link] in
theorem leaf_of_walkaddr {m : Kmem} (h : walkaddr pt va m = .ok (some pa)) : ∃ e, pt.leaf
    (va / PGSIZE) = some e ∧ e.pa = pa := by
  unfold walkaddr at h
  split at h
  · cases h
  · obtain ⟨w, hw, h⟩ := bind_ok.1 h
    split at h
    · rename_i e he
      refine ⟨e, ((walk_leaf hw).1 e).1 he, ?_⟩
      split at h <;> cases h
      rfl
    · cases h

theorem Region.page_eq {x : World} (h : Region d r q x.kernel) {j : Fin PROC_SHM_SLOTS}
    (hj : ((x.kernel.proc p).shm j).key = d.key)
    (hpa : x.page p ((x.kernel.proc p).shm j).uva = some pa) : pa = q := by
  obtain ⟨pt, hpt, hw⟩ := World.page_some hpa
  obtain ⟨pt', hpt', hw'⟩ := h.walkaddr_eq hj
  rw [hpt] at hpt'
  cases hpt'
  rw [hw] at hw'
  cases hw'
  rfl

theorem Region.page_ne {x : World} (h : Region d r q x.kernel)
    (hva : ∀ j, ((x.kernel.proc p).shm j).key = d.key →
      va / PGSIZE ≠ ((x.kernel.proc p).shm j).uva / PGSIZE)
    (hpa : x.page p va = some pa) : pa ≠ q := by
  rintro rfl
  obtain ⟨pt, hpt, hw⟩ := World.page_some hpa
  obtain ⟨e, hl, he⟩ := leaf_of_walkaddr hw
  obtain ⟨j, hj, hv⟩ := h.attached_of_leaf hpt hl he
  exact hva j hj hv

end

/-! ## Attachments of the processes -/

inductive Attached (d : Demo) (x : Proc) : Role → Prop
  | other : (∀ j, (x.shm j).key ≠ d.key) → Attached d x .other
  | fresh : x.Live → Detached x → Attached d x .fresh
  | looping {n : Nat} {place : Place} (j : Fin PROC_SHM_SLOTS) : x.Live → (x.shm j).key = d.key →
      (∀ k, (x.shm k).key = 0 ∨ (x.shm k).key = d.key) →
      Attached d x (.looping (x.shm j).uva n place)
  | closed : x.Live → Detached x → Attached d x .closed
  | finished : x.state = .zombie → Detached x → Attached d x .finished

inductive Concerns (p : Fin NPROC) : Op → Prop
  | shmOpen (key size : Int) : Concerns p (.shmOpen p key size)
  | shmClose (key : Int) : Concerns p (.shmClose p key)
  | exit (status : Int) : Concerns p (.exit p status)

section
variable {d : Demo} {x x' : Proc} {ρ : Role} {exiting : Prop}

theorem foreign_of_detached (h : Detached x) (j : Fin PROC_SHM_SLOTS) : (x.shm j).key ≠ d.key := by
  rw [h j]
  exact d.key_pos.ne

theorem Attached.live_of_place (h : Attached d x ρ) {a : Nat} {place : Place}
    (hρ : ρ = .looping a n place) : x.Live := by
  cases h with
  | looping _ hl => exact hl
  | _ => cases hρ

/-- Nobody leaves the process table but finished workers and others. -/
theorem Attached.gone (h : Attached d x ρ) (hs : SlotStep exiting x x') (hu : x'.state = .unused) :
    ρ = .other ∨ ρ = .finished := by
  cases h with
  | other => exact .inl rfl
  | finished => exact .inr rfl
  | fresh hl | looping _ hl | closed hl => exact absurd hu (hs.not_unused hl)

theorem Attached.keep (h : Attached d x ρ) (hs : SlotStep exiting x x') (hx : ¬ exiting)
    (hshm : x'.shm = x.shm) :
    Attached d x' (if x'.state = .unused then .other else ρ) := by
  have hdet : Detached x → Detached x' := fun hd j => by rw [hshm]; exact hd j
  cases h with
  | other hk =>
      rw [ite_self]
      exact .other (by rw [hshm]; exact hk)
  | fresh hl hd =>
      rw [if_neg (hs.not_unused hl)]
      exact .fresh (hs.live hx hl).1 (hdet hd)
  | looping j hl hj hk =>
      rw [if_neg (hs.not_unused hl), ← hshm]
      refine .looping j (hs.live hx hl).1 ?_ fun k => ?_
      · rw [hshm]
        exact hj
      · rw [hshm]
        exact hk k
  | closed hl hd =>
      rw [if_neg (hs.not_unused hl)]
      exact .closed (hs.live hx hl).1 (hdet hd)
  | finished hz hd =>
      rcases hs.zombie hz with hz' | hu
      · rw [if_neg (by rw [hz']; exact nofun)]
        exact .finished hz' (hdet hd)
      · rw [if_pos hu]
        exact .other (foreign_of_detached (hdet hd))

end

section
variable [Link] {d : Demo} {r : Fin SHM_SLOTS} {q : PA} {s t : State} {op : Op} {p : Fin NPROC}
  {ρ : Role}

theorem shm_of_not_concerns (hs : Tidy s) (he : Effect s op t) (hc : ¬ Concerns p op) :
    (t.proc p).shm = (s.proc p).shm := by
  funext j
  generalize h' : (t.proc p).shm j = a
  have ha := he.attachStep hs p j
  rw [h'] at ha
  cases ha with
  | kept => rfl
  | opened hop => exact absurd (hop ▸ .shmOpen _ _) hc
  | closed hop => exact absurd (hop ▸ .shmClose _) hc

theorem foreign_step (hs : Tidy s) (he : Effect s op t) (hop : ∀ size, op ≠ .shmOpen p d.key size)
    (h : ∀ j, ((s.proc p).shm j).key ≠ d.key) (j : Fin PROC_SHM_SLOTS) :
    ((t.proc p).shm j).key ≠ d.key := by
  generalize h' : (t.proc p).shm j = a
  have ha := he.attachStep hs p j
  rw [h'] at ha
  cases ha with
  | kept => exact h j
  | opened ho hk =>
      rw [hk]
      rintro rfl
      exact hop _ ho
  | closed => exact d.key_pos.ne

theorem Attached.step (h : Attached d (s.proc p) ρ) (hs : Tidy s) (he : Effect s op t)
    (hout : ρ = .other ∧ (∀ size, op ≠ .shmOpen p d.key size) ∨ ¬ Concerns p op) :
    Attached d (t.proc p) (if (t.proc p).state = .unused then .other else ρ) := by
  rcases hout with ⟨rfl, hop⟩ | hc
  · rw [ite_self]
    cases h with
    | other hk => exact .other (foreign_step hs he hop hk)
  · refine h.keep (he.slots hs p) ?_ (shm_of_not_concerns hs he hc)
    rintro ⟨status, hop⟩
    exact hc (hop ▸ .exit status)

theorem Attached.opened {ret : Nat} (h : Attached d (s.proc p) .fresh) (hs : Tidy s)
    (he : Effect s (.shmOpen p d.key counterSize) t)
    (hr : shmOpen s p d.key counterSize = .ok (ret, t)) (hret : ret ≠ MINUS1) :
    Attached d (t.proc p) (.looping ret n .call) := by
  cases h with
  | fresh hl hd =>
      obtain ⟨-, j, hj, rfl⟩ := shmOpen_recorded hr hret
      refine .looping j ((he.slots hs p).live (fun ⟨_, hop⟩ => by cases hop) hl).1 hj fun k => ?_
      generalize h' : (t.proc p).shm k = a
      have ha := he.attachStep hs p k
      rw [h'] at ha
      cases ha with
      | kept => exact .inl (hd k)
      | opened hop hk =>
          cases hop
          exact .inr hk
      | closed => exact .inl rfl

theorem Attached.closes {a : Nat} {place : Place} (hs : Sound s)
    (h : Attached d (s.proc p) (.looping a n place)) (hn : next s (.shmClose p d.key) = some t) :
    Attached d (t.proc p) .closed := by
  have he := next_effect hs.tidy hn
  cases h with
  | looping j hl hj hk =>
      refine .closed ((he.slots hs.tidy p).live (fun ⟨_, hop⟩ => by cases hop) hl).1 fun k => ?_
      obtain ⟨pslot, hslot⟩ := attachSlot_of_holder (mem_holders.2 ⟨j, hj⟩)
      obtain ⟨u, hu⟩ := hs.shmClose_ok d.key_pos hslot
      obtain ⟨⟨ret, t1⟩, hc, rfl⟩ := map_ok.1 (next_some hn).2
      rw [hu] at hc
      cases hc
      rcases shmClose_cases hu with ⟨h0, -⟩ | ⟨pslot', r, pt, pt', m, hd, -, hrel⟩
      · cases h0
      · change (u.attachments p k).key = 0
        have h1 : u.attachments = (detachedState s p pslot' pt' m).attachments := by
          unfold State.attachments
          rw [shmRelease_proc hrel]
        rw [h1, detachedState_attachments]
        by_cases hkp : k = pslot'
        · rw [hkp, setAttach_self]
        · rw [setAttach_slot hkp]
          refine (hk k).resolve_right fun hkey => hkp ?_
          have hkey0 : (s.attachments p k).key ≠ 0 := by
            rw [State.attachments, hkey]
            exact d.key_pos.ne'
          exact hs.shm.attachUnique p k pslot' hkey0 (hkey.trans (attachSlot_some hd.slot).symm)

theorem Attached.exits {status : Int} (hs : Tidy s) (h : Attached d (s.proc p) .closed)
    (he : Effect s (.exit p status) t) (hk : kexit s p status = .ok t) :
    Attached d (t.proc p) .finished := by
  cases h with
  | closed hl hd =>
      obtain ⟨-, ⟨x, hx, hp⟩, -⟩ := kexit_spec hk
      refine .finished (by rw [hp]; rfl) fun j => ?_
      generalize h' : (t.proc p).shm j = a
      have ha := he.attachStep hs p j
      rw [h'] at ha
      cases ha with
      | kept => exact hd j
      | opened hop => cases hop
      | closed => rfl

/-! ## All processes -/

structure Layout (d : Demo) (r : Fin SHM_SLOTS) (q : PA) (s : State) (role : Fin NPROC → Role) :
    Prop extends Region d r q s where
  parent : ∃ j, ((s.proc d.parent).shm j).key = d.key ∧ ((s.proc d.parent).shm j).uva = d.addr
  boss : role d.parent = .other
  attached : ∀ p, p ≠ d.parent → Attached d (s.proc p) (role p)

variable {role role' : Fin NPROC → Role}

theorem Layout.ne_parent (h : Layout d r q s role) (hp : role p ≠ .other) : p ≠ d.parent := by
  rintro rfl
  exact hp h.boss

theorem Layout.worker (h : Layout d r q s role) (hp : role p = ρ) (hρ : ρ ≠ .other) :
    Attached d (s.proc p) ρ := by
  subst hp
  exact h.attached p (h.ne_parent hρ)

/-- As long as the parent is attached, no other process is the last user. -/
theorem Layout.not_lastClose (h : Layout d r q s role)
    (hop : ∀ key, op ≠ .shmClose d.parent key) : ¬ LastClose s op r := by
  rintro ⟨p, rfl, hp⟩
  obtain ⟨j, hj, -⟩ := h.parent
  have hmem : d.parent ∈ holders s.attachments (s.shmTable r).key :=
    mem_holders.2 ⟨j, hj.trans h.key.symm⟩
  rw [hp, Finset.mem_singleton] at hmem
  exact hop (s.shmTable r).key (by rw [hmem])

theorem Layout.step (h : Layout d r q s role) (ht : Sound t) (he : Effect s op t)
    (hop : ¬ Concerns d.parent op) (hboss : role' d.parent = .other)
    (hatt : ∀ p, p ≠ d.parent → Attached d (t.proc p) (role' p)) : Layout d r q t role' where
  toRegion := h.toRegion.step ht he (h.not_lastClose fun key hk => hop (hk ▸ .shmClose key))
  parent := by
    rw [shm_of_not_concerns h.sound.tidy he hop]
    exact h.parent
  boss := hboss
  attached := hatt

theorem Layout.outside (h : Layout d r q s role) (ht : Sound t) (he : Effect s op t)
    (hop : ¬ Concerns d.parent op)
    (hout : ∀ p, role p = .other ∧ (∀ size, op ≠ .shmOpen p d.key size) ∨ ¬ Concerns p op) :
    Layout d r q t fun p => if (t.proc p).state = .unused then .other else role p := by
  refine h.step ht he hop ?_ fun p hp => (h.attached p hp).step h.sound.tidy he (hout p)
  rw [h.boss, ite_self]

theorem Layout.inside (h : Layout d r q s role) (ht : Sound t) (he : Effect s op t)
    (hother : ∀ p', p' ≠ p → ¬ Concerns p' op) (hp : p ≠ d.parent)
    (hatt : Attached d (t.proc p) ρ) :
    Layout d r q t (Function.update
      (fun p' => if (t.proc p').state = .unused then .other else role p') p ρ) := by
  refine h.step ht he (hother _ hp.symm) ?_ fun p' hp' => ?_
  · rw [Function.update_of_ne hp.symm, h.boss, ite_self]
  · by_cases hpp : p' = p
    · rw [hpp, Function.update_self]
      exact hatt
    · rw [Function.update_of_ne hpp]
      exact (h.attached p' hp').step h.sound.tidy he (.inr (hother p' hpp))

end

end G9OS.Counter
