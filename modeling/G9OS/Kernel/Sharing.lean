import G9OS.Kernel.Safety

/-! # Regions and their users

The region table, the attachment tables and the page tables in runs that drop no
mapping of a region behind its back. A region keeps its pages until its last user
closes it, and every attachment shows them.
-/

namespace G9OS.Kernel

open Lib

variable {i pslot : Fin PROC_SHM_SLOTS} {r' : Fin SHM_SLOTS} {size : Int} {pt : PageTable}

/-- `size + PGSIZE - 1` of `shm_open` does not overflow. -/
def SizeOk (size : Int) : Prop := size + PGSIZE - 1 < 2 ^ 31

def LastClose (s : State) (op : Op) (r : Fin SHM_SLOTS) : Prop :=
  ∃ p, op = .shmClose p (s.shmTable r).key ∧ holders s.attachments (s.shmTable r).key = {p}

structure RegionKept (s t : State) (r : Fin SHM_SLOTS) : Prop where
  key : (t.shmTable r).key = (s.shmTable r).key
  npages : (t.shmTable r).npages = (s.shmTable r).npages
  pages : (t.shmTable r).pages = (s.shmTable r).pages

inductive RegionStep (s : State) (op : Op) (t : State) (r : Fin SHM_SLOTS) : Prop
  | kept : RegionKept s t r → RegionStep s op t r
  | unused : (s.shmTable r).key = 0 → (t.shmTable r).key = 0 → RegionStep s op t r
  | created {p : Fin NPROC} {key size : Int} : op = .shmOpen p key size → 0 < size →
      (s.shmTable r).key = 0 → (t.shmTable r).npages = shmPages size → RegionStep s op t r
  | dropped : LastClose s op r → (t.shmTable r).key = 0 → RegionStep s op t r

section
variable {s t : State} {op : Op} {p : Fin NPROC} {r : Fin SHM_SLOTS}

theorem RegionStep.of_eq (h : t.shmTable r = s.shmTable r) : RegionStep s op t r :=
  .kept ⟨by rw [h], by rw [h], by rw [h]⟩

theorem RegionStep.trans_kept {u : State} (h : RegionStep s op u r) (hk : RegionKept u t r) :
    RegionStep s op t r := by
  cases h with
  | kept h => exact .kept ⟨hk.key.trans h.key, hk.npages.trans h.npages, hk.pages.trans h.pages⟩
  | unused h1 h2 => exact .unused h1 (hk.key.trans h2)
  | created hop hs h1 h2 => exact .created hop hs h1 (hk.npages.trans h2)
  | dropped hl h2 => exact .dropped hl (hk.key.trans h2)

theorem Made.regionStep {key : Int} (h : Made s key size (some r') t)
    (hop : op = .shmOpen p key size) (hs : 0 < size) (r : Fin SHM_SLOTS) :
    RegionStep s op t r := by
  cases h with
  | found => exact .of_eq rfl
  | created _ hf =>
      by_cases hr : r = r'
      · subst hr
        exact .created hop hs (regionSlot_some hf) (by rw [setRegion_self])
      · exact .of_eq (setRegion_of_ne _ _ hr)

theorem Opened.regionKept [Link] {key : Int} (h : Opened s p r' key t) (r : Fin SHM_SLOTS) :
    RegionKept s t r := by
  cases h with
  | kept | failed => exact ⟨rfl, rfl, rfl⟩
  | attached =>
      obtain ⟨h1, h2, h3⟩ := setRefcount_fields s.shmTable r' (int32 ((s.shmTable r').refcount + 1)) r
      exact ⟨h1, h2, h3⟩

theorem Detaches.last_holder {key : Int} {pt' : PageTable} {m : Kmem} (h : s.ShmOk)
    (hd : Detaches s p key pslot r pt pt' m) (hle : int32 ((s.shmTable r).refcount - 1) ≤ 0) :
    holders s.attachments key = {p} := by
  have hslot : (s.attachments p pslot).key = key := attachSlot_some hd.slot
  have hcount := (Kernel.ShmOk.refcount_pos h (regionSlot_some hd.region) hd.pos.ne' hslot).2
  have hempty : (holders s.attachments key).erase p = ∅ := by
    rw [← Finset.card_eq_zero]
    omega
  rw [← Finset.insert_erase (mem_holders.2 ⟨pslot, hslot⟩), hempty,
    insert_empty_eq]

theorem Detaches.regionStep [Link] {key : Int} {pt' : PageTable} {m : Kmem} (h : s.ShmOk)
    (hd : Detaches s p key pslot r' pt pt' m)
    (hrel : shmRelease (detachedState s p pslot pt' m) r' = .ok t) (hop : op = .shmClose p key)
    (r : Fin SHM_SLOTS) : RegionStep s op t r := by
  rcases shmRelease_cases hrel with ⟨-, rfl⟩ | ⟨hle, m', -, rfl⟩
  · obtain ⟨h1, h2, h3⟩ := setRefcount_fields s.shmTable r' (int32 ((s.shmTable r').refcount - 1)) r
    exact .kept ⟨h1, h2, h3⟩
  · by_cases hr : r = r'
    · subst hr
      have hkey := regionSlot_some hd.region
      exact .dropped ⟨p, by rw [hkey, hop], by rw [hkey]; exact hd.last_holder h hle⟩
        (by rw [setRegion_self])
    · exact .of_eq (setRegion_of_ne _ _ hr)

theorem Effect.regionStep [Link] (hs : Tidy s) (h : s.ShmOk) (he : Effect s op t)
    (r : Fin SHM_SLOTS) : RegionStep s op t r := by
  cases he.tableStep hs with
  | same _ hr => exact (hr r).elim .of_eq fun hz => .unused hz.1 hz.2
  | opened hop _ _ hsz hm ho => exact (hm.regionStep hop hsz r).trans_kept (ho.regionKept r)
  | closed hop _ hd hrel => exact hd.regionStep h hrel hop r

end

/-! ## Regions with pages -/

/-- The step is safe, and a size given to `shm_open` does not overflow. -/
def Careful [Link] (s : State) (op : Op) : Prop :=
  Safe s op ∧ ∀ p key size, op = .shmOpen p key size → SizeOk size

def Sized (s : State) : Prop := ∀ r, (s.shmTable r).key ≠ 0 → 1 ≤ (s.shmTable r).npages

theorem one_le_shmPages (h0 : 0 < size) (h : SizeOk size) : 1 ≤ shmPages size := by
  unfold SizeOk at h
  unfold shmPages
  rw [int32_of_range (by norm_num; omega) h, Int.tdiv_eq_ediv_of_nonneg (by norm_num; omega)]
  norm_num
  omega

section
variable [Link] {s t : State} {op : Op} {p : Fin NPROC} {r : Fin SHM_SLOTS} {key : Int}

theorem Effect.sized (hs : Tidy s) (h : s.ShmOk) (hz : Sized s)
    (hop : ∀ p key size, op = .shmOpen p key size → SizeOk size) (he : Effect s op t) :
    Sized t := by
  intro r hr
  cases he.regionStep hs h r with
  | kept hk =>
      rw [hk.key] at hr
      rw [hk.npages]
      exact hz r hr
  | unused _ h2 => exact absurd h2 hr
  | created ho hsz _ h2 =>
      rw [h2]
      exact one_le_shmPages hsz (hop _ _ _ ho)
  | dropped _ h2 => exact absurd h2 hr

structure Sound (s : State) : Prop extends Good s where
  sized : Sized s

theorem Booted.no_regions (h : Booted s) (r : Fin SHM_SLOTS) : (s.shmTable r).key = 0 := by
  obtain ⟨m, init, argv, -, hb⟩ := h
  obtain ⟨s0, i, tf, pt, -, -, htidy, hshm, -, hreg, -, -, -, -, -, he⟩ := boot_steps hb
  have h0 : (s0.shmTable r).key = 0 := by
    rw [hreg]
    rfl
  cases he.regionStep htidy hshm r with
  | kept hk => rw [hk.key, h0]
  | unused _ h2 => exact h2
  | created hop => cases hop
  | dropped _ h2 => exact h2

theorem Sound.step (h : Sound s) (hc : Careful s op) (hn : next s op = some t) : Sound t := by
  have he := next_effect h.tidy hn
  exact ⟨h.toGood.step he hc.1, he.sized h.tidy h.shm h.sized hc.2⟩

theorem sound_of_reach (h : Reach next Careful Booted s) : Sound s :=
  Reach.inv (fun _ hb => ⟨hb.good, fun r hr => absurd (hb.no_regions r) hr⟩)
    (fun _ _ _ hu hok hn => hu.step hok hn) h

/-! ## Attachments show their region -/

/-- The address shows the first page of the region with this key. -/
def Shows (s : State) (p : Fin NPROC) (key : Int) (va : Nat) : Prop :=
  ∃ pt r, (s.proc p).pagetable = some pt ∧ (s.shmTable r).key = key ∧
    walkaddr pt va s.kmem = .ok (some ((s.shmTable r).pages 0))

theorem Sound.attach_full (h : Sound s) (hk : ((s.proc p).shm i).key ≠ 0) : ∃ pt,
    (s.proc p).pagetable = some pt := by
  obtain ⟨r, h1, h2⟩ := h.shm.attachRegion p i hk
  have h3 : 1 ≤ ((s.proc p).shm i).npages := by
    have := h.sized r (h1 ▸ hk)
    rwa [h2] at this
  cases h.spaces p with
  | empty _ _ hnone => exact absurd (le_trans h3 (hnone i)) (by decide)
  | full hpt => exact ⟨_, hpt⟩

/-- Every page of an attachment is mapped to the region's page of the same index. -/
theorem Good.attach_walkaddr (h : Good s) (hpt : (s.proc p).pagetable = some pt)
    (hk : ((s.proc p).shm i).key ≠ 0) (hr : (s.shmTable r).key = ((s.proc p).shm i).key) {j : Nat}
    (hj : j < ((s.proc p).shm i).npages.toNat) :
    walkaddr pt (((s.proc p).shm i).uva + j * PGSIZE) s.kmem =
      .ok (some ((s.shmTable r).pages j)) := by
  obtain ⟨tf, -, -, hmap⟩ := h.full hpt
  have hdiv : (((s.proc p).shm i).uva + j * PGSIZE) / PGSIZE = ((s.proc p).shm i).uva / PGSIZE + j :=
    Nat.add_mul_div_right _ _ (by decide)
  refine walkaddr_of_leaf ?_ (by rw [hdiv]; exact hmap i r hk hr j hj)
  -- the attachment ends below the trapframe
  have hmem : ((s.proc p).shm i).uva / PGSIZE + j ∈ ((s.proc p).shm i).range := by
    rw [h.range_eq, Finset.mem_Ico]
    omega
  have hlt := (h.shm.attachOk p i).range_lt hmem
  rw [← hdiv, Nat.div_lt_iff_lt_mul (by decide)] at hlt
  exact lt_of_lt_of_le hlt (by decide)

theorem Sound.attach_walkaddr (h : Sound s) (hk : ((s.proc p).shm i).key ≠ 0) : ∃ pt r,
    (s.proc p).pagetable = some pt ∧
      (s.shmTable r).key = ((s.proc p).shm i).key ∧
      (s.shmTable r).npages = ((s.proc p).shm i).npages ∧
      ∀ j < ((s.proc p).shm i).npages.toNat,
        walkaddr pt (((s.proc p).shm i).uva + j * PGSIZE) s.kmem =
          .ok (some ((s.shmTable r).pages j)) := by
  obtain ⟨pt, hpt⟩ := h.attach_full hk
  obtain ⟨r, h1, h2⟩ := h.shm.attachRegion p i hk
  exact ⟨pt, r, hpt, h1, h2, fun j hj => h.toGood.attach_walkaddr hpt hk h1 hj⟩

theorem shmOpen_recorded {ret : Nat} (h : shmOpen s p key size = .ok (ret, t))
    (hret : ret ≠ MINUS1) :
    0 < key ∧ ∃ i, ((t.proc p).shm i).key = key ∧ ((t.proc p).shm i).uva = ret := by
  rcases shmOpen_cases h with ⟨hr, -⟩ | ⟨hr, -⟩ | ⟨r, s1, hk, -, -, ha⟩
  · exact absurd hr hret
  · exact absurd hr hret
  · refine ⟨hk, ?_⟩
    rcases shmAttach_cases ha with
      ⟨i, hi, rfl, rfl⟩ | ⟨hr, -⟩ | ⟨pslot, pt, pt', m, -, -, rfl, rfl⟩
    · exact ⟨i, attachSlot_some hi, rfl⟩
    · exact absurd hr hret
    · refine ⟨pslot, ?_⟩
      rw [attachedState_self]
      simp

theorem Sound.shows_of_shmOpen (h : Sound s) {ret : Nat} (he : Enabled s (.shmOpen p key size))
    (hsz : SizeOk size) (hr : shmOpen s p key size = .ok (ret, t)) (hret : ret ≠ MINUS1) : Shows t p
    key ret := by
  have hn : next s (.shmOpen p key size) = some t := next_of_run he (by rw [run, hr]; rfl)
  have hc : Careful s (.shmOpen p key size) := ⟨trivial, fun _ _ _ ho => by cases ho; exact hsz⟩
  have ht : Sound t := h.step hc hn
  obtain ⟨hk, i, hi, rfl⟩ := shmOpen_recorded hr hret
  have hi0 : ((t.proc p).shm i).key ≠ 0 := by
    rw [hi]
    exact hk.ne'
  obtain ⟨pt, r, hpt, h1, h2, hw⟩ := ht.attach_walkaddr hi0
  have hz := ht.sized r (h1 ▸ hi0)
  have h0 := hw 0 (by omega)
  rw [Nat.zero_mul, Nat.add_zero] at h0
  exact ⟨pt, r, hpt, h1.trans hi, h0⟩

/-! ## Closing -/

omit [Link] in
theorem attachSlot_of_holder (h : p ∈ holders s.attachments key) :
    ∃ pslot, attachSlot (s.proc p) key = some pslot := by
  obtain ⟨i, hi⟩ := mem_holders.1 h
  exact Option.ne_none_iff_exists'.1 fun hnone => attachSlot_none hnone i hi

/-- The branch of `shm_close` for an attachment without a region is dead. -/
theorem Good.regionSlot_ne_none (h : Good s) (hk : 0 < key)
    (ha : attachSlot (s.proc p) key ≠ none) : regionSlot s key ≠ none := by
  intro hr
  obtain ⟨i, hi⟩ := Option.ne_none_iff_exists'.1 ha
  have hi' := attachSlot_some hi
  obtain ⟨r, h1, -⟩ := h.shm.attachRegion p i (by rw [State.attachments, hi']; exact hk.ne')
  exact regionSlot_none hr r (h1.trans hi')

theorem Sound.shmClose_ok (h : Sound s) (hk : 0 < key)
    (ha : attachSlot (s.proc p) key = some pslot) : ∃ t, shmClose s p key = .ok (0, t) := by
  have hslot := attachSlot_some ha
  obtain ⟨r, hr⟩ := Option.ne_none_iff_exists'.1
    (h.regionSlot_ne_none hk (by rw [ha]; exact nofun : attachSlot (s.proc p) key ≠ none))
  obtain ⟨pt, hpt⟩ := h.attach_full (by rw [hslot]; exact hk.ne' : ((s.proc p).shm pslot).key ≠ 0)
  have hok := h.shm.attachOk p pslot
  obtain ⟨pt', hu⟩ := uvmunmap_ok pt s.kmem
    hok.aligned (le_trans hok.uva_le (by decide)) (le_trans hok.end_le (by decide))
  have hkey : (s.shmTable r).key ≠ 0 := by
    rw [regionSlot_some hr]
    exact hk.ne'
  have hfree : ∃ t, shmRelease (detachedState s p pslot pt' s.kmem) r = .ok t := by
    unfold shmRelease
    dsimp only
    split
    · obtain ⟨m', hm'⟩ := kfreePages_ok (n := (s.shmTable r).npages.toNat) (k := 0) s.kmem
        fun j _ hj => h.usable _ (region_mass hkey (by omega : j < (s.shmTable r).npages.toNat))
      exact ⟨_, bind_ok.2 ⟨m', hm', rfl⟩⟩
    · exact ⟨_, rfl⟩
  obtain ⟨t, ht⟩ := hfree
  refine ⟨t, ?_⟩
  unfold shmClose
  rw [if_neg (by omega), ha]
  dsimp only
  rw [hr]
  dsimp only
  rw [hpt]
  exact bind_ok.2 ⟨_, hu, bind_ok.2 ⟨t, ht, rfl⟩⟩

theorem Sound.freed_of_lastClose (h : Sound s) (hk : (s.shmTable r).key ≠ 0)
    (hl : LastClose s op r) (hn : next s op = some t) :
    (t.shmTable r).key = 0 ∧ ∀ j < (s.shmTable r).npages.toNat, (s.shmTable r).pages j ∈ t.kmem := by
  obtain ⟨p, rfl, hp⟩ := hl
  have hpos := h.shm.keyPos r hk
  have hcount := h.shm.refcount r hk
  obtain ⟨pslot, hslot⟩ := attachSlot_of_holder (hp ▸ Finset.mem_singleton_self p)
  obtain ⟨t', hc⟩ := h.shmClose_ok hpos hslot
  obtain ⟨⟨ret, t1⟩, hc', rfl⟩ := map_ok.1 (next_some hn).2
  rcases shmClose_cases hc' with ⟨rfl, -⟩ | ⟨pslot', r', pt, pt', m, hd, -, hrel⟩
  · rw [hc] at hc'
    cases hc'
  · obtain rfl : r' = r := h.shm.regionUnique r' r (by rw [regionSlot_some hd.region]; exact hk)
      (regionSlot_some hd.region)
    rcases shmRelease_cases hrel with ⟨hgt, -⟩ | ⟨-, m', hfree, rfl⟩
    · have hone : (s.shmTable r').refcount = 1 := by rw [hcount, hp, Finset.card_singleton]; rfl
      have hgt' : 0 < int32 ((s.shmTable r').refcount - 1) := hgt
      rw [hone] at hgt'
      exact absurd hgt' (by decide)
    · refine ⟨by rw [setRegion_self], fun j hj => List.count_pos_iff.1 ?_⟩
      have hocc : 0 < occ (Finset.range (s.shmTable r').npages.toNat)
          (pageCells (s.shmTable r').pages) ((s.shmTable r').pages j) :=
        occ_pos (Finset.mem_range.2 hj) rfl
      have hq : m'.count ((s.shmTable r').pages j) = _ := hfree ((s.shmTable r').pages j)
      rw [setRegion_kmem, setKmem_kmem, hq]
      exact Nat.add_pos_right _ hocc

/-! ## Runs without exit, exec and shrinking -/

/-- No process exits, waits, replaces its program or shrinks, and no size overflows. -/
def Polite (_ : State) : Op → Prop
  | .exit _ _ | .wait _ _ | .waitStat _ _ _ _ | .exec _ _ _ _ => False
  | .sbrk _ n _ => 0 ≤ n
  | .shmOpen _ _ size => SizeOk size
  | _ => True

theorem Polite.careful (h : Polite s op) : Careful s op := by
  cases op with
  | wait | waitStat | exec => exact h.elim
  | sbrk p n ty => exact ⟨fun hn => absurd hn (not_lt.2 h), nofun⟩
  | shmOpen p key size => exact ⟨trivial, fun _ _ _ ho => by cases ho; exact h⟩
  | _ => exact ⟨trivial, nofun⟩

structure Agree (s : State) : Prop where
  regionUnique : ∀ r r', (s.shmTable r).key ≠ 0 → (s.shmTable r).key = (s.shmTable r').key → r = r'
  attachUnique : ∀ p i j, ((s.proc p).shm i).key ≠ 0 →
    ((s.proc p).shm i).key = ((s.proc p).shm j).key → i = j
  refcount : ∀ r, (s.shmTable r).key ≠ 0 →
    (s.shmTable r).refcount = (holders s.attachments (s.shmTable r).key).card
  mapped : ∀ p i, ((s.proc p).shm i).key ≠ 0 → ∃ pt r, (s.proc p).pagetable = some pt ∧
    (s.shmTable r).key = ((s.proc p).shm i).key ∧
    (s.shmTable r).npages = ((s.proc p).shm i).npages ∧
    ∀ j < ((s.proc p).shm i).npages.toNat,
      walkaddr pt (((s.proc p).shm i).uva + j * PGSIZE) s.kmem = .ok (some ((s.shmTable r).pages j))
  nowhereElse : ∀ p pt v r j, (s.proc p).pagetable = some pt → (s.shmTable r).key ≠ 0 →
    j < (s.shmTable r).npages.toNat → pt.mapped v = some ((s.shmTable r).pages j) →
    ∃ i, ((s.proc p).shm i).key = (s.shmTable r).key ∧
      v * PGSIZE = ((s.proc p).shm i).uva + j * PGSIZE
  closeFinds : ∀ p key, 0 < key → attachSlot (s.proc p) key ≠ none → regionSlot s key ≠ none

theorem Sound.agree (h : Sound s) : Agree s where
  regionUnique := h.shm.regionUnique
  attachUnique := h.shm.attachUnique
  refcount := h.shm.refcount
  mapped _ _ hk := h.attach_walkaddr hk
  nowhereElse p pt v r j hpt hk hj hv := by
    obtain ⟨e, hl, he⟩ := Option.map_eq_some_iff.1 hv
    obtain ⟨i, hi, rfl⟩ := h.region_page_covered hpt hl hk hj he
    refine ⟨i, hi, ?_⟩
    have hal : ((s.proc p).shm i).uva % PGSIZE = 0 := (h.shm.attachOk p i).aligned
    rw [Nat.add_mul, Nat.div_mul_cancel (Nat.dvd_of_mod_eq_zero hal)]
  closeFinds _ _ hk ha := h.regionSlot_ne_none hk ha

/-- The pages of a region in use are off the free list. Its last close, which does not
fail, puts all of them there and frees the slot; any other step leaves the region
as it is. -/
def FreedByLastClose (s : State) (r : Fin SHM_SLOTS) : Prop :=
  (∀ j < (s.shmTable r).npages.toNat, (s.shmTable r).pages j ∉ s.kmem) ∧
    (∀ p ∈ holders s.attachments (s.shmTable r).key,
      ∃ t, shmClose s p (s.shmTable r).key = .ok (0, t)) ∧
    ∀ op t, Polite s op → next s op = some t →
      (LastClose s op r → (t.shmTable r).key = 0 ∧
        ∀ j < (s.shmTable r).npages.toNat, (s.shmTable r).pages j ∈ t.kmem) ∧
      (¬ LastClose s op r → RegionKept s t r ∧
        ∀ j < (s.shmTable r).npages.toNat, (s.shmTable r).pages j ∉ t.kmem)

theorem Sound.freedByLastClose (h : Sound s) (hk : (s.shmTable r).key ≠ 0) :
    FreedByLastClose s r := by
  refine ⟨fun j hj hm => h.region_of_free hm hk hj rfl, fun p hp => ?_, fun op t hop hn =>
    ⟨fun hl => h.freed_of_lastClose hk hl hn, fun hl => ?_⟩⟩
  · obtain ⟨pslot, hslot⟩ := attachSlot_of_holder hp
    exact h.shmClose_ok (h.shm.keyPos r hk) hslot
  · have ht := h.step hop.careful hn
    cases (next_effect h.tidy hn).regionStep h.tidy h.shm r with
    | kept hkept =>
        refine ⟨hkept, fun j hj hm => ?_⟩
        have hk' : (t.shmTable r).key ≠ 0 := by rw [hkept.key]; exact hk
        have hj' : j < (t.shmTable r).npages.toNat := by rw [hkept.npages]; exact hj
        exact ht.region_of_free hm hk' hj' (by rw [hkept.pages])
    | unused h1 => exact absurd h1 hk
    | created _ _ h1 => exact absurd h1 hk
    | dropped hd => exact absurd hd hl

theorem reachable_agree (h : Reach next Polite Booted s) :
    Agree s ∧ ∀ r, (s.shmTable r).key ≠ 0 → FreedByLastClose s r := by
  have hs := sound_of_reach (h.mono fun _ _ => Polite.careful)
  exact ⟨hs.agree, fun r hk => hs.freedByLastClose hk⟩

/-- Over every safe run, what `shm_open` returns shows the first page of the region. -/
theorem reachable_shmOpen_shows (h : Reach next Careful Booted s) {size : Int} {ret : Nat}
    (he : Enabled s (.shmOpen p key size)) (hsz : SizeOk size)
    (hr : shmOpen s p key size = .ok (ret, t)) (hret : ret ≠ MINUS1) : Shows t p key ret :=
  (sound_of_reach h).shows_of_shmOpen he hsz hr hret

end

/-- Such a run: parent and child are attached to one region. -/
theorem reachable_agree_shared : ∃ s,
    sampleRun [.shmOpen 0 7 4096, .fork 0, .yield 0, .dispatch 1, .shmOpen 1 7 4096] = some s ∧
      (s.shmTable 0).refcount = 2 ∧ (s.shmTable 0).key = 7 ∧ Agree s ∧
      @FreedByLastClose sampleLink s 0 := by
  obtain ⟨s, hs, hc, hk⟩ := sampleRun_exists
    [.shmOpen 0 7 4096, .fork 0, .yield 0, .dispatch 1, .shmOpen 1 7 4096]
    (fun s => (s.shmTable 0).refcount = 2 ∧ (s.shmTable 0).key = 7)
    (by set_option maxRecDepth 100000 in decide +kernel)
  have h := @reachable_agree sampleLink s (sampleRun_reach (by simp [Polite, SizeOk]) hs)
  exact ⟨s, hs, hc, hk, h.1, h.2 0 (by rw [hk]; decide)⟩

def carefully (s : State) (op : Op) : Bool :=
  freesUnshared s op &&
    match op with
    | .shmOpen _ _ size => decide (size + PGSIZE - 1 < 2 ^ 31)
    | _ => true

theorem careful_of_carefully [Link] {s : State} {op : Op} (h : carefully s op = true) :
    Careful s op := by
  obtain ⟨hfrees, hsize⟩ := (Bool.and_eq_true _ _).mp h
  refine ⟨safe_of_freesUnshared hfrees, ?_⟩
  rintro p key size rfl
  have hlt : size + PGSIZE - 1 < 2 ^ 31 := of_decide_eq_true hsize
  exact hlt

/-- After other steps have freed memory, a second child opens the region its parent has open. -/
theorem reachable_shmOpen_shows_child : ∃ s ret t,
    sampleRun (freeingRun ++ [.fork 0, .yield 0, .dispatch 1]) = some s ∧
      @shmOpen sampleLink s 1 7 4096 = .ok (ret, t) ∧ ret ≠ MINUS1 ∧ Shows t 1 7 ret := by
  obtain ⟨s, hs, ⟨he, hr⟩, hreach⟩ := sampleRun_checked
    (freeingRun ++ [.fork 0, .yield 0, .dispatch 1]) (carefully · · = true)
    (fun s => Enabled s (.shmOpen 1 7 4096) ∧
      (@shmOpen sampleLink s 1 7 4096).toOption.any (fun x => x.1 ≠ MINUS1) = true)
    (by set_option maxRecDepth 100000 in decide +kernel)
  obtain ⟨⟨ret, t⟩, hopen, hret⟩ := (Option.any_eq_true _ _).1 hr
  have hopen' := toOption_some.1 hopen
  refine ⟨s, ret, t, hs, hopen', of_decide_eq_true hret, ?_⟩
  refine @reachable_shmOpen_shows sampleLink s t 1 7 (hreach.mono fun _ _ h => ?_) 4096 ret he
    (by decide : _ < _) hopen' (of_decide_eq_true hret)
  exact @careful_of_carefully sampleLink _ _ h

/-- The first process opens a region and runs a new program: its attachment stays on
record, and a second `shm_open` returns the recorded address, where the new page
table maps nothing. -/
theorem shmOpen_stale_after_exec : ∃ s ret t,
    Reach (@next sampleLink) Free (@Booted sampleLink) s ∧
      sampleRun [.shmOpen 0 1 4096, .exec 0 (some sampleInit) [4] "init"] = some s ∧
      Enabled s (.shmOpen 0 1 4096) ∧ @shmOpen sampleLink s 0 1 4096 = .ok (ret, t) ∧
      ret ≠ MINUS1 ∧ ¬ Shows t 0 1 ret := by
  obtain ⟨s, hs, he, hr⟩ := sampleRun_exists
    [.shmOpen 0 1 4096, .exec 0 (some sampleInit) [4] "init"]
    (fun s => Enabled s (.shmOpen 0 1 4096) ∧
      (@shmOpen sampleLink s 0 1 4096).toOption.any (fun x => x.1 ≠ MINUS1 ∧
        (x.2.proc 0).pagetable.all (fun pt =>
          (walkaddr pt x.1 x.2.kmem).toOption = some none) = true) = true)
    (by set_option maxRecDepth 100000 in decide +kernel)
  obtain ⟨⟨ret, t⟩, hopen, hret⟩ := (Option.any_eq_true _ _).1 hr
  obtain ⟨hne, hall⟩ := of_decide_eq_true hret
  refine ⟨s, ret, t, sampleRun_reach (fun _ _ _ => trivial) hs, hs, he, toOption_some.1 hopen, hne,
    ?_⟩
  rintro ⟨pt, r, hpt, -, hw⟩
  rw [hpt] at hall
  have hnone := of_decide_eq_true hall
  rw [hw] at hnone
  cases hnone

end G9OS.Kernel
