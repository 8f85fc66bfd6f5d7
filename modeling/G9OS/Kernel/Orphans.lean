import G9OS.Kernel.Sharing

/-! # Regions that nobody uses

`kexit`, `kexec` and the failure paths of `shm_open` behind the creation of a region
leave attachments and regions as they are. In runs where processes close their
regions before they exit or run a new program, and where a region that can be
created can also be attached, every region is in use by a live process.
-/

namespace G9OS.Kernel

open Lib

def Detached (p : Proc) : Prop := ∀ i, (p.shm i).key = 0

instance (p : Proc) : Decidable (Detached p) := inferInstanceAs (Decidable (∀ _, _))

/-- `shm_open` would create a region: the key is new, there is a free slot and there are
enough pages. -/
def Creates (s : State) (key size : Int) : Prop :=
  regionSlot s key = none ∧ regionSlot s 0 ≠ none ∧ (shmPages size).toNat ≤ s.kmem.length

/-- Process `p` can attach to a new region of this size: it has a free attachment, the
region fits below the trapframe, and two further pages are free for each of its pages. -/
def Room (s : State) (p : Fin NPROC) (size : Int) : Prop :=
  attachSlot (s.proc p) 0 ≠ none ∧
    addU64 (pgroundup (s.proc p).sz) (mapBytes (shmPages size)) ≤ TRAPFRAME ∧
    3 * (shmPages size).toNat ≤ s.kmem.length

/-- Processes exit, and leave their program, without attachments; a region is created
only if its creator can attach to it; `sbrk` shrinks over no region. -/
def Tended [Link] (s : State) : Op → Prop
  | .exit p _ => Detached (s.proc p)
  | .exec p file argv _ =>
      ∀ own tf image own' m, (s.proc p).pagetable = some own → (s.proc p).trapframe = some tf →
        kexecImage (s.proc p).sz tf file argv own s.kmem = .ok (some image, own', m) →
        Detached (s.proc p)
  | .sbrk p n _ =>
      n < 0 → Unshared s p (deallocRange (s.proc p).sz (addU64 (s.proc p).sz (toU64 n)))
  | .shmOpen p key size => Creates s key size → Room s p size
  | _ => True

structure Used [Link] (s : State) : Prop extends Good s where
  idle : ∀ p, ¬ (s.proc p).Live → Detached (s.proc p)
  counted : ∀ r, (s.shmTable r).key ≠ 0 → 1 ≤ (s.shmTable r).refcount

section
variable [Link] {s t : State} {op : Op} {p : Fin NPROC} {r : Fin SHM_SLOTS}

theorem Good.unshared_of_detached (h : Good s) (hd : Detached (s.proc p)) (D : Finset Nat) :
    Unshared s p D := by
  intro pt hpt v _ r j hk hj hm
  obtain ⟨e, hl, he⟩ := Option.map_eq_some_iff.1 hm
  obtain ⟨i, hi, -⟩ := h.region_page_covered hpt hl hk hj he
  exact hk (hi.symm.trans (hd i))

theorem Used.safeReap (h : Used s) (p : Fin NPROC) (addrs : List Nat) : SafeReap s p addrs := by
  intro c _ _ _ hz _ _
  refine h.unshared_of_detached (h.idle c fun hl => hl.2 ?_) _
  exact zombieChild_zombie hz

theorem Used.safe (h : Used s) (ht : Tended s op) : Safe s op := by
  cases op with
  | wait | waitStat => exact h.safeReap _ _
  | exec p file argv name =>
      intro own tf image own' m h1 h2 h3
      exact h.unshared_of_detached (ht own tf image own' m h1 h2 h3) _
  | sbrk p n ty => exact ht
  | _ => trivial

/-! ## One step -/

theorem TableStep.shm_eq (h : TableStep s op t) (i : Fin NPROC) :
    (t.proc i).shm = (s.proc i).shm ∨
      (s.proc i).state = .running ∧ ∀ status, op ≠ .exit i status := by
  cases h with
  | same ha _ => exact .inl (congrFun ha i)
  | @opened p key size r s1 hop hrun _ _ hm ho =>
      by_cases hi : i = p
      · subst hi
        exact .inr ⟨hrun, fun _ he => by rw [hop] at he; cases he⟩
      · left
        rw [← hm.proc]
        cases ho with
        | kept => rfl
        | failed => rw [setSpace_of_ne _ _ _ _ hi]
        | attached => rw [attachedState_others _ _ _ _ _ _ _ i hi]
  | @closed p key pslot r pt pt' m hop hrun _ hrel =>
      by_cases hi : i = p
      · subst hi
        exact .inr ⟨hrun, fun _ he => by rw [hop] at he; cases he⟩
      · left
        rw [shmRelease_proc hrel, detachedState, setSpace_modProc_of_ne _ _ _ _ _ hi]

theorem Effect.idle (hs : Tidy s) (he : Effect s op t)
    (hidle : ∀ p, ¬ (s.proc p).Live → Detached (s.proc p))
    (hexit : ∀ p status, op = .exit p status → Detached (s.proc p)) (i : Fin NPROC)
    (hi : ¬ (t.proc i).Live) : Detached (t.proc i) := by
  have hslot := he.slots hs i
  have hold : Detached (s.proc i) := by
    by_cases hx : ∃ status, op = .exit i status
    · obtain ⟨status, hx⟩ := hx
      exact hexit i status hx
    · exact hidle i fun hl => hi (hslot.live hx hl).1
  rcases (he.tableStep hs).shm_eq i with heq | ⟨hrun, hne⟩
  · unfold Detached
    rw [heq]
    exact hold
  · refine absurd (hslot.live (fun ⟨st, hx⟩ => hne st hx) ?_).1 hi
    unfold Proc.Live
    rw [hrun]
    exact ⟨nofun, nofun⟩

omit [Link] in
/-- Where there is room, an attempt to attach to a new region succeeds. -/
theorem Made.attaches {key size : Int} {s1 : State} (h : s.ShmOk) (hk : 0 < key)
    (hroom : Creates s key size → Room s p size) (hm : Made s key size (some r) s1)
    (hnew : regionSlot s key = none) (ho : Opened s1 p r key t) :
    ∃ pslot pt pt' m, Attaches s1 p r key pslot pt pt' m ∧
      t = attachedState s1 p r key pslot pt' m := by
  have hno : attachSlot (s1.proc p) key = none ∧ ¬ NoRoom s1 p r := by
    cases hm with
    | found hr => rw [hnew] at hr; cases hr
    | @created _ pages m _ hf hc hlen =>
        obtain ⟨h1, h2, h3⟩ := hroom ⟨hnew, by rw [hf]; exact nofun, by omega⟩
        constructor
        · -- nobody holds a key that has no region
          by_contra hslot
          obtain ⟨i, hi⟩ := Option.ne_none_iff_exists'.1 hslot
          have hi' : (s.attachments p i).key = key := attachSlot_some hi
          obtain ⟨r', hr', -⟩ := h.attachRegion p i (by rw [hi']; exact hk.ne')
          exact regionSlot_none hnew r' (hr'.trans hi')
        · have hn : (((s.setKmem m).setRegion r ⟨key, shmPages size, pages, 0⟩).shmTable r).npages =
              shmPages size := by rw [setRegion_self]
          unfold NoRoom
          rw [hn]
          rintro (hslot | hfit | hfew)
          · exact h1 hslot
          · exact absurd h2 (Nat.not_le.2 hfit)
          · rw [setRegion_kmem, setKmem_kmem] at hfew
            omega
  cases ho with
  | kept hor => exact absurd hor (not_or.2 ⟨not_not.2 hno.1, hno.2⟩)
  | failed _ hr => exact absurd hr hno.2
  | attached ha => exact ⟨_, _, _, _, ha, rfl⟩

omit [Link] in
theorem Made.other {key size : Int} {s1 : State} (hm : Made s key size (some r) s1)
    {r' : Fin SHM_SLOTS} (hr : r' ≠ r) : s1.shmTable r' = s.shmTable r' := by
  cases hm with
  | found => rfl
  | created => exact setRegion_of_ne _ _ hr

omit [Link] in
theorem attachedState_counted {key : Int} {pslot : Fin PROC_SHM_SLOTS} {pt' : PageTable} {m : Kmem}
    (hkey : (s.shmTable r).key = key) (hk : 0 < key)
    (hshm : (attachedState s p r key pslot pt' m).ShmOk) :
    1 ≤ ((attachedState s p r key pslot pt' m).shmTable r).refcount := by
  have hkey' : ((attachedState s p r key pslot pt' m).shmTable r).key = key := by
    rw [attachedState, attached, setRegion_self]
    exact hkey
  have hcount := hshm.refcount r (by rw [hkey']; exact hk.ne')
  rw [hkey', attachedState_attachments] at hcount
  rw [hcount]
  have hp : p ∈ holders (setAttach s.attachments p pslot
      ⟨key, pgroundup (s.proc p).sz, (s.shmTable r).npages⟩) key :=
    mem_holders.2 ⟨pslot, by rw [setAttach_self]⟩
  exact_mod_cast Finset.card_pos.2 ⟨p, hp⟩

theorem Effect.counted (hs : Tidy s) (h : s.ShmOk) (he : Effect s op t) (ht : Tended s op)
    (hc : ∀ r, (s.shmTable r).key ≠ 0 → 1 ≤ (s.shmTable r).refcount) (r : Fin SHM_SLOTS)
    (hr : (t.shmTable r).key ≠ 0) : 1 ≤ (t.shmTable r).refcount := by
  have hshm := he.shmOk hs h
  cases he.tableStep hs with
  | same _ hregions =>
      have heq := (hregions r).resolve_right fun hz => hr hz.2
      rw [heq] at hr ⊢
      exact hc r hr
  | @opened p key size r' s1 hop _ hk _ hm ho =>
      subst hop
      have hkey := (hm.region h.bounded hk).1
      have hothers : ∀ {pslot pt' m}, r ≠ r' →
          (attachedState s1 p r' key pslot pt' m).shmTable r = s.shmTable r := fun hne =>
        (setRegion_of_ne _ _ hne).trans (hm.other hne)
      have hattached : ∀ {pslot pt' m}, t = attachedState s1 p r' key pslot pt' m →
          1 ≤ (t.shmTable r).refcount := by
        rintro pslot pt' m rfl
        by_cases hrr : r = r'
        · subst hrr
          exact attachedState_counted hkey hk hshm
        · rw [hothers hrr] at hr ⊢
          exact hc r hr
      cases hnew : regionSlot s key with
      | none =>
          obtain ⟨pslot, pt, pt', m, -, heq⟩ := hm.attaches h hk ht hnew ho
          exact hattached heq
      | some r0 =>
          obtain rfl : s1 = s := by
            cases hm with
            | found => rfl
            | created hnone => rw [hnew] at hnone; cases hnone
          cases ho with
          | kept => exact hc r hr
          | failed => exact hc r hr
          | attached => exact hattached rfl
  | @closed p key pslot r' pt pt' m _ _ _ hrel =>
      rcases shmRelease_cases hrel with ⟨hpos, rfl⟩ | ⟨-, m', -, rfl⟩
      · by_cases hrr : r = r'
        · subst hrr
          rw [setRegion_self]
          exact hpos
        · rw [setRegion_of_ne _ _ hrr] at hr ⊢
          exact hc r hr
      · by_cases hrr : r = r'
        · subst hrr
          rw [setRegion_self] at hr
          exact absurd rfl hr
        · rw [setRegion_of_ne _ _ hrr] at hr ⊢
          exact hc r hr

theorem Used.step (h : Used s) (ht : Tended s op) (hn : next s op = some t) : Used t := by
  have he := next_effect h.tidy hn
  refine ⟨h.toGood.step he (h.safe ht), he.idle h.tidy h.idle ?_, he.counted h.tidy h.shm ht h.counted⟩
  rintro p status rfl
  exact ht

theorem used_of_reach (h : Reach next Tended Booted s) : Used s := by
  refine Reach.inv (I := Used) (fun u hb => ?_) (fun _ _ _ hu hok hn => hu.step hok hn) h
  have hnone := hb.no_regions
  refine ⟨hb.good, fun p _ i => ?_, fun r hr => absurd (hnone r) hr⟩
  by_contra hi
  obtain ⟨r, hr, -⟩ := hb.good.shm.attachRegion p i hi
  exact hi (hr.symm.trans (hnone r))

/-! ## Regions in use -/

/-- The processes that count as users of a key: they are alive and attached. -/
def users (s : State) (key : Int) : Finset (Fin NPROC) :=
  (holders s.attachments key).filter fun p => (s.proc p).Live

/-- Every region has as many users as it counts, at least one, and they map its pages. -/
def NoOrphans (s : State) : Prop :=
  ∀ r, (s.shmTable r).key ≠ 0 → 1 ≤ (s.shmTable r).refcount ∧
    (s.shmTable r).refcount = (users s (s.shmTable r).key).card ∧
    ∀ p i pt, ((s.proc p).shm i).key = (s.shmTable r).key → (s.proc p).pagetable = some pt →
      ∀ j < (s.shmTable r).npages.toNat,
        walkaddr pt (((s.proc p).shm i).uva + j * PGSIZE) s.kmem =
          .ok (some ((s.shmTable r).pages j))

theorem Used.users_eq (h : Used s) {key : Int} (hk : key ≠ 0) :
    users s key = holders s.attachments key := by
  refine Finset.filter_true_of_mem fun p hp => ?_
  obtain ⟨i, hi⟩ := mem_holders.1 hp
  by_contra hl
  exact hk (hi.symm.trans (h.idle p hl i))

theorem reachable_noOrphans (h : Reach next Tended Booted s) : NoOrphans s := by
  have hu := used_of_reach h
  intro r hr
  refine ⟨hu.counted r hr, by rw [hu.users_eq hr]; exact hu.shm.refcount r hr, ?_⟩
  intro p i pt hi hpt j hj
  have hk : ((s.proc p).shm i).key ≠ 0 := by
    rw [hi]
    exact hr
  obtain ⟨r', h1, h2⟩ := hu.shm.attachRegion p i hk
  obtain rfl : r = r' := hu.shm.regionUnique r r' hr (hi.symm.trans h1.symm)
  refine hu.toGood.attach_walkaddr hpt hk hi.symm ?_
  rwa [h2] at hj

end

/-- A child creates a region and is attached to it. -/
theorem reachable_noOrphans_child : ∃ s t,
    sampleRun [.fork 0, .yield 0, .dispatch 1] = some s ∧
      @next sampleLink s (.shmOpen 1 7 4096) = some t ∧ (t.shmTable 0).key = 7 ∧ NoOrphans t := by
  obtain ⟨s, hs, hslot, hfit, hfree, ht⟩ := sampleRun_exists [.fork 0, .yield 0, .dispatch 1]
    (fun s => attachSlot (s.proc 1) 0 ≠ none ∧
      addU64 (pgroundup (s.proc 1).sz) (mapBytes (shmPages 4096)) ≤ TRAPFRAME ∧
      (s.kmem.take 3).length = 3 ∧
      (@next sampleLink s (.shmOpen 1 7 4096)).any (fun t => (t.shmTable 0).key = 7) = true)
    (by set_option maxRecDepth 100000 in decide +kernel)
  obtain ⟨t, hn, hk⟩ := (Option.any_eq_true _ _).1 ht
  have hroom : Room s 1 4096 := by
    refine ⟨hslot, hfit, ?_⟩
    rw [List.length_take] at hfree
    exact le_trans (by decide : 3 * (shmPages 4096).toNat ≤ 3) (by omega)
  have htended : @Tended sampleLink s (.shmOpen 1 7 4096) := fun _ => hroom
  refine ⟨s, t, hs, hn, of_decide_eq_true hk, @reachable_noOrphans sampleLink t
    (.step (sampleRun_reach ?_ hs) htended hn)⟩
  simp [Tended]

/-- A child opens a region and exits: it is a zombie, and the region is still there with
a count of one and no user. -/
theorem exit_orphans_region : ∃ s,
    Reach (@next sampleLink) Free (@Booted sampleLink) s ∧
      sampleRun [.fork 0, .wait 0 0, .dispatch 1, .shmOpen 1 7 4096, .exit 1 0] = some s ∧
      (s.shmTable 0).key = 7 ∧ (s.shmTable 0).refcount = 1 ∧ (users s 7).card = 0 ∧
      ¬ NoOrphans s := by
  obtain ⟨s, hs, hk, hc, hu⟩ := sampleRun_exists
    [.fork 0, .wait 0 0, .dispatch 1, .shmOpen 1 7 4096, .exit 1 0]
    (fun s => (s.shmTable 0).key = 7 ∧ (s.shmTable 0).refcount = 1 ∧ (users s 7).card = 0)
    (by set_option maxRecDepth 100000 in decide +kernel)
  refine ⟨s, sampleRun_reach (fun _ _ _ => trivial) hs, hs, hk, hc, hu, fun hno => ?_⟩
  have hcard := (hno 0 (by rw [hk]; decide)).2.1
  rw [hk, hc, hu] at hcard
  cases hcard

end G9OS.Kernel
