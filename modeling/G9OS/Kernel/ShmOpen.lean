import G9OS.Kernel.Orphans

/-! # What shm_open leaves behind and what it gives

A failed `shm_open` is undone only as far as the page table: a slot of the region
table that it has filled stays filled. A successful one maps the pages the region
has, which need not be the pages that were asked for.
-/

namespace G9OS.Kernel

open Lib

/-! ## Failure -/

def Proc.tables (p : Proc) (q : PA) : Nat := p.pagetable.elim 0 fun pt => pt.tables q

/-- The regions, the attachments, the size and the mappings of `p` are what they were,
and only its page table can have taken pages. -/
structure Unmoved (s : State) (p : Fin NPROC) (t : State) : Prop where
  shmTable : t.shmTable = s.shmTable
  shm : (t.proc p).shm = (s.proc p).shm
  sz : (t.proc p).sz = (s.proc p).sz
  leaf : (t.proc p).pagetable.map (fun pt => pt.leaf) = (s.proc p).pagetable.map fun pt => pt.leaf
  pages : ∀ q, t.kmem.count q + (t.proc p).tables q = s.kmem.count q + (s.proc p).tables q

theorem Unmoved.refl (s : State) (p : Fin NPROC) : Unmoved s p s :=
  ⟨rfl, rfl, rfl, rfl, fun _ => rfl⟩

def filled (pages : Nat → PA) (m : Kmem) (j : Nat) : PA := m[j]?.getD (pages j)

/-- The free slot `r` holds already what a creation writes that runs out of pages. -/
def Prefilled (s : State) (r : Fin SHM_SLOTS) (size : Int) : Prop :=
  s.shmTable r = ⟨0, shmPages size, filled (s.shmTable r).pages s.kmem, 0⟩

/-- The call writes to no free slot of the table, or it runs out of pages over one that
needs no change. -/
def Traceless (s : State) (key size : Int) : Prop :=
  0 < key → 0 < size → regionSlot s key = none → ∀ r, regionSlot s 0 = some r →
    s.kmem.length < (shmPages size).toNat ∧ Prefilled s r size

section
variable [Link] {s t : State} {p : Fin NPROC} {r : Fin SHM_SLOTS} {key size : Int}

theorem shmAllocPages_failed {n j : Nat} {pages pages' : Nat → PA} {m m' : Kmem}
    (h : shmAllocPages n j pages m = .ok (false, pages', m')) :
    m.length < n ∧ ∀ i, pages' i = if j ≤ i then m[i - j]?.getD (pages i) else pages i := by
  induction n generalizing j pages m with
  | zero => cases h
  | succ n ih =>
      unfold shmAllocPages at h
      cases m with
      | nil =>
          obtain ⟨m1, -, h⟩ := bind_ok.1 h
          cases h
          exact ⟨Nat.succ_pos n, by simp⟩
      | cons pa m =>
          obtain ⟨hlen, hpages⟩ := ih h
          refine ⟨Nat.succ_lt_succ hlen, fun i => ?_⟩
          rw [hpages]
          rcases lt_trichotomy i j with hlt | rfl | hgt
          · rw [if_neg (by omega), if_neg (by omega), Function.update_of_ne (by omega)]
          · simp
          · have hsub : i - j = i - (j + 1) + 1 := by omega
            rw [if_pos (by omega), if_pos (by omega), Function.update_of_ne (by omega), hsub,
              List.getElem?_cons_succ]

/-- Why `shm_open` gets no region: the table is full, or memory runs out. -/
theorem shmGet_failed (h : shmGet s key size = .ok (none, t)) :
    regionSlot s key = none ∧
      ((regionSlot s 0 = none ∧ t = s) ∨
        ∃ r m, regionSlot s 0 = some r ∧ s.kmem.length < (shmPages size).toNat ∧
          (∀ q, m.count q = s.kmem.count q) ∧
          t = (s.setKmem m).setRegion r
            ⟨0, shmPages size, filled (s.shmTable r).pages s.kmem, 0⟩) := by
  unfold shmGet at h
  cases hk : regionSlot s key with
  | some r => rw [hk] at h; cases h
  | none =>
      rw [hk] at h
      refine ⟨rfl, ?_⟩
      cases hf : regionSlot s 0 with
      | none =>
          rw [hf] at h
          cases h
          exact .inl ⟨rfl, rfl⟩
      | some r =>
          rw [hf] at h
          obtain ⟨⟨ok, pages, m⟩, ha, h⟩ := bind_ok.1 h
          have hc := shmAllocPages_spec (c := fun q => s.kmem.count q) (fun q => by simp) ha
          cases ok with
          | true => cases h
          | false =>
              obtain ⟨hlen, hpages⟩ := shmAllocPages_failed ha
              have heq : pages = filled (s.shmTable r).pages s.kmem := by
                funext j
                rw [hpages, if_pos (Nat.zero_le j), Nat.sub_zero]
                rfl
              cases h
              exact .inr ⟨r, m, rfl, hlen, by simpa using hc, by rw [heq]; rfl⟩

omit [Link] in
/-- No attachment starts at the address that stands for `-1`. -/
theorem pgroundup_ne_minus1 (sz : Nat) : pgroundup sz ≠ MINUS1 := by
  have hal : pgroundup sz % PGSIZE = 0 := Nat.mul_mod_left _ _
  intro he
  rw [he] at hal
  exact absurd hal (by decide)

theorem shmAttach_unmoved (h : shmAttach s p r key = .ok (MINUS1, t)) : Unmoved s p t := by
  rcases shmAttach_cases h with ⟨_, -, -, rfl⟩ | ⟨-, -, rfl | ⟨own, own', m, ho, he, rfl⟩⟩ |
    ⟨_, _, _, _, -, -, hret, -⟩
  · exact Unmoved.refl _ _
  · exact Unmoved.refl _ _
  · refine ⟨rfl, ?_, ?_, ?_, fun q => ?_⟩
    · rw [setSpace_self]
    · rw [setSpace_self]
    · rw [setSpace_self, ho, Option.map_some, Option.map_some, he.leaf_eq]
    · have hpages := he.pages q
      rw [occ_empty, Nat.add_zero] at hpages
      rw [setSpace_self, Proc.tables, Proc.tables, ho]
      exact hpages
  · exact absurd hret.symm (pgroundup_ne_minus1 _)

omit [Link] in
/-- A region that has just been made is in the table, whatever comes of the attachment. -/
theorem Made.unmoved_iff (hm : Made s key size (some r) t) (hk : 0 < key) {u : State}
    (hu : Unmoved t p u) : Unmoved s p u ↔ regionSlot s key ≠ none := by
  cases hm with
  | found hr =>
      rw [hr]
      exact ⟨fun _ => nofun, fun _ => hu⟩
  | @created _ pages m hnone hf hc hlen =>
      rw [hnone]
      refine ⟨fun h => ?_, fun h => absurd rfl h⟩
      have hkey : (u.shmTable r).key = key := by
        rw [hu.shmTable, setRegion_self]
      rw [h.shmTable, regionSlot_some hf] at hkey
      omega

/-- A call that fails moves nothing exactly if it wrote to no free slot of the table. -/
theorem shmOpen_unmoved_iff (h : shmOpen s p key size = .ok (MINUS1, t)) :
    Unmoved s p t ↔ Traceless s key size := by
  rcases shmOpen_cases h with ⟨-, rfl, hneg⟩ | ⟨-, hk, hsz, hg⟩ | ⟨r, s1, hk, hsz, hg, ha⟩
  · exact ⟨fun _ h1 h2 => by omega, fun _ => Unmoved.refl _ _⟩
  · obtain ⟨hnone, ⟨hfull, rfl⟩ | ⟨r, m, hf, hlen, hc, rfl⟩⟩ := shmGet_failed hg
    · refine ⟨fun _ _ _ _ r hf => ?_, fun _ => Unmoved.refl _ _⟩
      rw [hfull] at hf
      cases hf
    · constructor
      · intro hu _ _ _ r' hf'
        obtain rfl : r = r' := Option.some.inj (hf.symm.trans hf')
        have htable := congrFun hu.shmTable r
        rw [setRegion_self] at htable
        exact ⟨hlen, htable.symm⟩
      · intro ht
        obtain ⟨-, hpre⟩ := ht hk hsz hnone r hf
        refine ⟨?_, rfl, rfl, rfl, fun q => congrArg (· + _) (hc q)⟩
        show Function.update s.shmTable r _ = s.shmTable
        rw [← hpre, Function.update_eq_self]
  · have hm := shmGet_made hg
    rw [hm.unmoved_iff hk (shmAttach_unmoved ha)]
    constructor
    · intro hne _ _ hnone
      exact absurd hnone hne
    · intro ht hnone
      cases hm with
      | found hr => rw [hr] at hnone; cases hnone
      | created _ hf _ hlen =>
          have := (ht hk hsz hnone r hf).1
          omega

end

/-- Lazy `sbrk`s that take process `p`, of three pages, up to the trapframe. -/
def fillSpace (p : Fin NPROC) : List Op :=
  List.replicate 127 (.sbrk p (2 ^ 31 - 1) 2) ++ [.sbrk p 2147463295 2]

/-- A child whose address space is full cannot attach to its parent's region, and all is as
before. -/
theorem shmOpen_unmoved_iff_full : ∃ s t,
    sampleRun ([.fork 0, .shmOpen 0 7 4096, .yield 0, .dispatch 1] ++ fillSpace 1) = some s ∧
      @shmOpen sampleLink s 1 7 4096 = .ok (MINUS1, t) ∧ (s.shmTable 0).key = 7 ∧
      Unmoved s 1 t := by
  obtain ⟨s, hs, hkey, hr, hret⟩ := sampleRun_exists
    ([.fork 0, .shmOpen 0 7 4096, .yield 0, .dispatch 1] ++ fillSpace 1)
    (fun s => (s.shmTable 0).key = 7 ∧ regionSlot s 7 = some 0 ∧
      (@shmOpen sampleLink s 1 7 4096).toOption.any (fun x => x.1 = MINUS1) = true)
    (by set_option maxRecDepth 100000 in decide +kernel)
  obtain ⟨⟨ret, t⟩, ho, hm⟩ := (Option.any_eq_true _ _).1 hret
  obtain rfl : ret = MINUS1 := of_decide_eq_true hm
  have h := toOption_some.1 ho
  refine ⟨s, t, hs, h, hkey, (@shmOpen_unmoved_iff sampleLink s t 1 7 4096 h).2 fun _ _ hnone => ?_⟩
  rw [hr] at hnone
  cases hnone

/-- The same process without a region to find: the call fails, and a region that nobody
is attached to is in the table, with a page. -/
theorem failed_open_keeps_region : ∃ s t,
    sampleRun (fillSpace 0) = some s ∧ Reach (@next sampleLink) Free (@Booted sampleLink) s ∧
      @shmOpen sampleLink s 0 7 4096 = .ok (MINUS1, t) ∧ (s.shmTable 0).key = 0 ∧
      (t.shmTable 0).key = 7 ∧ (t.shmTable 0).npages = 1 ∧ (t.shmTable 0).refcount = 0 ∧
      ¬ Unmoved s 0 t := by
  obtain ⟨s, hs, hkey, hret⟩ := sampleRun_exists (fillSpace 0)
    (fun s => (s.shmTable 0).key = 0 ∧
      (@shmOpen sampleLink s 0 7 4096).toOption.any (fun x => x.1 = MINUS1 ∧
        (x.2.shmTable 0).key = 7 ∧ (x.2.shmTable 0).npages = 1 ∧
        (x.2.shmTable 0).refcount = 0) = true)
    (by set_option maxRecDepth 100000 in decide +kernel)
  obtain ⟨⟨ret, t⟩, ho, hm⟩ := (Option.any_eq_true _ _).1 hret
  obtain ⟨rfl, hk7, hn, hc⟩ := of_decide_eq_true hm
  refine ⟨s, t, hs, sampleRun_reach (fun _ _ _ => trivial) hs, toOption_some.1 ho, hkey, hk7, hn,
    hc, fun hu => ?_⟩
  rw [hu.shmTable, hkey] at hk7
  cases hk7

/-! ## Success -/

/-- The bytes that a caller of `shm_open` counts on. -/
def askedBytes (size : Int) : Int := min size (SHM_MAXPGS * PGSIZE)

/-- Byte `b` counted from `uva` on lies in a page of the region with this key. -/
def Backed (s : State) (p : Fin NPROC) (key : Int) (uva b : Nat) : Prop :=
  ∃ r, ∃ j : Nat, ∃ pt, (s.shmTable r).key = key ∧ (j : Int) < (s.shmTable r).npages ∧
    (s.proc p).pagetable = some pt ∧
    pt.leaf ((uva + b) / PGSIZE) = some ⟨(s.shmTable r).pages j, permRWU⟩

/-- The process, of size `sz` before, has all the bytes it asked for, and its size covers
them. -/
structure Gives (sz : Nat) (p : Fin NPROC) (key size : Int) (uva : Nat) (t : State) : Prop where
  backed : ∀ b : Nat, (b : Int) < askedBytes size → Backed t p key uva b
  grown : sz ≤ (t.proc p).sz
  covered : uva + askedBytes size ≤ (t.proc p).sz

/-- A region of this key has enough pages, or the new one will have: its page count does
not overflow. -/
def Ample (s : State) (key size : Int) : Prop :=
  match regionSlot s key with
  | some r => askedBytes size ≤ (s.shmTable r).npages * PGSIZE
  | none => SizeOk size

theorem one_le_askedBytes {size : Int} (h : 0 < size) : 1 ≤ askedBytes size :=
  le_min h (by norm_num)

theorem shmPages_neg {size : Int} (h31 : size < 2 ^ 31) (h : ¬ SizeOk size) :
    shmPages size < 0 := by
  unfold SizeOk at h
  have hneg : int32 (size + PGSIZE - 1) = size + PGSIZE - 1 - 2 ^ 32 := by
    unfold int32
    rw [Int.bmod_def]
    norm_num at h h31 ⊢
    split
    · omega
    · omega
  unfold shmPages
  refine min_lt_of_left_lt ?_
  rw [hneg]
  norm_num at h h31 ⊢
  obtain ⟨y, hy⟩ : ∃ y : Int, size + 4096 - 1 - 4294967296 = -y := ⟨_, (neg_neg _).symm⟩
  rw [hy, Int.neg_tdiv, Int.tdiv_eq_ediv_of_nonneg (by omega)]
  omega

theorem asked_le_shmPages_iff {size : Int} (h0 : 0 < size) (h31 : size < 2 ^ 31) :
    askedBytes size ≤ shmPages size * PGSIZE ↔ SizeOk size := by
  constructor
  · intro hle
    by_contra hover
    have h1 := one_le_askedBytes h0
    have h2 := shmPages_neg h31 hover
    norm_num at hle
    omega
  · intro hok
    unfold SizeOk at hok
    unfold askedBytes shmPages
    rw [int32_of_range (by norm_num; omega) hok, Int.tdiv_eq_ediv_of_nonneg (by norm_num; omega)]
    norm_num at hok ⊢
    omega

section
variable {s : State} {p : Fin NPROC} {r : Fin SHM_SLOTS} {key size : Int}
  {pslot : Fin PROC_SHM_SLOTS} {pt pt' : PageTable} {m : Kmem}

theorem attachedState_sz (hpos : 0 < (s.shmTable r).npages)
    (hbelow : pgroundup (s.proc p).sz + (s.shmTable r).npages.toNat * PGSIZE ≤ MAXVA) :
    ((attachedState s p r key pslot pt' m).proc p).sz =
      pgroundup (s.proc p).sz + (s.shmTable r).npages.toNat * PGSIZE := by
  rw [attachedState_self]
  dsimp only
  rw [addU64_mapBytes]
  unfold toU64 addU64
  norm_num at hbelow ⊢
  omega

theorem Attaches.sz_le (h : Attaches s p r key pslot pt pt' m)
    (hint : -2 ^ 31 ≤ (s.shmTable r).npages) (hneg : (s.shmTable r).npages ≤ 0) :
    ((attachedState s p r key pslot pt' m).proc p).sz ≤ pgroundup (s.proc p).sz := by
  have hfits := h.fits
  have hlt := pgroundup_lt_u64 (s.proc p).sz
  rw [attachedState_self]
  dsimp only
  rw [addU64_mapBytes] at hfits ⊢
  unfold toU64 addU64 at hfits ⊢
  norm_num at hfits hint hlt ⊢
  omega

/-- An attachment gives what was asked for exactly if the size of the process is one that it
can have and the region has that many bytes. -/
theorem Attaches.gives_iff (h : Attaches s p r key pslot pt pt' m) (h0 : 0 < size)
    (hr : (s.shmTable r).key = key) (hint : -2 ^ 31 ≤ (s.shmTable r).npages)
    (hbelow : 0 < (s.shmTable r).npages.toNat →
      pgroundup (s.proc p).sz + (s.shmTable r).npages.toNat * PGSIZE ≤ MAXVA) :
    Gives (s.proc p).sz p key size (pgroundup (s.proc p).sz)
        (attachedState s p r key pslot pt' m) ↔
      (s.proc p).sz ≤ TRAPFRAME ∧ askedBytes size ≤ (s.shmTable r).npages * PGSIZE := by
  have h1 := one_le_askedBytes h0
  constructor
  · intro hg
    have hfits : ((attachedState s p r key pslot pt' m).proc p).sz ≤ TRAPFRAME := by
      rw [attachedState_self]
      exact h.fits
    refine ⟨hg.grown.trans hfits, ?_⟩
    have hc := hg.covered
    rcases le_or_gt (s.shmTable r).npages 0 with hneg | hpos
    · have hle := h.sz_le hint hneg
      omega
    · rw [attachedState_sz hpos (hbelow (by omega))] at hc
      norm_num at hc ⊢
      omega
  · rintro ⟨hsz, hle⟩
    have hpos : 0 < (s.shmTable r).npages := by
      norm_num at hle
      omega
    have hnew : ((attachedState s p r key pslot pt' m).proc p).sz = _ :=
      attachedState_sz hpos (hbelow (by omega))
    refine ⟨fun b hb => ?_, ?_, ?_⟩
    · have hj : b / PGSIZE < (s.shmTable r).npages.toNat := by
        norm_num at hle ⊢
        omega
      have hdiv : (pgroundup (s.proc p).sz + b) / PGSIZE =
          pgroundup (s.proc p).sz / PGSIZE + b / PGSIZE := by
        have hal := pgroundup_aligned (s.proc p).sz
        norm_num at hal ⊢
        omega
      refine ⟨r, b / PGSIZE, pt', ?_, ?_, ?_, ?_⟩
      · rw [attachedState, attached, setRegion_self]
        exact hr
      · rw [attachedState, attached, setRegion_self]
        exact Int.lt_toNat.1 hj
      · rw [attachedState_self]
      · rw [attachedState, attached, setRegion_self, hdiv]
        exact h.maps.mapped _ hj
    · rw [hnew]
      exact (pgroundup_le (lt_of_le_of_lt hsz (by decide))).trans (Nat.le_add_right _ _)
    · rw [hnew]
      norm_num at hle ⊢
      omega

end

section
variable [Link] {s t : State} {p : Fin NPROC} {key size : Int} {uva : Nat}

/-- A process that attaches gets what it asked for exactly if its size is below the trapframe,
as it is in every run, and an old region is large enough, or the size of a new one can be
rounded up to pages. -/
theorem shmOpen_gives_iff (h0 : 0 < size) (h31 : size < 2 ^ 31)
    (hint : ∀ r, -2 ^ 31 ≤ (s.shmTable r).npages) (hnew : attachSlot (s.proc p) key = none)
    (h : shmOpen s p key size = .ok (uva, t)) (hret : uva ≠ MINUS1) :
    Gives (s.proc p).sz p key size uva t ↔ (s.proc p).sz ≤ TRAPFRAME ∧ Ample s key size := by
  rcases shmOpen_cases h with ⟨hr, -⟩ | ⟨hr, -⟩ | ⟨r, s1, hk, -, hg, ha⟩
  · exact absurd hr hret
  · exact absurd hr hret
  have hm := shmGet_made hg
  have hproc := hm.proc
  rcases shmAttach_cases ha with ⟨i, hi, -⟩ | ⟨hr, -⟩ | ⟨pslot, pt, pt', m, hat, hbelow, rfl, rfl⟩
  · rw [hproc, hnew] at hi
    cases hi
  · exact absurd hr hret
  rw [← hproc]
  cases hm with
  | found hr =>
      rw [hat.gives_iff h0 (regionSlot_some hr) (hint r) hbelow, Ample, hr]
  | created hnone hf =>
      have hlow : -2 ^ 31 ≤ shmPages size := le_shmPages size
      rw [hat.gives_iff h0 (by rw [setRegion_self]) (by rwa [setRegion_self]) hbelow,
        setRegion_self, asked_le_shmPages_iff h0 h31, Ample, hnone]

end

/-- The first process opens a region of two pages. -/
theorem shmOpen_gives_iff_first : ∃ s t,
    sampleRun [] = some s ∧ @shmOpen sampleLink s 0 7 8192 = .ok (12288, t) ∧
      Gives (s.proc 0).sz 0 7 8192 12288 t := by
  obtain ⟨s, hs, hint, hsz, hnew, hnone, hret⟩ := sampleRun_exists []
    (fun s => (∀ r, -2 ^ 31 ≤ (s.shmTable r).npages) ∧ (s.proc 0).sz ≤ TRAPFRAME ∧
      attachSlot (s.proc 0) 7 = none ∧ regionSlot s 7 = none ∧
      (@shmOpen sampleLink s 0 7 8192).toOption.any (fun x => x.1 = 12288) = true)
    (by set_option maxRecDepth 100000 in decide +kernel)
  obtain ⟨⟨uva, t⟩, ho, hm⟩ := (Option.any_eq_true _ _).1 hret
  obtain rfl : uva = 12288 := of_decide_eq_true hm
  have h := toOption_some.1 ho
  refine ⟨s, t, hs, h, (@shmOpen_gives_iff sampleLink s t 0 7 8192 12288 (by decide) (by decide)
    hint hnew h (by decide)).2 ⟨hsz, ?_⟩⟩
  rw [Ample, hnone]
  exact (by decide : (8192 : Int) + PGSIZE - 1 < 2 ^ 31)

/-- The region has one page from its creator, and a child that asks for two gets one. -/
theorem open_gives_less : ∃ s t,
    sampleRun [.fork 0, .shmOpen 0 7 4096, .yield 0, .dispatch 1] = some s ∧
      Reach (@next sampleLink) Free (@Booted sampleLink) s ∧ attachSlot (s.proc 1) 7 = none ∧
      @shmOpen sampleLink s 1 7 8192 = .ok (12288, t) ∧ (t.proc 1).sz = 12288 + 4096 ∧
      ¬ Gives (s.proc 1).sz 1 7 8192 12288 t := by
  obtain ⟨s, hs, hnew, hret⟩ := sampleRun_exists
    [.fork 0, .shmOpen 0 7 4096, .yield 0, .dispatch 1]
    (fun s => attachSlot (s.proc 1) 7 = none ∧ (@shmOpen sampleLink s 1 7 8192).toOption.any
      (fun x => x.1 = 12288 ∧ (x.2.proc 1).sz = 12288 + 4096) = true)
    (by set_option maxRecDepth 100000 in decide +kernel)
  obtain ⟨⟨uva, t⟩, ho, hm⟩ := (Option.any_eq_true _ _).1 hret
  obtain ⟨rfl, hsz⟩ := of_decide_eq_true hm
  refine ⟨s, t, hs, sampleRun_reach (fun _ _ _ => trivial) hs, hnew, toOption_some.1 ho, hsz,
    fun hg => ?_⟩
  have hc := hg.covered
  rw [hsz] at hc
  exact absurd hc (by decide)

end G9OS.Kernel
