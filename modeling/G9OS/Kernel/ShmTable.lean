import G9OS.Kernel.VmFacts
import G9OS.Kernel.Shm

/-! # The bookkeeping of attachments

The region table and the attachment tables of all processes, on their own: keys
are unique in both, an attachment has its region, and a region's reference count
is the number of process slots that hold its key. Creating a region, attaching and
detaching keep this; nothing else writes to the two tables.
-/

namespace G9OS.Kernel

open Lib

variable {a : ShmAttach}

abbrev Attachments := Fin NPROC → Fin PROC_SHM_SLOTS → ShmAttach

abbrev Regions := Fin SHM_SLOTS → ShmRegion

def State.attachments (s : State) : Attachments := fun p => (s.proc p).shm

def holders (shm : Attachments) (key : Int) : Finset (Fin NPROC) :=
  Finset.univ.filter fun p => ∃ i, (shm p i).key = key

/-- The pages that `shm_close` unmaps for an attachment. -/
def ShmAttach.range (a : ShmAttach) : Finset Nat := unmapRange a.uva (toU64 a.npages)

/-- An attachment that `shm_open` can have recorded. -/
structure AttachOk (a : ShmAttach) : Prop where
  aligned : a.uva % PGSIZE = 0
  uva_le : a.uva ≤ TRAPFRAME
  end_le : addU64 a.uva (toU64 a.npages * PGSIZE) ≤ TRAPFRAME

def HasRegion (table : Regions) (a : ShmAttach) : Prop :=
  ∃ r, (table r).key = a.key ∧ (table r).npages = a.npages

structure ShmOk (shm : Attachments) (table : Regions) : Prop where
  bounded : ∀ r, (table r).key ≠ 0 → -2 ^ 31 ≤ (table r).npages ∧ (table r).npages ≤ SHM_MAXPGS
  keyPos : ∀ r, (table r).key ≠ 0 → 0 < (table r).key
  regionUnique : ∀ r r', (table r).key ≠ 0 → (table r).key = (table r').key → r = r'
  attachUnique : ∀ p i j, (shm p i).key ≠ 0 → (shm p i).key = (shm p j).key → i = j
  attachRegion : ∀ p i, (shm p i).key ≠ 0 → HasRegion table (shm p i)
  attachOk : ∀ p i, AttachOk (shm p i)
  attachClear : ∀ p i, (shm p i).key = 0 → shm p i = {}
  refcount : ∀ r, (table r).key ≠ 0 → (table r).refcount = (holders shm (table r).key).card

theorem AttachOk.empty : AttachOk {} := by
  refine ⟨?_, ?_, ?_⟩ <;> decide

section
variable {shm : Attachments} {table table' : Regions} {p : Fin NPROC} {r : Fin SHM_SLOTS}
  {key : Int} {pslot : Fin PROC_SHM_SLOTS}

theorem ShmOk.congr (h : ShmOk shm table)
    (ht : ∀ r, table' r = table r ∨ (table r).key = 0 ∧ (table' r).key = 0) :
    ShmOk shm table' := by
  have hold : ∀ r, (table' r).key ≠ 0 → table' r = table r := fun r hr =>
    (ht r).resolve_right fun hz => hr hz.2
  have hnew : ∀ r, (table r).key ≠ 0 → table' r = table r := fun r hr =>
    (ht r).resolve_right fun hz => hr hz.1
  refine ⟨fun r hr => ?_, fun r hr => ?_, fun r r' hr he => ?_, h.attachUnique, fun p i hi => ?_,
    h.attachOk, h.attachClear, fun r hr => ?_⟩
  · have he := hold r hr
    rw [he] at hr ⊢
    exact h.bounded r hr
  · have he := hold r hr
    rw [he] at hr ⊢
    exact h.keyPos r hr
  · have hr' : (table' r').key ≠ 0 := he ▸ hr
    have e := hold r hr
    have e' := hold r' hr'
    rw [e] at hr he
    rw [e'] at he
    exact h.regionUnique r r' hr he
  · obtain ⟨r, h1, h2⟩ := h.attachRegion p i hi
    have hr : (table r).key ≠ 0 := h1 ▸ hi
    exact ⟨r, by rw [hnew r hr, h1], by rw [hnew r hr, h2]⟩
  · have he := hold r hr
    rw [he] at hr ⊢
    exact h.refcount r hr

theorem ShmOk.no_holders (h : ShmOk shm table) (hk : key ≠ 0) (hr : ∀ r, (table r).key ≠ key) :
    holders shm key = ∅ := by
  refine Finset.filter_eq_empty_iff.2 fun p _ => ?_
  rintro ⟨i, hi⟩
  obtain ⟨r, h1, -⟩ := h.attachRegion p i (hi ▸ hk)
  exact hr r (h1.trans hi)

theorem ShmOk.create {pages : Nat → PA} {npages : Int} (h : ShmOk shm table)
    (hfree : (table r).key = 0) (hnew : ∀ r, (table r).key ≠ key) (hk : 0 < key)
    (hn : -2 ^ 31 ≤ npages ∧ npages ≤ SHM_MAXPGS) :
    ShmOk shm (Function.update table r ⟨key, npages, pages, 0⟩) := by
  have hself : Function.update table r ⟨key, npages, pages, 0⟩ r = ⟨key, npages, pages, 0⟩ :=
    Function.update_self ..
  have hother : ∀ {r'}, r' ≠ r → Function.update table r ⟨key, npages, pages, 0⟩ r' = table r' :=
    fun hr' => Function.update_of_ne hr' ..
  refine ⟨fun r' hr' => ?_, fun r' hr' => ?_, fun r1 r2 h1 he => ?_, h.attachUnique,
    fun p i hi => ?_, h.attachOk, h.attachClear, fun r' hr' => ?_⟩
  · by_cases hrr : r' = r
    · rw [hrr, hself]; exact hn
    · rw [hother hrr] at hr' ⊢; exact h.bounded r' hr'
  · by_cases hrr : r' = r
    · rw [hrr, hself]; exact hk
    · rw [hother hrr] at hr' ⊢; exact h.keyPos r' hr'
  · by_cases hr1 : r1 = r <;> by_cases hr2 : r2 = r
    · rw [hr1, hr2]
    · rw [hr1, hself, hother hr2] at he
      exact (hnew r2 he.symm).elim
    · rw [hr2, hself, hother hr1] at he
      exact (hnew r1 he).elim
    · rw [hother hr1] at h1 he
      rw [hother hr2] at he
      exact h.regionUnique r1 r2 h1 he
  · obtain ⟨r', h1, h2⟩ := h.attachRegion p i hi
    have hr' : r' ≠ r := by
      rintro rfl
      exact hi (h1 ▸ hfree)
    exact ⟨r', by rw [hother hr', h1], by rw [hother hr', h2]⟩
  · by_cases hrr : r' = r
    · rw [hrr, hself]
      rw [h.no_holders hk.ne' hnew]
      rfl
    · rw [hother hrr] at hr' ⊢; exact h.refcount r' hr'

/-! ## Attaching -/

def setAttach (shm : Attachments) (p : Fin NPROC) (pslot : Fin PROC_SHM_SLOTS) (a : ShmAttach) :
    Attachments :=
  Function.update shm p (Function.update (shm p) pslot a)

theorem setAttach_self (a : ShmAttach) : setAttach shm p pslot a p pslot = a := by
  simp [setAttach]

theorem setAttach_slot {i : Fin PROC_SHM_SLOTS} (h : i ≠ pslot) :
    setAttach shm p pslot a p i = shm p i := by
  simp [setAttach, h]

theorem setAttach_proc {q : Fin NPROC} (h : q ≠ p) :
    setAttach shm p pslot a q = shm q := by
  simp [setAttach, h]

theorem mem_holders {q : Fin NPROC} : q ∈ holders shm key ↔ ∃ i, (shm q i).key = key := by
  simp [holders]

theorem holders_setAttach_of_ne {k : Int} (hold : (shm p pslot).key ≠ k) (hnew : a.key ≠ k) :
    holders (setAttach shm p pslot a) k = holders shm k := by
  ext q
  rw [mem_holders, mem_holders]
  by_cases hq : q = p
  · subst hq
    constructor
    · rintro ⟨i, hi⟩
      by_cases hip : i = pslot
      · rw [hip, setAttach_self] at hi; exact (hnew hi).elim
      · rw [setAttach_slot hip] at hi; exact ⟨i, hi⟩
    · rintro ⟨i, hi⟩
      have hip : i ≠ pslot := by
        rintro rfl
        exact hold hi
      exact ⟨i, by rw [setAttach_slot hip]; exact hi⟩
  · rw [setAttach_proc hq]

theorem holders_attach (hk : a.key = key) :
    holders (setAttach shm p pslot a) key = insert p (holders shm key) := by
  ext q
  rw [Finset.mem_insert, mem_holders, mem_holders]
  by_cases hq : q = p
  · subst hq
    simp only [true_or, iff_true]
    exact ⟨pslot, by rw [setAttach_self, hk]⟩
  · rw [setAttach_proc hq]
    simp [hq]

theorem holders_detach (hk : a.key ≠ key) (huniq : ∀ i, (shm p i).key = key → i = pslot) :
    holders (setAttach shm p pslot a) key = (holders shm key).erase p := by
  ext q
  rw [Finset.mem_erase, mem_holders, mem_holders]
  by_cases hq : q = p
  · subst hq
    simp only [ne_eq, not_true_eq_false, false_and, iff_false, not_exists]
    intro i hi
    by_cases hip : i = pslot
    · rw [hip, setAttach_self] at hi; exact hk hi
    · rw [setAttach_slot hip] at hi; exact hip (huniq i hi)
  · rw [setAttach_proc hq]
    simp [hq]

theorem forall_setAttach {P : Fin NPROC → ShmAttach → Prop} (ha : P p a) (h : ∀ q i, P q (shm q i))
    (q : Fin NPROC) (i : Fin PROC_SHM_SLOTS) :
    P q (setAttach shm p pslot a q i) := by
  by_cases hq : q = p
  · subst hq
    by_cases hi : i = pslot
    · subst hi; rwa [setAttach_self]
    · rw [setAttach_slot hi]; exact h q i
  · rw [setAttach_proc hq]; exact h q i

theorem attachUnique_setAttach (h : ShmOk shm table) (ha : a.key = 0 ∨ ∀ i, (shm p i).key ≠ a.key)
    (q : Fin NPROC) (i j : Fin PROC_SHM_SLOTS) (hi : (setAttach shm p pslot a q i).key ≠ 0)
    (he : (setAttach shm p pslot a q i).key = (setAttach shm p pslot a q j).key) : i = j := by
  by_cases hq : q = p
  · subst hq
    by_cases h1 : i = pslot <;> by_cases h2 : j = pslot
    · rw [h1, h2]
    · rw [h1, setAttach_self] at hi he
      rw [setAttach_slot h2] at he
      exact (ha.resolve_left hi j he.symm).elim
    · rw [h2, setAttach_self] at he
      rw [setAttach_slot h1] at hi he
      exact (ha.resolve_left (he ▸ hi) i he).elim
    · rw [setAttach_slot h1] at hi he
      rw [setAttach_slot h2] at he
      exact h.attachUnique q i j hi he
  · rw [setAttach_proc hq] at hi he
    exact h.attachUnique q i j hi he

theorem card_holders_le (shm : Attachments) (key : Int) : (holders shm key).card ≤ NPROC := by
  calc (holders shm key).card ≤ (Finset.univ : Finset (Fin NPROC)).card := Finset.card_filter_le ..
    _ = NPROC := Finset.card_fin _

theorem setRefcount_fields (table : Regions) (r : Fin SHM_SLOTS) (n : Int) (r' : Fin SHM_SLOTS) :
    (Function.update table r ((table r).setRefcount n) r').key = (table r').key ∧
      (Function.update table r ((table r).setRefcount n) r').npages = (table r').npages ∧
      (Function.update table r ((table r).setRefcount n) r').pages = (table r').pages := by
  by_cases hr : r' = r
  · subst hr; simp [ShmRegion.setRefcount]
  · simp [hr]

/-- One attachment of a process is replaced, and the counter of one region with it. -/
theorem ShmOk.replace {n : Int} (h : ShmOk shm table)
    (hnew : a.key = 0 ∨ ∀ i, (shm p i).key ≠ a.key) (hregion : a.key ≠ 0 → HasRegion table a)
    (hok : AttachOk a) (hclear : a.key = 0 → a = {})
    (hn : n = (holders (setAttach shm p pslot a) (table r).key).card)
    (hother : ∀ r', r' ≠ r → (table r').key ≠ 0 →
      holders (setAttach shm p pslot a) (table r').key = holders shm (table r').key) :
    ShmOk (setAttach shm p pslot a) (Function.update table r ((table r).setRefcount n)) := by
  have hf := setRefcount_fields table r n
  have hkept : ∀ {b}, HasRegion table b →
      HasRegion (Function.update table r ((table r).setRefcount n)) b := by
    rintro b ⟨r', h1, h2⟩
    exact ⟨r', by rw [(hf r').1, h1], by rw [(hf r').2.1, h2]⟩
  refine ⟨fun r' hr' => ?_, fun r' hr' => ?_, fun r1 r2 h1 he => ?_,
    attachUnique_setAttach h hnew, ?_, forall_setAttach (P := fun _ b => AttachOk b) hok h.attachOk,
    forall_setAttach (P := fun _ b => b.key = 0 → b = {}) hclear h.attachClear, fun r' hr' => ?_⟩
  · rw [(hf r').1] at hr'
    rw [(hf r').2.1]
    exact h.bounded r' hr'
  · rw [(hf r').1] at hr' ⊢
    exact h.keyPos r' hr'
  · rw [(hf r1).1] at h1 he
    rw [(hf r2).1] at he
    exact h.regionUnique r1 r2 h1 he
  · exact forall_setAttach (P := fun _ b => b.key ≠ 0 → HasRegion _ b)
      (fun ha => hkept (hregion ha)) fun q i hi => hkept (h.attachRegion q i hi)
  · rw [(hf r').1] at hr' ⊢
    by_cases hrr : r' = r
    · rw [hrr, Function.update_self]
      exact hn
    · rw [Function.update_of_ne hrr, h.refcount r' hr', hother r' hrr hr']

theorem ShmOk.attach (h : ShmOk shm table) (hr : (table r).key = key) (hk : 0 < key)
    (hnot : ∀ i, (shm p i).key ≠ key) (hslot : (shm p pslot).key = 0) (hak : a.key = key)
    (han : a.npages = (table r).npages) (hok : AttachOk a) :
    ShmOk (setAttach shm p pslot a)
      (Function.update table r ((table r).setRefcount (int32 ((table r).refcount + 1)))) := by
  refine h.replace (.inr (hak ▸ hnot)) (fun _ => ⟨r, hr.trans hak.symm, han.symm⟩) hok
    (fun hz => by omega) ?_ fun r' hrr hr' => ?_
  · have hp : p ∉ holders shm key := by
      rw [mem_holders]
      rintro ⟨i, hi⟩
      exact hnot i hi
    have hcount := h.refcount r (by omega)
    have hle := card_holders_le shm key
    rw [hr] at hcount
    rw [hr, holders_attach hak, Finset.card_insert_of_notMem hp, hcount,
      int32_of_range (by omega) (by norm_num at hle ⊢; omega)]
    rfl
  · have hkey : key ≠ (table r').key := fun he => hrr (h.regionUnique r' r hr' (by rw [hr, he]))
    rw [holders_setAttach_of_ne (by rw [hslot]; exact hr'.symm) (by rw [hak]; exact hkey)]

/-! ## Detaching -/

theorem ShmOk.refcount_pos (h : ShmOk shm table) (hr : (table r).key = key) (hk : key ≠ 0)
    (hslot : (shm p pslot).key = key) :
    (table r).refcount - 1 = ((holders shm key).erase p).card ∧
      int32 ((table r).refcount - 1) = ((holders shm key).erase p).card := by
  have hp : p ∈ holders shm key := mem_holders.2 ⟨pslot, hslot⟩
  have hcount := h.refcount r (hr ▸ hk)
  have hcard := Finset.card_erase_add_one hp
  have hle := card_holders_le shm key
  rw [hr] at hcount
  have h1 : (table r).refcount - 1 = ((holders shm key).erase p).card := by omega
  refine ⟨h1, ?_⟩
  rw [h1, int32_of_range (by omega) (by norm_num at hle ⊢; omega)]

theorem ShmOk.detach (h : ShmOk shm table) (hr : (table r).key = key) (hk : key ≠ 0)
    (hslot : (shm p pslot).key = key) :
    ShmOk (setAttach shm p pslot {})
      (Function.update table r ((table r).setRefcount (int32 ((table r).refcount - 1)))) := by
  refine h.replace (.inl rfl) (fun hz => absurd rfl hz) AttachOk.empty (fun _ => rfl) ?_
    fun r' hrr hr' => ?_
  · have huniq : ∀ i, (shm p i).key = key → i = pslot := fun i hi =>
      h.attachUnique p i pslot (hi ▸ hk) (hi.trans hslot.symm)
    rw [hr, holders_detach hk.symm huniq]
    exact (h.refcount_pos hr hk hslot).2
  · have hkey : (table r').key ≠ key := fun he => hrr (h.regionUnique r' r hr' (by rw [hr, he]))
    rw [holders_setAttach_of_ne (by rw [hslot]; exact hkey.symm) hr'.symm]

theorem ShmOk.drop {x : ShmRegion} (h : ShmOk shm table) (hx : x.key = 0)
    (hnone : holders shm (table r).key = ∅) (hrk : (table r).key ≠ 0) :
    ShmOk shm (Function.update table r x) := by
  have hself : (Function.update table r x r).key = 0 := by rw [Function.update_self, hx]
  have hother : ∀ {r'}, (Function.update table r x r').key ≠ 0 →
      Function.update table r x r' = table r' := fun {r'} hr' =>
    Function.update_of_ne (fun he => hr' (by rw [he, hself])) ..
  refine ⟨fun r' hr' => ?_, fun r' hr' => ?_, fun r1 r2 h1 he => ?_, h.attachUnique,
    fun p i hi => ?_, h.attachOk, h.attachClear, fun r' hr' => ?_⟩
  · have e := hother hr'
    rw [e] at hr' ⊢
    exact h.bounded r' hr'
  · have e := hother hr'
    rw [e] at hr' ⊢
    exact h.keyPos r' hr'
  · have h2 : (Function.update table r x r2).key ≠ 0 := he ▸ h1
    have e1 := hother h1
    have e2 := hother h2
    rw [e1] at h1 he
    rw [e2] at he
    exact h.regionUnique r1 r2 h1 he
  · obtain ⟨r', h1, h2⟩ := h.attachRegion p i hi
    have hr' : r' ≠ r := by
      rintro rfl
      have hp : p ∈ holders shm (table r').key := mem_holders.2 ⟨i, h1.symm⟩
      rw [hnone] at hp
      exact Finset.notMem_empty p hp
    exact ⟨r', by rw [Function.update_of_ne hr', h1], by rw [Function.update_of_ne hr', h2]⟩
  · have e := hother hr'
    rw [e] at hr' ⊢
    exact h.refcount r' hr'

end

end G9OS.Kernel
