import G9OS.Lib.Halt
import G9OS.Lib.Occurrence
import G9OS.Kernel.PageTable

/-! # What the page-table operations do to mappings and to the free list

A page table is observed through two functions: `leaf`, the entry at each virtual
page number, and `tables`, how often a physical page is used for its nodes. Every
operation is specified by what it does to `leaf` and by an equation between page
counts, in which a page leaves one holder as it joins another.
-/

namespace G9OS.Kernel

open Lib

variable {i j : Fin 512} {m m' : Kmem} {npages v va : Nat} {l1 : Node (Node Pte)} {pa : PA}
  {pt pt' : PageTable}

abbrev NVPN : Nat := 2 ^ 27

def ix (level v : Nat) : Fin 512 := ⟨v / 512 ^ level % 512, Nat.mod_lt _ (by decide)⟩

theorem px_eq_ix (level va : Nat) : px level va = ix level (va / PGSIZE) := by
  have hpow : 2 ^ (12 + 9 * level) = PGSIZE * 512 ^ level := by
    rw [Nat.pow_add, Nat.pow_mul]
  simp only [px, ix, Fin.mk.injEq]
  rw [hpow, Nat.div_div_eq_div_mul]

theorem ix_inj {w : Nat} (hv : v < NVPN) (hw : w < NVPN) (h2 : ix 2 v = ix 2 w)
    (h1 : ix 1 v = ix 1 w) (h0 : ix 0 v = ix 0 w) : v = w := by
  simp only [ix, Fin.mk.injEq] at h0 h1 h2
  norm_num at h0 h1 h2 hv hw
  omega

def Node.path (pt : PageTable) (i j k : Fin 512) : Option Pte :=
  (pt.entry i).bind fun l1 => (l1.entry j).bind fun l0 => l0.entry k

def Node.leaf (pt : PageTable) (v : Nat) : Option Pte :=
  if v < NVPN then pt.path (ix 2 v) (ix 1 v) (ix 0 v) else none

def Node.mapped (pt : PageTable) (v : Nat) : Option PA := (pt.leaf v).map (·.pa)

def Node.HasPath (pt : PageTable) (va : Nat) : Prop :=
  ∃ l1 l0, pt.entry (px 2 va) = some l1 ∧ l1.entry (px 1 va) = some l0

variable {α : Type}

def Node.weigh (w : α → Nat) (t : Node α) (q : PA) : Nat :=
  hit t.page q + ∑ i, (t.entry i).elim 0 w

/-- How often `q` is used for the nodes of a page table. -/
def Node.tables (pt : PageTable) (q : PA) : Nat :=
  pt.weigh (fun l1 => l1.weigh (fun l0 => hit l0.page q) q) q

theorem Node.tables_def (pt : PageTable) (q : PA) :
    pt.tables q = pt.weigh (fun l1 => l1.weigh (fun l0 => hit l0.page q) q) q := rfl

-- A sum over all entries of all tables: nothing should be decided by evaluating it.
attribute [irreducible] Node.tables

/-! ## Single nodes -/

@[simp] theorem Node.set_page (t : Node α) (i : Fin 512) (e : Option α) :
    (t.set i e).page = t.page := rfl

@[simp] theorem Node.set_entry_self (t : Node α) (i : Fin 512) (e : Option α) :
    (t.set i e).entry i = e := by simp [Node.set]

theorem Node.set_entry_of_ne (t : Node α) (e : Option α) (h : j ≠ i) :
    (t.set i e).entry j = t.entry j := by simp [Node.set, h]

theorem Node.set_eq_self {t : Node α} {e : Option α} (h : t.entry i = e) :
    t.set i e = t := by
  subst h
  simp [Node.set]

@[simp] theorem Node.set_set (t : Node α) (i : Fin 512) (e e' : Option α) :
    (t.set i e).set i e' = t.set i e' := by
  simp [Node.set]

@[simp] theorem Node.empty_page (p : PA) : (Node.empty p : Node α).page = p := rfl

@[simp] theorem Node.empty_entry (p : PA) (i : Fin 512) : (Node.empty p : Node α).entry i = none :=
  rfl

theorem Node.weigh_set (w : α → Nat) (t : Node α) (i : Fin 512) (e : Option α) (q : PA) :
    (t.set i e).weigh w q + (t.entry i).elim 0 w = t.weigh w q + e.elim 0 w := by
  have h := sum_update_weight t.entry i e (fun x => x.elim 0 w)
  simp only [Node.weigh, Node.set] at h ⊢
  omega

@[simp] theorem Node.weigh_empty (w : α → Nat) (p q : PA) :
    (Node.empty p : Node α).weigh w q = hit p q := by
  simp [Node.weigh]

/-! ## Paths -/

theorem Node.path_set (pt : PageTable) (i : Fin 512) (e : Option (Node (Node Pte)))
    (i' j k : Fin 512) :
    (pt.set i e).path i' j k =
      if i' = i then e.bind fun l1 => (l1.entry j).bind fun l0 => l0.entry k
      else pt.path i' j k := by
  by_cases h : i' = i
  · subst h; simp [Node.path]
  · simp [Node.path, Node.set_entry_of_ne _ _ h, h]

theorem Node.leaf_of_lt (hv : v < NVPN) :
    pt.leaf v = pt.path (ix 2 v) (ix 1 v) (ix 0 v) := if_pos hv

theorem Node.leaf_of_ge (hv : NVPN ≤ v) : pt.leaf v = none :=
  if_neg (by omega)

theorem Node.leaf_congr (h : ∀ i j k, pt'.path i j k = pt.path i j k) :
    pt'.leaf = pt.leaf := by
  funext v
  simp only [Node.leaf, h]

theorem vpn_lt (h : va < MAXVA) : va / PGSIZE < NVPN := by
  norm_num at h ⊢
  omega

@[simp] theorem Node.leaf_empty (p : PA) (v : Nat) : (Node.empty p : PageTable).leaf v = none := by
  simp [Node.leaf, Node.path]

@[simp] theorem Node.tables_empty (p q : PA) : (Node.empty p : PageTable).tables q = hit p q := by
  simp [Node.tables_def]

theorem Node.leaf_of_path {l0 : Node Pte} (hva : va < MAXVA) (h2 : pt.entry (px 2 va) = some l1)
    (h1 : l1.entry (px 1 va) = some l0) :
    pt.leaf (va / PGSIZE) = l0.entry (px 0 va) := by
  rw [px_eq_ix] at h2 h1 ⊢
  simp [Node.leaf_of_lt (vpn_lt hva), Node.path, h2, h1]

theorem Node.leaf_store (hva : va < MAXVA) (hp : pt.HasPath va) (e : Option Pte) :
    (pt.store va e).leaf = Function.update pt.leaf (va / PGSIZE) e := by
  obtain ⟨l1, l0, h2, h1⟩ := hp
  funext v
  simp only [Node.store, h2, h1]
  by_cases hv : v < NVPN
  · rw [Node.leaf_of_lt hv, Node.path_set]
    by_cases hvv : v = va / PGSIZE
    · subst hvv
      simp [px_eq_ix]
    · rw [Function.update_of_ne hvv, Node.leaf_of_lt hv]
      rw [px_eq_ix] at h2 h1
      simp only [px_eq_ix]
      by_cases e2 : ix 2 v = ix 2 (va / PGSIZE)
      · rw [if_pos e2]
        by_cases e1 : ix 1 v = ix 1 (va / PGSIZE)
        · have e0 : ix 0 v ≠ ix 0 (va / PGSIZE) :=
            fun e0 => hvv (ix_inj hv (vpn_lt hva) e2 e1 e0)
          simp [e1, e2, h2, h1, Node.path, Node.set_entry_of_ne _ _ e0]
        · simp [e2, h2, Node.path, Node.set_entry_of_ne _ _ e1]
      · rw [if_neg e2]
  · have hne : v ≠ va / PGSIZE := by
      have := vpn_lt hva
      omega
    rw [Function.update_of_ne hne, Node.leaf_of_ge (by omega), Node.leaf_of_ge (by omega)]

theorem Node.tables_store (pt : PageTable) (va : Nat) (e : Option Pte) (q : PA) :
    (pt.store va e).tables q = pt.tables q := by
  unfold Node.store
  cases h2 : pt.entry (px 2 va) with
  | none => rfl
  | some l1 =>
      cases h1 : l1.entry (px 1 va) with
      | none => simp [h1]
      | some l0 =>
          have hin := Node.weigh_set (fun l0 => hit l0.page q) l1 (px 1 va)
            (some (l0.set (px 0 va) e)) q
          have hout := Node.weigh_set (fun l1 => l1.weigh (fun l0 => hit l0.page q) q) pt (px 2 va)
            (some (l1.set (px 1 va) (some (l0.set (px 0 va) e)))) q
          simp only [h1, h2, Option.elim_some, Node.set_page] at hin hout
          simp only [h1, Node.tables_def]
          omega

/-! ## walk -/

theorem walk_lt {alloc : Bool} {r : Option (Option Pte) × PageTable × Kmem}
    (h : walk pt va alloc m = .ok r) : va < MAXVA := by
  unfold walk at h
  split at h
  · cases h
  · omega

theorem walk_noalloc (hva : va < MAXVA) (pt : PageTable) (m : Kmem) :
    ∃ r, walk pt va false m = .ok (r, pt, m) ∧ r.join = pt.leaf (va / PGSIZE) ∧
      (∀ e, r = some (some e) → pt.HasPath va) := by
  have hv := vpn_lt hva
  unfold walk
  rw [if_neg (by omega)]
  cases h2 : pt.entry (px 2 va) with
  | none =>
      refine ⟨none, by simp [Node.descend, h2], ?_, by simp⟩
      rw [px_eq_ix] at h2
      simp [Node.leaf_of_lt hv, Node.path, h2]
  | some l1 =>
      cases h1 : l1.entry (px 1 va) with
      | none =>
          refine ⟨none, by simp [Node.descend, h2, h1, Node.set_eq_self h2], ?_, by simp⟩
          rw [px_eq_ix] at h2 h1
          simp [Node.leaf_of_lt hv, Node.path, h2, h1]
      | some l0 =>
          refine ⟨some (l0.entry (px 0 va)),
            by simp [Node.descend, h2, h1, Node.set_eq_self h2], ?_, fun _ _ => ⟨l1, l0, h2, h1⟩⟩
          exact (Node.leaf_of_path hva h2 h1).symm

theorem Node.set_fresh1 (h : pt.entry i = none) (p : PA) :
    (∀ i' j k, (pt.set i (some (Node.empty p))).path i' j k = pt.path i' j k) ∧
      ∀ q, (pt.set i (some (Node.empty p))).tables q = pt.tables q + hit p q := by
  constructor
  · intro i' j k
    rw [Node.path_set]
    split
    · rename_i hi; subst hi; simp [Node.path, h]
    · rfl
  · intro q
    have hw := Node.weigh_set (fun l1 => l1.weigh (fun l0 => hit l0.page q) q) pt i
      (some (Node.empty p)) q
    simp only [h, Option.elim_none, Option.elim_some, Node.weigh_empty] at hw
    simpa [Node.tables_def] using hw

theorem Node.set_fresh0 (h2 : pt.entry i = some l1) (h1 : l1.entry j = none) (p : PA) :
    (∀ i' j' k, (pt.set i (some (l1.set j (some (Node.empty p))))).path i' j' k =
        pt.path i' j' k) ∧
      ∀ q, (pt.set i (some (l1.set j (some (Node.empty p))))).tables q =
        pt.tables q + hit p q := by
  constructor
  · intro i' j' k
    rw [Node.path_set]
    split
    · rename_i hi
      subst hi
      by_cases hj : j' = j
      · subst hj; simp [Node.path, h2, h1]
      · simp [Node.path, h2, Node.set_entry_of_ne _ _ hj]
    · rfl
  · intro q
    have hin := Node.weigh_set (fun l0 => hit l0.page q) l1 j (some (Node.empty p)) q
    have hout := Node.weigh_set (fun l1 => l1.weigh (fun l0 => hit l0.page q) q) pt i
      (some (l1.set j (some (Node.empty p)))) q
    simp only [h1, h2, Option.elim_none, Option.elim_some, Node.empty_page] at hin hout
    simp only [Node.tables_def]
    omega

/-- What an allocating walk leaves behind: the same mappings, and every page that
left the free list in use for a table. -/
structure Grown (pt pt' : PageTable) (m m' : Kmem) : Prop where
  leaf : pt'.leaf = pt.leaf
  pages : ∀ q, m'.count q + pt'.tables q = m.count q + pt.tables q

theorem Grown.refl (pt : PageTable) (m : Kmem) : Grown pt pt m m := ⟨rfl, fun _ => rfl⟩

theorem Grown.trans {pt'' : PageTable} {m'' : Kmem} (h : Grown pt pt' m m')
    (h' : Grown pt' pt'' m' m'') : Grown pt pt'' m m'' :=
  ⟨h'.leaf.trans h.leaf, fun q => (h'.pages q).trans (h.pages q)⟩

theorem Grown.fresh1 (h : pt.entry i = none) (p : PA) (m : Kmem) :
    Grown pt (pt.set i (some (Node.empty p))) (p :: m) m := by
  obtain ⟨hpath, htab⟩ := Node.set_fresh1 h p
  refine ⟨Node.leaf_congr hpath, fun q => ?_⟩
  rw [htab, count_cons_hit]
  omega

theorem Grown.fresh0 (h2 : pt.entry i = some l1) (h1 : l1.entry j = none) (p : PA) (m : Kmem) :
    Grown pt (pt.set i (some (l1.set j (some (Node.empty p))))) (p :: m) m := by
  obtain ⟨hpath, htab⟩ := Node.set_fresh0 h2 h1 p
  refine ⟨Node.leaf_congr hpath, fun q => ?_⟩
  rw [htab, count_cons_hit]
  omega

/-- An allocating walk, whether it succeeds or runs out of pages. -/
theorem walk_alloc {r : Option (Option Pte)} (h : walk pt va true m = .ok (r, pt', m')) :
    Grown pt pt' m m' ∧ ∀ x, r = some x → x = pt.leaf (va / PGSIZE) ∧ pt'.HasPath va := by
  have hva := walk_lt h
  unfold walk at h
  rw [if_neg (by omega)] at h
  cases h2 : pt.entry (px 2 va) with
  | some l1 =>
      cases h1 : l1.entry (px 1 va) with
      | some l0 =>
          simp only [Node.descend, h2, h1, Node.set_eq_self h2] at h
          cases h
          refine ⟨Grown.refl _ _, fun x hx => ?_⟩
          cases hx
          exact ⟨(Node.leaf_of_path hva h2 h1).symm, l1, l0, h2, h1⟩
      | none =>
          cases m with
          | nil =>
              simp only [Node.descend, h2, h1, kalloc, if_true, Node.set_eq_self h2] at h
              cases h
              exact ⟨Grown.refl _ _, by simp⟩
          | cons p m =>
              simp only [Node.descend, h2, h1, kalloc, if_true] at h
              cases h
              refine ⟨Grown.fresh0 h2 h1 p _, fun x hx => ?_⟩
              cases hx
              refine ⟨?_, _, Node.empty p, Node.set_entry_self _ _ _, Node.set_entry_self _ _ _⟩
              rw [px_eq_ix] at h2 h1
              simp [Node.leaf_of_lt (vpn_lt hva), Node.path, h2, h1]
  | none =>
      have hleaf : pt.leaf (va / PGSIZE) = none := by
        rw [px_eq_ix] at h2
        simp [Node.leaf_of_lt (vpn_lt hva), Node.path, h2]
      cases m with
      | nil =>
          simp only [Node.descend, h2, kalloc] at h
          cases h
          exact ⟨Grown.refl _ _, by simp⟩
      | cons p m =>
          have hg := Grown.fresh1 h2 p m
          cases m with
          | nil =>
              simp only [Node.descend, h2, kalloc, if_true, Node.empty_entry, Node.set_set] at h
              cases h
              exact ⟨hg, by simp⟩
          | cons p' m =>
              have hg' := Grown.fresh0 (Node.set_entry_self pt (px 2 va) (some (Node.empty p)))
                (Node.empty_entry p (px 1 va)) p' m
              simp only [Node.descend, h2, kalloc, if_true, Node.empty_entry, Node.set_set] at h hg'
              cases h
              refine ⟨hg.trans hg', fun x hx => ?_⟩
              cases hx
              exact ⟨hleaf.symm, _, Node.empty p', Node.set_entry_self _ _ _,
                Node.set_entry_self _ _ _⟩

/-! ## mappages -/

structure MapsPage (pt : PageTable) (va : Nat) (pte : Pte) (m : Kmem)
    (ok : Bool) (pt' : PageTable) (m' : Kmem) : Prop where
  aligned : va % PGSIZE = 0
  lt : va < MAXVA
  pages : ∀ q, m'.count q + pt'.tables q = m.count q + pt.tables q
  vacant : ok = true → pt.leaf (va / PGSIZE) = none
  done : ok = true → pt'.leaf = Function.update pt.leaf (va / PGSIZE) (some pte)
  failed : ok = false → pt'.leaf = pt.leaf

theorem mappages_one {perm : Perm} {ok : Bool}
    (h : mappages pt va PGSIZE pa perm m = .ok (ok, pt', m')) :
    MapsPage pt va ⟨pa, perm⟩ m ok pt' m' := by
  unfold mappages at h
  split at h
  · cases h
  rename_i hal
  rw [if_neg (by decide), if_neg (by decide), Nat.div_self (by decide)] at h
  unfold mappagesLoop at h
  obtain ⟨⟨r, pt1, m1⟩, hw, h⟩ := bind_ok.1 h
  have hlt := walk_lt hw
  obtain ⟨hg, hr⟩ := walk_alloc hw
  dsimp only at h
  cases r with
  | none =>
      cases h
      exact ⟨by omega, hlt, hg.pages, by simp, by simp, fun _ => hg.leaf⟩
  | some x =>
      obtain ⟨hx, hp⟩ := hr x rfl
      cases x with
      | some e => cases h
      | none =>
          simp only [mappagesLoop] at h
          cases h
          refine ⟨by omega, hlt, fun q => ?_, fun _ => hx.symm, fun _ => ?_, by simp⟩
          · rw [Node.tables_store]
            exact hg.pages q
          · rw [Node.leaf_store hlt hp, hg.leaf]

theorem Node.descend_enough {t : Node (Node α)} (hm : 1 ≤ m.length) :
    ∃ c t' m', t.descend i true m = (some c, t', m') ∧ m.length ≤ m'.length + 1 := by
  unfold Node.descend
  split
  · exact ⟨_, _, _, rfl, Nat.le_succ _⟩
  · cases m with
    | nil => simp at hm
    | cons page m => exact ⟨_, _, _, rfl, le_rfl⟩

theorem walk_enough {r : Option (Option Pte)} (hm : 2 ≤ m.length)
    (h : walk pt va true m = .ok (r, pt', m')) :
    r ≠ none ∧ m.length ≤ m'.length + 2 := by
  unfold walk at h
  split at h
  · cases h
  · obtain ⟨l1, pt1, m1, h1, hlen1⟩ :=
      Node.descend_enough (t := pt) (i := px 2 va) (m := m) (by omega)
    obtain ⟨l0, l1', m2, h2, hlen2⟩ :=
      Node.descend_enough (t := l1) (i := px 1 va) (m := m1) (by omega)
    rw [h1] at h
    dsimp only at h
    rw [h2] at h
    cases h
    exact ⟨nofun, by omega⟩

theorem mappages_enough {perm : Perm} {ok : Bool} (hm : 2 ≤ m.length)
    (h : mappages pt va PGSIZE pa perm m = .ok (ok, pt', m')) :
    ok = true ∧ m.length ≤ m'.length + 2 := by
  unfold mappages at h
  split at h
  · cases h
  · rw [if_neg (by decide), if_neg (by decide)] at h
    change mappagesLoop perm 1 pt va pa m = _ at h
    unfold mappagesLoop at h
    rw [bind_ok] at h
    obtain ⟨⟨r, pt1, m1⟩, hw, h⟩ := h
    obtain ⟨hr, hlen⟩ := walk_enough hm hw
    cases r with
    | none => exact absurd rfl hr
    | some o =>
        cases o with
        | some e => cases h
        | none =>
            cases h
            exact ⟨rfl, hlen⟩

/-! ## uvmunmap -/

theorem kfree_ok [Link] (h : kfree pa m = .ok m') :
    PageOk pa ∧ m' = pa :: m := by
  unfold kfree at h
  split at h
  · rename_i hok
    cases h
    exact ⟨hok, rfl⟩
  · cases h

theorem kfree_count [Link] (h : kfree pa m = .ok m') (q : PA) :
    m'.count q = m.count q + hit pa q := by
  rw [(kfree_ok h).2, count_cons_hit]

theorem Ico_succ_insert (v n : Nat) :
    Finset.Ico v (v + (n + 1)) = insert v (Finset.Ico (v + 1) (v + 1 + n)) := by
  ext u
  simp only [Finset.mem_Ico, Finset.mem_insert]
  omega

theorem cut_succ {β : Type} (f : Nat → Option β) (v n : Nat) :
    cut (Function.update f v none) (Finset.Ico (v + 1) (v + 1 + n)) =
      cut f (Finset.Ico v (v + (n + 1))) := by
  funext u
  rw [Ico_succ_insert]
  by_cases hu : u = v
  · subst hu; simp [cut]
  · simp [cut, hu]

theorem succ_page (a : Nat) : (a + PGSIZE) / PGSIZE = a / PGSIZE + 1 :=
  Nat.add_div_right a (by decide)

@[simp] theorem Node.mapped_of_leaf {e : Pte} (h : pt.leaf v = some e) :
    pt.mapped v = some e.pa := by
  simp [Node.mapped, h]

/-- Unmapping `n` pages: the leaves go, the tables stay, and with `doFree` every
page that was mapped there goes to the free list. -/
theorem uvmunmapLoop_spec [Link] {doFree : Bool} {n a : Nat}
    (h : uvmunmapLoop doFree n pt a m = .ok (pt', m')) :
    pt'.leaf = cut pt.leaf (Finset.Ico (a / PGSIZE) (a / PGSIZE + n)) ∧
      (∀ q, pt'.tables q = pt.tables q) ∧
      ∀ q, m'.count q = m.count q +
        if doFree then occ (Finset.Ico (a / PGSIZE) (a / PGSIZE + n)) pt.mapped q else 0 := by
  induction n generalizing pt a m with
  | zero =>
      cases h
      refine ⟨?_, fun _ => rfl, fun q => ?_⟩
      · funext v; simp [cut]
      · simp
  | succ n ih =>
      unfold uvmunmapLoop at h
      obtain ⟨⟨r, pt1, m1⟩, hw, h⟩ := bind_ok.1 h
      obtain ⟨r', hw', hjoin, hpath⟩ := walk_noalloc (walk_lt hw) pt m
      rw [hw'] at hw
      cases hw
      have hnot : a / PGSIZE ∉ Finset.Ico (a / PGSIZE + 1) (a / PGSIZE + 1 + n) := by simp
      dsimp only at h
      split at h
      · rename_i e
        obtain ⟨m2, hm2, h⟩ := bind_ok.1 h
        have hleaf : pt.leaf (a / PGSIZE) = some e := by simpa using hjoin.symm
        have hst := Node.leaf_store (walk_lt hw') (hpath e rfl) none
        obtain ⟨hl, ht, hc⟩ := ih h
        rw [succ_page] at hl hc
        refine ⟨?_, fun q => ?_, fun q => ?_⟩
        · rw [hl, hst, cut_succ]
        · rw [ht, Node.tables_store]
        · have hrest : occ (Finset.Ico (a / PGSIZE + 1) (a / PGSIZE + 1 + n))
              (pt.store a none).mapped q =
              occ (Finset.Ico (a / PGSIZE + 1) (a / PGSIZE + 1 + n)) pt.mapped q := by
            apply occ_congr
            intro v hv
            have hne : v ≠ a / PGSIZE := fun he => hnot (he ▸ hv)
            simp [Node.mapped, hst, hne]
          rw [hc, hrest, Ico_succ_insert, occ_insert hnot, Node.mapped_of_leaf hleaf]
          cases doFree with
          | true =>
              rw [if_pos rfl] at hm2
              have := kfree_count hm2 q
              simp only [if_true, hitOpt_some]
              omega
          | false => cases hm2; simp
      · rename_i hnone
        have hleaf : pt.leaf (a / PGSIZE) = none := by
          cases hl : pt.leaf (a / PGSIZE) with
          | none => rfl
          | some e =>
              rw [hl] at hjoin
              exact (hnone e (Option.join_eq_some_iff.1 hjoin)).elim
        obtain ⟨hl, ht, hc⟩ := ih h
        rw [succ_page] at hl hc
        refine ⟨?_, ht, fun q => ?_⟩
        · rw [hl, ← cut_succ, ← hleaf, Function.update_eq_self]
        · rw [hc, Ico_succ_insert, occ_insert hnot]
          simp [Node.mapped, hleaf]

/-- The pages that `uvmunmap` visits. -/
def unmapRange (va npages : Nat) : Finset Nat :=
  Finset.Ico (va / PGSIZE) (va / PGSIZE + (addU64 va (npages * PGSIZE) - va) / PGSIZE)

theorem uvmunmap_spec [Link] {doFree : Bool} (h : uvmunmap pt va npages doFree m = .ok (pt', m')) :
    pt'.leaf = cut pt.leaf (unmapRange va npages) ∧
      (∀ q, pt'.tables q = pt.tables q) ∧
      ∀ q, m'.count q = m.count q +
        if doFree then occ (unmapRange va npages) pt.mapped q else 0 := by
  unfold uvmunmap at h
  split at h
  · cases h
  · exact uvmunmapLoop_spec h

theorem uvmunmapLoop_ok [Link] {n a : Nat} (pt : PageTable) (m : Kmem)
    (h : a + n * PGSIZE ≤ MAXVA) : ∃ pt', uvmunmapLoop false n pt a m = .ok (pt', m) := by
  induction n generalizing pt a with
  | zero => exact ⟨pt, rfl⟩
  | succ n ih =>
      have hlt : a < MAXVA := lt_of_lt_of_le
        (Nat.lt_add_of_pos_right (Nat.mul_pos n.succ_pos (by decide))) h
      have hrest : a + PGSIZE + n * PGSIZE ≤ MAXVA := by
        rwa [Nat.succ_mul, Nat.add_comm (n * PGSIZE), ← Nat.add_assoc] at h
      obtain ⟨r, hw, -, -⟩ := walk_noalloc hlt pt m
      unfold uvmunmapLoop
      rw [hw, ok_bind]
      dsimp only
      split
      · exact ih _ hrest
      · exact ih _ hrest

theorem uvmunmap_ok [Link] (pt : PageTable) (m : Kmem) (ha : va % PGSIZE = 0) (hle : va ≤ MAXVA)
    (h : addU64 va (npages * PGSIZE) ≤ MAXVA) :
    ∃ pt', uvmunmap pt va npages false m = .ok (pt', m) := by
  unfold uvmunmap
  rw [if_neg (not_not.2 ha)]
  refine uvmunmapLoop_ok pt m ?_
  have hmul := Nat.div_mul_le_self (addU64 va (npages * PGSIZE) - va) PGSIZE
  omega

theorem unmapRange_eq (h : va + npages * PGSIZE < 2 ^ 64) :
    unmapRange va npages = Finset.Ico (va / PGSIZE) (va / PGSIZE + npages) := by
  unfold unmapRange addU64
  rw [Nat.mod_eq_of_lt h, Nat.add_sub_cancel_left, Nat.mul_div_cancel _ (by decide)]

/-! ## freewalk -/

theorem freeEntries_spec {free : α → Kmem → Except Panic Kmem} {P : α → Prop} {w : α → PA → Nat}
    (hf : ∀ c m m', free c m = .ok m' → P c ∧ ∀ q, m'.count q = m.count q + w c q) {t : Node α}
    {is : List (Fin 512)} (h : freeEntries free t is m = .ok m') :
    (∀ i ∈ is, ∀ c, t.entry i = some c → P c) ∧
      ∀ q, m'.count q =
        m.count q + (is.map fun i => (t.entry i).elim 0 fun c => w c q).sum := by
  induction is generalizing m with
  | nil => cases h; simp
  | cons i is ih =>
      unfold freeEntries at h
      obtain ⟨m1, h1, h⟩ := bind_ok.1 h
      obtain ⟨hP, hc⟩ := ih h
      cases he : t.entry i with
      | none =>
          rw [he] at h1
          cases h1
          refine ⟨fun j hj c hc' => ?_, fun q => by simp [hc, he]⟩
          rcases List.mem_cons.1 hj with rfl | hj
          · simp [he] at hc'
          · exact hP j hj c hc'
      | some c =>
          rw [he] at h1
          obtain ⟨hPc, hcc⟩ := hf c m m1 h1
          refine ⟨fun j hj c' hc' => ?_, fun q => ?_⟩
          · rcases List.mem_cons.1 hj with rfl | hj
            · rw [he] at hc'
              cases hc'
              exact hPc
            · exact hP j hj c' hc'
          · rw [hc, hcc]
            simp [he]
            omega

theorem Node.freewalk_spec [Link] {free : α → Kmem → Except Panic Kmem} {P : α → Prop}
    {w : α → PA → Nat}
    (hf : ∀ c m m', free c m = .ok m' → P c ∧ ∀ q, m'.count q = m.count q + w c q) {t : Node α}
    (h : t.freewalk free m = .ok m') :
    (∀ i c, t.entry i = some c → P c) ∧
      ∀ q, m'.count q = m.count q + t.weigh (fun c => w c q) q := by
  unfold Node.freewalk at h
  obtain ⟨m1, h1, h⟩ := bind_ok.1 h
  obtain ⟨hP, hc⟩ := freeEntries_spec hf h1
  refine ⟨fun i c hi => hP i (List.mem_finRange i) c hi, fun q => ?_⟩
  rw [kfree_count h, hc, Node.weigh, Fin.sum_univ_def]
  omega

/-- A page table is torn down only once it has no leaf left, and then exactly its
own pages are freed. -/
theorem freewalk_spec [Link] (h : freewalk pt m = .ok m') :
    (∀ v, pt.leaf v = none) ∧ ∀ q, m'.count q = m.count q + pt.tables q := by
  have h0 : ∀ (l0 : Node Pte) m m',
      l0.freewalk (fun _ _ => .error .freewalkLeaf) m = .ok m' →
        (∀ k, l0.entry k = none) ∧ ∀ q, m'.count q = m.count q + hit l0.page q := by
    intro l0 m m' h
    obtain ⟨hP, hc⟩ := Node.freewalk_spec (P := fun _ => False) (w := fun _ _ => 0)
      (by intro c m m' h; cases h) h
    have hnone : ∀ k, l0.entry k = none := by
      intro k
      cases hk : l0.entry k with
      | none => rfl
      | some e => exact (hP k e hk).elim
    refine ⟨hnone, fun q => ?_⟩
    rw [hc]
    simp [Node.weigh, hnone]
  have h1 : ∀ (l1 : Node (Node Pte)) m m',
      l1.freewalk (Node.freewalk fun _ _ => .error .freewalkLeaf) m = .ok m' →
        (∀ j l0, l1.entry j = some l0 → ∀ k, l0.entry k = none) ∧
        ∀ q, m'.count q = m.count q + l1.weigh (fun l0 => hit l0.page q) q :=
    fun l1 m m' h => Node.freewalk_spec h0 h
  obtain ⟨hP, hc⟩ := Node.freewalk_spec h1 h
  refine ⟨fun v => ?_, fun q => by rw [hc q, Node.tables_def]⟩
  by_cases hv : v < NVPN
  · rw [Node.leaf_of_lt hv, Node.path]
    cases h2 : pt.entry (ix 2 v) with
    | none => rfl
    | some l1 =>
        cases hj : l1.entry (ix 1 v) with
        | none => simp [hj]
        | some l0 => simpa [hj] using hP _ l1 h2 _ l0 hj (ix 0 v)
  · exact Node.leaf_of_ge (by omega)

end G9OS.Kernel
