import G9OS.Lib.Occurrence
import G9OS.FileSys.Bio

/-! # Coherence of the buffer cache (`bio.c`)

The cache is a store of locked blocks: no block is in two buffers, a buffer in use is not recycled,
and a block that leaves the cache is on the disk. The list of the buffers is in the order in which
they were given back, so `bget` recycles the one that has been out of use longest.
-/

namespace G9OS.FileSys

open Lib Kernel

variable {U : Type}

def Use.at : Use → Option (Fin NBUF × Nat)
  | .idle => none
  | .waits b n | .fills b n | .holds b n | .leaves b n => some (b, n)

def Use.owns : Use → Option (Fin NBUF)
  | .fills b _ | .holds b _ => some b
  | .idle | .waits _ _ | .leaves _ _ => none

/-- The buffer that a use may look into. -/
def Use.has : Use → Option (Fin NBUF)
  | .holds b _ => some b
  | .idle | .waits _ _ | .fills _ _ | .leaves _ _ => none

/-- How the file system uses the cache: it touches only what it holds, there is one device, and a
modified buffer is written or pinned when it is released. `writei` breaks the last point when
`either_copyin` fails after it has copied a part. -/
def BioOk (c : Bcache U) : BioAct U → Prop
  | .bget _ dev _ => dev = ROOTDEV
  | .modify u b _ | .bwrite u b | .bpin u b => (c.use u).has = some b
  | .brelse u b =>
      (c.use u).has = some b ∧ ((c.buf b).data = c.disk (c.buf b).blockno ∨ 0 < c.pins b)
  | .bunpin u b => (c.use u).has = some b ∧ 0 < c.pins b
  | .acquiresleep _ | .fill _ | .giveBack _ => True

/-! ## The invariant -/

structure Ordered (c : Bcache U) (l : List (Fin NBUF)) : Prop where
  links : c.links.Is l
  all : ∀ b, b ∈ l
  sorted : l.Pairwise fun b b' =>
    (c.buf b).refcnt = 0 → (c.buf b').refcnt = 0 → c.freed b' ≤ c.freed b
  past : ∀ b, c.freed b ≤ c.time

structure Keyed (c : Bcache U) : Prop where
  key : ∀ u b n, (c.use u).at = some (b, n) → (c.buf b).dev = ROOTDEV ∧ (c.buf b).blockno = n
  unique : ∀ b b', (c.buf b).dev = ROOTDEV → (c.buf b').dev = ROOTDEV →
    (c.buf b).blockno = (c.buf b').blockno → b = b'

def Bcache.uses [Fintype U] (c : Bcache U) (b : Fin NBUF) : Nat :=
  ∑ u, if (c.use u).at.map Prod.fst = some b then 1 else 0

def Counted [Fintype U] (c : Bcache U) : Prop :=
  ∀ b, (c.buf b).refcnt = c.uses b + c.pins b

structure Owned (c : Bcache U) : Prop where
  lock : ∀ b u, c.lock b = some u ↔ (c.use u).owns = some b
  valid : ∀ u b, (c.use u).has = some b → (c.buf b).valid = true
  clean : ∀ b, (c.buf b).dev = ROOTDEV → (c.buf b).valid = true →
    (c.buf b).data = c.disk (c.buf b).blockno ∨ 0 < c.pins b ∨ ∃ u, (c.use u).has = some b

structure Coherent [Fintype U] (c : Bcache U) : Prop where
  order : ∃ l, Ordered c l
  keys : Keyed c
  count : Counted c
  owned : Owned c

/-! ## What a step does -/

section
variable [DecidableEq U]

inductive BioMove (c : Bcache U) : BioAct U → Bcache U → Prop
  | hits {u : U} {n : Nat} {b : Fin NBUF} (hu : c.use u = .idle)
      (hb : (c.buf b).dev = ROOTDEV ∧ (c.buf b).blockno = n) :
      BioMove c (.bget u ROOTDEV n)
        ((c.setBuf b { c.buf b with refcnt := (c.buf b).refcnt + 1 }).setUse u (.waits b n))
  | recycles {u : U} {n : Nat} {b : Fin NBUF} (hu : c.use u = .idle)
      (hnew : ∀ b, ¬ ((c.buf b).dev = ROOTDEV ∧ (c.buf b).blockno = n))
      (hb : (c.buf b).refcnt = 0)
      (hold : ∀ b', (c.buf b').refcnt = 0 → c.freed b ≤ c.freed b') :
      BioMove c (.bget u ROOTDEV n)
        ((c.setBuf b
          { c.buf b with dev := ROOTDEV, blockno := n, valid := false, refcnt := 1 }).setUse u
          (.waits b n))
  | noBuffers {u : U} {n : Nat} (hall : ∀ b, (c.buf b).refcnt ≠ 0) :
      BioMove c (.bget u ROOTDEV n) { c with panicked := some .noBuffers }
  | acquires {u : U} {b : Fin NBUF} {n : Nat} (hu : c.use u = .waits b n)
      (hfree : c.lock b = none) :
      BioMove c (.acquiresleep u)
        { c.setUse u (.fills b n) with lock := Function.update c.lock b (some u) }
  | finds {u : U} {b : Fin NBUF} {n : Nat} (hu : c.use u = .fills b n)
      (hvalid : (c.buf b).valid = true) : BioMove c (.fill u) (c.setUse u (.holds b n))
  | reads {u : U} {b : Fin NBUF} {n : Nat} (hu : c.use u = .fills b n)
      (hvalid : (c.buf b).valid = false) :
      BioMove c (.fill u)
        ((c.setBuf b { c.buf b with data := c.disk (c.buf b).blockno, valid := true }).setUse u
          (.holds b n))
  | modifies {u : U} {b : Fin NBUF} {n : Nat} {d : Block} (hu : c.use u = .holds b n) :
      BioMove c (.modify u b d) (c.setBuf b { c.buf b with data := d })
  | writes {u : U} {b : Fin NBUF} {n : Nat} (hu : c.use u = .holds b n) :
      BioMove c (.bwrite u b)
        { c with disk := Function.update c.disk (c.buf b).blockno (c.buf b).data }
  | releases {u : U} {b : Fin NBUF} {n : Nat} (hu : c.use u = .holds b n)
      (hclean : (c.buf b).data = c.disk (c.buf b).blockno ∨ 0 < c.pins b) :
      BioMove c (.brelse u b)
        { c.setUse u (.leaves b (c.buf b).blockno) with lock := Function.update c.lock b none }
  | keeps {u : U} {b : Fin NBUF} {n : Nat} (hu : c.use u = .leaves b n)
      (hmore : (c.buf b).refcnt - 1 ≠ 0) :
      BioMove c (.giveBack u)
        ((c.setBuf b { c.buf b with refcnt := (c.buf b).refcnt - 1 }).setUse u .idle)
  | frees {u : U} {b : Fin NBUF} {n : Nat} (hu : c.use u = .leaves b n)
      (hlast : (c.buf b).refcnt - 1 = 0) :
      BioMove c (.giveBack u)
        { (c.setBuf b { c.buf b with refcnt := (c.buf b).refcnt - 1 }).setUse u .idle with
          links := (c.links.unlink b).pushFront b
          freed := Function.update c.freed b (c.time + 1)
          time := c.time + 1 }
  | pins {u : U} {b : Fin NBUF} {n : Nat} (hu : c.use u = .holds b n) :
      BioMove c (.bpin u b) (bpin c b)
  | unpins {u : U} {b : Fin NBUF} {n : Nat} (hu : c.use u = .holds b n) (hpin : 0 < c.pins b) :
      BioMove c (.bunpin u b) (bunpin c b)

variable {c t : Bcache U} {a : BioAct U} {u : U} {b : Fin NBUF} {n : Nat}

omit [DecidableEq U] in
theorem setBuf_self (x : CacheBuf) : (c.setBuf b x).buf b = x := Function.update_self ..

omit [DecidableEq U] in
theorem setBuf_of_ne {b' : Fin NBUF} (h : b' ≠ b) (x : CacheBuf) :
    (c.setBuf b x).buf b' = c.buf b' := Function.update_of_ne h _ _

omit [DecidableEq U] in
theorem setBuf_same {α : Type} (f : CacheBuf → α) {x : CacheBuf} (h : f x = f (c.buf b))
    (b' : Fin NBUF) : f ((c.setBuf b x).buf b') = f (c.buf b') := by
  by_cases hb : b' = b
  · rw [hb, setBuf_self, h]
  · rw [setBuf_of_ne hb]

theorem setUse_self (x : Use) : (c.setUse u x).use u = x := Function.update_self ..

theorem setUse_of_ne {v : U} (h : v ≠ u) (x : Use) : (c.setUse u x).use v = c.use v :=
  Function.update_of_ne h _ _

theorem setUse_same {α : Type} (f : Use → α) {x : Use} (h : f x = f (c.use u)) (v : U) :
    f ((c.setUse u x).use v) = f (c.use v) := by
  by_cases hv : v = u
  · rw [hv, setUse_self, h]
  · rw [setUse_of_ne hv]

omit [DecidableEq U] in
theorem Use.has_some {x : Use} (h : x.has = some b) : ∃ n, x = .holds b n := by
  cases x with
  | holds b' n =>
      cases h
      exact ⟨n, rfl⟩
  | idle | waits | fills | leaves => cases h

omit [DecidableEq U] in
theorem length_le_NBUF {l : List (Fin NBUF)} (h : l.Nodup) : l.length ≤ NBUF := by
  have hle := h.length_le_card
  rwa [Fintype.card_fin] at hle

omit [DecidableEq U] in
theorem Ordered.cached_eq {l : List (Fin NBUF)} (h : Ordered c l) (dev n : Nat) :
    c.cached dev n = l.find? fun b => (c.buf b).dev = dev ∧ (c.buf b).blockno = n :=
  h.links.search_next _ (length_le_NBUF h.links.nodup)

omit [DecidableEq U] in
theorem Ordered.unused_eq {l : List (Fin NBUF)} (h : Ordered c l) :
    c.unused = l.reverse.find? fun b => (c.buf b).refcnt = 0 :=
  h.links.search_prev _ (length_le_NBUF h.links.nodup)

omit [DecidableEq U] in
/-- The backward walk stops at the buffer that was given back first. -/
theorem Ordered.unused_oldest {l : List (Fin NBUF)} (h : Ordered c l) (hb : c.unused = some b) :
    (c.buf b).refcnt = 0 ∧ ∀ b', (c.buf b').refcnt = 0 → c.freed b ≤ c.freed b' := by
  rw [h.unused_eq] at hb
  obtain ⟨hzero, l₁, l₂, heq, hbefore⟩ := List.find?_eq_some_iff_append.1 hb
  have hzero' : (c.buf b).refcnt = 0 := by simpa using hzero
  refine ⟨hzero', fun b' hb' => ?_⟩
  have hl : l = l₂.reverse ++ b :: l₁.reverse := by
    rw [← List.reverse_reverse l, heq]
    simp
  have hmem := h.all b'
  rw [hl] at hmem
  rcases List.mem_append.1 hmem with hin | hin
  · have hsorted := h.sorted
    rw [hl] at hsorted
    exact (List.pairwise_append.1 hsorted).2.2 b' hin b List.mem_cons_self hb' hzero'
  · rcases List.mem_cons.1 hin with rfl | hin
    · exact le_rfl
    · have hne := hbefore b' (List.mem_reverse.1 hin)
      simp [hb'] at hne

omit [DecidableEq U] in
theorem Ordered.unused_none {l : List (Fin NBUF)} (h : Ordered c l) (hb : c.unused = none)
    (b : Fin NBUF) : (c.buf b).refcnt ≠ 0 := by
  rw [h.unused_eq, List.find?_eq_none] at hb
  simpa using hb b (List.mem_reverse.2 (h.all b))

theorem bget_move {l : List (Fin NBUF)} (h : Ordered c l) (hu : c.use u = .idle) (n : Nat) :
    BioMove c (.bget u ROOTDEV n) (bget c u ROOTDEV n) := by
  unfold bget
  cases hc : c.cached ROOTDEV n with
  | some b =>
      rw [h.cached_eq] at hc
      exact .hits hu (by simpa using List.find?_some hc)
  | none =>
      rw [h.cached_eq, List.find?_eq_none] at hc
      have hnew : ∀ b, ¬ ((c.buf b).dev = ROOTDEV ∧ (c.buf b).blockno = n) := fun b => by
        simpa using hc b (h.all b)
      cases hf : c.unused with
      | some b =>
          obtain ⟨hzero, hold⟩ := h.unused_oldest hf
          exact .recycles hu hnew hzero hold
      | none => exact .noBuffers (h.unused_none hf)

theorem next_bioMove [Fintype U] (h : Coherent c) (hok : BioOk c a) (hn : c.next a = some t) :
    BioMove c a t := by
  obtain ⟨l, hl⟩ := h.order
  simp only [Bcache.next, Option.ite_none_right_eq_some] at hn
  replace hn := hn.2
  cases a with
  | bget u dev n =>
      obtain rfl : dev = ROOTDEV := hok
      simp only [Bcache.run, Option.ite_none_right_eq_some] at hn
      obtain ⟨hu, hn⟩ := hn
      obtain rfl := Option.some.inj hn
      exact bget_move hl hu n
  | acquiresleep u =>
      simp only [Bcache.run] at hn
      cases hu : c.use u with
      | waits b n =>
          rw [hu] at hn
          obtain ⟨hfree, hn⟩ := Option.ite_none_right_eq_some.1 hn
          obtain rfl := Option.some.inj hn
          exact .acquires hu hfree
      | idle | fills | holds | leaves =>
          rw [hu] at hn
          cases hn
  | fill u =>
      simp only [Bcache.run] at hn
      cases hu : c.use u with
      | fills b n =>
          rw [hu] at hn
          obtain rfl := Option.some.inj hn
          unfold bread
          cases hvalid : (c.buf b).valid with
          | true => exact .finds hu hvalid
          | false => exact .reads hu hvalid
      | idle | waits | holds | leaves =>
          rw [hu] at hn
          cases hn
  | modify u b d =>
      obtain ⟨n, hu⟩ := Use.has_some hok
      obtain rfl := Option.some.inj hn
      exact .modifies hu
  | bwrite u b =>
      obtain ⟨n, hu⟩ := Use.has_some hok
      obtain rfl := Option.some.inj hn
      have hlock : c.lock b = some u := (h.owned.lock b u).2 (by rw [hu]; rfl)
      rw [bwrite, if_pos hlock]
      exact .writes hu
  | brelse u b =>
      obtain ⟨n, hu⟩ := Use.has_some hok.1
      obtain rfl := Option.some.inj hn
      have hlock : c.lock b = some u := (h.owned.lock b u).2 (by rw [hu]; rfl)
      rw [brelse, if_pos hlock]
      exact .releases hu hok.2
  | giveBack u =>
      simp only [Bcache.run] at hn
      cases hu : c.use u with
      | leaves b n =>
          rw [hu] at hn
          obtain rfl := Option.some.inj hn
          have hcnt : (((c.setBuf b { c.buf b with refcnt := (c.buf b).refcnt - 1 }).setUse u
              .idle).buf b).refcnt = (c.buf b).refcnt - 1 := by
            change ((c.setBuf b _).buf b).refcnt = _
            rw [setBuf_self]
          by_cases hlast : (c.buf b).refcnt - 1 = 0
          · unfold giveBack
            rw [if_pos (hcnt.trans hlast)]
            exact .frees hu hlast
          · unfold giveBack
            rw [if_neg (fun h0 => hlast (hcnt.symm.trans h0))]
            exact .keeps hu hlast
      | idle | waits | fills | holds =>
          rw [hu] at hn
          cases hn
  | bpin u b =>
      obtain ⟨n, hu⟩ := Use.has_some hok
      obtain rfl := Option.some.inj hn
      exact .pins hu
  | bunpin u b =>
      obtain ⟨n, hu⟩ := Use.has_some hok.1
      obtain rfl := Option.some.inj hn
      exact .unpins hu hok.2

end

/-! ## Each part of the invariant -/

section
variable [DecidableEq U] {c t : Bcache U} {a : BioAct U} {u : U} {b : Fin NBUF} {n : Nat}

omit [DecidableEq U] in
theorem Keyed.congr (h : Keyed c)
    (hat : ∀ u x, (t.use u).at = some x → (c.use u).at = some x)
    (hdev : ∀ b, (t.buf b).dev = (c.buf b).dev)
    (hblk : ∀ b, (t.buf b).blockno = (c.buf b).blockno) : Keyed t := by
  constructor
  · intro u b n hu
    rw [hdev, hblk]
    exact h.key u b n (hat u _ hu)
  · intro b b' hb hb' heq
    rw [hdev] at hb hb'
    rw [hblk, hblk] at heq
    exact h.unique b b' hb hb' heq

theorem Keyed.setUse (h : Keyed c) {x : Use}
    (hx : ∀ b n, x.at = some (b, n) → (c.buf b).dev = ROOTDEV ∧ (c.buf b).blockno = n) :
    Keyed (c.setUse u x) := by
  refine ⟨fun v b n hv => ?_, h.unique⟩
  by_cases hvu : v = u
  · rw [hvu, setUse_self] at hv
    exact hx b n hv
  · rw [setUse_of_ne hvu] at hv
    exact h.key v b n hv

omit [DecidableEq U] in
theorem Keyed.setBuf (h : Keyed c) {x : CacheBuf} (hdev : x.dev = (c.buf b).dev)
    (hblk : x.blockno = (c.buf b).blockno) : Keyed (c.setBuf b x) :=
  h.congr (fun _ _ hu => hu) (setBuf_same CacheBuf.dev hdev) (setBuf_same CacheBuf.blockno hblk)

omit [DecidableEq U] in
theorem Keyed.recycle (h : Keyed c) (hfree : ∀ u n, (c.use u).at ≠ some (b, n))
    (hnew : ∀ b, ¬ ((c.buf b).dev = ROOTDEV ∧ (c.buf b).blockno = n)) {x : CacheBuf}
    (hblk : x.blockno = n) : Keyed (c.setBuf b x) := by
  constructor
  · intro v b' n' hv
    have hne : b' ≠ b := by
      rintro rfl
      exact hfree v n' hv
    rw [setBuf_of_ne hne]
    exact h.key v b' n' hv
  · intro b₁ b₂ h₁ h₂ heq
    by_cases hb₁ : b₁ = b
    · by_cases hb₂ : b₂ = b
      · rw [hb₁, hb₂]
      · rw [hb₁, setBuf_self, setBuf_of_ne hb₂] at heq
        rw [setBuf_of_ne hb₂] at h₂
        exact absurd ⟨h₂, heq.symm.trans hblk⟩ (hnew b₂)
    · by_cases hb₂ : b₂ = b
      · rw [hb₂, setBuf_self, setBuf_of_ne hb₁] at heq
        rw [setBuf_of_ne hb₁] at h₁
        exact absurd ⟨h₁, heq.trans hblk⟩ (hnew b₁)
      · rw [setBuf_of_ne hb₁, setBuf_of_ne hb₂] at heq
        rw [setBuf_of_ne hb₁] at h₁
        rw [setBuf_of_ne hb₂] at h₂
        exact h.unique b₁ b₂ h₁ h₂ heq

theorem uses_setUse [Fintype U] (x : Use) :
    (c.setUse u x).uses b + (if (c.use u).at.map Prod.fst = some b then 1 else 0) =
      c.uses b + if x.at.map Prod.fst = some b then 1 else 0 :=
  sum_update_weight c.use u x fun x => if x.at.map Prod.fst = some b then 1 else 0

omit [DecidableEq U] in
theorem uses_pos [Fintype U] (h : (c.use u).at = some (b, n)) : 0 < c.uses b := by
  have hle := le_sum (fun u => if (c.use u).at.map Prod.fst = some b then 1 else 0) u
  rw [h] at hle
  simp only [Option.map_some, if_true] at hle
  exact hle

omit [DecidableEq U] in
theorem Counted.free [Fintype U] (h : Counted c) (hb : (c.buf b).refcnt = 0) :
    (∀ u n, (c.use u).at ≠ some (b, n)) ∧ c.pins b = 0 := by
  have hcount : (c.buf b).refcnt = c.uses b + c.pins b := h b
  refine ⟨fun u n hu => ?_, by omega⟩
  have hpos := uses_pos hu
  omega

theorem Keyed.step [Fintype U] (h : Keyed c) (hc : Counted c) (hm : BioMove c a t) :
    Keyed t := by
  have hself : ∀ {u b n}, (c.use u).at = some (b, n) → ∀ {x : Use}, x.at = some (b, n) →
      ∀ b n, x.at = some (b, n) → (c.buf b).dev = ROOTDEV ∧ (c.buf b).blockno = n := by
    intro u b n hu x hx b' n' hx'
    cases hx.symm.trans hx'
    exact h.key u b n hu
  cases hm with
  | @hits u n b hu hb =>
      refine Keyed.setUse (h.setBuf ?_ ?_) fun b' n' hx => ?_
      · rfl
      · rfl
      · cases hx
        rw [setBuf_self]
        exact hb
  | @recycles u n b hu hnew hb hold =>
      refine Keyed.setUse (h.recycle (hc.free hb).1 hnew rfl) fun b' n' hx => ?_
      cases hx
      rw [setBuf_self]
      exact ⟨rfl, rfl⟩
  | noBuffers => exact ⟨h.key, h.unique⟩
  | @acquires u b n hu hfree =>
      have hkeyed := h.setUse (u := u) (hself (by rw [hu]; rfl) (x := .fills b n) rfl)
      exact ⟨hkeyed.key, hkeyed.unique⟩
  | finds hu hvalid => exact h.setUse (hself (by rw [hu]; rfl) rfl)
  | @reads u b n hu hvalid =>
      refine Keyed.setUse (h.setBuf ?_ ?_) fun b' n' hx => ?_
      · rfl
      · rfl
      · cases hx
        rw [setBuf_self]
        exact h.key u b n (by rw [hu]; rfl)
  | modifies => exact h.setBuf rfl rfl
  | writes => exact ⟨h.key, h.unique⟩
  | @releases u b n hu hclean =>
      have hb := h.key u b n (by rw [hu]; rfl)
      have hkeyed := h.setUse (u := u) (x := .leaves b (c.buf b).blockno) fun b' n' hx => by
        cases hx
        exact ⟨hb.1, rfl⟩
      exact ⟨hkeyed.key, hkeyed.unique⟩
  | keeps =>
      refine Keyed.setUse (h.setBuf ?_ ?_) fun b' n' hx => ?_
      · rfl
      · rfl
      · cases hx
  | @frees u b n hu hlast =>
      have hkeyed := (h.setBuf (b := b)
        (x := { c.buf b with refcnt := (c.buf b).refcnt - 1 }) rfl rfl).setUse (u := u)
        (x := .idle) fun b' n' hx => by cases hx
      exact ⟨hkeyed.key, hkeyed.unique⟩
  | @pins u b n hu =>
      have hkeyed := h.setBuf (b := b)
        (x := { c.buf b with refcnt := (c.buf b).refcnt + 1 }) rfl rfl
      exact ⟨hkeyed.key, hkeyed.unique⟩
  | @unpins u b n hu hpin =>
      have hkeyed := h.setBuf (b := b)
        (x := { c.buf b with refcnt := (c.buf b).refcnt - 1 }) rfl rfl
      exact ⟨hkeyed.key, hkeyed.unique⟩

theorem Counted.setUse [Fintype U] (h : Counted c) {x : Use} (hx : x.at = (c.use u).at) :
    Counted (c.setUse u x) := by
  intro b
  have hsum := uses_setUse (c := c) (u := u) (b := b) x
  rw [hx] at hsum
  have hb := h b
  change (c.buf b).refcnt = (c.setUse u x).uses b + c.pins b
  omega

omit [DecidableEq U] in
theorem Counted.setBuf [Fintype U] (h : Counted c) {x : CacheBuf}
    (hx : x.refcnt = (c.buf b).refcnt) : Counted (c.setBuf b x) := by
  intro b'
  rw [setBuf_same CacheBuf.refcnt hx]
  exact h b'

/-- A use of the buffer begins or ends, and its count says so. -/
theorem Counted.move [Fintype U] (h : Counted c) {x : CacheBuf} {v : Use}
    (hx : x.refcnt + (if (c.use u).at.map Prod.fst = some b then 1 else 0) =
      (c.buf b).refcnt + if v.at.map Prod.fst = some b then 1 else 0)
    (hv : ∀ b', b' ≠ b →
      ((c.use u).at.map Prod.fst = some b' ↔ v.at.map Prod.fst = some b')) :
    Counted ((c.setBuf b x).setUse u v) := by
  intro b'
  have hsum : ((c.setBuf b x).setUse u v).uses b' + _ = c.uses b' + _ :=
    uses_setUse (c := c.setBuf b x) (u := u) (b := b') v
  have hb' := h b'
  change ((c.setBuf b x).buf b').refcnt = ((c.setBuf b x).setUse u _).uses b' + c.pins b'
  change _ + (if (c.use u).at.map Prod.fst = some b' then 1 else 0) = _ at hsum
  by_cases hbb : b' = b
  · subst hbb
    rw [setBuf_self]
    omega
  · rw [setBuf_of_ne hbb]
    simp only [hv b' hbb] at hsum
    omega

theorem Counted.enter [Fintype U] (h : Counted c) (hu : c.use u = .idle) {x : CacheBuf}
    (hx : x.refcnt = (c.buf b).refcnt + 1) : Counted ((c.setBuf b x).setUse u (.waits b n)) :=
  h.move (by simp [hu, Use.at, hx]) fun b' hb => by simp [hu, Use.at, hb.symm]

theorem Counted.leave [Fintype U] (h : Counted c) (hu : c.use u = .leaves b n) {x : CacheBuf}
    (hx : x.refcnt = (c.buf b).refcnt - 1) : Counted ((c.setBuf b x).setUse u .idle) := by
  have hb := h b
  have hpos := uses_pos (congrArg Use.at hu)
  refine h.move ?_ fun b' hb => by simp [hu, Use.at, hb.symm]
  simp only [hu, Use.at, Option.map_some, Option.map_none, if_true, reduceCtorEq, if_false]
  omega

omit [DecidableEq U] in
theorem Counted.pinned [Fintype U] (h : Counted c) {m k : Nat} (hm : m = c.uses b + k) :
    Counted { c.setBuf b { c.buf b with refcnt := m } with
      pins := Function.update c.pins b k } := by
  intro b'
  change ((c.setBuf b _).buf b').refcnt = c.uses b' + Function.update c.pins b k b'
  by_cases hbb : b' = b
  · subst hbb
    rw [setBuf_self, Function.update_self]
    exact hm
  · rw [setBuf_of_ne hbb, Function.update_of_ne hbb]
    exact h b'

theorem Counted.step [Fintype U] (h : Counted c) (hm : BioMove c a t) : Counted t := by
  cases hm with
  | hits hu hb => exact h.enter hu rfl
  | recycles hu hnew hb hold => exact h.enter hu (by rw [hb])
  | noBuffers | writes => exact h
  | @acquires u b n hu hfree =>
      exact h.setUse (u := u) (x := .fills b n) (congrArg Use.at hu).symm
  | finds hu hvalid => exact h.setUse (congrArg Use.at hu).symm
  | reads hu hvalid =>
      refine Counted.setUse (h.setBuf ?_) ?_
      · rfl
      · exact (congrArg Use.at hu).symm
  | modifies => exact h.setBuf rfl
  | @releases u b n hu hclean =>
      have huses : (c.setUse u (.leaves b (c.buf b).blockno)).uses = c.uses := by
        funext b'
        have hsum := uses_setUse (c := c) (u := u) (b := b') (.leaves b (c.buf b).blockno)
        rw [hu] at hsum
        exact Nat.add_right_cancel hsum
      intro b'
      exact (h b').trans (congrArg (· b' + c.pins b') huses.symm)
  | keeps hu hmore => exact h.leave hu rfl
  | frees hu hlast => exact h.leave hu rfl
  | @pins u b n hu =>
      exact h.pinned (k := c.pins b + 1) (by
        have hb := h b
        omega)
  | @unpins u b n hu hpin =>
      exact h.pinned (k := c.pins b - 1) (by
        have hb := h b
        omega)

omit [DecidableEq U] in
theorem Use.has_owns {x : Use} (h : x.has = some b) : x.owns = some b := by
  obtain ⟨n, rfl⟩ := Use.has_some h
  rfl

omit [DecidableEq U] in
theorem Use.owns_at {x : Use} (h : x.owns = some b) : ∃ n, x.at = some (b, n) := by
  cases x with
  | fills b' n | holds b' n =>
      cases h
      exact ⟨n, rfl⟩
  | idle | waits | leaves => cases h

theorem Owned.setUse (h : Owned c) {x y : Use} (hu : c.use u = y) (howns : x.owns = y.owns)
    (hhas : x.has = y.has) : Owned (c.setUse u x) := by
  rw [← hu] at howns hhas
  constructor
  · intro b v
    rw [setUse_same Use.owns howns]
    exact h.lock b v
  · intro v b hv
    rw [setUse_same Use.has hhas] at hv
    exact h.valid v b hv
  · intro b hdev hvalid
    rcases h.clean b hdev hvalid with hclean | hpin | ⟨v, hv⟩
    · exact .inl hclean
    · exact .inr (.inl hpin)
    · refine .inr (.inr ⟨v, ?_⟩)
      rw [setUse_same Use.has hhas]
      exact hv

omit [DecidableEq U] in
theorem Owned.setRefcnt (h : Owned c) (m : Nat) :
    Owned (c.setBuf b { c.buf b with refcnt := m }) := by
  have hdev := setBuf_same (c := c) (b := b) (x := { c.buf b with refcnt := m }) CacheBuf.dev rfl
  have hblk := setBuf_same (c := c) (b := b) (x := { c.buf b with refcnt := m })
    CacheBuf.blockno rfl
  have hval := setBuf_same (c := c) (b := b) (x := { c.buf b with refcnt := m }) CacheBuf.valid rfl
  have hdata := setBuf_same (c := c) (b := b) (x := { c.buf b with refcnt := m }) CacheBuf.data rfl
  constructor
  · exact h.lock
  · intro v b' hv
    rw [hval]
    exact h.valid v b' hv
  · intro b' hd hv
    rw [hdev] at hd
    rw [hval] at hv
    rw [hdata, hblk]
    exact h.clean b' hd hv

omit [DecidableEq U] in
theorem Owned.setPins (h : Owned c) {pins : Fin NBUF → Nat}
    (hpins : ∀ b, 0 < c.pins b → 0 < pins b ∨ ∃ u, (c.use u).has = some b) :
    Owned { c with pins := pins } := by
  refine ⟨h.lock, h.valid, fun b hd hv => ?_⟩
  rcases h.clean b hd hv with hclean | hpin | hhas
  · exact .inl hclean
  · exact .inr (hpins b hpin)
  · exact .inr (.inr hhas)

theorem Owned.acquires (h : Owned c) (hu : c.use u = .waits b n) (hfree : c.lock b = none) :
    Owned { c.setUse u (.fills b n) with lock := Function.update c.lock b (some u) } := by
  have hhas := setUse_same (c := c) (u := u) (x := .fills b n) Use.has (by rw [hu]; rfl)
  constructor
  · intro b' v
    change Function.update c.lock b (some u) b' = some v ↔ ((c.setUse u _).use v).owns = some b'
    by_cases hv : v = u
    · rw [hv, setUse_self]
      by_cases hb : b' = b
      · rw [hb, Function.update_self]
        exact ⟨fun _ => rfl, fun _ => rfl⟩
      · rw [Function.update_of_ne hb, h.lock b' u, hu]
        exact ⟨fun heq => (by cases heq), fun heq => absurd (Option.some.inj heq).symm hb⟩
    · rw [setUse_of_ne hv]
      by_cases hb : b' = b
      · rw [hb, Function.update_self, ← h.lock b v, hfree]
        exact ⟨fun heq => absurd (Option.some.inj heq).symm hv, fun heq => by cases heq⟩
      · rw [Function.update_of_ne hb]
        exact h.lock b' v
  · intro v b' hv
    exact h.valid v b' ((hhas v).symm.trans hv)
  · intro b' hdev hvalid
    rcases h.clean b' hdev hvalid with hclean | hpin | ⟨v, hv⟩
    · exact .inl hclean
    · exact .inr (.inl hpin)
    · exact .inr (.inr ⟨v, (hhas v).trans hv⟩)

theorem Owned.opens (h : Owned c) (hu : c.use u = .fills b n) (hvalid : (c.buf b).valid = true) :
    Owned (c.setUse u (.holds b n)) := by
  constructor
  · intro b' v
    rw [setUse_same Use.owns (by rw [hu]; rfl)]
    exact h.lock b' v
  · intro v b' hv
    by_cases hvu : v = u
    · rw [hvu, setUse_self] at hv
      cases hv
      exact hvalid
    · rw [setUse_of_ne hvu] at hv
      exact h.valid v b' hv
  · intro b' hdev hval
    rcases h.clean b' hdev hval with hclean | hpin | ⟨v, hv⟩
    · exact .inl hclean
    · exact .inr (.inl hpin)
    · refine .inr (.inr ⟨v, ?_⟩)
      have hne : v ≠ u := by
        rintro rfl
        rw [hu] at hv
        cases hv
      rw [setUse_of_ne hne]
      exact hv

omit [DecidableEq U] in
theorem Owned.setData (h : Owned c) {x : CacheBuf} (hdev : x.dev = (c.buf b).dev)
    (hblk : x.blockno = (c.buf b).blockno)
    (hvalid : (c.buf b).valid = true → x.valid = true)
    (hclean : x.data = c.disk x.blockno ∨ 0 < c.pins b ∨ ∃ u, (c.use u).has = some b) :
    Owned (c.setBuf b x) := by
  constructor
  · exact h.lock
  · intro v b' hv
    by_cases hb : b' = b
    · subst hb
      rw [setBuf_self]
      exact hvalid (h.valid v b' hv)
    · rw [setBuf_of_ne hb]
      exact h.valid v b' hv
  · intro b' hd hv
    by_cases hb : b' = b
    · subst hb
      rw [setBuf_self]
      exact hclean
    · rw [setBuf_of_ne hb] at hd hv ⊢
      exact h.clean b' hd hv

omit [DecidableEq U] in
theorem Owned.recycle (h : Owned c) (hfree : ∀ u n, (c.use u).at ≠ some (b, n)) {x : CacheBuf}
    (hvalid : x.valid = false) : Owned (c.setBuf b x) := by
  constructor
  · exact h.lock
  · intro v b' hv
    have hne : b' ≠ b := by
      rintro rfl
      obtain ⟨n, hat⟩ := Use.owns_at (Use.has_owns hv)
      exact hfree v n hat
    rw [setBuf_of_ne hne]
    exact h.valid v b' hv
  · intro b' hd hv
    have hne : b' ≠ b := by
      rintro rfl
      rw [setBuf_self, hvalid] at hv
      cases hv
    rw [setBuf_of_ne hne] at hd hv ⊢
    exact h.clean b' hd hv

omit [DecidableEq U] in
theorem Owned.writes (h : Owned c) (hk : Keyed c) (hb : (c.buf b).dev = ROOTDEV) :
    Owned { c with disk := Function.update c.disk (c.buf b).blockno (c.buf b).data } := by
  refine ⟨h.lock, h.valid, fun b' hd hv => ?_⟩
  by_cases hbb : b' = b
  · subst hbb
    refine .inl ?_
    change (c.buf b').data = Function.update c.disk _ _ _
    rw [Function.update_self]
  · have hne : (c.buf b').blockno ≠ (c.buf b).blockno := fun heq =>
      hbb (hk.unique b' b hd hb heq)
    rcases h.clean b' hd hv with hclean | hother
    · exact .inl (hclean.trans (Function.update_of_ne hne _ _).symm)
    · exact .inr hother

theorem Owned.releases (h : Owned c) (hu : c.use u = .holds b n) {n' : Nat}
    (hclean : (c.buf b).data = c.disk (c.buf b).blockno ∨ 0 < c.pins b) :
    Owned { c.setUse u (.leaves b n') with lock := Function.update c.lock b none } := by
  have hlock : c.lock b = some u := (h.lock b u).2 (by rw [hu]; rfl)
  constructor
  · intro b' v
    change Function.update c.lock b none b' = some v ↔ ((c.setUse u _).use v).owns = some b'
    by_cases hv : v = u
    · rw [hv, setUse_self]
      by_cases hb : b' = b
      · rw [hb, Function.update_self]
        exact ⟨fun heq => (by cases heq), fun heq => by cases heq⟩
      · rw [Function.update_of_ne hb, h.lock b' u, hu]
        exact ⟨fun heq => absurd (Option.some.inj heq).symm hb, fun heq => by cases heq⟩
    · rw [setUse_of_ne hv]
      by_cases hb : b' = b
      · rw [hb, Function.update_self, ← h.lock b v, hlock]
        exact ⟨fun heq => (by cases heq), fun heq => absurd (Option.some.inj heq).symm hv⟩
      · rw [Function.update_of_ne hb]
        exact h.lock b' v
  · intro v b' hv
    by_cases hvu : v = u
    · subst hvu
      cases (congrArg Use.has (setUse_self (c := c) (u := v) (.leaves b n'))).symm.trans hv
    · exact h.valid v b' ((congrArg Use.has (setUse_of_ne hvu _)).symm.trans hv)
  · intro b' hd hv
    by_cases hbb : b' = b
    · subst hbb
      rcases hclean with hclean | hpin
      · exact .inl hclean
      · exact .inr (.inl hpin)
    · rcases h.clean b' hd hv with hclean | hpin | ⟨v, hhas⟩
      · exact .inl hclean
      · exact .inr (.inl hpin)
      · refine .inr (.inr ⟨v, ?_⟩)
        have hne : v ≠ u := by
          rintro rfl
          rw [hu] at hhas
          exact hbb (Option.some.inj hhas).symm
        exact (congrArg Use.has (setUse_of_ne hne _)).trans hhas

theorem Owned.step [Fintype U] (h : Owned c) (hk : Keyed c) (hc : Counted c)
    (hm : BioMove c a t) : Owned t := by
  cases hm with
  | hits hu hb => exact Owned.setUse (h.setRefcnt _) hu (by rfl) (by rfl)
  | recycles hu hnew hb hold =>
      exact Owned.setUse (h.recycle (hc.free hb).1 (by rfl)) hu (by rfl) (by rfl)
  | noBuffers => exact ⟨h.lock, h.valid, h.clean⟩
  | acquires hu hfree => exact h.acquires hu hfree
  | finds hu hvalid => exact h.opens hu hvalid
  | @reads u b n hu hvalid =>
      refine Owned.opens (h.setData ?_ ?_ ?_ ?_) hu ?_
      · rfl
      · rfl
      · exact fun _ => rfl
      · exact .inl rfl
      · rw [setBuf_self]
  | @modifies u b n d hu =>
      refine h.setData ?_ ?_ ?_ ?_
      · rfl
      · rfl
      · exact id
      · exact .inr (.inr ⟨u, by rw [hu]; rfl⟩)
  | @writes u b n hu => exact h.writes hk (hk.key u b n (by rw [hu]; rfl)).1
  | releases hu hclean => exact h.releases hu hclean
  | keeps hu hmore => exact Owned.setUse (h.setRefcnt _) hu (by rfl) (by rfl)
  | @frees u b n hu hlast =>
      have howned := Owned.setUse (u := u) (x := .idle)
        (h.setRefcnt (b := b) ((c.buf b).refcnt - 1)) hu rfl rfl
      exact ⟨howned.lock, howned.valid, howned.clean⟩
  | @pins u b n hu =>
      refine Owned.setPins (h.setRefcnt _) fun b' hpin => .inl ?_
      by_cases hbb : b' = b
      · subst hbb
        rw [Function.update_self]
        exact Nat.succ_pos _
      · rw [Function.update_of_ne hbb]
        exact hpin
  | @unpins u b n hu hpin =>
      refine Owned.setPins (h.setRefcnt _) fun b' hpin' => ?_
      by_cases hbb : b' = b
      · subst hbb
        exact .inr ⟨u, congrArg Use.has hu⟩
      · rw [Function.update_of_ne hbb]
        exact .inl hpin'

omit [DecidableEq U] in
theorem Ordered.mono {l : List (Fin NBUF)} (h : Ordered c l)
    (hsame : t.links = c.links ∧ t.freed = c.freed ∧ t.time = c.time)
    (hzero : ∀ b, (t.buf b).refcnt = 0 → (c.buf b).refcnt = 0) : Ordered t l := by
  obtain ⟨hlinks, hfreed, htime⟩ := hsame
  constructor
  · rw [hlinks]
    exact h.links
  · exact h.all
  · refine h.sorted.imp fun hle hb hb' => ?_
    rw [hfreed]
    exact hle (hzero _ hb) (hzero _ hb')
  · rw [hfreed, htime]
    exact h.past

omit [DecidableEq U] in
theorem refcnt_zero {x : CacheBuf} (hx : x.refcnt ≠ 0) (b' : Fin NBUF)
    (h : ((c.setBuf b x).buf b').refcnt = 0) : (c.buf b').refcnt = 0 := by
  by_cases hbb : b' = b
  · subst hbb
    rw [setBuf_self] at h
    exact absurd h hx
  · rw [setBuf_of_ne hbb] at h
    exact h

theorem Ordered.frees {l₁ l₂ : List (Fin NBUF)} (h : Ordered c (l₁ ++ b :: l₂)) {m : Nat} :
    Ordered { (c.setBuf b { c.buf b with refcnt := m }).setUse u .idle with
      links := (c.links.unlink b).pushFront b
      freed := Function.update c.freed b (c.time + 1)
      time := c.time + 1 } (b :: (l₁ ++ l₂)) := by
  have hb := (List.nodup_cons.1 (List.nodup_middle.1 h.links.nodup)).1
  have hne : ∀ {b'}, b' ∈ l₁ ++ l₂ → b' ≠ b := by
    rintro b' hb' rfl
    exact hb hb'
  constructor
  · exact h.links.toFront
  · intro b'
    exact List.mem_cons.2 ((List.mem_cons.1 (List.perm_middle.mem_iff.1 (h.all b'))))
  · refine List.pairwise_cons.2 ⟨fun b' hb' _ _ => ?_, ?_⟩
    · change Function.update c.freed b (c.time + 1) b' ≤ Function.update c.freed b (c.time + 1) b
      rw [Function.update_self, Function.update_of_ne (hne hb')]
      exact (h.past b').trans (Nat.le_succ _)
    · have hsorted : (l₁ ++ l₂).Pairwise fun b b' =>
          (c.buf b).refcnt = 0 → (c.buf b').refcnt = 0 → c.freed b' ≤ c.freed b :=
        h.sorted.sublist ((List.Sublist.refl l₁).append (List.sublist_cons_self b l₂))
      refine List.Pairwise.imp_of_mem ?_ hsorted
      intro b₁ b₂ hb₁ hb₂ hle h₁ h₂
      change Function.update c.freed b _ b₂ ≤ Function.update c.freed b _ b₁
      rw [Function.update_of_ne (hne hb₁), Function.update_of_ne (hne hb₂)]
      refine hle ?_ ?_
      · exact (congrArg CacheBuf.refcnt (setBuf_of_ne (hne hb₁) _)).symm.trans h₁
      · exact (congrArg CacheBuf.refcnt (setBuf_of_ne (hne hb₂) _)).symm.trans h₂
  · intro b'
    change Function.update c.freed b (c.time + 1) b' ≤ c.time + 1
    by_cases hbb : b' = b
    · rw [hbb, Function.update_self]
    · rw [Function.update_of_ne hbb]
      exact (h.past b').trans (Nat.le_succ _)

theorem Ordered.step [Fintype U] {l : List (Fin NBUF)} (h : Ordered c l) (hc : Counted c)
    (hm : BioMove c a t) : ∃ l, Ordered t l := by
  cases hm with
  | hits => exact ⟨l, h.mono ⟨rfl, rfl, rfl⟩ (refcnt_zero (Nat.succ_ne_zero _))⟩
  | recycles => exact ⟨l, h.mono ⟨rfl, rfl, rfl⟩ (refcnt_zero one_ne_zero)⟩
  | noBuffers | acquires | finds | writes | releases =>
      exact ⟨l, h.mono ⟨rfl, rfl, rfl⟩ fun _ hb => hb⟩
  | @reads u b n hu hvalid =>
      refine ⟨l, h.mono ⟨rfl, rfl, rfl⟩ fun b' hb' => ?_⟩
      exact (setBuf_same CacheBuf.refcnt (by rfl) b').symm.trans hb'
  | modifies =>
      refine ⟨l, h.mono ⟨rfl, rfl, rfl⟩ fun b' hb' => ?_⟩
      exact (setBuf_same CacheBuf.refcnt (by rfl) b').symm.trans hb'
  | keeps hu hmore => exact ⟨l, h.mono ⟨rfl, rfl, rfl⟩ (refcnt_zero hmore)⟩
  | @frees u b n hu hlast =>
      obtain ⟨l₁, l₂, rfl⟩ := List.append_of_mem (h.all b)
      exact ⟨_, h.frees⟩
  | pins => exact ⟨l, h.mono ⟨rfl, rfl, rfl⟩ (refcnt_zero (Nat.succ_ne_zero _))⟩
  | @unpins u b n hu hpin =>
      have hcount : (c.buf b).refcnt = c.uses b + c.pins b := hc b
      have hpos := uses_pos (c := c) (u := u) (b := b) (n := n) (by rw [hu]; rfl)
      have hmore : (c.buf b).refcnt - 1 ≠ 0 := by omega
      exact ⟨l, h.mono ⟨rfl, rfl, rfl⟩ (refcnt_zero hmore)⟩

theorem Coherent.step [Fintype U] (h : Coherent c) (hm : BioMove c a t) : Coherent t := by
  obtain ⟨l, hl⟩ := h.order
  exact ⟨hl.step h.count hm, h.keys.step h.count hm, h.count.step hm,
    h.owned.step h.keys h.count hm⟩

omit [DecidableEq U] in
theorem Coherent.binit [Fintype U] (disk : Nat → Block) : Coherent (binit disk : Bcache U) where
  order := by
    have hnodup : ((List.finRange NBUF).reverse ++ []).Nodup := by
      rw [List.append_nil]
      exact List.nodup_reverse.2 (List.nodup_finRange NBUF)
    refine ⟨(List.finRange NBUF).reverse ++ [],
      Dlist.empty_is.foldl_pushFront hnodup, ?_, ?_, fun _ => Nat.zero_le _⟩
    · intro b
      rw [List.append_nil]
      exact List.mem_reverse.2 (List.mem_finRange b)
    · exact List.pairwise_of_forall fun _ _ _ _ => Nat.zero_le _
  keys := ⟨fun _ _ _ hu => (by cases hu), fun _ _ hb => absurd hb zero_ne_one⟩
  count := fun b => by
    change 0 = ∑ _ : U, (if none = some b then 1 else 0) + 0
    simp
  owned := ⟨fun _ _ => ⟨fun hb => (by cases hb), fun hu => by cases hu⟩,
    fun _ _ hu => (by cases hu), fun _ hb => absurd hb zero_ne_one⟩

end

end G9OS.FileSys
