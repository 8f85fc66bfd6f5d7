import G9OS.FileSys.BioCache

/-! # The buffer cache as a store of locked blocks (`bio.c`)

A block is read from its buffer if there is a filled one, and from the disk otherwise. Which buffer
it is, when a buffer is recycled and how `refcnt` moves cannot be seen from outside.
-/

namespace G9OS.FileSys

open Lib Kernel

variable {U : Type}

def Bcache.frame (c : Bcache U) (n : Nat) : Option (Fin NBUF) :=
  (List.finRange NBUF).find? fun b => (c.buf b).dev = ROOTDEV ∧ (c.buf b).blockno = n

/-- What the buffer of a block, if there is one, shows of it. -/
def Bcache.content (c : Bcache U) (n : Nat) : Option (Fin NBUF) → Block
  | some b => if (c.buf b).valid then (c.buf b).data else c.disk n
  | none => c.disk n

def cacheAbs (c : Bcache U) : Store U Nat Block where
  mem := fun n => c.content n (c.frame n)
  disk := c.disk
  lock := fun n => (c.frame n).bind c.lock

/-- A use gets a block with the sleep-lock, and lets it go with it. -/
def cacheLab (c : Bcache U) : BioAct U → Option (StoreAct U Nat Block)
  | .acquiresleep u =>
      match c.use u with
      | .waits _ n => some (.lock u n)
      | _ => none
  | .modify u b d => some (.write u (c.buf b).blockno d)
  | .bwrite u b => some (.flush u (c.buf b).blockno)
  | .brelse u b => some (.unlock u (c.buf b).blockno)
  | .bget _ _ _ | .fill _ | .giveBack _ | .bpin _ _ | .bunpin _ _ => none

section
variable {c t : Bcache U} {a : BioAct U} {u : U} {b : Fin NBUF} {n : Nat}

theorem Keyed.frame_iff (h : Keyed c) :
    c.frame n = some b ↔ (c.buf b).dev = ROOTDEV ∧ (c.buf b).blockno = n := by
  constructor
  · intro hf
    simpa using List.find?_some hf
  · intro hb
    cases hf : c.frame n with
    | none =>
        have hnone := List.find?_eq_none.1 hf b (List.mem_finRange b)
        simp [hb] at hnone
    | some b' =>
        have hb' : (c.buf b').dev = ROOTDEV ∧ (c.buf b').blockno = n := by
          simpa using List.find?_some hf
        rw [h.unique b' b hb'.1 hb.1 (hb'.2.trans hb.2.symm)]

theorem Keyed.frame_none (h : Keyed c) :
    c.frame n = none ↔ ∀ b, ¬ ((c.buf b).dev = ROOTDEV ∧ (c.buf b).blockno = n) := by
  rw [Option.eq_none_iff_forall_not_mem]
  exact forall_congr' fun b => not_congr h.frame_iff

theorem frame_congr (hdev : ∀ b, (t.buf b).dev = (c.buf b).dev)
    (hblk : ∀ b, (t.buf b).blockno = (c.buf b).blockno) (n : Nat) : t.frame n = c.frame n := by
  unfold Bcache.frame
  simp only [hdev, hblk]

theorem cacheAbs_eq (hframe : ∀ n, t.frame n = c.frame n)
    (hbuf : ∀ b, (t.buf b).valid = (c.buf b).valid ∧ (t.buf b).data = (c.buf b).data)
    (hdisk : t.disk = c.disk) (hlock : t.lock = c.lock) : cacheAbs t = cacheAbs c := by
  refine Store.ext (funext fun n => ?_) hdisk (funext fun n => ?_)
  · change t.content n (t.frame n) = c.content n (c.frame n)
    rw [hframe]
    cases c.frame n with
    | none => rw [Bcache.content, Bcache.content, hdisk]
    | some b => rw [Bcache.content, Bcache.content, (hbuf b).1, (hbuf b).2, hdisk]
  · change (t.frame n).bind t.lock = (c.frame n).bind c.lock
    rw [hframe, hlock]

theorem cacheAbs_refcnt {m : Nat} (hbuf : t.buf = (c.setBuf b { c.buf b with refcnt := m }).buf)
    (hdisk : t.disk = c.disk) (hlock : t.lock = c.lock) : cacheAbs t = cacheAbs c := by
  have hsame : ∀ {α : Type} (f : CacheBuf → α), f { c.buf b with refcnt := m } = f (c.buf b) →
      ∀ b', f (t.buf b') = f (c.buf b') := by
    intro α f hf b'
    rw [hbuf]
    exact setBuf_same f hf b'
  exact cacheAbs_eq (frame_congr (hsame CacheBuf.dev rfl) (hsame CacheBuf.blockno rfl))
    (fun b' => ⟨hsame CacheBuf.valid rfl b', hsame CacheBuf.data rfl b'⟩) hdisk hlock

theorem Coherent.content_unused [Fintype U] (h : Coherent c) (hb : (c.buf b).refcnt = 0)
    (hf : c.frame n = some b) : c.content n (some b) = c.disk n := by
  obtain ⟨hfree, hpins⟩ := h.count.free hb
  obtain ⟨hdev, hblk⟩ := h.keys.frame_iff.1 hf
  rw [Bcache.content]
  cases hvalid : (c.buf b).valid with
  | false => rfl
  | true =>
      rcases h.owned.clean b hdev hvalid with hclean | hpin | ⟨u, hu⟩
      · rw [if_pos rfl, hclean, hblk]
      · omega
      · obtain ⟨n, hat⟩ := Use.owns_at (Use.has_owns hu)
        exact absurd hat (hfree u n)

theorem Coherent.lock_unused [Fintype U] (h : Coherent c) (hb : (c.buf b).refcnt = 0) :
    c.lock b = none := by
  rw [Option.eq_none_iff_forall_not_mem]
  intro u hu
  obtain ⟨n, hat⟩ := Use.owns_at ((h.owned.lock b u).1 hu)
  exact (h.count.free hb).1 u n hat

variable [DecidableEq U]

/-- A recycled buffer takes nothing away from the block it held and shows nothing of the new one
yet. -/
theorem Coherent.recycles_abs [Fintype U] (h : Coherent c) (hb : (c.buf b).refcnt = 0)
    (hnew : ∀ b, ¬ ((c.buf b).dev = ROOTDEV ∧ (c.buf b).blockno = n))
    (ht : Keyed ((c.setBuf b
      { c.buf b with dev := ROOTDEV, blockno := n, valid := false, refcnt := 1 }).setUse u
      (.waits b n))) :
    cacheAbs ((c.setBuf b
      { c.buf b with dev := ROOTDEV, blockno := n, valid := false, refcnt := 1 }).setUse u
      (.waits b n)) = cacheAbs c := by
  let x : CacheBuf := { c.buf b with dev := ROOTDEV, blockno := n, valid := false, refcnt := 1 }
  let t := (c.setBuf b x).setUse u (.waits b n)
  have hself : t.buf b = x := setBuf_self x
  have hother : ∀ {b'}, b' ≠ b → t.buf b' = c.buf b' := fun hne => setBuf_of_ne hne x
  have hframe : t.frame n = some b := ht.frame_iff.2 (by rw [hself]; exact ⟨rfl, rfl⟩)
  have hcases : ∀ m, t.content m (t.frame m) = c.content m (c.frame m) ∧
      (t.frame m).bind c.lock = (c.frame m).bind c.lock := by
    intro m
    by_cases hm : m = n
    · subst hm
      rw [hframe, h.keys.frame_none.2 hnew]
      refine ⟨?_, h.lock_unused hb⟩
      rw [Bcache.content, hself]
      rfl
    · cases hf : c.frame m with
      | none =>
          have hnone : t.frame m = none := by
            refine ht.frame_none.2 fun b' hb' => ?_
            by_cases hbb : b' = b
            · rw [hbb, hself] at hb'
              exact hm hb'.2.symm
            · rw [hother hbb] at hb'
              exact h.keys.frame_none.1 hf b' hb'
          rw [hnone]
          exact ⟨rfl, rfl⟩
      | some b' =>
          by_cases hbb : b' = b
          · subst hbb
            have hnone : t.frame m = none := by
              refine ht.frame_none.2 fun b₁ hb₁ => ?_
              by_cases hbb : b₁ = b'
              · rw [hbb, hself] at hb₁
                exact hm hb₁.2.symm
              · rw [hother hbb] at hb₁
                exact hbb (Option.some.inj ((h.keys.frame_iff.2 hb₁).symm.trans hf))
            rw [hnone, h.content_unused hb hf]
            exact ⟨rfl, (h.lock_unused hb).symm⟩
          · have hsome : t.frame m = some b' := by
              rw [ht.frame_iff, hother hbb]
              exact h.keys.frame_iff.1 hf
            rw [hsome]
            refine ⟨?_, rfl⟩
            rw [Bcache.content, Bcache.content, hother hbb]
            rfl
  exact Store.ext (funext fun m => (hcases m).1) rfl (funext fun m => (hcases m).2)

omit [DecidableEq U] in
theorem Coherent.frame_use [Fintype U] (h : Coherent c) (hu : (c.use u).at = some (b, n)) :
    c.frame n = some b := h.keys.frame_iff.2 (h.keys.key u b n hu)

omit [DecidableEq U] in
theorem Keyed.frame_ne (h : Keyed c) (hf : c.frame n = some b) {m : Nat} {b' : Fin NBUF}
    (hm : m ≠ n) (hf' : c.frame m = some b') : b' ≠ b := by
  rintro rfl
  exact hm ((h.frame_iff.1 hf').2.symm.trans (h.frame_iff.1 hf).2)

omit [DecidableEq U] in
theorem Coherent.lock_update [Fintype U] (h : Coherent c) (hf : c.frame n = some b)
    (o : Option U) : (fun m => (c.frame m).bind (Function.update c.lock b o)) =
      Function.update (cacheAbs c).lock n o := by
  funext m
  by_cases hm : m = n
  · rw [hm, hf, Function.update_self]
    exact Function.update_self ..
  · rw [Function.update_of_ne hm]
    change _ = (c.frame m).bind c.lock
    cases hf' : c.frame m with
    | none => rfl
    | some b' => exact Function.update_of_ne (h.keys.frame_ne hf hm hf') _ _

theorem Coherent.acquires_abs [Fintype U] (h : Coherent c) (hu : c.use u = .waits b n)
    (hfree : c.lock b = none) :
    Store.Step (cacheAbs c) (.lock u n)
      (cacheAbs { c.setUse u (.fills b n) with lock := Function.update c.lock b (some u) }) := by
  have hf := h.frame_use (u := u) (b := b) (n := n) (by rw [hu]; rfl)
  have hlock : (cacheAbs c).lock n = none := by
    change (c.frame n).bind c.lock = none
    rw [hf]
    exact hfree
  have heq : cacheAbs { c.setUse u (.fills b n) with lock := Function.update c.lock b (some u) } =
      { cacheAbs c with lock := Function.update (cacheAbs c).lock n (some u) } :=
    Store.ext rfl rfl (h.lock_update hf (some u))
  rw [heq]
  exact .lock hlock

omit [DecidableEq U] in
theorem Coherent.lock_holds [Fintype U] (h : Coherent c) (hu : c.use u = .holds b n) :
    (cacheAbs c).lock (c.buf b).blockno = some u := by
  have hat : (c.use u).at = some (b, n) := by rw [hu]; rfl
  have hf := h.frame_use hat
  rw [(h.keys.key u b n hat).2]
  change (c.frame n).bind c.lock = some u
  rw [hf]
  exact (h.owned.lock b u).2 (by rw [hu]; rfl)

theorem Coherent.releases_abs [Fintype U] (h : Coherent c) (hu : c.use u = .holds b n) :
    Store.Step (cacheAbs c) (.unlock u (c.buf b).blockno)
      (cacheAbs { c.setUse u (.leaves b (c.buf b).blockno) with
        lock := Function.update c.lock b none }) := by
  have hat : (c.use u).at = some (b, n) := by rw [hu]; rfl
  have hf := h.frame_use hat
  rw [← (h.keys.key u b n hat).2] at hf
  have heq : cacheAbs { c.setUse u (.leaves b (c.buf b).blockno) with
        lock := Function.update c.lock b none } =
      { cacheAbs c with lock := Function.update (cacheAbs c).lock (c.buf b).blockno none } :=
    Store.ext rfl rfl (h.lock_update hf none)
  rw [heq]
  exact .unlock (h.lock_holds hu)

omit [DecidableEq U] in
theorem Coherent.modifies_abs [Fintype U] (h : Coherent c) (hu : c.use u = .holds b n)
    (d : Block) :
    Store.Step (cacheAbs c) (.write u (c.buf b).blockno d)
      (cacheAbs (c.setBuf b { c.buf b with data := d })) := by
  have hat : (c.use u).at = some (b, n) := by rw [hu]; rfl
  have hf := h.frame_use hat
  rw [← (h.keys.key u b n hat).2] at hf
  have hvalid := h.owned.valid u b (by rw [hu]; rfl)
  have hframe : ∀ m, (c.setBuf b { c.buf b with data := d }).frame m = c.frame m :=
    frame_congr (setBuf_same CacheBuf.dev (by rfl)) (setBuf_same CacheBuf.blockno (by rfl))
  have heq : cacheAbs (c.setBuf b { c.buf b with data := d }) =
      { cacheAbs c with mem := Function.update (cacheAbs c).mem (c.buf b).blockno d } := by
    refine Store.ext (funext fun m => ?_) rfl (funext fun m => ?_)
    · change (c.setBuf b _).content m ((c.setBuf b _).frame m) =
        Function.update (cacheAbs c).mem (c.buf b).blockno d m
      rw [hframe]
      by_cases hm : m = (c.buf b).blockno
      · rw [hm, Function.update_self, hf, Bcache.content, setBuf_self, if_pos hvalid]
      · rw [Function.update_of_ne hm]
        change _ = c.content m (c.frame m)
        cases hf' : c.frame m with
        | none => rfl
        | some b' =>
            rw [Bcache.content, Bcache.content, setBuf_of_ne (h.keys.frame_ne hf hm hf')]
            rfl
    · change ((c.setBuf b _).frame m).bind c.lock = (c.frame m).bind c.lock
      rw [hframe]
  rw [heq]
  exact .write (h.lock_holds hu)

omit [DecidableEq U] in
theorem Coherent.writes_abs [Fintype U] (h : Coherent c) (hu : c.use u = .holds b n) :
    Store.Step (cacheAbs c) (.flush u (c.buf b).blockno)
      (cacheAbs
        { c with disk := Function.update c.disk (c.buf b).blockno (c.buf b).data }) := by
  have hat : (c.use u).at = some (b, n) := by rw [hu]; rfl
  have hf := h.frame_use hat
  rw [← (h.keys.key u b n hat).2] at hf
  have hvalid := h.owned.valid u b (by rw [hu]; rfl)
  have hmem : (cacheAbs c).mem (c.buf b).blockno = (c.buf b).data := by
    change c.content _ (c.frame _) = _
    rw [hf, Bcache.content, if_pos hvalid]
  have heq : cacheAbs
        { c with disk := Function.update c.disk (c.buf b).blockno (c.buf b).data } =
      { cacheAbs c with
        disk := Function.update (cacheAbs c).disk (c.buf b).blockno
          ((cacheAbs c).mem (c.buf b).blockno) } := by
    refine Store.ext (funext fun m => ?_) ?_ rfl
    · change Bcache.content _ m (c.frame m) = c.content m (c.frame m)
      by_cases hm : m = (c.buf b).blockno
      · rw [hm, hf, Bcache.content, Bcache.content, if_pos hvalid, if_pos hvalid]
      · have hdisk : Function.update c.disk (c.buf b).blockno (c.buf b).data m = c.disk m :=
          Function.update_of_ne hm _ _
        cases c.frame m with
        | none => exact hdisk
        | some b' =>
            rw [Bcache.content, Bcache.content]
            dsimp only
            rw [hdisk]
    · rw [hmem]
      rfl
  rw [heq]
  exact .flush (h.lock_holds hu)

theorem Coherent.reads_abs [Fintype U] (h : Coherent c) (hu : c.use u = .fills b n)
    (hvalid : (c.buf b).valid = false) :
    cacheAbs ((c.setBuf b { c.buf b with
      data := c.disk (c.buf b).blockno, valid := true }).setUse u (.holds b n)) = cacheAbs c := by
  have hat : (c.use u).at = some (b, n) := by rw [hu]; rfl
  have hkey := (h.keys.key u b n hat).2
  have hframe : ∀ m, ((c.setBuf b { c.buf b with
      data := c.disk (c.buf b).blockno, valid := true }).setUse u (.holds b n)).frame m =
      c.frame m :=
    frame_congr (setBuf_same CacheBuf.dev (by rfl)) (setBuf_same CacheBuf.blockno (by rfl))
  refine Store.ext (funext fun m => ?_) rfl (funext fun m => ?_)
  · change (c.setBuf b _).content m (Bcache.frame _ m) = c.content m (c.frame m)
    rw [hframe]
    cases hf : c.frame m with
    | none => rfl
    | some b' =>
        by_cases hbb : b' = b
        · subst hbb
          rw [Bcache.content, Bcache.content, setBuf_self, hvalid, (h.keys.frame_iff.1 hf).2]
          rfl
        · rw [Bcache.content, Bcache.content, setBuf_of_ne hbb]
          rfl
  · change (Bcache.frame _ m).bind c.lock = (c.frame m).bind c.lock
    rw [hframe]

theorem Coherent.follows [Fintype U] (h : Coherent c) (hm : BioMove c a t) :
    Follows Store.Step (cacheAbs c) (cacheLab c a) (cacheAbs t) := by
  have hkeyed := h.keys.step h.count hm
  cases hm with
  | hits => exact cacheAbs_refcnt rfl rfl rfl
  | recycles hu hnew hb hold => exact h.recycles_abs hb hnew hkeyed
  | noBuffers | finds => rfl
  | acquires hu hfree =>
      simp only [cacheLab, hu]
      exact h.acquires_abs hu hfree
  | reads hu hvalid => exact h.reads_abs hu hvalid
  | modifies hu => exact h.modifies_abs hu _
  | writes hu => exact h.writes_abs hu
  | releases hu hclean => exact h.releases_abs hu
  | keeps | frees | pins | unpins => exact cacheAbs_refcnt rfl rfl rfl

def BioStarted (c : Bcache U) : Prop := ∃ disk, c = binit disk

theorem reach_coherent [Fintype U] (h : Reach Bcache.next BioOk BioStarted c) : Coherent c := by
  refine Reach.inv ?_ ?_ h
  · rintro c ⟨disk, rfl⟩
    exact .binit disk
  · intro c a t hc hok hn
    exact hc.step (next_bioMove hc hok hn)

omit [DecidableEq U] in
theorem cacheAbs_binit (disk : Nat → Block) :
    cacheAbs (binit disk : Bcache U) = ⟨disk, disk, fun _ => none⟩ := by
  have hframe : ∀ n, (binit disk : Bcache U).frame n = none := fun n =>
    List.find?_eq_none.2 fun b _ => by simp [binit]
  refine Store.ext (funext fun n => ?_) rfl (funext fun n => ?_)
  · exact congrArg ((binit disk : Bcache U).content n) (hframe n)
  · exact congrArg (Option.bind · (binit disk : Bcache U).lock) (hframe n)

omit [DecidableEq U] in
theorem Coherent.data_holds [Fintype U] (h : Coherent c) (hu : c.use u = .holds b n) :
    (c.buf b).data = (cacheAbs c).mem n := by
  have hf := h.frame_use (u := u) (b := b) (n := n) (by rw [hu]; rfl)
  have hvalid := h.owned.valid u b (by rw [hu]; rfl)
  change _ = c.content n (c.frame n)
  rw [hf, Bcache.content, if_pos hvalid]

/-- The buffer cache is a store of locked blocks: users that keep to `BioOk` see each block as the
last of them that had it locked has left it, whatever is evicted and read again in between. From the
end of `bread` to `brelse` a user has the block of that number, locked, in its buffer. -/
theorem bcache_refines_store [Fintype U] :
    Refines (Bcache.next (U := U)) BioOk BioStarted Store.Step
      (fun x => x.mem = x.disk ∧ ∀ n, x.lock n = none) cacheAbs cacheLab ∧
    ∀ (c : Bcache U) (u : U) (b : Fin NBUF) (n : Nat),
      Reach Bcache.next BioOk BioStarted c → c.use u = .holds b n →
        (c.buf b).blockno = n ∧ (c.buf b).data = (cacheAbs c).mem n ∧
          (cacheAbs c).lock n = some u := by
  refine ⟨⟨?_, ?_⟩, fun c u b n hc hu => ?_⟩
  · rintro c ⟨disk, rfl⟩
    rw [cacheAbs_binit]
    exact ⟨rfl, fun _ => rfl⟩
  · intro c a t hc hok hn
    have hcoh := reach_coherent hc
    exact hcoh.follows (next_bioMove hcoh hok hn)
  · have hcoh := reach_coherent hc
    have hkey := (hcoh.keys.key u b n (by rw [hu]; rfl)).2
    refine ⟨hkey, hcoh.data_holds hu, ?_⟩
    rw [← hkey]
    exact hcoh.lock_holds hu

theorem reach_replay (disk : Nat → Block) (acts : List (BioAct U)) (P : Bcache U → Bool)
    (hok : ∀ a ∈ acts, ∀ c : Bcache U, BioOk c a)
    (h : (replay Bcache.next (binit disk) acts).any P = true) :
    ∃ c, Reach Bcache.next BioOk BioStarted c ∧ P c = true := by
  obtain ⟨c, hc, hP⟩ := (Option.any_eq_true _ _).1 h
  exact ⟨c, replay_reach (.start ⟨disk, rfl⟩) hok hc, hP⟩

/-- A first `bread` of block 5, which is all sevens on the disk. -/
theorem bcache_refines_store_bread : ∃ c : Bcache Unit,
    c.use () = .holds 0 5 ∧ (c.buf 0).data 0 = 7 ∧ (c.buf 0).blockno = 5 ∧
      (c.buf 0).data = (cacheAbs c).mem 5 ∧ (cacheAbs c).lock 5 = some () := by
  obtain ⟨c, hc, hP⟩ := reach_replay (fun n _ => if n = 5 then 7 else 0)
    [.bget () ROOTDEV 5, .acquiresleep (), .fill ()]
    (fun c => c.use () = .holds 0 5 ∧ (c.buf 0).data 0 = 7)
    (by simp [BioOk]) (by decide +kernel)
  obtain ⟨huse, hdata⟩ := of_decide_eq_true hP
  exact ⟨c, huse, hdata, bcache_refines_store.2 c () 0 5 hc huse⟩

/-! ## The two loops of `bget` -/

/-- The links are a cycle through the head and all buffers, each of them once, so that the loops end
however far they are let run. The first finds a block exactly if it is cached, and the second finds,
among the buffers without users, one that was given back first. -/
theorem bget_loops [Fintype U] (h : Reach Bcache.next BioOk BioStarted c) :
    (∃ l : List (Fin NBUF), l.Nodup ∧ (∀ b, b ∈ l) ∧ Linked c.links none l none ∧
      ∀ (p : Fin NBUF → Bool) (k : Nat), NBUF ≤ k →
        search c.links.next p k (c.links.next none) = l.find? p ∧
        search c.links.prev p k (c.links.prev none) = l.reverse.find? p) ∧
    (∀ n b, c.cached ROOTDEV n = some b ↔
      (c.buf b).dev = ROOTDEV ∧ (c.buf b).blockno = n) ∧
    (∀ b, c.unused = some b →
      (c.buf b).refcnt = 0 ∧ ∀ b', (c.buf b').refcnt = 0 → c.freed b ≤ c.freed b') ∧
    (c.unused = none ↔ ∀ b, (c.buf b).refcnt ≠ 0) := by
  have hcoh := reach_coherent h
  obtain ⟨l, hl⟩ := hcoh.order
  refine ⟨⟨l, hl.links.nodup, hl.all, hl.links.linked, fun p k hk => ?_⟩,
    fun n b => ⟨fun hb => ?_, fun hb => ?_⟩, fun b hb => hl.unused_oldest hb,
    hl.unused_none, fun hall => ?_⟩
  · have hlen := (length_le_NBUF hl.links.nodup).trans hk
    exact ⟨hl.links.search_next p hlen, hl.links.search_prev p hlen⟩
  · rw [hl.cached_eq] at hb
    simpa using List.find?_some hb
  · rw [hl.cached_eq]
    cases hf : l.find? fun b => (c.buf b).dev = ROOTDEV ∧ (c.buf b).blockno = n with
    | none =>
        have hnone := List.find?_eq_none.1 hf b (hl.all b)
        simp [hb] at hnone
    | some b' =>
        have hb' : (c.buf b').dev = ROOTDEV ∧ (c.buf b').blockno = n := by
          simpa using List.find?_some hf
        rw [hcoh.keys.unique b' b hb'.1 hb.1 (hb'.2.trans hb.2.symm)]
  · rw [hl.unused_eq, List.find?_eq_none]
    intro b _
    simpa using hall b

theorem reach_bget :
    Reach Bcache.next BioOk BioStarted (bget (binit fun _ _ => 0) () ROOTDEV 5) :=
  .step (l := .bget () ROOTDEV 5) (.start ⟨fun _ _ => 0, rfl⟩) rfl rfl

theorem bget_loops_once :
    let c := bget (binit fun _ _ => 0) () ROOTDEV 5
    (∃ l : List (Fin NBUF), l.Nodup ∧ (∀ b, b ∈ l) ∧ Linked c.links none l none ∧
      ∀ (p : Fin NBUF → Bool) (k : Nat), NBUF ≤ k →
        search c.links.next p k (c.links.next none) = l.find? p ∧
        search c.links.prev p k (c.links.prev none) = l.reverse.find? p) ∧
    (∀ n b, c.cached ROOTDEV n = some b ↔
      (c.buf b).dev = ROOTDEV ∧ (c.buf b).blockno = n) ∧
    (∀ b, c.unused = some b →
      (c.buf b).refcnt = 0 ∧ ∀ b', (c.buf b').refcnt = 0 → c.freed b ≤ c.freed b') ∧
    (c.unused = none ↔ ∀ b, (c.buf b).refcnt ≠ 0) :=
  bget_loops reach_bget

/-! ## When `bget` panics -/

omit [DecidableEq U] in
theorem sum_uses [Fintype U] (c : Bcache U) :
    ∑ b, c.uses b = (Finset.univ.filter fun u => c.use u ≠ .idle).card := by
  unfold Bcache.uses
  rw [Finset.sum_comm, Finset.card_filter]
  refine Finset.sum_congr rfl fun u _ => ?_
  cases c.use u with
  | idle => simp [Use.at]
  | waits b n | fills b n | holds b n | leaves b n => simp [Use.at]

/-- The only panic of the cache that its users can cause is that all buffers are in use: with the
uses and the pins together less than `NBUF`, it has a buffer for everybody. -/
theorem bcache_panics_only_full [Fintype U] (h : Reach Bcache.next BioOk BioStarted c) :
    c.panicked = none ∨ (c.panicked = some .noBuffers ∧ (∀ b, (c.buf b).refcnt ≠ 0) ∧
      NBUF ≤ (Finset.univ.filter fun u => c.use u ≠ .idle).card + ∑ b, c.pins b) := by
  have hi : Coherent c ∧ (c.panicked = none ∨
      (c.panicked = some .noBuffers ∧ ∀ b, (c.buf b).refcnt ≠ 0)) := by
    refine Reach.inv (I := fun c => Coherent c ∧ (c.panicked = none ∨
      (c.panicked = some .noBuffers ∧ ∀ b, (c.buf b).refcnt ≠ 0))) ?_ ?_ h
    · rintro c ⟨disk, rfl⟩
      exact ⟨.binit disk, .inl rfl⟩
    · rintro c a t ⟨hcoh, -⟩ hok hn
      have hnone : c.panicked = none := by
        simp only [Bcache.next, Option.ite_none_right_eq_some] at hn
        exact hn.1
      have hm := next_bioMove hcoh hok hn
      refine ⟨hcoh.step hm, ?_⟩
      cases hm with
      | noBuffers hall => exact .inr ⟨rfl, hall⟩
      | hits | recycles | acquires | finds | reads | modifies | writes | releases | keeps | frees
      | pins | unpins => exact .inl hnone
  obtain ⟨hcoh, hnone | ⟨hpanic, hall⟩⟩ := hi
  · exact .inl hnone
  · refine .inr ⟨hpanic, hall, ?_⟩
    have hsum : ∑ b, (c.buf b).refcnt = ∑ b, c.uses b + ∑ b, c.pins b := by
      rw [← Finset.sum_add_distrib]
      exact Finset.sum_congr rfl fun b _ => hcoh.count b
    have hge : ∑ _ : Fin NBUF, 1 ≤ ∑ b, (c.buf b).refcnt :=
      Finset.sum_le_sum fun b _ => Nat.one_le_iff_ne_zero.2 (hall b)
    rw [hsum, sum_uses, Finset.sum_const, Finset.card_univ, Fintype.card_fin, smul_eq_mul,
      Nat.mul_one] at hge
    exact hge

/-- Thirty-one users ask for a block each, and the last of them finds no buffer. -/
theorem bcache_panics_only_full_thirtyOne : ∃ c : Bcache (Fin 31),
    c.panicked = some .noBuffers ∧ ∀ b, (c.buf b).refcnt ≠ 0 := by
  obtain ⟨c, hc, hP⟩ := reach_replay (fun _ _ => 0)
    ((List.finRange 31).map fun u : Fin 31 => .bget u ROOTDEV u)
    (fun c => c.panicked = some .noBuffers)
    (by simp [BioOk]) (by decide +kernel)
  have hpanic : c.panicked = some .noBuffers := of_decide_eq_true hP
  rcases bcache_panics_only_full hc with hnone | ⟨-, hall, -⟩
  · cases hnone.symm.trans hpanic
  · exact ⟨c, hpanic, hall⟩

end

end G9OS.FileSys
