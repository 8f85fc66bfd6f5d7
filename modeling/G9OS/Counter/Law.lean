import G9OS.Counter.Holding
import G9OS.Counter.Layout

/-! # The counter counts every turn

Between two steps the counter and the turns that are still to be counted add up to all
turns of all workers so far. What a worker has loaded is what the counter still holds
when it stores, because no other worker is between its `mutex_lock` and its
`mutex_unlock`, and because nobody else writes to the page.
-/

namespace G9OS.Counter

open Lib Kernel Mutex

/-- How many turns of the process are not in the counter yet. -/
def Role.owed (iterations : Nat) : Role → Nat
  | .fresh => iterations
  | .looping _ n .unlock | .looping _ n .unlocking => n - 1
  | .looping _ n _ => n
  | _ => 0

@[simp] theorem Role.owed_other (iterations : Nat) : Role.other.owed iterations = 0 := rfl

@[simp] theorem Role.owed_fresh (iterations : Nat) : Role.fresh.owed iterations = iterations := rfl

def Role.Turns : Role → Prop
  | .looping _ n place => place = .call ∨ 0 < n
  | _ => True

structure Steady (iterations : Nat) (ρ ρ' : Role) : Prop where
  owed : ρ'.owed iterations = ρ.owed iterations
  turns : ρ.Turns → ρ'.Turns
  loaded : ∀ reg, ρ'.place = some (.store reg) → ρ.place = some (.store reg)

theorem Steady.refl (iterations : Nat) (ρ : Role) : Steady iterations ρ ρ := ⟨rfl, id, fun _ => id⟩

/-- The mutex is in order, and so is the count in page `q`. -/
structure Tally (d : Demo) (q : PA) (x : World) : Prop where
  holding : Holding d.mutex x.sys.pid x.sys.mutex fun p => (x.role p).place
  turns : ∀ p, (x.role p).Turns
  loaded : ∀ p reg, (x.role p).place = some (.store reg) → reg = x.mem q
  count : x.mem q + UInt32.ofNat (∑ p, (x.role p).owed d.iterations) =
    UInt32.ofNat (x.made * d.iterations)

structure Inv [Link] (d : Demo) (r : Fin SHM_SLOTS) (q : PA) (x : World) : Prop where
  layout : Layout d r q x.kernel x.role
  tally : Tally d q x

section
variable {d : Demo} {q : PA} {x z : World} {p : Fin NPROC} {ρ : Role}

theorem Tally.steady (h : Tally d q x)
    (hh : Holding d.mutex z.sys.pid z.sys.mutex fun p => (z.role p).place)
    (hmem : z.mem q = x.mem q) (hmade : z.made = x.made)
    (hs : ∀ p, Steady d.iterations (x.role p) (z.role p)) : Tally d q z where
  holding := hh
  turns p := (hs p).turns (h.turns p)
  loaded p reg hp := by
    rw [hmem]
    exact h.loaded p reg ((hs p).loaded reg hp)
  count := by
    rw [hmem, hmade, Finset.sum_congr rfl fun p _ => (hs p).owed]
    exact h.count

theorem place_update (role : Fin NPROC → Role) (p : Fin NPROC) (ρ : Role) :
    (fun p' => (Function.update role p ρ p').place) =
      Function.update (fun p' => (role p').place) p ρ.place := by
  funext p'
  by_cases hp : p' = p
  · rw [hp, Function.update_self, Function.update_self]
  · rw [Function.update_of_ne hp, Function.update_of_ne hp]

theorem Holding.refit {i : Fin MAX_MUTEXES} {pid : Fin NPROC → Int} {m : MState (Fin NPROC)}
    {place : Fin NPROC → Option Place} {o : Option Place} (h : Holding i pid m place)
    (hp : Fits i (place p) (m.pc p) (m.held p i) → Fits i o (m.pc p) (m.held p i)) :
    Holding i pid m (Function.update place p o) := by
  refine ⟨h.valid, h.phase, fun p' => ?_⟩
  by_cases hpp : p' = p
  · rw [hpp, Function.update_self]
    exact hp (h.fits p)
  · rw [Function.update_of_ne hpp]
    exact h.fits p'

theorem add_eq_add_of_swap {a a' b b' c c' : UInt32} (hb : b' + c = b + c') (ha : a' + c' = a + c) :
    a' + b' = a + b := by
  have h : a' + b' + c = a + b + c :=
    calc a' + b' + c = a' + c' + b := by rw [UInt32.add_assoc, hb]; ac_rfl
      _ = a + b + c := by rw [ha]; ac_rfl
  exact (UInt32.add_left_inj c).1 h

/-! ## The worker's instructions -/

/-- An instruction of worker `p` that leaves memory as `m`. What it adds to the counter, it
takes from what it owes. -/
theorem Tally.advance {m : Mem} (h : Tally d q x) (hturns : ρ.Turns)
    (hfits : Fits d.mutex (x.role p).place (x.sys.mutex.pc p) (x.sys.mutex.held p d.mutex) →
      Fits d.mutex ρ.place (x.sys.mutex.pc p) (x.sys.mutex.held p d.mutex))
    (hself : ∀ reg, ρ.place = some (.store reg) → reg = m q)
    (hothers : ∀ p' reg, p' ≠ p → (x.role p').place = some (.store reg) → m q = x.mem q)
    (hcount : m q + UInt32.ofNat (ρ.owed d.iterations) =
      x.mem q + UInt32.ofNat ((x.role p).owed d.iterations)) :
    Tally d q ({ x with mem := m }.become p ρ) := by
  refine ⟨?_, fun p' => ?_, fun p' reg hp' => ?_, ?_⟩
  · rw [World.become, place_update]
    exact h.holding.refit hfits
  · by_cases hpp : p' = p
    · rw [hpp, World.become_self]
      exact hturns
    · rw [World.become_of_ne _ _ hpp]
      exact h.turns p'
  · by_cases hpp : p' = p
    · rw [hpp, World.become_self] at hp'
      exact hself reg hp'
    · rw [World.become_of_ne _ _ hpp] at hp'
      exact (h.loaded p' reg hp').trans (hothers p' reg hpp hp').symm
  · have hsum := congrArg UInt32.ofNat (sum_update_weight x.role p ρ (Role.owed d.iterations))
    rw [UInt32.ofNat_add, UInt32.ofNat_add] at hsum
    exact (add_eq_add_of_swap hsum hcount).trans h.count

theorem Tally.locked {a n : Nat} (h : Tally d q x) (hr : x.role p = .looping a n .locking)
    (hret : x.Returned p) : Tally d q (x.become p (.looping a n .load)) := by
  have ht := h.turns p
  rw [hr] at ht
  refine h.advance (.inr (ht.resolve_left nofun)) (fun hf => ?_) nofun (fun _ _ _ _ => rfl) ?_
  · rw [hr] at hf
    exact hf.locked_load hret.2.1
  · rw [hr]
    rfl

theorem Tally.load {a n : Nat} (h : Tally d q x) (hr : x.role p = .looping a n .load) :
    Tally d q (x.become p (.looping a n (.store (x.mem q)))) := by
  have ht := h.turns p
  rw [hr] at ht
  refine h.advance (.inr (ht.resolve_left nofun)) (fun hf => ?_) (fun reg hreg => ?_)
    (fun _ _ _ _ => rfl) ?_
  · rw [hr] at hf
    exact hf.load_store _
  · cases hreg
    rfl
  · rw [hr]
    rfl

/-- The store counts the turn: the counter is still what the worker has loaded, and nobody else
has loaded it. -/
theorem Tally.store {a n : Nat} {reg : UInt32} (h : Tally d q x)
    (hr : x.role p = .looping a n (.store reg)) :
    Tally d q ({ x with mem := Function.update x.mem q (reg + 1) }.become p
      (.looping a n .unlock)) := by
  have ht := h.turns p
  have hplace : (x.role p).place = some (.store reg) := by
    rw [hr]
    rfl
  have hreg := h.loaded p reg hplace
  rw [hr] at ht
  have hn : 0 < n := ht.resolve_left nofun
  refine h.advance (.inr hn) (fun hf => ?_) nofun (fun p' reg' hpp hp' => ?_) ?_
  · rw [hr] at hf
    exact hf.store_unlock
  · exact absurd (h.holding.only hp' trivial hplace trivial) hpp
  · obtain ⟨k, rfl⟩ : ∃ k, n = k + 1 := ⟨n - 1, by omega⟩
    rw [hr, Function.update_self, hreg]
    change x.mem q + 1 + UInt32.ofNat k = x.mem q + UInt32.ofNat (k + 1)
    rw [UInt32.ofNat_add, UInt32.add_assoc, UInt32.add_comm 1]
    rfl

theorem Tally.unlocked {a n : Nat} (h : Tally d q x)
    (hr : x.role p = .looping a (n + 1) .unlocking) (hret : x.Returned p) :
    Tally d q (x.become p (.looping a n .call)) := by
  refine h.advance (.inl rfl) (fun hf => ?_) nofun (fun _ _ _ _ => rfl) ?_
  · rw [hr] at hf
    exact hf.unlocked_call hret.2.1
  · rw [hr]
    rfl

theorem Tally.fork (h : Tally d q x) (hp : x.role p = .other) :
    Tally d q { x.become p .fresh with made := x.made + 1 } := by
  refine ⟨?_, fun p' => ?_, fun p' reg hp' => ?_, ?_⟩
  · change Holding _ _ _ fun p' => (Function.update x.role p .fresh p').place
    rw [place_update]
    refine h.holding.refit fun hf => ?_
    rw [hp] at hf
    exact hf
  · by_cases hpp : p' = p
    · rw [hpp]
      change ((x.become p .fresh).role p).Turns
      rw [World.become_self]
      trivial
    · change ((x.become p .fresh).role p').Turns
      rw [World.become_of_ne _ _ hpp]
      exact h.turns p'
  · change ((x.become p .fresh).role p').place = _ at hp'
    by_cases hpp : p' = p
    · rw [hpp, World.become_self] at hp'
      cases hp'
    · rw [World.become_of_ne _ _ hpp] at hp'
      exact h.loaded p' reg hp'
  · have hsum := sum_update_weight x.role p .fresh (Role.owed d.iterations)
    rw [hp, Role.owed_other, Role.owed_fresh, Nat.add_zero] at hsum
    change x.mem q + UInt32.ofNat (∑ p', (Function.update x.role p .fresh p').owed d.iterations) =
      UInt32.ofNat ((x.made + 1) * d.iterations)
    rw [hsum, UInt32.ofNat_add, ← UInt32.add_assoc, h.count, Nat.succ_mul, UInt32.ofNat_add]

/-! ## Roles of processes that have left -/

theorem place_reset {c : Prop} [Decidable c] (h : c → ρ = .other ∨ ρ = .finished) :
    (if c then .other else ρ : Role).place = ρ.place := by
  split
  · rename_i hc
    rcases h hc with rfl | rfl <;> rfl
  · rfl

theorem Steady.reset {iterations : Nat} {c : Prop} [Decidable c]
    (h : c → ρ = .other ∨ ρ = .finished) : Steady iterations ρ (if c then .other else ρ) := by
  split
  · rename_i hc
    rcases h hc with rfl | rfl <;> exact ⟨rfl, id, nofun⟩
  · exact Steady.refl _ _

theorem Steady.update {iterations : Nat} {role role' : Fin NPROC → Role}
    (h : ∀ p', Steady iterations (role p') (role' p')) (hp : Steady iterations (role p) ρ)
    (p' : Fin NPROC) : Steady iterations (role p') (Function.update role' p ρ p') := by
  by_cases hpp : p' = p
  · rw [hpp, Function.update_self]
    exact hp
  · rw [Function.update_of_ne hpp]
    exact h p'

end

section
variable [Link] {d : Demo} {r : Fin SHM_SLOTS} {q : PA} {s t : State} {op : Op} {x : World}
  {y : Sys} {f : Mem → Mem} {p : Fin NPROC} {ρ : Role} {role : Fin NPROC → Role} {a n : Nat}
  {place : Place}

theorem Layout.gone (h : Layout d r q s role) (he : Effect s op t) (p : Fin NPROC)
    (hu : (t.proc p).state = .unused) : role p = .other ∨ role p = .finished := by
  by_cases hp : p = d.parent
  · rw [hp]
    exact .inl h.boss
  · exact (h.attached p hp).gone (he.slots h.sound.tidy p) hu

omit [Link] in
theorem Attached.goes {x : Proc} (h : Attached d x (.looping a n place)) (n' : Nat)
    (place' : Place) : Attached d x (.looping a n' place') := by
  cases h with
  | looping j hl hj hk => exact .looping j hl hj hk

theorem Layout.become (h : Layout d r q s role) (hp : role p = .looping a n place) (n' : Nat)
    (place' : Place) : Layout d r q s (Function.update role p (.looping a n' place')) := by
  have hne : p ≠ d.parent := h.ne_parent (by rw [hp]; exact nofun)
  refine { h with boss := ?_, attached := fun p' hp' => ?_ }
  · rw [Function.update_of_ne hne.symm]
    exact h.boss
  · by_cases hpp : p' = p
    · subst hpp
      rw [Function.update_self]
      exact (h.worker hp nofun).goes n' place'
    · rw [Function.update_of_ne hpp]
      exact h.attached p' hp'

theorem Layout.holding (h : Layout d r q s role) (he : Effect s op t) {i : Fin MAX_MUTEXES}
    {m : MState (Fin NPROC)} {places : Fin NPROC → Option Place}
    (hplaces : ∀ p, places p ≠ none → (role p).place ≠ none)
    (hexit : ∀ p status, op = .exit p status → (role p).place = none)
    (hh : Holding i (fun p => (s.proc p).pid) m places) :
    Holding i (fun p => (t.proc p).pid) m places := by
  refine hh.pids fun p hp => ?_
  have hplace := hplaces p hp
  have hlive : (s.proc p).Live := by
    generalize hr : role p = ρ at hplace
    cases ρ with
    | looping a n place => exact (h.worker hr nofun).live_of_place rfl
    | _ => exact absurd rfl hplace
  exact ((he.slots h.sound.tidy p).live (fun ⟨status, hop⟩ => hplace (hexit p status hop)) hlive).2

/-! ## Steps of the kernel -/

theorem Sys.next_kernel {x y : Sys} (h : x.next (.kernel op) = some y) :
    (∀ p, caller op = some p → x.mutex.pc p = .idle) ∧ next x.kernel op = some y.kernel ∧
      y.mutex = x.mutex := by
  cases Sys.next_step h with
  | kernel hidle hn => exact ⟨hidle, hn, rfl⟩

theorem Inv.after (h : Inv d r q x) (he : Effect x.kernel op y.kernel)
    (hm : y.mutex = x.sys.mutex) (hexit : ∀ p status, op = .exit p status → (x.role p).place = none)
    (hmem : f x.mem q = x.mem q) : Tally d q (x.after y f) := by
  have hgone := h.layout.gone he
  refine h.tally.steady ?_ hmem rfl fun p => Steady.reset (hgone p)
  change Holding d.mutex y.pid y.mutex fun p =>
    (if (y.kernel.proc p).state = .unused then .other else x.role p : Role).place
  rw [hm, funext fun p => place_reset (hgone p)]
  exact h.layout.holding he (fun _ => id) hexit h.tally.holding

theorem Inv.calls (h : Inv d r q x) (hy : x.sys.next (.kernel op) = some y)
    (hc : Careful x.kernel op) (hothers : ∀ p', p' ≠ p → ¬ Concerns p' op)
    (hexit : ∀ status, op = .exit p status → (x.role p).place = none) (hcopy : copiesTo op = none)
    (hleave : x.Leaves op f) (hp : p ≠ d.parent) (hatt : Attached d (y.kernel.proc p) ρ)
    (hrole : (y.kernel.proc p).state ≠ .unused) (hturns : ρ.Turns)
    (hfits : Fits d.mutex (x.role p).place (x.sys.mutex.pc p) (x.sys.mutex.held p d.mutex) →
      Fits d.mutex ρ.place (x.sys.mutex.pc p) (x.sys.mutex.held p d.mutex))
    (hstore : ∀ reg, ρ.place ≠ some (.store reg))
    (howed : ρ.owed d.iterations = (x.role p).owed d.iterations) :
    Inv d r q ((x.after y f).become p ρ) := by
  obtain ⟨-, hn, hm⟩ := Sys.next_kernel hy
  have he := next_effect h.layout.sound.tidy hn
  have hl := h.layout.inside (h.layout.sound.step hc hn) he hothers hp hatt
  have hmem : f x.mem q = x.mem q :=
    h.layout.preserved hl.toRegion (fun p' hp' => by rw [hcopy] at hp'; cases hp') (hleave y hy)
  have htally : Tally d q (x.after y f) := by
    refine h.after he hm (fun p' status hop => ?_) hmem
    by_cases hpp : p' = p
    · subst hpp
      exact hexit status hop
    · exact absurd (hop ▸ .exit status) (hothers p' hpp)
  have hafter : (x.after y f).role p = x.role p := if_neg hrole
  refine ⟨hl, htally.advance hturns (fun hf => ?_) (fun reg hreg => absurd hreg (hstore reg))
    (fun _ _ _ _ => rfl) ?_⟩
  · rw [hafter] at hf
    change Fits d.mutex _ (y.mutex.pc p) (y.mutex.held p d.mutex) at hf ⊢
    rw [hm] at hf ⊢
    exact hfits hf
  · rw [hafter, howed]
    rfl

theorem Inv.attach {ret : Nat} (h : Inv d r q x) (hr : x.role p = .fresh)
    (hs : shmOpen x.kernel p d.key counterSize = .ok (ret, s)) (hret : ret ≠ MINUS1)
    (hy : x.sys.next (.kernel (.shmOpen p d.key counterSize)) = some y)
    (hleave : x.Leaves (.shmOpen p d.key counterSize) f) :
    Inv d r q ((x.after y f).become p (.looping ret d.iterations .call)) := by
  obtain ⟨hidle, hn, -⟩ := Sys.next_kernel hy
  have hsound := h.layout.sound
  have he := next_effect hsound.tidy hn
  obtain ⟨⟨ret', t⟩, hs', ht⟩ := map_ok.1 (next_some hn).2
  obtain ⟨rfl, rfl⟩ : ret' = ret ∧ t = s := by
    rw [show shmOpen x.sys.kernel p d.key counterSize = .ok (ret, s) from hs] at hs'
    cases hs'
    exact ⟨rfl, rfl⟩
  have hatt := h.layout.worker hr nofun
  have hlive : (x.kernel.proc p).Live := by
    cases hatt with
    | fresh hl => exact hl
  refine h.calls hy ⟨trivial, fun _ _ _ hop => ?_⟩ (fun p' hp' hc => ?_) nofun rfl hleave
    (h.layout.ne_parent (by rw [hr]; exact nofun))
    (hatt.opened hsound.tidy he (ht ▸ hs) hret)
    ((he.slots hsound.tidy p).not_unused hlive) (.inl rfl) (fun hf => ?_) nofun ?_
  · cases hop
    exact (by decide : counterSize + PGSIZE - 1 < 2 ^ 31)
  · cases hc
    exact hp' rfl
  · rw [hr] at hf
    exact hf.idle_call (hidle p rfl)
  · rw [hr]
    rfl

theorem Inv.close (h : Inv d r q x) (hr : x.role p = .looping a 0 .call)
    (hy : x.sys.next (.kernel (.shmClose p d.key)) = some y)
    (hleave : x.Leaves (.shmClose p d.key) f) : Inv d r q ((x.after y f).become p .closed) := by
  obtain ⟨-, hn, -⟩ := Sys.next_kernel hy
  have hsound := h.layout.sound
  have he := next_effect hsound.tidy hn
  have hatt := h.layout.worker hr nofun
  refine h.calls hy ⟨trivial, nofun⟩ (fun p' hp' hc => ?_) nofun rfl hleave
    (h.layout.ne_parent (by rw [hr]; exact nofun)) (Attached.closes hsound hatt hn)
    ((he.slots hsound.tidy p).not_unused (hatt.live_of_place rfl)) trivial (fun hf => ?_) nofun ?_
  · cases hc
    exact hp' rfl
  · rw [hr] at hf
    exact hf.call_idle
  · rw [hr]
    rfl

theorem Inv.exit (h : Inv d r q x) (hr : x.role p = .closed)
    (hy : x.sys.next (.kernel (.exit p 0)) = some y) (hleave : x.Leaves (.exit p 0) f) :
    Inv d r q ((x.after y f).become p .finished) := by
  obtain ⟨-, hn, -⟩ := Sys.next_kernel hy
  have hsound := h.layout.sound
  have he := next_effect hsound.tidy hn
  have hatt := (h.layout.worker hr nofun).exits hsound.tidy he (next_some hn).2
  have hz : (y.kernel.proc p).state = .zombie := by
    cases hatt with
    | finished hz => exact hz
  refine h.calls hy ⟨trivial, nofun⟩ (fun p' hp' hc => ?_) (fun _ _ => by rw [hr]; rfl) rfl hleave
    (h.layout.ne_parent (by rw [hr]; exact nofun)) hatt (by rw [hz]; exact nofun) trivial
    (fun hf => ?_) nofun ?_
  · cases hc
    exact hp' rfl
  · rw [hr] at hf
    exact hf
  · rw [hr]
    rfl

/-! ## Steps outside of the program -/

theorem MayDo.careful (h : Layout d r q x.kernel x.role) (hm : MayDo d x op) :
    Careful x.kernel op := by
  cases hm with
  | nobody hc =>
      cases op with
      | yield | dispatch | wakeup | clock => exact ⟨trivial, nofun⟩
      | _ => cases hc
  | fault => exact ⟨trivial, nofun⟩
  | waits hw =>
      refine ⟨fun c _ _ _ hz _ _ => ?_, nofun⟩
      by_cases hc : x.role c = .other
      · exact hw c hz hc
      · -- a worker that has exited has closed the region before
        have hzombie := zombieChild_zombie hz
        have hatt := h.attached c (h.ne_parent hc)
        generalize x.role c = ρ at hatt hc
        cases hatt with
        | other => exact absurd rfl hc
        | finished _ hd => exact h.sound.unshared_of_detached hd _
        | fresh hl | looping _ hl | closed hl => exact absurd hzombie hl.2
  | other _ _ _ hc => exact hc

theorem MayDo.outside (hm : MayDo d x op) : ¬ Concerns d.parent op ∧
    ∀ p, x.role p = .other ∧ (∀ size, op ≠ .shmOpen p d.key size) ∨ ¬ Concerns p op := by
  cases hm with
  | nobody hc =>
      have hno : ∀ p, ¬ Concerns p op := by
        intro p hp
        cases hp <;> cases hc
      exact ⟨hno _, fun p => .inr (hno p)⟩
  | fault => exact ⟨nofun, fun _ => .inr nofun⟩
  | waits => exact ⟨nofun, fun _ => .inr nofun⟩
  | @other _ p hc hp hr _ hkey =>
      have hcaller : ∀ p', Concerns p' op → p' = p := by
        intro p' hp'
        cases hp' <;> exact Option.some.inj hc
      refine ⟨fun hd => hp (hcaller _ hd).symm, fun p' => ?_⟩
      by_cases hpp : p' = p
      · rw [hpp]
        exact .inl ⟨hr, hkey⟩
      · exact .inr fun hc' => hpp (hcaller p' hc')

theorem MayDo.copies (hm : MayDo d x op) (hc : copiesTo op = some p) :
    p ≠ d.parent ∧ x.role p = .other ∧ ∀ size, op ≠ .shmOpen p d.key size := by
  cases hm with
  | nobody hno =>
      cases op with
      | yield | dispatch | wakeup | clock => cases hc
      | _ => cases hno
  | fault => cases hc
  | waits =>
      simp only [copiesTo] at hc
      cases hc
  | @other _ p' hcall hp hr _ _ =>
      cases op with
      | wait w addr =>
          cases hcall
          simp only [copiesTo] at hc
          split at hc <;> cases hc
          exact ⟨hp, hr, nofun⟩
      | waitStat =>
          cases hcall
          cases hc
          exact ⟨hp, hr, nofun⟩
      | _ => cases hc

theorem Inv.kernel (h : Inv d r q x) (hm : MayDo d x op) (hleave : x.Leaves op f)
    (hy : x.sys.next (.kernel op) = some y) : Inv d r q (x.after y f) := by
  obtain ⟨-, hn, hmx⟩ := Sys.next_kernel hy
  have hsound := h.layout.sound
  have he := next_effect hsound.tidy hn
  obtain ⟨hboss, hout⟩ := hm.outside
  have hl := h.layout.outside (hsound.step (hm.careful h.layout) hn) he hboss hout
  have hmem : f x.mem q = x.mem q := by
    refine h.layout.preserved hl.toRegion (fun p hp j => ?_) (hleave y hy)
    obtain ⟨hne, hr, hop⟩ := hm.copies hp
    have hatt := h.layout.attached p hne
    rw [hr] at hatt
    cases hatt with
    | other hk => exact ⟨hk j, foreign_step hsound.tidy he hop hk j⟩
  refine ⟨hl, h.after he hmx (fun p status hop => ?_) hmem⟩
  rcases hout p with ⟨hr, -⟩ | hno
  · rw [hr]
    rfl
  · exact absurd (hop ▸ .exit status) hno

theorem Inv.fork (h : Inv d r q x)
    (hfresh : ∀ w, unusedSlot x.kernel = some w → Detached (x.kernel.proc w))
    (hleave : x.Leaves (.fork d.parent) f) (hy : x.sys.next (.kernel (.fork d.parent)) = some y) :
    Inv d r q (x.forked y f) := by
  obtain ⟨-, hn, hmx⟩ := Sys.next_kernel hy
  have hsound := h.layout.sound
  have he := next_effect hsound.tidy hn
  have hc : Careful x.kernel (.fork d.parent) := ⟨trivial, nofun⟩
  have hsound' : Sound y.kernel := hsound.step hc hn
  have hl := h.layout.outside hsound' he nofun fun _ => .inr nofun
  have hmem : f x.mem q = x.mem q :=
    h.layout.preserved hl.toRegion (fun _ hp => by cases hp) (hleave y hy)
  have hinv : Inv d r q (x.after y f) := ⟨hl, h.after he hmx nofun hmem⟩
  unfold World.forked
  split
  · exact hinv
  · rename_i w hw
    split
    · rename_i hrun
      have hunused := unusedSlot_unused hw
      have hwp : w ≠ d.parent := by
        rintro rfl
        have hrunning : (x.kernel.proc d.parent).state = .running := (next_some hn).1.1.1
        cases hunused.symm.trans hrunning
      have hlive : (y.kernel.proc w).Live := ⟨by rw [hrun]; exact nofun, by rw [hrun]; exact nofun⟩
      have hdet : Detached (y.kernel.proc w) := fun j => by
        rw [shm_of_not_concerns hsound.tidy he nofun]
        exact hfresh w hw j
      have hother : (x.after y f).role w = .other := by
        have hatt := h.layout.attached w hwp
        change (if (y.kernel.proc w).state = .unused then .other else x.role w : Role) = _
        rw [if_neg hlive.1]
        generalize x.role w = ρ at hatt
        cases hatt with
        | other => rfl
        | fresh hl | looping _ hl | closed hl => exact absurd hunused hl.1
        | finished hz => cases hunused.symm.trans hz
      exact ⟨h.layout.inside hsound' he (fun _ _ => nofun) hwp (.fresh hlive hdet),
        hinv.tally.fork hother⟩
    · exact hinv

/-! ## Accesses of the mutex calls -/

theorem Sys.next_mutex {x y : Sys} {a : Act (Fin NPROC)} (hs : Sound x.kernel)
    (h : x.next (.mutex a) = some y) : Mutex.next x.pid x.mutex a = some y.mutex ∧
      Sound y.kernel ∧ ∃ op, Effect x.kernel op y.kernel ∧ ∀ p, ¬ Concerns p op := by
  cases Sys.next_step h with
  | access _ _ hm => exact ⟨hm, hs, .clock none, Effect.unchanged _ _, fun _ => nofun⟩
  | spin _ _ hm hk =>
      have hc : Careful x.kernel (.yield a.actor) := ⟨trivial, nofun⟩
      exact ⟨hm, hs.step hc hk, _, next_effect hs.tidy hk, fun _ => nofun⟩

theorem Inv.mutex {b : Act (Fin NPROC)} (h : Inv d r q x) (hm : MayUse d x b)
    (hmem : f x.mem = x.mem) (hy : x.sys.next (.mutex b) = some y) : Inv d r q (x.after y f) := by
  obtain ⟨hb, hsound, op, he, hno⟩ := Sys.next_mutex h.layout.sound hy
  have hgone := h.layout.gone he
  have hh : Holding d.mutex x.sys.pid y.mutex fun p => (x.role p).place := by
    cases b with
    | step p => exact h.tally.holding.access hb
    | init p =>
        refine h.tally.holding.foreign (by rw [Act.actor, hm]; rfl) ?_ hb
        rintro _ _ (hc | hc) <;> cases hc
    | lock p id =>
        refine h.tally.holding.foreign (by rw [Act.actor, hm.1]; rfl) ?_ hb
        rintro _ _ (hc | hc) <;> cases hc
        exact hm.2
    | unlock p id =>
        refine h.tally.holding.foreign (by rw [Act.actor, hm.1]; rfl) ?_ hb
        rintro _ _ (hc | hc) <;> cases hc
        exact hm.2
  refine ⟨h.layout.outside hsound he (hno _) fun p => .inr (hno p),
    h.tally.steady ?_ (congrFun hmem q) rfl fun p => Steady.reset (hgone p)⟩
  change Holding d.mutex y.pid y.mutex fun p =>
    (if (y.kernel.proc p).state = .unused then .other else x.role p : Role).place
  rw [funext fun p => place_reset (hgone p)]
  exact h.layout.holding he (fun _ => id)
    (fun p status hop => absurd (hop ▸ .exit status) (hno p)) hh

theorem Inv.enters {b : Act (Fin NPROC)} {place' : Place} (h : Inv d r q x)
    (hr : x.role p = .looping a n place) (hy : x.sys.next (.mutex b) = some y)
    (hs : Steady d.iterations (.looping a n place) (.looping a n place'))
    (hh : Mutex.next x.sys.pid x.sys.mutex b = some y.mutex →
      Holding d.mutex x.sys.pid y.mutex
        (Function.update (fun p => (x.role p).place) p (some place'))) :
    Inv d r q ((x.after y id).become p (.looping a n place')) := by
  obtain ⟨hb, hsound, op, he, hno⟩ := Sys.next_mutex h.layout.sound hy
  have hgone := h.layout.gone he
  have hatt := h.layout.worker hr nofun
  have hlive := (he.slots h.layout.sound.tidy p).not_unused (hatt.live_of_place rfl)
  have hatt' := hatt.step h.layout.sound.tidy he (.inr (hno p))
  rw [if_neg hlive] at hatt'
  have hne : p ≠ d.parent := h.layout.ne_parent (by rw [hr]; exact nofun)
  refine ⟨h.layout.inside hsound he (fun p' _ => hno p') hne (hatt'.goes n place'),
    h.tally.steady ?_ rfl rfl (Steady.update (fun p => Steady.reset (hgone p)) (by rw [hr]; exact hs))⟩
  change Holding d.mutex y.pid y.mutex fun p' => (Function.update (fun p =>
    (if (y.kernel.proc p).state = .unused then .other else x.role p : Role)) p
      (.looping a n place') p').place
  rw [place_update, funext fun p => place_reset (hgone p)]
  refine h.layout.holding he (fun p' hp' => ?_)
    (fun p status hop => absurd (hop ▸ .exit status) (hno p)) (hh hb)
  by_cases hpp : p' = p
  · rw [hpp, hr]
    exact nofun
  · rwa [Function.update_of_ne hpp] at hp'

/-! ## Runs -/

theorem Inv.write {va : Nat} {word : UInt32} {pa : PA} (h : Inv d r q x)
    (hva : ∀ j, ((x.kernel.proc p).shm j).key = d.key →
      va / PGSIZE ≠ ((x.kernel.proc p).shm j).uva / PGSIZE)
    (hpa : x.page p va = some pa) : Inv d r q { x with mem := Function.update x.mem pa word } := by
  have hne := h.layout.page_ne hva hpa
  exact ⟨h.layout, h.tally.steady h.tally.holding (Function.update_of_ne hne.symm ..) rfl
    fun _ => Steady.refl _ _⟩

theorem Inv.page_eq {pa : PA} (h : Inv d r q x) (hr : x.role p = .looping a n place)
    (hpa : x.page p a = some pa) : pa = q := by
  cases h.layout.worker hr nofun with
  | looping j _ hj _ => exact h.layout.page_eq hj hpa

theorem Inv.step {l : Label} {z : World} (h : Inv d r q x) (hok : Allowed d x l)
    (hn : x.next d l = some z) : Inv d r q z := by
  cases World.next_step hn with
  | @sys e f y hy =>
      cases e with
      | kernel op => exact h.kernel hok.1 hok.2 hy
      | mutex b => exact h.mutex hok.1 hok.2 hy
  | write hpa => exact h.write hok hpa
  | fork hy => exact h.fork hok.1 hok.2 hy
  | attach hr hs hret hy => exact h.attach hr hs hret hy hok
  | lock hr hy =>
      refine h.enters hr hy ⟨rfl, fun _ => .inr (Nat.succ_pos _), nofun⟩ fun hb => ?_
      exact h.tally.holding.lock (by rw [hr]; rfl) (fun _ hp => Function.update_of_ne hp ..)
        (Function.update_self ..) hb
  | locked hr hret => exact ⟨h.layout.become hr _ _, h.tally.locked hr hret⟩
  | load hr hpa =>
      rw [h.page_eq hr hpa]
      exact ⟨h.layout.become hr _ _, h.tally.load hr⟩
  | store hr hpa =>
      rw [h.page_eq hr hpa]
      exact ⟨h.layout.become hr _ _, h.tally.store hr⟩
  | unlock hr hy =>
      refine h.enters hr hy ⟨rfl, fun ht => .inr (ht.resolve_left nofun), nofun⟩ fun hb => ?_
      exact h.tally.holding.unlock (by rw [hr]; rfl) (fun _ hp => Function.update_of_ne hp ..)
        (Function.update_self ..) hb
  | unlocked hr hret => exact ⟨h.layout.become hr _ _, h.tally.unlocked hr hret⟩
  | close hr hy => exact h.close hr hy hok
  | exit hr hy => exact h.exit hr hy hok

theorem sound_of_history {y : Sys} (h : Reach Sys.next CarefulEvent Sys.Booted y) :
    Sound y.kernel := by
  refine h.inv (fun _ hb => sound_of_reach (.start hb.1)) fun u e v hu hok hn => ?_
  cases e with
  | kernel op => exact hu.step hok (Sys.next_kernel hn).2.1
  | mutex b => exact (Sys.next_mutex hu hn).2.1

theorem Start.inv (h : Start d x) : ∃ r q, Inv d r q x := by
  have hsound := sound_of_history h.history
  obtain ⟨j, hj, haddr⟩ := h.attached
  have hj0 : ((x.kernel.proc d.parent).shm j).key ≠ 0 := by
    rw [hj]
    exact d.key_pos.ne'
  obtain ⟨r, hkey, -⟩ := hsound.shm.attachRegion d.parent j hj0
  have hkey' : (x.kernel.shmTable r).key = d.key := hkey.trans hj
  refine ⟨r, (x.kernel.shmTable r).pages 0, ⟨⟨hsound, hkey', rfl⟩, ⟨j, hj, haddr⟩, h.roles _,
    fun p hp => ?_⟩, ⟨⟨h.valid, .free h.free.1 h.free.2 fun p hp => ?_, fun p => ?_⟩, fun p => ?_,
    fun p reg hp => ?_, ?_⟩⟩
  · rw [h.roles p]
    exact .other fun k hk => hp (h.alone p k hk)
  · rcases hp with hp | hp
    · exact (h.outside p).1 (Pc.slot_of_busy hp)
    · rw [(h.outside p).2] at hp
      cases hp
  · rw [h.roles p, (h.outside p).2]
    exact .outside (h.outside p).1
  · rw [h.roles p]
    trivial
  · rw [h.roles p] at hp
    cases hp
  · have h0 : ∀ p ∈ Finset.univ, (x.role p).owed d.iterations = 0 := fun p _ => by
      rw [h.roles p, Role.owed_other]
    rw [h.zeroed r hkey', h.made, Nat.zero_mul, Finset.sum_eq_zero h0]
    rfl

def Role.Done : Role → Prop
  | .fresh => False
  | .looping _ n place => n = 0 ∧ place = .call
  | _ => True

omit [Link] in
theorem Role.Done.owed (h : ρ.Done) (iterations : Nat) : ρ.owed iterations = 0 := by
  cases ρ with
  | fresh => exact h.elim
  | looping a n place =>
      obtain ⟨rfl, rfl⟩ := h
      rfl
  | _ => rfl

theorem inv_of_reach (h : Reach (World.next d) (Allowed d) (Start d) x) : ∃ r q, Inv d r q x :=
  h.inv (fun _ hs => hs.inv) fun _ _ _ ⟨r, q, hx⟩ hok hn => ⟨r, q, hx.step hok hn⟩

/-- When all workers have made their turns, the parent finds the number of all turns at its
address of the region. -/
theorem reachable_counter (h : Reach (World.next d) (Allowed d) (Start d) x)
    (hdone : ∀ p, (x.role p).Done) : ∃ pt pa, (x.kernel.proc d.parent).pagetable = some pt ∧
      walkaddr pt d.addr x.kernel.kmem = .ok (some pa) ∧
      (x.mem pa).toNat = x.made * d.iterations % 2 ^ 32 := by
  obtain ⟨r, q, hx⟩ := inv_of_reach h
  obtain ⟨j, hj, haddr⟩ := hx.layout.parent
  obtain ⟨pt, hpt, hw⟩ := hx.layout.walkaddr_eq hj
  rw [haddr] at hw
  refine ⟨pt, q, hpt, hw, ?_⟩
  have hcount := hx.tally.count
  rw [Finset.sum_eq_zero fun p _ => (hdone p).owed d.iterations] at hcount
  have hmem : x.mem q = UInt32.ofNat (x.made * d.iterations) := by
    rw [← hcount]
    exact (UInt32.add_zero _).symm
  rw [hmem, UInt32.toNat_ofNat']

end

/-! ## A run -/

inductive Tick
  | fork
  | step (p : Fin NPROC)
  | yield (p : Fin NPROC)
  | dispatch (p : Fin NPROC)
  | attach (p : Fin NPROC)
  | lock (p : Fin NPROC)
  | locked (p : Fin NPROC)
  | load (p : Fin NPROC)
  | store (p : Fin NPROC)
  | unlock (p : Fin NPROC)
  | unlocked (p : Fin NPROC)
  | close (p : Fin NPROC)
  | exit (p : Fin NPROC)

def Tick.label : Tick → Label
  | .fork => .fork id
  | .step p => .sys (.mutex (.step p)) id
  | .yield p => .sys (.kernel (.yield p)) id
  | .dispatch p => .sys (.kernel (.dispatch p)) id
  | .attach p => .attach p id
  | .lock p => .lock p
  | .locked p => .locked p
  | .load p => .load p
  | .store p => .store p
  | .unlock p => .unlock p
  | .unlocked p => .unlocked p
  | .close p => .close p id
  | .exit p => .exit p id

def Tick.Ok (x : World) (_ : Tick) : Prop :=
  ∀ w, unusedSlot x.kernel = some w → Detached (x.kernel.proc w)

instance (x : World) (k : Tick) : Decidable (k.Ok x) := inferInstanceAs (Decidable (∀ _, _ → _))

theorem Tick.allowed [Link] {d : Demo} {x : World} {k : Tick} (h : k.Ok x) :
    Allowed d x k.label := by
  have hleave : ∀ op, x.Leaves op id := fun _ _ _ _ _ _ _ => rfl
  cases k with
  | fork => exact ⟨h, hleave _⟩
  | step => exact ⟨trivial, rfl⟩
  | yield | dispatch => exact ⟨.nobody rfl, hleave _⟩
  | attach | close | exit => exact hleave _
  | _ => trivial

theorem reach_of_ticks [Link] {d : Demo} {start : World → Prop} {x : World}
    (h : Reach (fun x (k : Tick) => x.next d k.label) (fun x k => k.Ok x) start x) :
    Reach (World.next d) (Allowed d) start x := by
  induction h with
  | start hs => exact .start hs
  | step _ hok hn ih => exact .step ih (Tick.allowed hok) hn

def sampleDemo : Demo := ⟨0, 88, 2, 0, 12288, by decide⟩

def sampleSetup : List Event :=
  [.mutex (.init 0), .mutex (.step 0), .mutex (.step 0), .mutex (.step 0), .mutex (.step 0),
    .kernel (.shmOpen 0 88 4)]

/-- Two workers. The first one is interrupted after its first load, and the second one
tries to take the mutex meanwhile. -/
def sampleTicks : List Tick :=
  let take (p : Fin NPROC) : List Tick := [.lock p, .step p, .step p, .step p, .locked p, .load p]
  let give (p : Fin NPROC) : List Tick :=
    [.store p, .unlock p, .step p, .step p, .step p, .step p, .unlocked p]
  [.fork, .fork, .yield 0, .dispatch 1, .attach 1] ++ take 1 ++
    [.yield 1, .dispatch 2, .attach 2, .lock 2, .step 2, .step 2, .dispatch 1] ++ give 1 ++
    take 1 ++ give 1 ++
    [.close 1, .exit 1, .dispatch 2, .step 2, .step 2, .locked 2, .load 2] ++ give 2 ++
    take 2 ++ give 2 ++ [.close 2, .exit 2]

def SampleReady (y : Sys) : Prop :=
  (∃ j, ((y.kernel.proc 0).shm j).key = 88 ∧ ((y.kernel.proc 0).shm j).uva = 12288) ∧
    (∀ p j, ((y.kernel.proc p).shm j).key = 88 → p = 0) ∧ (y.mutex.table 0).valid ≠ 0 ∧
    ((y.mutex.table 0).locked = 0 ∧ (y.mutex.table 0).ownerPid = 0) ∧
    ∀ p, (y.mutex.pc p).slot ≠ some 0 ∧ y.mutex.held p 0 = false

instance (y : Sys) : Decidable (SampleReady y) :=
  inferInstanceAs (Decidable ((∃ _, _) ∧ (∀ _ _, _ → _) ∧ _ ∧ _ ∧ ∀ _, _))

theorem SampleReady.start {y : Sys} (h : SampleReady y)
    (hr : Reach (@Sys.next sampleLink) (@CarefulEvent sampleLink) (@Sys.Booted sampleLink) y) :
    @Start sampleLink sampleDemo ⟨y, fun _ => 0, fun _ => .other, 0⟩ :=
  @Start.mk sampleLink _ _ hr h.1 h.2.1 (fun _ _ => rfl) h.2.2.1 h.2.2.2.1 h.2.2.2.2
    (fun _ => rfl) rfl

/-- Both workers run to their end, and the parent reads 4. -/
theorem reachable_counter_two : ∃ x,
    Reach (@World.next sampleLink sampleDemo) (@Allowed sampleLink sampleDemo)
      (@Start sampleLink sampleDemo) x ∧
      (∀ p, (x.role p).Done) ∧ x.made = 2 ∧
      ∃ pt pa, (x.kernel.proc 0).pagetable = some pt ∧
        walkaddr pt 12288 x.kernel.kmem = .ok (some pa) ∧ (x.mem pa).toNat = 4 := by
  have hrun : (sampleSys sampleSetup).any (fun y => decide (SampleReady y) &&
      (replay (guarded (fun x (k : Tick) => @World.next sampleLink sampleDemo x k.label)
        fun x k => k.Ok x) ⟨y, fun _ => 0, fun _ => .other, 0⟩ sampleTicks).any fun x =>
          decide ((∀ p, x.role p = .other ∨ x.role p = .finished) ∧ x.made = 2)) = true := by
    set_option maxRecDepth 100000 in decide +kernel
  obtain ⟨y, hy, hrun⟩ := (Option.any_eq_true _ _).1 hrun
  obtain ⟨hready, hrun⟩ := Bool.and_eq_true_iff.1 hrun
  obtain ⟨x, hx, hend⟩ := (Option.any_eq_true _ _).1 hrun
  obtain ⟨hroles, hmade⟩ := of_decide_eq_true hend
  have hhist : Reach (@Sys.next sampleLink) (@CarefulEvent sampleLink)
      (@Sys.Booted sampleLink) y := by
    refine sampleSys_reach (fun e he u => ?_) hy
    cases e with
    | mutex => exact trivial
    | kernel op =>
        obtain rfl : op = .shmOpen 0 88 4 := by simpa [sampleSetup] using he
        refine ⟨trivial, fun _ _ _ hop => ?_⟩
        cases hop
        exact (by decide : counterSize + PGSIZE - 1 < 2 ^ 31)
  have hreach := @reach_of_ticks sampleLink _ _ _
    (replay_guarded_reach (.start ((of_decide_eq_true hready).start hhist)) hx)
  have hdone : ∀ p, (x.role p).Done := fun p => by
    rcases hroles p with h | h <;> rw [h] <;> trivial
  obtain ⟨pt, pa, hpt, hw, hmem⟩ := @reachable_counter sampleLink _ _ hreach hdone
  refine ⟨x, hreach, hdone, hmade, pt, pa, hpt, hw, ?_⟩
  rw [hmem, hmade]
  rfl

end G9OS.Counter
