import G9OS.Kernel.WaitStat
import G9OS.Smp.Tree

/-! # Exits and wait calls

An exited process keeps its slot, its times and its exit status until a wait call of its
parent returns it. Nothing else frees a `ZOMBIE`, and a wait call that returns -1 leaves
the table as it was, so that a later call finds the child as it exited.
-/

namespace G9OS.Smp

open Lib Kernel Sched

section
variable {C : Type}

structure Logged (s : World C) : Prop where
  zombie : ∀ k, (s.proc k).state = .zombie → s.exitOf k ∈ s.exits
  exited : ∀ e ∈ s.exits, e.serial < s.made
  alive : ∀ k, (s.proc k).state ≠ .unused → (s.proc k).state ≠ .zombie →
    s.serial k ∉ s.exits.map Exit.serial
  once : (s.exits.map Exit.serial).Nodup
  reported : ∀ r ∈ s.reports, r.exit ∈ s.exits
  pending : ∀ k, (s.proc k).state ≠ .unused → s.serial k ∉ s.reports.map (·.exit.serial)
  reaped : (s.reports.map (·.exit.serial)).Nodup

variable [DecidableEq C] {s t : World C} {c0 : C} {k p : Fin NPROC} {l : Label C} {v : Proc}

/-- What is reported of an exited process does not change any more. -/
theorem SlotMove.zombie (hf : Forking s) (hm : SlotMove s l t k v) (hv : v.state = .zombie) :
    (s.proc k).state = .zombie ∧ v.stime = (s.proc k).stime ∧ v.rtime = (s.proc k).rtime ∧
        v.xstate = (s.proc k).xstate ∨
      ∃ c status, s.cpu c = .running k ∧ t = s.die c k status := by
  cases hm with
  | same | unslept | reparented => exact .inl ⟨hv, rfl, rfl, rfl⟩
  | dispatched | yielded | slept | claimed | unclaimed | readied | reaped => cases hv
  | died hc _ ht => exact .inr ⟨_, _, hc, ht⟩
  | adopted _ hpc => cases (hf.used _ k (by rw [hpc]; rfl)).symm.trans hv
  | @woken me chan =>
      left
      rcases wakeProc_state me chan k (s.proc k) with he | ⟨-, -, he⟩
      · refine ⟨he ▸ hv, ?_⟩
        unfold wakeProc
        split <;> exact ⟨rfl, rfl, rfl⟩
      · cases he.symm.trans hv
  | @poked _ _ what =>
      left
      rcases what.apply_state (s.proc k) with he | ⟨-, he⟩
      · exact ⟨he ▸ hv, by cases what <;> exact ⟨rfl, rfl, rfl⟩⟩
      · cases he.symm.trans hv
  | charged =>
      rw [tickProc_state] at hv
      refine .inl ⟨hv, ?_⟩
      unfold tickProc
      rw [hv]
      exact ⟨rfl, rfl, rfl⟩

/-- A zombie stays one until a wait call of its parent returns it. -/
theorem SlotMove.zombie_kept (hs : Seat s k) (hf : Forking s) (hm : SlotMove s l t k v)
    (hz : (s.proc k).state = .zombie) :
    v.state = .zombie ∨ ∃ c p havekids, s.cpu c = .running p ∧ s.pc p = .waitScan k havekids ∧
      (s.proc k).parent = some p ∧ t = s.reap p k := by
  cases hm with
  | same | unslept | reparented | adopted => exact .inl hz
  | dispatched _ _ hr => cases hz.symm.trans hr.1
  | yielded hc | slept hc => cases hz.symm.trans (hs.running hc)
  | died => exact .inl rfl
  | claimed hu => cases hz.symm.trans hu
  | unclaimed hpc | readied hpc => cases hz.symm.trans (hf.used _ k (by rw [hpc]; rfl))
  | @woken me chan =>
      rcases wakeProc_state me chan k (s.proc k) with he | ⟨-, he, -⟩
      · exact .inl (he.trans hz)
      · cases hz.symm.trans he
  | @poked _ _ what =>
      rcases what.apply_state (s.proc k) with he | ⟨he, -⟩
      · exact .inl (he.trans hz)
      · cases hz.symm.trans he
  | reaped _ hc hpc hpar ht => exact .inr ⟨_, _, _, hc, hpc, hpar, ht⟩
  | charged => exact .inl ((tickProc_state _).trans hz)

/-! ## The records -/

/-- Slots that are in use and not exited were so before, or have just been claimed. -/
theorem Move.alive (hs : Seat s k) (hf : Forking s) (hm : Move c0 s l t)
    (hu : (t.proc k).state ≠ .unused) (hz : (t.proc k).state ≠ .zombie) :
    (s.proc k).state ≠ .unused ∧ (s.proc k).state ≠ .zombie ∧ t.serial k = s.serial k ∨
      t.serial k = s.made := by
  rcases (hm.slot k).in_use hs hf hu with ⟨hu', -⟩ | ⟨c, p, rfl⟩
  · refine .inl ⟨hu', fun hz' => ?_, hm.serial hu'⟩
    rcases (hm.slot k).zombie_kept hs hf hz' with h | ⟨-, p, -, -, -, -, rfl⟩
    · exact hz h
    · exact hu (by simp [World.reap, clearSlot])
  · exact .inr (by simp [World.claim])

/-- A section that is neither the last one of an exit nor a successful wait call. -/
theorem Logged.keep (h : Logged s) (hs : ∀ k, Seat s k) (hf : Forking s) (hm : Move c0 s l t)
    (he : t.exits = s.exits) (hr : t.reports = s.reports) : Logged t := by
  have hmade : s.made ≤ t.made := by
    rcases hm.numbers with ⟨-, h, -⟩ | ⟨c, p, np, -, -, rfl⟩
    · exact h.ge
    · exact Nat.le_succ _
  have hnew : s.made ∉ s.exits.map Exit.serial := by
    intro hmem
    obtain ⟨e, hmem, heq⟩ := List.mem_map.1 hmem
    exact absurd (h.exited e hmem) (by omega)
  have hnone : s.made ∉ s.reports.map (·.exit.serial) := by
    intro hmem
    obtain ⟨r, hmem, heq⟩ := List.mem_map.1 hmem
    exact hnew (List.mem_map.2 ⟨r.exit, h.reported r hmem, heq⟩)
  refine ⟨fun k hk => ?_, fun e hmem => ?_, fun k hu hz => ?_, he ▸ h.once, ?_, fun k hu => ?_,
    hr ▸ h.reaped⟩
  · rcases (hm.slot k).zombie hf hk with ⟨hz, h1, h2, h3⟩ | ⟨c, status, -, rfl⟩
    · have hsame : t.exitOf k = s.exitOf k := by
        rw [World.exitOf, h1, h2, h3, hm.serial (by simp [hz])]
        rfl
      rw [hsame, he]
      exact h.zombie k hz
    · exact absurd (congrArg List.length he) (by simp [World.die, World.leave])
  · exact (h.exited e (he ▸ hmem)).trans_le hmade
  · rw [he]
    rcases hm.alive (hs k) hf hu hz with ⟨hu', hz', hk⟩ | hk
    · rw [hk]
      exact h.alive k hu' hz'
    · rw [hk]
      exact hnew
  · rw [he, hr]
    exact h.reported
  · rw [hr]
    rcases (hm.slot k).in_use (hs k) hf hu with ⟨hu', -⟩ | ⟨c, p, rfl⟩
    · rw [hm.serial hu']
      exact h.pending k hu'
    · have hk : (s.claim c p k).serial k = s.made := by simp [World.claim]
      rw [hk]
      exact hnone

theorem Logged.die {c : C} {status : Int} (h : Logged s) (hn : Numbered s)
    (hp : (s.proc p).state = .running) : Logged (s.die c p status) := by
  have hself : (s.die c p status).proc p = { s.proc p with xstate := status, state := .zombie } := by
    simp [World.die, World.leave]
  have hother : ∀ k, k ≠ p → (s.die c p status).proc k = s.proc k := fun k hk => by
    simp [World.die, World.leave, hk]
  have hexits : (s.die c p status).exits = (s.die c p status).exitOf p :: s.exits := by
    simp [World.exitOf, hself]
    rfl
  have hserial : ∀ k, (s.die c p status).serial k = s.serial k := fun _ => rfl
  have hfresh : s.serial p ∉ s.exits.map Exit.serial := h.alive p (by simp [hp]) (by simp [hp])
  refine ⟨fun k hk => ?_, fun e he => ?_, fun k hu hz => ?_, ?_, fun r hr => ?_, fun k hu => ?_,
    h.reaped⟩
  · rw [hexits]
    by_cases hkp : k = p
    · rw [hkp]
      exact List.mem_cons_self
    · have hsame : (s.die c p status).exitOf k = s.exitOf k := by
        rw [World.exitOf, hother k hkp]
        rfl
      rw [hsame]
      exact List.mem_cons_of_mem _ (h.zombie k (hother k hkp ▸ hk))
  · rw [hexits] at he
    rcases List.mem_cons.1 he with rfl | he
    · exact hn.lt p (by simp [hp])
    · exact h.exited e he
  · have hkp : k ≠ p := by
      rintro rfl
      exact hz (by rw [hself])
    rw [hother k hkp] at hu hz
    rw [hexits, List.map_cons, List.mem_cons, not_or]
    exact ⟨fun he => hkp (hn.inj k p hu (by simp [hp]) he), h.alive k hu hz⟩
  · rw [hexits, List.map_cons]
    exact List.nodup_cons.2 ⟨hfresh, h.once⟩
  · rw [hexits]
    exact List.mem_cons_of_mem _ (h.reported r hr)
  · refine h.pending k ?_
    by_cases hkp : k = p
    · simp [hkp, hp]
    · exact hother k hkp ▸ hu

omit [DecidableEq C] in
theorem Logged.reap (h : Logged s) (hn : Numbered s) (hk : (s.proc k).state = .zombie) :
    Logged (s.reap p k) := by
  have hself : ((s.reap p k).proc k).state = .unused := by simp [World.reap, clearSlot]
  have hother : ∀ j, j ≠ k → (s.reap p k).proc j = s.proc j := fun j hj => by
    simp [World.reap, hj]
  have hne : ∀ j, ((s.reap p k).proc j).state ≠ .unused → j ≠ k := by
    rintro j hj rfl
    exact hj hself
  refine ⟨fun j hj => ?_, h.exited, fun j hu hz => ?_, h.once, fun r hr => ?_, fun j hu => ?_, ?_⟩
  · have hjk := hne j (by simp [hj])
    have hsame : (s.reap p k).exitOf j = s.exitOf j := by
      rw [World.exitOf, hother j hjk]
      rfl
    rw [hsame]
    exact h.zombie j (hother j hjk ▸ hj)
  · have hjk := hother j (hne j hu)
    exact h.alive j (hjk ▸ hu) (hjk ▸ hz)
  · rcases List.mem_cons.1 hr with rfl | hr
    · exact h.zombie k hk
    · exact h.reported r hr
  · have hjk := hne j hu
    rw [hother j hjk] at hu
    refine fun hmem => ?_
    rcases List.mem_cons.1 hmem with he | hmem
    · exact hjk (hn.inj j k hu (by simp [hk]) he)
    · exact h.pending j hu hmem
  · exact List.nodup_cons.2 ⟨h.pending k (by simp [hk]), h.reaped⟩

theorem Logged.step (h : Logged s) (hs : ∀ k, Seat s k) (hf : Forking s) (hn : Numbered s)
    (hm : Move c0 s l t) : Logged t := by
  rcases hm.logs with ⟨he, hr⟩ | ⟨c, p, status, hc, -, rfl⟩ | ⟨p, k, hz, -, rfl⟩
  · exact h.keep hs hf hm he hr
  · exact h.die hn ((hs p).running hc)
  · exact h.reap hn hz

theorem logged_of_reach {ok : World C → Label C → Prop}
    (h : Reach (next c0) ok (· = World.boot C) s) : Logged s := by
  induction h with
  | start hb =>
      rw [hb]
      refine ⟨fun k hk => ?_, nofun, fun _ _ _ => List.not_mem_nil, List.nodup_nil, nofun,
        fun _ _ => List.not_mem_nil, List.nodup_nil⟩
      by_cases hk0 : k = 0
      · subst hk0
        cases hk
      · simp [World.boot, hk0] at hk
  | step hr _ hn ih =>
      obtain ⟨hs, hf⟩ := placed_of_reach hr
      exact ih.step hs hf (tree_of_reach hr).1 (next_move hn)

/-! ## Wait calls -/

def Pc.waiting : Pc → Bool
  | .waitLock | .waitScan _ _ | .waitSleep => true
  | _ => false

/-- From `s` to `t`, no entry of the table has changed but for the state and the channel of `p`. -/
def Dozes (s t : World C) (p : Fin NPROC) : Prop :=
  (∀ k, k ≠ p → t.proc k = s.proc k) ∧
    t.proc p = { s.proc p with state := (t.proc p).state, chan := (t.proc p).chan }

omit [DecidableEq C] in
theorem Dozes.same (h : t.proc = s.proc) : Dozes s t p := by
  refine ⟨fun k _ => ?_, ?_⟩ <;> rw [h]

omit [DecidableEq C] in
theorem Dozes.update {f : Proc → Proc} (h : t.proc = Function.update s.proc p (f (s.proc p)))
    (hf : ∀ q, f q = { q with state := (f q).state, chan := (f q).chan }) : Dozes s t p := by
  refine ⟨fun k hk => ?_, ?_⟩
  · rw [h, Function.update_of_ne hk]
  · rw [h, Function.update_self]
    exact hf _

/-- A section of a wait call returns a child, or leaves the table alone but for the caller's own
going to sleep and waking. -/
theorem Move.waits {c : C} {ch : Choice} (hm : Move c0 s (.cpu c ch) t) (hc : s.cpu c = .running p)
    (hw : (s.pc p).waiting = true) : (∃ k, t = s.reap p k) ∨ Dozes s t p := by
  have hpc : ∀ v : Pc, v.waiting = false → s.pc p ≠ v := by
    rintro v hv rfl
    rw [hv] at hw
    cases hw
  cases hm with
  | sched | returns | unparks => exact .inr (.same rfl)
  | dispatches h => cases hc.symm.trans h
  | unsleeps h =>
      cases hc.symm.trans h
      exact .inr (.update (f := awake) rfl fun _ => rfl)
  | proc h _ hm =>
      cases hc.symm.trans h
      cases hm with
      | goes | goesLock => exact .inr (.same rfl)
      | yields => exact .inr (.update (f := fun q => { q with state := .runnable }) rfl fun _ => rfl)
      | waitSleeps => exact .inr (.update (f := asleep (.proc p)) rfl fun _ => rfl)
      | reaps => exact .inl ⟨_, rfl⟩
      | sleeps _ h | dies _ h | claims h | fillFails h | filled h | adopts h | readies h
      | reparents h | wakes h | pokes h => exact absurd h (hpc _ rfl)

/-- No process exits twice or is returned twice, and what a wait call returns is what the process
left at its exit. Of one step: a process that becomes `ZOMBIE` is written down with its times and
status; a `ZOMBIE` loses its slot only to a wait call of its parent, which returns it, and
`kwait_stat` copies out these times and this status; only this call returns anything; and any other
section of a wait call leaves the table alone but for the caller's own going to sleep and waking. -/
theorem reachable_exits_returned (h : Reach (next c0) Free (· = World.boot C) s) :
    (s.exits.map Exit.serial).Nodup ∧ (s.reports.map (·.exit.serial)).Nodup ∧
    (∀ r ∈ s.reports, r.exit ∈ s.exits) ∧
    ∀ l t, next c0 s l = some t →
      (∀ k, (s.proc k).state ≠ .zombie → (t.proc k).state = .zombie →
        t.exits = ⟨t.serial k, (t.proc k).stime, (t.proc k).rtime, (t.proc k).xstate⟩ :: s.exits) ∧
      (∀ k, (s.proc k).state = .zombie → (t.proc k).state ≠ .zombie →
        ∃ c p, s.cpu c = .running p ∧ (s.pc p).waiting = true ∧ (s.proc k).parent = some p ∧
          (t.proc k).state = .unused ∧ t.reports = ⟨⟨s.serial k, (s.proc k).stime,
            (s.proc k).rtime, (s.proc k).xstate⟩, p⟩ :: s.reports ∧
          ∀ [Link] (u : State), u.proc k = s.proc k → ∀ a b status,
            kwaitStatFound u p a b status k = foundAll u p [(a, uintBytes (s.proc k).stime),
              (b, uintBytes (s.proc k).rtime), (status, intBytes (s.proc k).xstate)] k) ∧
      (t.reports = s.reports ∨ ∃ p k, (s.proc k).state = .zombie ∧ (s.proc k).parent = some p ∧
        (t.proc k).state = .unused ∧ t.reports = ⟨⟨s.serial k, (s.proc k).stime,
          (s.proc k).rtime, (s.proc k).xstate⟩, p⟩ :: s.reports) ∧
      ∀ c ch p, l = .cpu c ch → s.cpu c = .running p → (s.pc p).waiting = true →
        t.reports = s.reports → Dozes s t p := by
  have hlog := logged_of_reach h
  obtain ⟨hs, hf⟩ := placed_of_reach h
  have hfreed : ∀ p k, ((s.reap p k).proc k).state = .unused := by simp [World.reap, clearSlot]
  refine ⟨hlog.once, hlog.reaped, hlog.reported, fun l t hn => ?_⟩
  have hm := next_move hn
  refine ⟨fun k hs' ht => ?_, fun k hz ht => ?_, ?_, fun c ch p hl hc hw hr => ?_⟩
  · rcases (hm.slot k).zombie hf ht with ⟨hz, -⟩ | ⟨c, status, -, rfl⟩
    · exact absurd hz hs'
    · simp [World.die, World.leave, World.exitOf]
  · rcases (hm.slot k).zombie_kept (hs k) hf hz with hz' | ⟨c, p, _, hc, hpc, hpar, rfl⟩
    · exact absurd hz' ht
    · refine ⟨c, p, hc, by rw [hpc]; rfl, hpar, hfreed p k, rfl, fun u hu a b status => ?_⟩
      rw [kwaitStatFound_eq, timeItems, statusItem, hu]
      rfl
  · rcases hm.logs with ⟨-, hr⟩ | ⟨c, p, status, -, -, rfl⟩ | ⟨p, k, hz, hpar, rfl⟩
    · exact .inl hr
    · exact .inl rfl
    · exact .inr ⟨p, k, hz, hpar, hfreed p k, rfl⟩
  · subst hl
    refine (hm.waits hc hw).resolve_left ?_
    rintro ⟨k, rfl⟩
    exact absurd (congrArg List.length hr) (by simp [World.reap])

end

/-- A child exits. The first wait call of its parent fails in `copyout`, the second one returns the
child as it exited. -/
theorem reachable_exits_returned_second : ∃ s t : World (Fin 2),
    Reach (next 0) Free (· = World.boot (Fin 2)) s ∧ next 0 s (.cpu 0 .go) = some t ∧
      (s.proc 1).state = .zombie ∧ (t.proc 1).state = .unused ∧
      t.reports = [⟨s.exitOf 1, 0⟩] ∧ s.exits = [s.exitOf 1] := by
  obtain ⟨s, hr, hz, hrep, hex, hnext⟩ := sampleWorld_exists
    (goes 0 68 ++ [.cpu 0 (.call .fork)] ++ goes 0 5 ++ goes 1 69 ++
      [.cpu 1 (.call (.exit 7))] ++ goes 1 133 ++ [.cpu 0 (.call .wait)] ++ goes 0 2 ++
      [.cpu 0 .fail, .cpu 0 (.call .wait)] ++ goes 0 2)
    (fun s => (s.proc 1).state = .zombie ∧ s.reports = [] ∧ s.exits = [s.exitOf 1] ∧
      (next 0 s (.cpu 0 .go)).any (fun t => decide ((t.proc 1).state = .unused ∧
        (s.proc 1).parent = some 0)) = true)
    (by set_option maxRecDepth 100000 in decide +kernel)
  obtain ⟨t, hn, ht⟩ := (Option.any_eq_true _ _).1 hnext
  obtain ⟨hu, hpar⟩ := of_decide_eq_true ht
  obtain ⟨c, p, -, -, hpar', -, hrep', -⟩ :=
    ((reachable_exits_returned hr).2.2.2 _ t hn).2.1 1 hz (by rw [hu]; exact nofun)
  cases hpar.symm.trans hpar'
  exact ⟨s, t, hr, hn, hz, hu, by rw [hrep', hrep]; rfl, hex⟩

end G9OS.Smp
