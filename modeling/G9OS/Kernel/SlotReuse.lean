import G9OS.Kernel.Orphans

/-! # What a child finds in its slot

`allocproc` and `freeproc` together reset every field of a process slot but two:
`freeproc` clears `killed`, but `kkill` can set it again in a free slot, whose pid
is 0, and no one clears `shm`. A child starts with what is stored there.
-/

namespace G9OS.Kernel

open Lib

/-- The states differ at most in what is stored in `UNUSED` slots. -/
structure AgreeButUnused (s t : State) : Prop where
  initproc : t.initproc = s.initproc
  nextpid : t.nextpid = s.nextpid
  ticks : t.ticks = s.ticks
  kmem : t.kmem = s.kmem
  shmTable : t.shmTable = s.shmTable
  state : ∀ i, (t.proc i).state = (s.proc i).state
  proc : ∀ i, (s.proc i).state ≠ .unused → t.proc i = s.proc i

def Spawned (s t : State) (i : Fin NPROC) : Prop :=
  (s.proc i).state = .unused ∧ (t.proc i).state ≠ .unused

structure SameStart (c d : Proc) : Prop where
  priority : c.priority = d.priority
  ctime : c.ctime = d.ctime
  rtime : c.rtime = d.rtime
  stime : c.stime = d.stime
  killed : c.killed = d.killed
  chan : c.chan = d.chan
  xstate : c.xstate = d.xstate
  shm : c.shm = d.shm
  sz : c.sz = d.sz
  ofile : c.ofile = d.ofile

def Clean (p : Proc) : Prop := p.killed = 0 ∧ Detached p

instance (p : Proc) : Decidable (Clean p) := inferInstanceAs (Decidable (_ ∧ _))

section
variable {s t s1 s2 t1 t2 : State} {p i : Fin NPROC}

theorem forked_child [Link] (hs : Tidy s) (hp : (s.proc p).state ≠ .unused) {r : Int}
    (h : kfork s p = .ok (r, t)) (hi : Spawned s t i) :
    ∃ tf pt, t.proc i = childOf p (s.proc p) (outfitted s tf pt (s.proc i)) := by
  obtain ⟨hun, hst⟩ := hi
  rcases kfork_cases hs hp h with rfl | ⟨j, m, hj, -, rfl⟩ | ⟨j, tf, pt, m, hj, -, -, rfl⟩
  · exact absurd hun hst
  · by_cases hij : i = j
    · subst hij
      rw [modProc_self] at hst
      exact absurd rfl hst
    · rw [modProc_of_ne _ _ _ hij] at hst
      exact absurd hun hst
  · by_cases hij : i = j
    · subst hij
      exact ⟨tf, pt, by rw [modProc_self]; rfl⟩
    · rw [modProc_of_ne _ _ _ hij] at hst
      exact absurd hun hst

theorem forked_clean [Link] (hs : Tidy s) (hp : (s.proc p).state ≠ .unused) {r : Int}
    (h : kfork s p = .ok (r, t)) (hi : Spawned s t i) : Clean (t.proc i) ↔ Clean (s.proc i) := by
  obtain ⟨tf, pt, hc⟩ := forked_child hs hp h hi
  rw [hc]
  exact Iff.rfl

theorem Detached.shm_eq (hshm : s.ShmOk) (h : Detached (s.proc i)) : (s.proc i).shm = fun _ => {} :=
  funext fun k => hshm.attachClear i k (h k)

theorem sameStart_of_clean [Link] (hs1 : Tidy s1) (hs2 : Tidy s2) (hm1 : s1.ShmOk) (hm2 : s2.ShmOk)
    (hag : AgreeButUnused s1 s2) (hp : (s1.proc p).state ≠ .unused) {r1 r2 : Int}
    (h1 : kfork s1 p = .ok (r1, t1)) (h2 : kfork s2 p = .ok (r2, t2)) (hi1 : Spawned s1 t1 i)
    (hi2 : Spawned s2 t2 i) (hc1 : Clean (s1.proc i)) (hc2 : Clean (s2.proc i)) :
    SameStart (t1.proc i) (t2.proc i) := by
  have hpp := hag.proc p hp
  obtain ⟨tf1, pt1, e1⟩ := forked_child hs1 hp h1 hi1
  obtain ⟨tf2, pt2, e2⟩ := forked_child hs2 (by rwa [hag.state]) h2 hi2
  have hclosed1 := (hs1 i).closed fun hl => hl.1 hi1.1
  have hclosed2 := (hs2 i).closed fun hl => hl.1 hi2.1
  rw [e1, e2, hpp]
  refine ⟨rfl, hag.ticks.symm, rfl, rfl, hc1.1.trans hc2.1.symm,
    ((hs1 i).noChan hi1.1).trans ((hs2 i).noChan hi2.1).symm,
    ((hs1 i).noXstate hi1.1).trans ((hs2 i).noXstate hi2.1).symm,
    (hc1.2.shm_eq hm1).trans (hc2.2.shm_eq hm2).symm, rfl, ?_⟩
  funext fd
  simp only [childOf, outfitted, claimed, hclosed1, hclosed2]

/-- Two forks start their children alike and clean exactly if the slot held neither a
kill mark nor attachments in either state. -/
theorem reachable_sameStart_iff [Link] (hr1 : Reach next Free Booted s1)
    (hr2 : Reach next Free Booted s2) (hag : AgreeButUnused s1 s2) (he : Enabled s1 (.fork p))
    {r1 r2 : Int} (h1 : kfork s1 p = .ok (r1, t1)) (h2 : kfork s2 p = .ok (r2, t2))
    (hi1 : Spawned s1 t1 i) (hi2 : Spawned s2 t2 i) :
    SameStart (t1.proc i) (t2.proc i) ∧ Clean (t1.proc i) ∧ Clean (t2.proc i) ↔
      Clean (s1.proc i) ∧ Clean (s2.proc i) := by
  obtain ⟨hs1, hm1⟩ := orderly_of_reach hr1
  obtain ⟨hs2, hm2⟩ := orderly_of_reach hr2
  have hp : (s1.proc p).state ≠ .unused := by
    rw [he.1.1]
    exact nofun
  rw [forked_clean hs1 hp h1 hi1, forked_clean hs2 (by rwa [hag.state]) h2 hi2]
  exact ⟨And.right, fun hc =>
    ⟨sameStart_of_clean hs1 hs2 hm1 hm2 hag hp h1 h2 hi1 hi2 hc.1 hc.2, hc⟩⟩

theorem AgreeButUnused.modProc {f : Proc → Proc} (hun : (s.proc i).state = .unused)
    (hf : (f (s.proc i)).state = .unused) : AgreeButUnused s (s.modProc i f) := by
  refine ⟨rfl, rfl, rfl, rfl, rfl, fun j => ?_, fun j hj => modProc_of_ne _ _ _ fun hji => ?_⟩
  · by_cases hji : j = i
    · subst hji
      rw [modProc_self, hf, hun]
    · rw [modProc_of_ne _ _ _ hji]
  · subst hji
    exact hj hun

/-- `kill` and `setpriority` of pid 0 find the first free slot. -/
theorem kkill_agreeButUnused {pid : Int} (hi : pidSlot s pid = some i)
    (hun : (s.proc i).state = .unused) : AgreeButUnused s (kkill s pid).2 := by
  unfold kkill
  rw [hi]
  dsimp only
  refine AgreeButUnused.modProc hun ?_
  dsimp only
  rw [hun]
  rfl

theorem setpriority_agreeButUnused {pid : Int} (priority : Int) (hi : pidSlot s pid = some i)
    (hun : (s.proc i).state = .unused) : AgreeButUnused s (setpriority s pid priority).2 := by
  unfold setpriority
  rw [hi]
  split
  · exact ⟨rfl, rfl, rfl, rfl, rfl, fun _ => rfl, fun _ _ => rfl⟩
  · dsimp only
    refine AgreeButUnused.modProc hun ?_
    exact hun

end

/-- A fork before and after `setpriority(0, 5)`, which writes to the free slot that the
child gets: both children start alike. -/
theorem reachable_sameStart_iff_setpriority : ∃ s1 s2 t1 t2 r1 r2,
    sampleRun [] = some s1 ∧ sampleRun [.setpriority 0 0 5] = some s2 ∧
      (s2.proc 1).priority = 5 ∧ @kfork sampleLink s1 0 = .ok (r1, t1) ∧
      @kfork sampleLink s2 0 = .ok (r2, t2) ∧ SameStart (t1.proc 1) (t2.proc 1) := by
  obtain ⟨s1, hs1, hun, hpid, he, hfe, hpri, hc1, hc2, hf1, hf2⟩ := sampleRun_exists []
    (fun s => (s.proc 1).state = .unused ∧ pidSlot s 0 = some 1 ∧ Enabled s (.setpriority 0 0 5) ∧
      Enabled s (.fork 0) ∧ ((setpriority s 0 5).2.proc 1).priority = 5 ∧ Clean (s.proc 1) ∧
      Clean ((setpriority s 0 5).2.proc 1) ∧
      (@kfork sampleLink s 0).toOption.any (fun x => (x.2.proc 1).state ≠ .unused) = true ∧
      (@kfork sampleLink (setpriority s 0 5).2 0).toOption.any
        (fun x => (x.2.proc 1).state ≠ .unused) = true)
    (by set_option maxRecDepth 100000 in decide +kernel)
  have hs2 := sampleRun_snoc hs1 (@next_of_run sampleLink s1 _ _ he rfl)
  rw [List.nil_append] at hs2
  have hag := setpriority_agreeButUnused 5 hpid hun
  obtain ⟨⟨r1, t1⟩, hk1, hst1⟩ := (Option.any_eq_true _ _).1 hf1
  obtain ⟨⟨r2, t2⟩, hk2, hst2⟩ := (Option.any_eq_true _ _).1 hf2
  have h1 := toOption_some.1 hk1
  have h2 := toOption_some.1 hk2
  have hiff := @reachable_sameStart_iff s1 _ t1 t2 0 1 sampleLink
    (sampleRun_reach (fun _ _ _ => trivial) hs1) (sampleRun_reach (fun _ _ _ => trivial) hs2) hag
    hfe r1 r2 h1 h2 ⟨hun, of_decide_eq_true hst1⟩
    ⟨by rw [hag.state]; exact hun, of_decide_eq_true hst2⟩
  exact ⟨s1, _, t1, t2, r1, r2, hs1, hs2, hpri, h1, h2, (hiff.2 ⟨hc1, hc2⟩).1⟩

/-- `kill(0)` marks the free slot, and the child that gets it starts killed. -/
theorem kill_marks_child : ∃ s1 s2 t1 t2 r1 r2,
    sampleRun [] = some s1 ∧ sampleRun [.kill 0 0] = some s2 ∧
      Reach (@next sampleLink) Free (@Booted sampleLink) s1 ∧
      Reach (@next sampleLink) Free (@Booted sampleLink) s2 ∧ AgreeButUnused s1 s2 ∧
      @kfork sampleLink s1 0 = .ok (r1, t1) ∧ @kfork sampleLink s2 0 = .ok (r2, t2) ∧
      Spawned s1 t1 1 ∧ Spawned s2 t2 1 ∧ (t1.proc 1).killed = 0 ∧ (t2.proc 1).killed = 1 := by
  obtain ⟨s1, hs1, hun, hpid, he, hf1, hf2⟩ := sampleRun_exists []
    (fun s => (s.proc 1).state = .unused ∧ pidSlot s 0 = some 1 ∧ Enabled s (.kill 0 0) ∧
      (@kfork sampleLink s 0).toOption.any (fun x =>
        (x.2.proc 1).state ≠ .unused ∧ (x.2.proc 1).killed = 0) = true ∧
      (@kfork sampleLink (kkill s 0).2 0).toOption.any (fun x =>
        (x.2.proc 1).state ≠ .unused ∧ (x.2.proc 1).killed = 1) = true)
    (by set_option maxRecDepth 100000 in decide +kernel)
  have hs2 := sampleRun_snoc hs1 (@next_of_run sampleLink s1 _ _ he rfl)
  rw [List.nil_append] at hs2
  have hag := kkill_agreeButUnused hpid hun
  obtain ⟨⟨r1, t1⟩, hk1, hc1⟩ := (Option.any_eq_true _ _).1 hf1
  obtain ⟨⟨r2, t2⟩, hk2, hc2⟩ := (Option.any_eq_true _ _).1 hf2
  obtain ⟨hst1, hkill1⟩ := of_decide_eq_true hc1
  obtain ⟨hst2, hkill2⟩ := of_decide_eq_true hc2
  exact ⟨s1, _, t1, t2, r1, r2, hs1, hs2, sampleRun_reach (fun _ _ _ => trivial) hs1,
    sampleRun_reach (fun _ _ _ => trivial) hs2, hag, toOption_some.1 hk1, toOption_some.1 hk2,
    ⟨hun, hst1⟩, ⟨by rw [hag.state]; exact hun, hst2⟩, hkill1, hkill2⟩

end G9OS.Kernel
