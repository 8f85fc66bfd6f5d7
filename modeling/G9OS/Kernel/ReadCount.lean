import G9OS.Lib.Runs
import G9OS.Kernel.Layout

/-! # The read counter (`sys_read`, `increment_readcount`, `getreadcount`)

A process inside `read` or `getreadcount` is in front of its next access to `readcount` or
`readcount_lock`, and one step of the machine makes that access. Whether `argfd` finds an open
file is part of the call. Beside what the code keeps, the machine counts the `read` calls that
were entered and that have returned, and writes down the results of `getreadcount` together
with what these counts and the results were when the call started.
-/

namespace G9OS.ReadCount

open Lib Kernel

inductive Pc
  | idle
  | argfd (valid : Bool)                     -- `argfd(0, 0, &f)` in `sys_read`
  | incAcquire                               -- `acquire(&readcount_lock)`
  | incLoad                                  -- load `readcount` for `readcount++`
  | incStore (n : Int)                       -- and store `n + 1`
  | incRelease
  | fileread                                 -- `return fileread(f, p, n)`
  | getAcquire
  | getLoad                                  -- `n = readcount`
  | getRelease (n : Int)
  | getReturn (n : Int)                      -- `return n`
deriving DecidableEq, Repr

/-- What a `getreadcount` has returned, how many `read` calls had returned when it started and
how many had been entered when it returned, and the largest result that had been returned when
it started. -/
structure Result where
  value : Int
  since : Nat
  entered : Nat
  floor : Int
deriving DecidableEq, Repr

structure RState (P : Type) where
  readcount : Int
  lock : Option P
  pc : P → Pc
  entered : Nat
  returned : Nat
  since : P → Nat
  floor : P → Int
  best : Int
  results : List Result

def RState.boot (P : Type) : RState P :=
  ⟨0, none, fun _ => .idle, 0, 0, fun _ => 0, fun _ => 0, 0, []⟩

inductive Act (P : Type)
  | read (p : P) (valid : Bool)
  | getreadcount (p : P)
  | step (p : P)
deriving DecidableEq, Repr

section
variable {P : Type} [DecidableEq P]

def RState.go (s : RState P) (p : P) (c : Pc) : RState P :=
  { s with pc := Function.update s.pc p c }

def access (s : RState P) (p : P) : Option (RState P) :=
  match s.pc p with
  | .idle => none
  | .argfd true => some (s.go p .incAcquire)
  | .argfd false => some ({ s with returned := s.returned + 1 }.go p .idle)
  | .incAcquire => if s.lock = none then some ({ s with lock := some p }.go p .incLoad) else none
  | .incLoad => some (s.go p (.incStore s.readcount))
  | .incStore n => some ({ s with readcount := int32 (n + 1) }.go p .incRelease)
  | .incRelease => some ({ s with lock := none }.go p .fileread)
  | .fileread => some ({ s with returned := s.returned + 1 }.go p .idle)
  | .getAcquire => if s.lock = none then some ({ s with lock := some p }.go p .getLoad) else none
  | .getLoad => some (s.go p (.getRelease s.readcount))
  | .getRelease n => some ({ s with lock := none }.go p (.getReturn n))
  | .getReturn n =>
      some ({ s with
        best := max s.best n
        results := ⟨n, s.since p, s.entered, s.floor p⟩ :: s.results }.go p .idle)

def next (s : RState P) : Act P → Option (RState P)
  | .read p valid =>
      if s.pc p = .idle then some ({ s with entered := s.entered + 1 }.go p (.argfd valid))
      else none
  | .getreadcount p =>
      if s.pc p = .idle then
        some ({ s with
          since := Function.update s.since p s.returned
          floor := Function.update s.floor p s.best }.go p .getAcquire)
      else none
  | .step p => access s p

def ValidRead (_ : RState P) : Act P → Prop
  | .read _ valid => valid = true
  | _ => True

instance (s : RState P) (a : Act P) : Decidable (ValidRead s a) :=
  match a with
  | .read _ valid => inferInstanceAs (Decidable (valid = true))
  | .getreadcount _ | .step _ => .isTrue trivial

/-- The results are bounded by the `read` calls that had returned and that had been entered, and
none is below one that had been returned before its call started. -/
def Exact (s : RState P) : Prop :=
  (∀ r ∈ s.results, (r.since : Int) ≤ r.value ∧ r.value ≤ r.entered ∧ r.floor ≤ r.value) ∧
    ∀ r ∈ s.results, r.value ≤ s.best

end

/-! ## Where the calls are -/

def Pc.early : Pc → Bool
  | .argfd _ | .incAcquire | .incLoad | .incStore _ => true
  | _ => false

def Pc.late : Pc → Bool
  | .incRelease | .fileread => true
  | _ => false

def Pc.owns : Pc → Bool
  | .incLoad | .incStore _ | .incRelease | .getLoad | .getRelease _ => true
  | _ => false

def Pc.asks : Pc → Bool
  | .getAcquire | .getLoad => true
  | _ => false

def Pc.loaded : Pc → Option Int
  | .getRelease n | .getReturn n => some n
  | _ => none

section
variable {P : Type} [DecidableEq P] {s t : RState P} {p q : P} {c : Pc} {n : Nat}
  {early late : Finset P}

@[simp] theorem RState.go_pc (q : P) : (s.go p c).pc q = if q = p then c else s.pc q :=
  Function.update_apply ..

structure Counts (s : RState P) (n : Nat) (early late : Finset P) : Prop where
  count : s.readcount = n
  earlyIff : ∀ p, p ∈ early ↔ (s.pc p).early = true
  lateIff : ∀ p, p ∈ late ↔ (s.pc p).late = true
  entered : s.entered = n + early.card
  returned : n = s.returned + late.card
  valid : ∀ p, s.pc p ≠ .argfd false

structure Locked (s : RState P) : Prop where
  owner : ∀ p, (s.pc p).owns = true → s.lock = some p
  store : ∀ p n, s.pc p = .incStore n → n = s.readcount

structure Answers (s : RState P) : Prop where
  asks : ∀ p, (s.pc p).asks = true → (s.since p : Int) ≤ s.readcount ∧ s.floor p ≤ s.readcount
  loaded : ∀ p n, (s.pc p).loaded = some n →
    (s.since p : Int) ≤ n ∧ s.floor p ≤ n ∧ n ≤ s.readcount
  best : s.best ≤ s.readcount
  exact : Exact s

/-! ## What the steps keep -/

theorem Counts.go (h : Counts s n early late) (hpc : t.pc = Function.update s.pc p c)
    (hearly : c.early = (s.pc p).early) (hlate : c.late = (s.pc p).late)
    (hvalid : c ≠ .argfd false) (hcount : t.readcount = s.readcount)
    (hentered : t.entered = s.entered) (hreturned : t.returned = s.returned) :
    Counts t n early late := by
  have hpcs : ∀ q, t.pc q = if q = p then c else s.pc q := fun q => by
    rw [hpc, Function.update_apply]
  constructor
  · rw [hcount, h.count]
  · intro q
    rw [h.earlyIff q, hpcs]
    split
    · rename_i hq
      rw [hq, hearly]
    · rfl
  · intro q
    rw [h.lateIff q, hpcs]
    split
    · rename_i hq
      rw [hq, hlate]
    · rfl
  · rw [hentered, h.entered]
  · rw [hreturned, ← h.returned]
  · intro q
    rw [hpcs]
    split
    · exact hvalid
    · exact h.valid q

theorem Counts.enter (h : Counts s n early late) (hpc : s.pc p = .idle) :
    Counts ({ s with entered := s.entered + 1 }.go p (.argfd true)) n (insert p early) late := by
  have hnot : p ∉ early := by
    rw [h.earlyIff, hpc]
    exact Bool.false_ne_true
  constructor
  · exact h.count
  · intro q
    rw [Finset.mem_insert, h.earlyIff, RState.go_pc]
    by_cases hq : q = p
    · simp [hq, Pc.early]
    · simp [hq]
  · intro q
    rw [h.lateIff, RState.go_pc]
    by_cases hq : q = p
    · simp [hq, hpc, Pc.late]
    · simp [hq]
  · show s.entered + 1 = n + (insert p early).card
    rw [Finset.card_insert_of_notMem hnot, h.entered, Nat.add_assoc]
  · exact h.returned
  · intro q
    rw [RState.go_pc]
    split
    · exact nofun
    · exact h.valid q

theorem Counts.store {v : Int} (h : Counts s n early late) (hpc : s.pc p = .incStore v)
    (hcount : t.readcount = n + 1) (ht : t.pc = Function.update s.pc p .incRelease)
    (hentered : t.entered = s.entered) (hreturned : t.returned = s.returned) :
    Counts t (n + 1) (early.erase p) (insert p late) := by
  have hpcs : ∀ q, t.pc q = if q = p then .incRelease else s.pc q := fun q => by
    rw [ht, Function.update_apply]
  have hin : p ∈ early := by
    rw [h.earlyIff, hpc]
    rfl
  have hnot : p ∉ late := by
    rw [h.lateIff, hpc]
    exact Bool.false_ne_true
  have hcard := Finset.card_erase_add_one hin
  constructor
  · rw [hcount]
    push_cast
    rfl
  · intro q
    rw [Finset.mem_erase, h.earlyIff, hpcs]
    by_cases hq : q = p
    · simp [hq, Pc.early]
    · simp [hq]
  · intro q
    rw [Finset.mem_insert, h.lateIff, hpcs]
    by_cases hq : q = p
    · simp [hq, Pc.late]
    · simp [hq]
  · rw [hentered, h.entered]
    omega
  · rw [hreturned, Finset.card_insert_of_notMem hnot]
    have := h.returned
    omega
  · intro q
    rw [hpcs]
    split
    · exact nofun
    · exact h.valid q

theorem Counts.leave (h : Counts s n early late) (hpc : s.pc p = .fileread) :
    Counts ({ s with returned := s.returned + 1 }.go p .idle) n early (late.erase p) := by
  have hin : p ∈ late := by
    rw [h.lateIff, hpc]
    rfl
  have hcard := Finset.card_erase_add_one hin
  constructor
  · exact h.count
  · intro q
    rw [h.earlyIff, RState.go_pc]
    by_cases hq : q = p
    · simp [hq, hpc, Pc.early]
    · simp [hq]
  · intro q
    rw [Finset.mem_erase, h.lateIff, RState.go_pc]
    by_cases hq : q = p
    · simp [hq, Pc.late]
    · simp [hq]
  · exact h.entered
  · show n = s.returned + 1 + (late.erase p).card
    have := h.returned
    omega
  · intro q
    rw [RState.go_pc]
    split
    · exact nofun
    · exact h.valid q

theorem Locked.go (h : Locked s) (hpc : t.pc = Function.update s.pc p c)
    (hother : ∀ q, q ≠ p → (s.pc q).owns = true → t.lock = some q ∧ t.readcount = s.readcount)
    (howner : c.owns = true → t.lock = some p) (hstore : ∀ v, c = .incStore v → v = t.readcount) :
    Locked t := by
  have hpcs : ∀ q, t.pc q = if q = p then c else s.pc q := fun q => by
    rw [hpc, Function.update_apply]
  constructor
  · intro q hq
    rw [hpcs] at hq
    split at hq
    · rename_i heq
      rw [heq]
      exact howner hq
    · rename_i hne
      exact (hother q hne hq).1
  · intro q v hq
    rw [hpcs] at hq
    split at hq
    · exact hstore v hq
    · rename_i hne
      rw [(hother q hne (by rw [hq]; rfl)).2]
      exact h.store q v hq

omit [DecidableEq P] in
theorem Locked.alone (h : Locked s) (hp : (s.pc p).owns = true) (hq : (s.pc q).owns = true) :
    q = p := Option.some.inj ((h.owner q hq).symm.trans (h.owner p hp))

theorem Answers.go (h : Answers s) (hpc : t.pc = Function.update s.pc p c)
    (hcount : s.readcount ≤ t.readcount) (hsince : ∀ q, q ≠ p → t.since q = s.since q)
    (hfloor : ∀ q, q ≠ p → t.floor q = s.floor q)
    (hasks : c.asks = true → (t.since p : Int) ≤ t.readcount ∧ t.floor p ≤ t.readcount)
    (hloaded : ∀ v, c.loaded = some v →
      (t.since p : Int) ≤ v ∧ t.floor p ≤ v ∧ v ≤ t.readcount)
    (hbest : t.best ≤ t.readcount) (hexact : Exact t) : Answers t := by
  have hpcs : ∀ q, t.pc q = if q = p then c else s.pc q := fun q => by
    rw [hpc, Function.update_apply]
  refine ⟨fun q hq => ?_, fun q v hq => ?_, hbest, hexact⟩
  · rw [hpcs] at hq
    split at hq
    · rename_i heq
      rw [heq]
      exact hasks hq
    · rename_i hne
      obtain ⟨h1, h2⟩ := h.asks q hq
      rw [hsince q hne, hfloor q hne]
      exact ⟨h1.trans hcount, h2.trans hcount⟩
  · rw [hpcs] at hq
    split at hq
    · rename_i heq
      rw [heq]
      exact hloaded v hq
    · rename_i hne
      obtain ⟨h1, h2, h3⟩ := h.loaded q v hq
      rw [hsince q hne, hfloor q hne]
      exact ⟨h1, h2, h3.trans hcount⟩

def Inv (s : RState P) : Prop :=
  ∃ n early late, Counts s n early late ∧ Locked s ∧ Answers s

theorem Inv.go (h : Inv s) (hearly : c.early = (s.pc p).early) (hlate : c.late = (s.pc p).late)
    (hvalid : c ≠ .argfd false) (howns : c.owns = (s.pc p).owns)
    (hstore : ∀ v, c = .incStore v → v = s.readcount)
    (hasks : c.asks = true → (s.pc p).asks = true)
    (hloaded : ∀ v, c.loaded = some v →
      (s.since p : Int) ≤ v ∧ s.floor p ≤ v ∧ v ≤ s.readcount) : Inv (s.go p c) := by
  obtain ⟨n, early, late, hcounts, hlocked, hanswers⟩ := h
  refine ⟨n, early, late, hcounts.go rfl hearly hlate hvalid rfl rfl rfl, ?_, ?_⟩
  · exact hlocked.go rfl (fun q _ hq => ⟨hlocked.owner q hq, rfl⟩)
      (fun hc => hlocked.owner p (howns ▸ hc)) hstore
  · exact hanswers.go rfl (le_refl _) (fun _ _ => rfl) (fun _ _ => rfl)
      (fun hc => hanswers.asks p (hasks hc)) hloaded hanswers.best hanswers.exact

theorem Inv.acquire (h : Inv s) (hlock : s.lock = none) (hearly : c.early = (s.pc p).early)
    (hlate : c.late = (s.pc p).late) (hvalid : c ≠ .argfd false)
    (hstore : ∀ v, c ≠ .incStore v) (hasks : c.asks = true → (s.pc p).asks = true)
    (hloaded : c.loaded = none) : Inv ({ s with lock := some p }.go p c) := by
  obtain ⟨n, early, late, hcounts, hlocked, hanswers⟩ := h
  refine ⟨n, early, late, hcounts.go rfl hearly hlate hvalid rfl rfl rfl, ?_, ?_⟩
  · refine hlocked.go rfl (fun q _ hq => ?_) (fun _ => rfl) (fun v hv => absurd hv (hstore v))
    rw [hlocked.owner q hq] at hlock
    cases hlock
  · exact hanswers.go rfl (le_refl _) (fun _ _ => rfl) (fun _ _ => rfl)
      (fun hc => hanswers.asks p (hasks hc)) (fun v hv => by rw [hloaded] at hv; cases hv)
      hanswers.best hanswers.exact

theorem Inv.release (h : Inv s) (howns : (s.pc p).owns = true) (hearly : c.early = (s.pc p).early)
    (hlate : c.late = (s.pc p).late) (hfree : c.owns = false) (hvalid : c ≠ .argfd false)
    (hasks : c.asks = false) (hloaded : c.loaded = (s.pc p).loaded) :
    Inv ({ s with lock := none }.go p c) := by
  obtain ⟨n, early, late, hcounts, hlocked, hanswers⟩ := h
  refine ⟨n, early, late, hcounts.go rfl hearly hlate hvalid rfl rfl rfl, ?_, ?_⟩
  · refine hlocked.go rfl (fun q hne hq => absurd (hlocked.alone howns hq) hne) (fun hc => ?_)
      (fun v hv => ?_)
    · rw [hfree] at hc
      cases hc
    · rw [hv] at hfree
      cases hfree
  · refine hanswers.go rfl (le_refl _) (fun _ _ => rfl) (fun _ _ => rfl) (fun hc => ?_)
      (fun v hv => hanswers.loaded p v (hloaded ▸ hv)) hanswers.best hanswers.exact
    rw [hasks] at hc
    cases hc

/-- The store of `readcount++`, with fewer than `2^31` calls entered. -/
theorem Inv.store {v : Int} (h : Inv s) (hpc : s.pc p = .incStore v) (hfew : s.entered < 2 ^ 31) :
    Inv ({ s with readcount := int32 (v + 1) }.go p .incRelease) := by
  obtain ⟨n, early, late, hcounts, hlocked, hanswers⟩ := h
  have howns : (s.pc p).owns = true := by rw [hpc]; rfl
  have hin : p ∈ early := by
    rw [hcounts.earlyIff, hpc]
    rfl
  have hpos := Finset.card_pos.2 ⟨p, hin⟩
  have hentered := hcounts.entered
  have hvalue : int32 (v + 1) = n + 1 := by
    rw [hlocked.store p v hpc, hcounts.count]
    exact int32_of_range (by omega) (by omega)
  have hle : s.readcount ≤ int32 (v + 1) := by
    rw [hvalue, hcounts.count]
    omega
  refine ⟨n + 1, _, _, hcounts.store hpc hvalue rfl rfl rfl, ?_, ?_⟩
  · exact hlocked.go rfl (fun q hne hq => absurd (hlocked.alone howns hq) hne)
      (fun _ => hlocked.owner p howns) nofun
  · exact hanswers.go rfl hle (fun _ _ => rfl) (fun _ _ => rfl) nofun nofun
      (hanswers.best.trans hle) hanswers.exact

theorem Inv.ask (h : Inv s) (hpc : s.pc p = .idle) :
    Inv ({ s with
      since := Function.update s.since p s.returned
      floor := Function.update s.floor p s.best }.go p .getAcquire) := by
  obtain ⟨n, early, late, hcounts, hlocked, hanswers⟩ := h
  have hreturned := hcounts.returned
  refine ⟨n, early, late, ?_, ?_, ?_⟩
  · exact hcounts.go rfl (by rw [hpc]; rfl) (by rw [hpc]; rfl) nofun rfl rfl rfl
  · exact hlocked.go rfl (fun q _ hq => ⟨hlocked.owner q hq, rfl⟩) nofun nofun
  · refine hanswers.go rfl (le_refl _) (fun q hq => Function.update_of_ne hq ..)
      (fun q hq => Function.update_of_ne hq ..) (fun _ => ?_) nofun hanswers.best hanswers.exact
    show ((Function.update s.since p s.returned p : Nat) : Int) ≤ s.readcount ∧
      Function.update s.floor p s.best p ≤ s.readcount
    rw [Function.update_self, Function.update_self, hcounts.count]
    refine ⟨by omega, ?_⟩
    rw [← hcounts.count]
    exact hanswers.best

theorem Inv.answer {v : Int} (h : Inv s) (hpc : s.pc p = .getReturn v) :
    Inv ({ s with
      best := max s.best v
      results := ⟨v, s.since p, s.entered, s.floor p⟩ :: s.results }.go p .idle) := by
  obtain ⟨n, early, late, hcounts, hlocked, hanswers⟩ := h
  obtain ⟨hsince, hfloor, hle⟩ := hanswers.loaded p v (by rw [hpc]; rfl)
  have hentered := hcounts.entered
  refine ⟨n, early, late, ?_, ?_, ?_⟩
  · exact hcounts.go rfl (by rw [hpc]; rfl) (by rw [hpc]; rfl) nofun rfl rfl rfl
  · exact hlocked.go rfl (fun q _ hq => ⟨hlocked.owner q hq, rfl⟩) nofun nofun
  · refine hanswers.go rfl (le_refl _) (fun _ _ => rfl) (fun _ _ => rfl) nofun nofun
      (max_le hanswers.best hle) ⟨?_, ?_⟩
    · intro r hr
      rcases List.mem_cons.1 hr with rfl | hold
      · refine ⟨hsince, ?_, hfloor⟩
        rw [hcounts.count] at hle
        dsimp only
        omega
      · exact hanswers.exact.1 r hold
    · intro r hr
      rcases List.mem_cons.1 hr with rfl | hold
      · exact le_max_right ..
      · exact (hanswers.exact.2 r hold).trans (le_max_left ..)

theorem Inv.enter (h : Inv s) (hpc : s.pc p = .idle) :
    Inv ({ s with entered := s.entered + 1 }.go p (.argfd true)) := by
  obtain ⟨n, early, late, hcounts, hlocked, hanswers⟩ := h
  refine ⟨n, _, late, hcounts.enter hpc, ?_, ?_⟩
  · exact hlocked.go rfl (fun q _ hq => ⟨hlocked.owner q hq, rfl⟩) nofun nofun
  · exact hanswers.go rfl (le_refl _) (fun _ _ => rfl) (fun _ _ => rfl) nofun nofun
      hanswers.best hanswers.exact

theorem Inv.leave (h : Inv s) (hpc : s.pc p = .fileread) :
    Inv ({ s with returned := s.returned + 1 }.go p .idle) := by
  obtain ⟨n, early, late, hcounts, hlocked, hanswers⟩ := h
  refine ⟨n, early, _, hcounts.leave hpc, ?_, ?_⟩
  · exact hlocked.go rfl (fun q _ hq => ⟨hlocked.owner q hq, rfl⟩) nofun nofun
  · exact hanswers.go rfl (le_refl _) (fun _ _ => rfl) (fun _ _ => rfl) nofun nofun
      hanswers.best hanswers.exact

theorem Inv.step {a : Act P} (h : Inv s) (hfew : s.entered < 2 ^ 31) (hok : ValidRead s a)
    (hn : next s a = some t) : Inv t := by
  cases a with
  | read p valid =>
      simp only [next] at hn
      split at hn
      · rename_i hpc
        cases hn
        cases (hok : valid = true)
        exact h.enter hpc
      · cases hn
  | getreadcount p =>
      simp only [next] at hn
      split at hn
      · rename_i hpc
        cases hn
        exact h.ask hpc
      · cases hn
  | step p =>
      simp only [next, access] at hn
      split at hn
      · cases hn
      · rename_i hpc
        cases hn
        exact h.go (by rw [hpc]; rfl) (by rw [hpc]; rfl) nofun (by rw [hpc]; rfl) nofun nofun nofun
      · rename_i hpc
        obtain ⟨n, early, late, hcounts, -⟩ := h
        exact absurd hpc (hcounts.valid p)
      · rename_i hpc
        split at hn
        · rename_i hlock
          cases hn
          exact h.acquire hlock (by rw [hpc]; rfl) (by rw [hpc]; rfl) nofun nofun nofun rfl
        · cases hn
      · rename_i hpc
        cases hn
        refine h.go (by rw [hpc]; rfl) (by rw [hpc]; rfl) nofun (by rw [hpc]; rfl) ?_ nofun nofun
        intro v hv
        cases hv
        rfl
      · rename_i v hpc
        cases hn
        exact h.store hpc hfew
      · rename_i hpc
        cases hn
        exact h.release (by rw [hpc]; rfl) (by rw [hpc]; rfl) (by rw [hpc]; rfl) rfl nofun rfl
          (by rw [hpc]; rfl)
      · rename_i hpc
        cases hn
        exact h.leave hpc
      · rename_i hpc
        split at hn
        · rename_i hlock
          cases hn
          exact h.acquire hlock (by rw [hpc]; rfl) (by rw [hpc]; rfl) nofun nofun
            (fun _ => by rw [hpc]; rfl) rfl
        · cases hn
      · rename_i hpc
        cases hn
        have hasks : (s.pc p).asks = true := by rw [hpc]; rfl
        refine h.go (by rw [hpc]; rfl) (by rw [hpc]; rfl) nofun (by rw [hpc]; rfl) nofun nofun ?_
        intro v hv
        cases hv
        obtain ⟨-, -, -, -, -, hanswers⟩ := h
        obtain ⟨hsince, hfloor⟩ := hanswers.asks p hasks
        exact ⟨hsince, hfloor, le_refl _⟩
      · rename_i v hpc
        cases hn
        exact h.release (by rw [hpc]; rfl) (by rw [hpc]; rfl) (by rw [hpc]; rfl) rfl nofun rfl
          (by rw [hpc]; rfl)
      · rename_i v hpc
        cases hn
        exact h.answer hpc

omit [DecidableEq P] in
theorem Inv.boot : Inv (RState.boot P) := by
  refine ⟨0, ∅, ∅, ⟨rfl, fun p => ?_, fun p => ?_, rfl, rfl, nofun⟩, ⟨nofun, nofun⟩, ⟨nofun, nofun,
    le_refl _, nofun, nofun⟩⟩
  · exact iff_of_false (Finset.notMem_empty p) Bool.false_ne_true
  · exact iff_of_false (Finset.notMem_empty p) Bool.false_ne_true

theorem entered_mono {a : Act P} (hn : next s a = some t) : s.entered ≤ t.entered := by
  cases a with
  | read p valid =>
      simp only [next] at hn
      split at hn
      · cases hn
        exact Nat.le_succ _
      · cases hn
  | getreadcount p =>
      simp only [next] at hn
      split at hn
      · cases hn
        exact le_refl _
      · cases hn
  | step p =>
      simp only [next, access] at hn
      split at hn <;> (try split at hn) <;> cases hn <;> exact le_refl _

/-- In a run of fewer than `2^31` calls of `read`, all of them with an open descriptor, the
results of `getreadcount` are exact. -/
theorem reachable_exact {s : RState P}
    (h : Reach next ValidRead (fun s => s = RState.boot P) s) (hfew : s.entered < 2 ^ 31) :
    Exact s := by
  have hinv : s.entered < 2 ^ 31 → Inv s := by
    refine Reach.inv (I := fun s => s.entered < 2 ^ 31 → Inv s) ?_ ?_ h
    · rintro _ rfl -
      exact Inv.boot
    · intro s a t hs hok hn hlt
      have hfew := (entered_mono hn).trans_lt hlt
      exact (hs hfew).step hfew hok hn
  obtain ⟨-, -, -, -, -, hanswers⟩ := hinv hfew
  exact hanswers.exact

end

/-- Process 0 reads and asks, while process 1 is in the middle of a `read`. -/
def sampleActs : List (Act (Fin 2)) :=
  let zero : Fin 2 := ⟨0, Nat.two_pos⟩
  let one : Fin 2 := ⟨1, Nat.one_lt_two⟩
  [.read zero true, .read one true] ++ List.replicate 6 (.step zero) ++
    [.step one, .getreadcount zero] ++ List.replicate 4 (.step zero)

theorem reachable_exact_sample :
    ∃ s : RState (Fin 2), Reach next ValidRead (fun s => s = RState.boot (Fin 2)) s ∧
      s.results = [⟨1, 1, 2, 0⟩] ∧ Exact s := by
  have hrun : (replay (guarded next ValidRead) (RState.boot (Fin 2)) sampleActs).any (fun s =>
      decide (s.results = [⟨1, 1, 2, 0⟩] ∧ s.entered < 2 ^ 31)) = true := by
    decide +kernel
  obtain ⟨s, hs, hp⟩ := (Option.any_eq_true _ _).1 hrun
  obtain ⟨hresults, hfew⟩ := of_decide_eq_true hp
  have hreach : Reach next ValidRead (fun s => s = RState.boot (Fin 2)) s :=
    replay_guarded_reach (.start rfl) hs
  exact ⟨s, hreach, hresults, reachable_exact hreach hfew⟩

/-- A `read` of a closed descriptor returns and is not counted. -/
theorem closed_descriptor_not_counted :
    ∃ s : RState (Fin 2), Reach next Free (fun s => s = RState.boot (Fin 2)) s ∧
      s.entered < 2 ^ 31 ∧ s.results = [⟨0, 1, 1, 0⟩] ∧ ¬ Exact s := by
  have hrun : (replay next (RState.boot (Fin 2))
      [.read 0 false, .step 0, .getreadcount 0, .step 0, .step 0, .step 0, .step 0]).any (fun s =>
        decide (s.entered < 2 ^ 31 ∧ s.results = [⟨0, 1, 1, 0⟩])) = true := by
    decide +kernel
  obtain ⟨s, hs, hp⟩ := (Option.any_eq_true _ _).1 hrun
  obtain ⟨hfew, hresults⟩ := of_decide_eq_true hp
  refine ⟨s, replay_reach (.start rfl) (fun _ _ _ => trivial) hs, hfew, hresults, fun hexact => ?_⟩
  have hbound := (hexact.1 ⟨0, 1, 1, 0⟩ (by rw [hresults]; exact List.mem_singleton_self _)).1
  exact absurd hbound (by decide)

end G9OS.ReadCount
