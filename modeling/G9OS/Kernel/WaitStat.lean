import G9OS.Kernel.Copyout
import G9OS.Kernel.Boot

/-! # wait_stat and wait

The two wait loops as they are written, with the bytes they copy out and the rounds
between which the caller sleeps. With null addresses for the times they are the same
function. With others `kwait_stat` may fault pages in before it copies the status, and
then the status may find no memory left.
-/

namespace G9OS.Kernel

open Lib

variable {ok : Bool} {c : Copied} {items : List (Nat × List UInt8)}
  {x x' : Option Int × Copied × State} {own : PageTable}

/-- What a pass over the process table comes to: the call returns, or it knows whether the
caller has children. -/
inductive Pass
  | returns (ret : Int) (copied : Copied) (s : State)
  | ends (havekids : Bool)

section
variable [Link]

/-- The `copyout` that a wait call makes if the address is not null. -/
def copyoutUnlessNull (s : State) (p : Fin NPROC) (addr : Nat) (src : List UInt8) :
    Except Panic (Bool × Copied × State) :=
  if addr = 0 then .ok (true, [], s) else copyoutTo s p addr src

def kwaitFound (s : State) (p : Fin NPROC) (addr : Nat) (pp : Fin NPROC) : Except Panic Pass := do
  let pid := (s.proc pp).pid
  let (ok, copied, s) ← copyoutUnlessNull s p addr (intBytes (s.proc pp).xstate)
  if ok = false then .ok (.returns (-1) copied s)
  else
    let s ← freeproc s pp
    .ok (.returns pid copied s)

/-- The inner loop of `kwait` over the slots still to be looked at. -/
def kwaitPass (s : State) (p : Fin NPROC) (addr : Nat) :
    List (Fin NPROC) → Bool → Except Panic Pass
  | [], havekids => .ok (.ends havekids)
  | pp :: rest, havekids =>
      if (s.proc pp).parent = some p then
        if (s.proc pp).state = .zombie then kwaitFound s p addr pp
        else kwaitPass s p addr rest true
      else kwaitPass s p addr rest havekids

def kwaitStatFound (s : State) (p : Fin NPROC) (wtime rtime status : Nat) (pp : Fin NPROC) :
    Except Panic Pass := do
  let pid := (s.proc pp).pid
  let (ok, c1, s) ← copyoutUnlessNull s p wtime (uintBytes (s.proc pp).stime)
  if ok = false then .ok (.returns (-1) c1 s)
  else
    let (ok, c2, s) ← copyoutUnlessNull s p rtime (uintBytes (s.proc pp).rtime)
    if ok = false then .ok (.returns (-1) (c1 ++ c2) s)
    else
      let (ok, c3, s) ← copyoutUnlessNull s p status (intBytes (s.proc pp).xstate)
      if ok = false then .ok (.returns (-1) (c1 ++ c2 ++ c3) s)
      else
        let s ← freeproc s pp
        .ok (.returns pid (c1 ++ c2 ++ c3) s)

/-- The inner loop of `kwait_stat`. -/
def kwaitStatPass (s : State) (p : Fin NPROC) (wtime rtime status : Nat) :
    List (Fin NPROC) → Bool → Except Panic Pass
  | [], havekids => .ok (.ends havekids)
  | pp :: rest, havekids =>
      if (s.proc pp).parent ≠ some p then kwaitStatPass s p wtime rtime status rest havekids
      else if (s.proc pp).state = .zombie then kwaitStatFound s p wtime rtime status pp
      else kwaitStatPass s p wtime rtime status rest true

/-- What follows a pass: without a child to reap the call gives up, or the caller sleeps and
the result is `none`. -/
def afterPass (s : State) (p : Fin NPROC) : Pass → Option Int × Copied × State
  | .returns ret copied t => (some ret, copied, t)
  | .ends havekids =>
      if havekids = false ∨ (s.proc p).killed ≠ 0 then (some (-1), [], s)
      else (none, [], s.modProc p (asleep (.proc p)))

/-- One round of `kwait`: a pass, and what follows it. -/
def kwaitRound (p : Fin NPROC) (addr : Nat) (s : State) :
    Except Panic (Option Int × Copied × State) :=
  (kwaitPass s p addr (List.finRange NPROC) false).map (afterPass s p)

def kwaitStatRound (p : Fin NPROC) (wtime rtime status : Nat) (s : State) :
    Except Panic (Option Int × Copied × State) :=
  (kwaitStatPass s p wtime rtime status (List.finRange NPROC) false).map (afterPass s p)

/-- A whole call of `p`: rounds until one returns. Each further state is the one that the
caller finds when it wakes up, whatever has happened to the table while it slept. -/
def rounds (p : Fin NPROC) (round : State → Except Panic (Option Int × Copied × State)) :
    State → List State → Except Panic (Option Int × Copied × State)
  | s, [] => round s
  | s, w :: ws =>
      match round s with
      | .ok (none, _, _) => rounds p round (w.modProc p awake) ws
      | r => r

/-! ## One pass -/

def tablePass (s : State) (p : Fin NPROC) (found : Fin NPROC → Except Panic Pass)
    (l : List (Fin NPROC)) (b : Bool) : Except Panic Pass :=
  match l.find? fun i => decide ((s.proc i).parent = some p ∧ (s.proc i).state = .zombie) with
  | some pp => found pp
  | none => .ok (.ends (b || (l.find? fun i => decide ((s.proc i).parent = some p)).isSome))

variable {s t : State} {p pp : Fin NPROC}

theorem kwaitPass_eq (s : State) (p : Fin NPROC) (addr : Nat) (l : List (Fin NPROC)) (b : Bool) :
    kwaitPass s p addr l b = tablePass s p (kwaitFound s p addr) l b := by
  induction l generalizing b with
  | nil => simp [kwaitPass, tablePass]
  | cons pp l ih =>
      unfold kwaitPass
      by_cases hpp : (s.proc pp).parent = some p
      · by_cases hz : (s.proc pp).state = .zombie
        · simp [hpp, hz, tablePass]
        · simp [hpp, hz, ih, tablePass]
      · simp [hpp, ih, tablePass]

/-- The other loop skips the slots of others first, and comes to the same. -/
theorem kwaitStatPass_eq (s : State) (p : Fin NPROC) (wtime rtime status : Nat)
    (l : List (Fin NPROC)) (b : Bool) :
    kwaitStatPass s p wtime rtime status l b =
      tablePass s p (kwaitStatFound s p wtime rtime status) l b := by
  induction l generalizing b with
  | nil => simp [kwaitStatPass, tablePass]
  | cons pp l ih =>
      unfold kwaitStatPass
      by_cases hpp : (s.proc pp).parent = some p
      · by_cases hz : (s.proc pp).state = .zombie
        · simp [hpp, hz, tablePass]
        · simp [hpp, hz, ih, tablePass]
      · simp [hpp, ih, tablePass]

omit [Link] in
theorem tablePass_all (s : State) (p : Fin NPROC) (found : Fin NPROC → Except Panic Pass) :
    tablePass s p found (List.finRange NPROC) false =
      match zombieChild s p with
      | some pp => found pp
      | none => .ok (.ends (havekids s p)) := by
  unfold tablePass zombieChild havekids
  rw [Fin.find?_eq_find?_finRange, Fin.find?_eq_find?_finRange, Bool.false_or]

theorem kwaitRound_eq (p : Fin NPROC) (addr : Nat) (s : State) :
    kwaitRound p addr s = (match zombieChild s p with
      | some pp => kwaitFound s p addr pp
      | none => .ok (.ends (havekids s p))).map (afterPass s p) := by
  rw [kwaitRound, kwaitPass_eq, tablePass_all]

theorem kwaitStatRound_eq (p : Fin NPROC) (wtime rtime status : Nat) (s : State) :
    kwaitStatRound p wtime rtime status s = (match zombieChild s p with
      | some pp => kwaitStatFound s p wtime rtime status pp
      | none => .ok (.ends (havekids s p))).map (afterPass s p) := by
  rw [kwaitStatRound, kwaitStatPass_eq, tablePass_all]

theorem kwaitStatFound_null (s : State) (p : Fin NPROC) (addr : Nat) :
    kwaitStatFound s p 0 0 addr = kwaitFound s p addr := by
  funext pp
  unfold kwaitStatFound kwaitFound copyoutUnlessNull
  rfl

theorem kwaitStatRound_null (p : Fin NPROC) (addr : Nat) :
    kwaitStatRound p 0 0 addr = kwaitRound p addr := by
  funext s
  rw [kwaitStatRound_eq, kwaitRound_eq, kwaitStatFound_null]

/-! ## The rounds are those of the kernel's model -/

omit [Link] in
theorem setSpace_eq_self (h : (s.proc p).pagetable = some own) :
    s.setSpace p own s.kmem = s := by
  unfold State.setSpace State.modProc State.setKmem
  have hp : ({ s.proc p with pagetable := some own } : Proc) = s.proc p := by rw [← h]
  dsimp only
  rw [hp, Function.update_eq_self]

omit [Link] in
theorem setSpace_setSpace (s : State) (p : Fin NPROC) (own own' : PageTable) (m m' : Kmem) :
    (s.setSpace p own m).setSpace p own' m' = s.setSpace p own' m' := by
  unfold State.setSpace
  rw [modProc_setKmem, modProc_modProc]
  rfl

theorem copyouts_one {addr : Nat} (h : addr ≠ 0) (sz : Nat) (own : PageTable) (m : Kmem) :
    copyouts sz [addr] own m = copyout sz own none addr 4 m := by
  rw [copyouts, if_neg h]
  cases copyout sz own none addr 4 m with
  | error e => rfl
  | ok x =>
      obtain ⟨ok, own', m'⟩ := x
      cases ok with
      | true => rfl
      | false => rfl

theorem copyouts_cons (addr : Nat) (rest : List Nat) (sz : Nat) (own : PageTable) (m : Kmem) :
    copyouts sz (addr :: rest) own m = (do
      let (ok, own, m) ← copyouts sz [addr] own m
      if ok then copyouts sz rest own m else .ok (false, own, m)) := by
  by_cases h : addr = 0
  · simp [copyouts, h]
  · rw [copyouts_one h, copyouts, if_neg h]

theorem copyoutUnlessNull_forget {src : List UInt8} (addr : Nat)
    (ho : (s.proc p).pagetable = some own) (hsrc : src.length = 4) :
    (copyoutUnlessNull s p addr src).map dropCopied =
      (copyouts (s.proc p).sz [addr] own s.kmem).map fun x => (x.1, s.setSpace p x.2.1 x.2.2) := by
  by_cases h : addr = 0
  · rw [h, copyoutUnlessNull, if_pos rfl]
    show Except.ok (true, s) = Except.ok (true, s.setSpace p own s.kmem)
    rw [setSpace_eq_self ho]
  · have hforget := copyoutBytesLoop_forget (s.proc p).sz 4 own addr src s.kmem
    rw [copyoutUnlessNull, if_neg h, copyouts_one h, copyoutTo, ho, hsrc, copyout]
    rw [hsrc] at hforget
    rw [← hforget]
    dsimp only
    cases copyoutBytesLoop (s.proc p).sz 4 own addr src s.kmem with
    | error e => rfl
    | ok x => rfl

def copyoutAll (p : Fin NPROC) :
    List (Nat × List UInt8) → State → Except Panic (Bool × Copied × State)
  | [], s => .ok (true, [], s)
  | (addr, src) :: rest, s => do
      let (ok, c, s) ← copyoutUnlessNull s p addr src
      if ok = false then .ok (false, c, s)
      else
        let (ok, c', s) ← copyoutAll p rest s
        .ok (ok, c ++ c', s)

def foundAll (s : State) (p : Fin NPROC) (items : List (Nat × List UInt8)) (pp : Fin NPROC) :
    Except Panic Pass := do
  let (ok, c, t) ← copyoutAll p items s
  if ok = false then .ok (.returns (-1) c t)
  else
    let u ← freeproc t pp
    .ok (.returns (s.proc pp).pid c u)

def statusItem (s : State) (addr : Nat) (pp : Fin NPROC) : List (Nat × List UInt8) :=
  [(addr, intBytes (s.proc pp).xstate)]

def timeItems (s : State) (wtime rtime : Nat) (pp : Fin NPROC) : List (Nat × List UInt8) :=
  [(wtime, uintBytes (s.proc pp).stime), (rtime, uintBytes (s.proc pp).rtime)]

theorem kwaitFound_eq (s : State) (p : Fin NPROC) (addr : Nat) (pp : Fin NPROC) :
    kwaitFound s p addr pp = foundAll s p (statusItem s addr pp) pp := by
  unfold kwaitFound foundAll statusItem
  simp only [copyoutAll, bind_assoc]
  congr 1
  funext x
  obtain ⟨ok, c, t⟩ := x
  cases ok with
  | false => rfl
  | true => simp

/-- A slot but for what its page table maps. -/
def Proc.sansMemory (q : Proc) : Proc := { q with pagetable := none }

/-- The process tables are the same but for what the page table of `p` maps. -/
structure SameTable (p : Fin NPROC) (s t : State) : Prop where
  others : ∀ i, i ≠ p → t.proc i = s.proc i
  own : (t.proc p).sansMemory = (s.proc p).sansMemory
  held : (t.proc p).pagetable.isSome = (s.proc p).pagetable.isSome

omit [Link] in
theorem SameTable.refl (p : Fin NPROC) (s : State) : SameTable p s s := ⟨fun _ _ => rfl, rfl, rfl⟩

omit [Link] in
theorem SameTable.symm (h : SameTable p s t) : SameTable p t s :=
  ⟨fun i hi => (h.others i hi).symm, h.own.symm, h.held.symm⟩

omit [Link] in
theorem SameTable.trans {u : State} (h : SameTable p s t) (h' : SameTable p t u) :
    SameTable p s u :=
  ⟨fun i hi => (h'.others i hi).trans (h.others i hi), h'.own.trans h.own, h'.held.trans h.held⟩

omit [Link] in
theorem SameTable.sansMemory (h : SameTable p s t) (i : Fin NPROC) :
    (t.proc i).sansMemory = (s.proc i).sansMemory := by
  by_cases hi : i = p
  · rw [hi]
    exact h.own
  · rw [h.others i hi]

omit [Link] in
theorem SameTable.setSpace (ho : (s.proc p).pagetable = some own) (own' : PageTable) (m : Kmem) :
    SameTable p s (s.setSpace p own' m) := by
  refine ⟨fun i hi => setSpace_of_ne _ _ _ _ hi, ?_, ?_⟩
  · rw [setSpace_self]
    rfl
  · rw [setSpace_self, ho]
    rfl

theorem SameTable.freeproc {s' t' : State} (h : SameTable p s t) (hs : freeproc s pp = .ok s')
    (ht : freeproc t pp = .ok t') : SameTable p s' t' := by
  obtain ⟨m1, -, hs⟩ := bind_ok.1 hs
  obtain ⟨m2, -, hs⟩ := bind_ok.1 hs
  obtain ⟨m3, -, ht⟩ := bind_ok.1 ht
  obtain ⟨m4, -, ht⟩ := bind_ok.1 ht
  cases hs
  cases ht
  refine ⟨fun i hi => ?_, ?_, ?_⟩
  · by_cases hip : i = pp
    · subst hip
      rw [modProc_self, modProc_self]
      exact congrArg clearSlot (h.others i hi)
    · rw [modProc_of_ne _ _ _ hip, modProc_of_ne _ _ _ hip]
      exact h.others i hi
  · by_cases hip : p = pp
    · subst hip
      rw [modProc_self, modProc_self]
      have hclear := congrArg clearSlot h.own
      exact hclear
    · rw [modProc_of_ne _ _ _ hip, modProc_of_ne _ _ _ hip]
      exact h.own
  · by_cases hip : p = pp
    · subst hip
      rw [modProc_self, modProc_self]
      rfl
    · rw [modProc_of_ne _ _ _ hip, modProc_of_ne _ _ _ hip]
      exact h.held

theorem copyoutUnlessNull_table {addr : Nat} {src : List UInt8}
    (h : copyoutUnlessNull s p addr src = .ok (ok, c, t)) : SameTable p s t := by
  unfold copyoutUnlessNull copyoutTo at h
  split at h
  · cases h
    exact SameTable.refl p _
  · cases ho : (s.proc p).pagetable with
    | none => rw [ho] at h; cases h
    | some own =>
        rw [ho] at h
        obtain ⟨⟨ok', c', own', m⟩, -, h⟩ := bind_ok.1 h
        cases h
        exact SameTable.setSpace ho own' m

/-- The items of `kwait_stat` are read while the child is still there: the times, then the
status. -/
theorem kwaitStatFound_eq (s : State) (p : Fin NPROC) (wtime rtime status : Nat)
    (pp : Fin NPROC) : kwaitStatFound s p wtime rtime status pp =
      foundAll s p (timeItems s wtime rtime pp ++ statusItem s status pp) pp := by
  unfold kwaitStatFound foundAll timeItems statusItem
  simp only [List.cons_append, List.nil_append, copyoutAll, bind_assoc]
  cases h1 : copyoutUnlessNull s p wtime (uintBytes (s.proc pp).stime) with
  | error e => rfl
  | ok x =>
  obtain ⟨ok, c1, s1⟩ := x
  have hs1 := (copyoutUnlessNull_table h1).sansMemory pp
  have hr := congrArg Proc.rtime hs1
  change (s1.proc pp).rtime = (s.proc pp).rtime at hr
  cases ok with
  | false => rfl
  | true =>
  simp only [ok_bind, Bool.true_eq_false, if_false, bind_assoc, hr]
  cases h2 : copyoutUnlessNull s1 p rtime (uintBytes (s.proc pp).rtime) with
  | error e => rfl
  | ok x =>
  obtain ⟨ok, c2, s2⟩ := x
  have hs2 := (copyoutUnlessNull_table h2).sansMemory pp
  have hx := congrArg Proc.xstate (hs2.trans hs1)
  change (s2.proc pp).xstate = (s.proc pp).xstate at hx
  cases ok with
  | false => rfl
  | true =>
  simp only [ok_bind, Bool.true_eq_false, if_false, bind_assoc, hx]
  cases copyoutUnlessNull s2 p status (intBytes (s.proc pp).xstate) with
  | error e => rfl
  | ok x =>
  obtain ⟨ok, c3, s3⟩ := x
  cases ok with
  | false => simp
  | true => simp

theorem copyoutAll_forget (items : List (Nat × List UInt8)) (hlen : ∀ x ∈ items, x.2.length = 4)
    (ho : (s.proc p).pagetable = some own) :
    (copyoutAll p items s).map dropCopied =
      (copyouts (s.proc p).sz (items.map Prod.fst) own s.kmem).map
        fun x => (x.1, s.setSpace p x.2.1 x.2.2) := by
  induction items generalizing s own with
  | nil =>
      show Except.ok (true, s) = Except.ok (true, s.setSpace p own s.kmem)
      rw [setSpace_eq_self ho]
  | cons x items ih =>
      obtain ⟨addr, src⟩ := x
      have hsrc : src.length = 4 := hlen _ List.mem_cons_self
      rw [List.map_cons, copyouts_cons, copyoutAll, map_bind, map_bind]
      refine bind_congr_map (copyoutUnlessNull_forget addr ho hsrc) fun a b hab => ?_
      obtain ⟨ok, c, t⟩ := a
      obtain ⟨ok', own', m⟩ := b
      obtain ⟨rfl, rfl⟩ : ok = ok' ∧ t = s.setSpace p own' m := Prod.mk.inj hab
      cases ok with
      | false => rfl
      | true =>
          have hrest := ih (s := s.setSpace p own' m)
            (fun y hy => hlen y (List.mem_cons_of_mem _ hy)) (by rw [setSpace_self])
          have hsz : ((s.setSpace p own' m).proc p).sz = (s.proc p).sz := by rw [setSpace_self]
          have hmem : (s.setSpace p own' m).kmem = m := rfl
          simp only [hsz, hmem, setSpace_setSpace] at hrest
          simp only [Bool.true_eq_false, if_false, if_true, map_bind]
          rw [← hrest]
          cases copyoutAll p items (s.setSpace p own' m) with
          | error e => rfl
          | ok z => rfl

def forget (s : State) (p : Fin NPROC) (x : Pass) : Option Int × State :=
  dropCopied (afterPass s p x)

theorem foundAll_forget (hlen : ∀ x ∈ items, x.2.length = 4)
    (ho : (s.proc p).pagetable = some own) :
    (foundAll s p items pp).map (forget s p) = reapChild s p pp (items.map Prod.fst) := by
  unfold foundAll reapChild
  rw [ho, map_bind]
  refine bind_congr_map (copyoutAll_forget items hlen ho) fun a b hab => ?_
  obtain ⟨ok, c, t⟩ := a
  obtain ⟨ok', own', m⟩ := b
  obtain ⟨rfl, rfl⟩ : ok = ok' ∧ t = s.setSpace p own' m := Prod.mk.inj hab
  cases ok with
  | false => rfl
  | true =>
      simp only [Bool.true_eq_false, if_false, if_true, map_bind]
      rfl

omit [Link] in
theorem awake_fields (s : State) (p i : Fin NPROC) :
    ((s.modProc p awake).proc i).parent = (s.proc i).parent ∧
      ((s.modProc p awake).proc i).state = (s.proc i).state := by
  by_cases hi : i = p
  · subst hi
    rw [modProc_self]
    exact ⟨rfl, rfl⟩
  · rw [modProc_of_ne _ _ _ hi]
    exact ⟨rfl, rfl⟩

omit [Link] in
theorem zombieChild_awake (s : State) (p : Fin NPROC) :
    zombieChild (s.modProc p awake) p = zombieChild s p := by
  unfold zombieChild
  simp only [awake_fields]

omit [Link] in
theorem havekids_awake (s : State) (p : Fin NPROC) :
    havekids (s.modProc p awake) p = havekids s p := by
  unfold havekids
  simp only [awake_fields]

/-- A round without the bytes is a turn of the kernel's model. -/
theorem round_forget {addrs : List Nat} {found : Fin NPROC → Except Panic Pass}
    (hf : ∀ pp, (found pp).map (forget (s.modProc p awake) p) =
      reapChild (s.modProc p awake) p pp addrs) :
    ((match zombieChild (s.modProc p awake) p with
      | some pp => found pp
      | none => .ok (.ends (havekids (s.modProc p awake) p))).map
        (forget (s.modProc p awake) p)) = waitTurn s p addrs := by
  unfold waitTurn
  rw [zombieChild_awake, havekids_awake]
  cases zombieChild s p with
  | some pp => exact hf pp
  | none =>
      show Except.ok (forget _ _ _) = _
      unfold forget afterPass
      have hkilled : ((s.modProc p awake).proc p).killed = (s.proc p).killed := by
        rw [modProc_self]
        rfl
      rw [hkilled]
      dsimp only
      by_cases hend : havekids s p = false ∨ (s.proc p).killed ≠ 0
      · rw [if_pos hend, if_pos hend]
        rfl
      · rw [if_neg hend, if_neg hend, modProc_modProc]
        rfl

omit [Link] in
theorem pagetable_awake (ho : (s.proc p).pagetable = some own) :
    ((s.modProc p awake).proc p).pagetable = some own := by
  rw [modProc_self]
  exact ho

/-- Without the bytes a round of `kwait` is `kwait` as the kernel takes it. -/
theorem kwaitRound_forget (addr : Nat) (ho : (s.proc p).pagetable = some own) :
    (kwaitRound p addr (s.modProc p awake)).map dropCopied = kwait s p addr := by
  rw [kwaitRound_eq, map_map]
  refine round_forget fun pp => ?_
  rw [kwaitFound_eq, foundAll_forget ?_ (pagetable_awake ho)]
  · rfl
  · simp [statusItem]

theorem kwaitStatRound_forget (wtime rtime status : Nat) (ho : (s.proc p).pagetable = some own) :
    (kwaitStatRound p wtime rtime status (s.modProc p awake)).map dropCopied =
      kwaitStat s p wtime rtime status := by
  rw [kwaitStatRound_eq, map_map]
  refine round_forget fun pp => ?_
  rw [kwaitStatFound_eq, foundAll_forget ?_ (pagetable_awake ho)]
  · rfl
  · simp [timeItems, statusItem]

/-! ## Whole calls -/

/-- After the copies of the times, the copy of the status goes as it would have gone without
them. -/
def TimesFit (s : State) (p : Fin NPROC) (wtime rtime status : Nat) : Prop :=
  ∀ pp, zombieChild s p = some pp →
    ∃ c s1 ok c2 t2 c3 t3, copyoutAll p (timeItems s wtime rtime pp) s = .ok (true, c, s1) ∧
      copyoutAll p (statusItem s status pp) s1 = .ok (ok, c2, t2) ∧
      copyoutAll p (statusItem s status pp) s = .ok (ok, c3, t3)

theorem copyoutAll_append {items' : List (Nat × List UInt8)}
    (h : copyoutAll p items s = .ok (true, c, t)) :
    copyoutAll p (items ++ items') s = (do
      let (ok, c', u) ← copyoutAll p items' t
      .ok (ok, c ++ c', u)) := by
  induction items generalizing s c with
  | nil =>
      cases h
      rw [List.nil_append]
      cases copyoutAll p items' t with
      | error e => rfl
      | ok x => rfl
  | cons x items ih =>
      obtain ⟨addr, src⟩ := x
      obtain ⟨⟨ok, c1, s1⟩, h1, h⟩ := bind_ok.1 h
      cases ok with
      | false => cases h
      | true =>
          obtain ⟨⟨ok, c2, t'⟩, h2, h⟩ := bind_ok.1 h
          cases h
          rw [List.cons_append, copyoutAll, h1, ok_bind]
          dsimp only
          rw [if_neg (by decide), ih h2, bind_assoc]
          cases copyoutAll p items' t with
          | error e => rfl
          | ok y =>
              show Except.ok (y.1, c1 ++ (c2 ++ y.2.1), y.2.2) =
                Except.ok (y.1, (c1 ++ c2) ++ y.2.1, y.2.2)
              rw [List.append_assoc]

theorem copyoutAll_table (h : copyoutAll p items s = .ok (ok, c, t)) : SameTable p s t := by
  induction items generalizing s c with
  | nil =>
      cases h
      exact SameTable.refl p _
  | cons x items ih =>
      obtain ⟨addr, src⟩ := x
      obtain ⟨⟨ok1, c1, s1⟩, h1, h⟩ := bind_ok.1 h
      have htable := copyoutUnlessNull_table h1
      cases ok1 with
      | false =>
          cases h
          exact htable
      | true =>
          obtain ⟨⟨ok2, c2, t'⟩, h2, h⟩ := bind_ok.1 h
          cases h
          exact htable.trans (ih h2)

/-- Two ways to copy out that come out alike do the same to the table. -/
theorem foundAll_table {items' : List (Nat × List UInt8)} {c' : Copied} {t t' : State}
    (h : copyoutAll p items s = .ok (ok, c, t)) (h' : copyoutAll p items' s = .ok (ok, c', t'))
    (hx : (foundAll s p items pp).map (afterPass s p) = .ok x)
    (hx' : (foundAll s p items' pp).map (afterPass s p) = .ok x') :
    x.1 = x'.1 ∧ SameTable p x'.2.2 x.2.2 := by
  have htable := (copyoutAll_table h').symm.trans (copyoutAll_table h)
  unfold foundAll at hx hx'
  rw [h] at hx
  rw [h'] at hx'
  cases ok with
  | false =>
      cases hx
      cases hx'
      exact ⟨rfl, htable⟩
  | true =>
      obtain ⟨y, hy, rfl⟩ := map_ok.1 hx
      obtain ⟨y', hy', rfl⟩ := map_ok.1 hx'
      simp only [ok_bind, Bool.true_eq_false, if_false] at hy hy'
      obtain ⟨u, hu, hy⟩ := bind_ok.1 hy
      obtain ⟨u', hu', hy'⟩ := bind_ok.1 hy'
      cases hy
      cases hy'
      exact ⟨rfl, htable.freeproc hu' hu⟩

theorem kwaitStatRound_table {wtime rtime status : Nat} (hfit : TimesFit s p wtime rtime status)
    (h : kwaitStatRound p wtime rtime status s = .ok x) (h' : kwaitRound p status s = .ok x') : x.1
    = x'.1 ∧ SameTable p x'.2.2 x.2.2 := by
  rw [kwaitStatRound_eq] at h
  rw [kwaitRound_eq] at h'
  cases hz : zombieChild s p with
  | none =>
      rw [hz] at h h'
      obtain rfl : x = x' := Except.ok.inj (h.symm.trans h')
      exact ⟨rfl, SameTable.refl p _⟩
  | some pp =>
      rw [hz] at h h'
      dsimp only at h h'
      rw [kwaitStatFound_eq] at h
      rw [kwaitFound_eq] at h'
      obtain ⟨c, s1, ok, c2, t2, c3, t3, h1, h2, h3⟩ := hfit pp hz
      have hall : copyoutAll p (timeItems s wtime rtime pp ++ statusItem s status pp) s =
          .ok (ok, c ++ c2, t2) := by
        rw [copyoutAll_append h1, h2]
        rfl
      exact foundAll_table hall h3 h h'

/-- The states in which the rounds of a call begin. -/
def visited (p : Fin NPROC) (round : State → Except Panic (Option Int × Copied × State)) :
    State → List State → List State
  | s, [] => [s]
  | s, w :: ws =>
      match round s with
      | .ok (none, _, _) => s :: visited p round (w.modProc p awake) ws
      | _ => [s]

omit [Link] in
theorem mem_visited (p : Fin NPROC) (round : State → Except Panic (Option Int × Copied × State))
    (s : State) (ws : List State) : s ∈ visited p round s ws := by
  cases ws with
  | nil => exact List.mem_cons_self
  | cons w ws =>
      unfold visited
      split
      · exact List.mem_cons_self
      · exact List.mem_cons_self

theorem rounds_table {wtime rtime status : Nat} {ws : List State}
    (hfit : ∀ u ∈ visited p (kwaitRound p status) s ws, TimesFit u p wtime rtime status)
    (h : rounds p (kwaitStatRound p wtime rtime status) s ws = .ok x)
    (h' : rounds p (kwaitRound p status) s ws = .ok x') :
    x.1 = x'.1 ∧ SameTable p x'.2.2 x.2.2 := by
  induction ws generalizing s with
  | nil => exact kwaitStatRound_table (hfit s List.mem_cons_self) h h'
  | cons w ws ih =>
      have hfirst := hfit s (mem_visited _ _ _ _)
      unfold rounds at h h'
      unfold visited at hfit
      cases hw : kwaitRound p status s with
      | error e => rw [hw] at h'; cases h'
      | ok y' =>
          cases hs : kwaitStatRound p wtime rtime status s with
          | error e => rw [hs] at h; cases h
          | ok y =>
              rw [hw] at h' hfit
              rw [hs] at h
              obtain ⟨heq, htable⟩ := kwaitStatRound_table hfirst hs hw
              obtain ⟨o, c, t⟩ := y
              obtain ⟨o', c', t'⟩ := y'
              obtain rfl : o = o' := heq
              cases o with
              | none => exact ih (fun u hu => hfit u (List.mem_cons_of_mem _ hu)) h h'
              | some ret =>
                  cases h
                  cases h'
                  exact ⟨rfl, htable⟩

/-- With null addresses for the times the two calls are the same, whatever happens while the
caller sleeps; with others they return the same and do the same to the table if the times can
be copied and the copy of the status fares as without them. Without the bytes their rounds are the
wait calls as the kernel takes them. -/
theorem kwaitStat_refines (p : Fin NPROC) (addr : Nat) (s : State) (ws : List State) :
    rounds p (kwaitStatRound p 0 0 addr) s ws = rounds p (kwaitRound p addr) s ws ∧
      (∀ wtime rtime x x',
        (∀ u ∈ visited p (kwaitRound p addr) s ws, TimesFit u p wtime rtime addr) →
        rounds p (kwaitStatRound p wtime rtime addr) s ws = .ok x →
        rounds p (kwaitRound p addr) s ws = .ok x' → (x.1 = x'.1 ∧ SameTable p x'.2.2 x.2.2)) ∧
      ((s.proc p).pagetable ≠ none →
        (kwaitRound p addr (s.modProc p awake)).map dropCopied = kwait s p addr ∧
        ∀ wtime rtime, (kwaitStatRound p wtime rtime addr (s.modProc p awake)).map dropCopied =
          kwaitStat s p wtime rtime addr) := by
  refine ⟨by rw [kwaitStatRound_null], fun _ _ _ _ hfit h h' => rounds_table hfit h h',
    fun hpt => ?_⟩
  obtain ⟨own, ho⟩ := Option.ne_none_iff_exists'.1 hpt
  exact ⟨kwaitRound_forget addr ho, fun wtime rtime => kwaitStatRound_forget wtime rtime addr ho⟩

end

def exitedChild : List Op := [.fork 0, .yield 0, .dispatch 1, .exit 1 3, .dispatch 0]

/-- The parent asks for the times as well, on a page that it has. -/
theorem kwaitStat_refines_child : ∃ s x x', sampleRun exitedChild = some s ∧
    @rounds 0 (@kwaitStatRound sampleLink 0 16 20 24) s [] = .ok x ∧
      @rounds 0 (@kwaitRound sampleLink 0 24) s [] = .ok x' ∧ x'.1 = some 2 ∧
      x.1 = x'.1 ∧ SameTable 0 x'.2.2 x.2.2 := by
  let _ := sampleLink
  obtain ⟨s, hs, hz, ht, hstat, hwait⟩ := sampleRun_exists exitedChild
    (fun s => zombieChild s 0 = some 1 ∧
      (copyoutAll 0 (timeItems s 16 20 1) s).toOption.any (fun y => y.1 = true ∧
        (copyoutAll 0 (statusItem s 24 1) y.2.2).toOption.any (fun z => z.1 = true) = true ∧
        (copyoutAll 0 (statusItem s 24 1) s).toOption.any (fun z => z.1 = true) = true) = true ∧
      (kwaitStatRound 0 16 20 24 s).toOption.isSome = true ∧
      (kwaitRound 0 24 s).toOption.any (fun x => x.1 = some 2) = true)
    (by set_option maxRecDepth 100000 in decide +kernel)
  obtain ⟨x, hx⟩ := Option.isSome_iff_exists.1 hstat
  obtain ⟨x', hx', hpid⟩ := (Option.any_eq_true _ _).1 hwait
  have h1 := toOption_some.1 hx
  have h2 := toOption_some.1 hx'
  refine ⟨s, x, x', hs, h1, h2, of_decide_eq_true hpid,
    (kwaitStat_refines 0 24 s []).2.1 16 20 x x' (fun u hu pp hpp => ?_) h1 h2⟩
  obtain rfl : u = s := by simpa [visited] using hu
  obtain rfl : 1 = pp := Option.some.inj (hz.symm.trans hpp)
  obtain ⟨⟨ok, c, s1⟩, hc, hy⟩ := (Option.any_eq_true _ _).1 ht
  obtain ⟨rfl, hz1, hz2⟩ := of_decide_eq_true hy
  obtain ⟨⟨ok2, c2, t2⟩, hc2, hok2⟩ := (Option.any_eq_true _ _).1 hz1
  obtain ⟨⟨ok3, c3, t3⟩, hc3, hok3⟩ := (Option.any_eq_true _ _).1 hz2
  obtain rfl : ok2 = true := of_decide_eq_true hok2
  obtain rfl : ok3 = true := of_decide_eq_true hok3
  exact ⟨c, s1, true, c2, t2, c3, t3, toOption_some.1 hc, toOption_some.1 hc2, toOption_some.1 hc3⟩

/-- One page is left, and both addresses are on pages that `sbrk` has promised: `wait` gets the
status and reaps the child, `wait_stat` gets the waiting time, fails over the status and leaves
the child. -/
theorem times_use_last_page : ∃ s c1 t1 c2 t2 c s1,
    sampleRun (exitedChild ++ [.sbrk 0 8192 2]) = some s ∧
      @kwaitRound sampleLink 0 12288 (s.setKmem (s.kmem.take 1)) = .ok (some 2, c1, t1) ∧
      @kwaitStatRound sampleLink 0 16384 0 12288 (s.setKmem (s.kmem.take 1)) =
        .ok (some (-1), c2, t2) ∧
      @copyoutAll sampleLink 0 (timeItems s 16384 0 1) (s.setKmem (s.kmem.take 1)) =
        .ok (true, c, s1) ∧
      (t1.proc 1).state = .unused ∧ (t2.proc 1).state = .zombie ∧ ¬ SameTable 0 t1 t2 := by
  let _ := sampleLink
  obtain ⟨s, hs, hwait, hstat, htimes⟩ := sampleRun_exists (exitedChild ++ [.sbrk 0 8192 2])
    (fun s => (kwaitRound 0 12288 (s.setKmem (s.kmem.take 1))).toOption.any
        (fun x => x.1 = some 2 ∧ (x.2.2.proc 1).state = .unused) = true ∧
      (kwaitStatRound 0 16384 0 12288 (s.setKmem (s.kmem.take 1))).toOption.any
        (fun x => x.1 = some (-1) ∧ (x.2.2.proc 1).state = .zombie) = true ∧
      (copyoutAll 0 (timeItems s 16384 0 1) (s.setKmem (s.kmem.take 1))).toOption.any
        (fun x => x.1 = true) = true)
    (by set_option maxRecDepth 100000 in decide +kernel)
  obtain ⟨⟨o1, c1, t1⟩, h1, hx1⟩ := (Option.any_eq_true _ _).1 hwait
  obtain ⟨⟨o2, c2, t2⟩, h2, hx2⟩ := (Option.any_eq_true _ _).1 hstat
  obtain ⟨⟨ok, c, s1⟩, h3, hok⟩ := (Option.any_eq_true _ _).1 htimes
  obtain ⟨rfl, hst1⟩ := of_decide_eq_true hx1
  obtain ⟨rfl, hst2⟩ := of_decide_eq_true hx2
  obtain rfl : ok = true := of_decide_eq_true hok
  refine ⟨s, c1, t1, c2, t2, c, s1, hs, toOption_some.1 h1, toOption_some.1 h2, toOption_some.1 h3,
    hst1, hst2, fun htable => ?_⟩
  rw [htable.others 1 (by decide), hst1] at hst2
  cases hst2

end G9OS.Kernel
