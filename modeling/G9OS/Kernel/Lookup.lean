import G9OS.Kernel.Copyout
import G9OS.Kernel.Safety
import G9OS.Lib.CString

/-! # Processes by their pid

`setpriority`, `getpriority` and `getprocinfo` look for the first slot with the pid and
do not ask whether the slot is in use; free slots hold pid 0. `getprocinfo` fills a
`struct procinfo` on the kernel stack and copies all of it out.
-/

namespace G9OS.Kernel

open Lib

def getpriority (s : State) (pid : Int) : Int :=
  match pidSlot s pid with
  | none => -1
  | some i => (s.proc i).priority

def ProcState.toInt : ProcState → Int
  | .unused => 0
  | .used => 1
  | .sleeping => 2
  | .runnable => 3
  | .running => 4
  | .zombie => 5

/-- The loop of `safestrcpy` at `s[i]`, with room for `n` more bytes in front of the last one. The
byte that ends the loop is copied too, and another 0 is put behind it. -/
def safestrcpyLoop (t : Buf) : Nat → Nat → Nat → Buf → Buf
  | 0, s, _, buf => Function.update buf s 0
  | n + 1, s, i, buf =>
      if t i = 0 then Function.update (Function.update buf s 0) (s + 1) 0
      else safestrcpyLoop t n (s + 1) (i + 1) (Function.update buf s (t i))

/-- `safestrcpy` to position `s` of a buffer. -/
def safestrcpy (buf : Buf) (s : Nat) (t : Buf) : Nat → Buf
  | 0 => buf
  | n + 1 => safestrcpyLoop t n s 0 buf

def Proc.nameBuf (p : Proc) : Buf := fun i => p.name.toUTF8.data.toList[i]?.getD 0

def Proc.cname (p : Proc) : List UInt8 := cstr p.nameBuf 15 0

/-- The pid of the parent, 0 without one. -/
def ppid (s : State) (i : Fin NPROC) : Int :=
  match (s.proc i).parent with
  | some j => (s.proc j).pid
  | none => 0

abbrev PROCINFO_SIZE : Nat := 40

/-- The `struct procinfo` of slot `i`, filled in over what the stack held there. `sz` is
aligned to eight bytes. -/
def procinfo (s : State) (i : Fin NPROC) (stack : Buf) : Buf :=
  let info := store stack 0 (intBytes (s.proc i).pid)
  let info := store info 4 (intBytes (ppid s i))
  let info := store info 8 (intBytes (s.proc i).state.toInt)
  let info := store info 16 (leBytes 8 (s.proc i).sz)
  safestrcpy info 24 (s.proc i).nameBuf 16

def procinfoBytes (s : State) (i : Fin NPROC) (stack : Buf) : List UInt8 :=
  (List.range PROCINFO_SIZE).map (procinfo s i stack)

/-- `getprocinfo` called by `me`, with the stack as it is before the call. -/
def getprocinfo [Link] (s : State) (me : Fin NPROC) (stack : Buf) (pid : Int) (addr : Nat) :
    Except Panic (Int × Copied × State) :=
  match pidSlot s pid with
  | none => .ok (-1, [], s)
  | some i => do
      let (ok, copied, s) ← copyoutTo s me addr (procinfoBytes s i stack)
      .ok (if ok then 0 else -1, copied, s)

/-! ## Who is found -/

def Has (s : State) (pid : Int) (i : Fin NPROC) : Prop :=
  (s.proc i).state ≠ .unused ∧ (s.proc i).pid = pid

def Writable [Link] (s : State) (me : Fin NPROC) (addr : Nat) : Prop :=
  ∀ src : List UInt8, src.length = PROCINFO_SIZE → ∃ c t, copyoutTo s me addr src = .ok (true, c, t)

/-- All lookups find a process exactly if one process has the pid, and `setpriority` writes
to no other slot. -/
structure Concur [Link] (s : State) (pid : Int) : Prop where
  get : getpriority s pid ≠ -1 ↔ ∃! i, Has s pid i
  set : ∀ k, 1 ≤ k → k ≤ 20 → ((setpriority s pid k).1 ≠ -1 ↔ ∃! i, Has s pid i)
  info : ∀ me stack addr, Writable s me addr →
    ∃ r c t, getprocinfo s me stack pid addr = .ok (r, c, t) ∧ (r = 0 ↔ ∃! i, Has s pid i)
  target : ∀ k, 1 ≤ k → k ≤ 20 → ∀ i, Has s pid i →
    (setpriority s pid k).2.proc i = { s.proc i with priority := k }
  others : ∀ k, 1 ≤ k → k ≤ 20 → ∀ i, ¬ Has s pid i → (setpriority s pid k).2.proc i = s.proc i

/-- No two processes have the pid, and no free slot has it in front of the process that has. -/
structure Distinct (s : State) (pid : Int) : Prop where
  unique : ∀ i j, Has s pid i → Has s pid j → i = j
  first : ∀ i, (s.proc i).state = .unused → (s.proc i).pid = pid → ∃ j < i, Has s pid j

section
variable {s t : State} {pid : Int} {i : Fin NPROC}

theorem pidSlot_some (h : pidSlot s pid = some i) :
    (s.proc i).pid = pid ∧ ∀ j < i, (s.proc j).pid ≠ pid := by
  obtain ⟨h1, h2⟩ := Fin.find?_eq_some_iff.1 h
  exact ⟨by simpa using h1, fun j hj => by simpa using h2 j hj⟩

theorem pidSlot_none (h : pidSlot s pid = none) (i : Fin NPROC) : (s.proc i).pid ≠ pid := by
  simpa using Fin.find?_eq_none_iff.1 h i

theorem setpriority_found {k : Int} (h1 : 1 ≤ k) (h20 : k ≤ 20) (h : pidSlot s pid = some i) :
    setpriority s pid k = (0, s.modProc i fun p => { p with priority := k }) := by
  unfold setpriority
  rw [if_neg (by omega), h]

theorem setpriority_missed {k : Int} (h : pidSlot s pid = none) :
    setpriority s pid k = (-1, s) := by
  unfold setpriority
  rw [h]
  split
  · rfl
  · rfl

theorem Distinct.has (h : Distinct s pid) (hi : pidSlot s pid = some i) : Has s pid i := by
  obtain ⟨hpid, hfirst⟩ := pidSlot_some hi
  refine ⟨fun hun => ?_, hpid⟩
  obtain ⟨j, hj, hhas⟩ := h.first i hun hpid
  exact hfirst j hj hhas.2

theorem not_existsUnique_has (h : pidSlot s pid = none) : ¬ ∃! i, Has s pid i := by
  rintro ⟨i, hi, -⟩
  exact pidSlot_none h i hi.2

variable [Link]

theorem Distinct.agree_missed (h : pidSlot s pid = none) : Concur s pid := by
  have hno := not_existsUnique_has h
  have hget : getpriority s pid = -1 := by
    unfold getpriority
    rw [h]
  refine ⟨?_, fun k _ _ => ?_, fun me stack addr _ => ?_, fun k _ _ i hi => ?_, fun k _ _ i _ => ?_⟩
  · rw [hget]
    exact iff_of_false (fun hne => hne rfl) hno
  · rw [setpriority_missed h]
    exact iff_of_false (fun hne => hne rfl) hno
  · refine ⟨-1, [], s, ?_, iff_of_false (by decide) hno⟩
    unfold getprocinfo
    rw [h]
  · exact absurd hi.2 (pidSlot_none h i)
  · rw [setpriority_missed h]

theorem Distinct.agree_found (hd : Distinct s pid) (hs : Tidy s) (h : pidSlot s pid = some i) :
    Concur s pid := by
  have hhas := hd.has h
  have hone : ∃! j, Has s pid j := ⟨i, hhas, fun j hj => hd.unique j i hj hhas⟩
  refine ⟨?_, fun k h1 h20 => ?_, fun me stack addr hw => ?_, fun k h1 h20 j hj => ?_,
    fun k h1 h20 j hj => ?_⟩
  · have hpri := ((hs i).priority hhas.1).1
    have hget : getpriority s pid = (s.proc i).priority := by
      unfold getpriority
      rw [h]
    rw [hget]
    exact iff_of_true (by omega) hone
  · rw [setpriority_found h1 h20 h]
    exact iff_of_true (fun he => by cases he) hone
  · obtain ⟨c, t, hc⟩ := hw (procinfoBytes s i stack) (by simp [procinfoBytes])
    refine ⟨0, c, t, ?_, iff_of_true rfl hone⟩
    unfold getprocinfo
    rw [h]
    dsimp only
    rw [hc]
    rfl
  · obtain rfl : j = i := hd.unique j i hj hhas
    rw [setpriority_found h1 h20 h]
    dsimp only
    rw [modProc_self]
  · have hne : j ≠ i := fun he => hj (he ▸ hhas)
    rw [setpriority_found h1 h20 h]
    dsimp only
    rw [modProc_of_ne _ _ _ hne]

/-- The slot that is found is in use, or `setpriority` would write to a free slot. -/
theorem Concur.has (h : Concur s pid) (hi : pidSlot s pid = some i) : Has s pid i := by
  by_contra hno
  have h1 := h.others 1 (by decide) (by decide) i hno
  have h2 := h.others 2 (by decide) (by decide) i hno
  rw [setpriority_found (by decide) (by decide) hi, modProc_self] at h1 h2
  have heq : (1 : Int) = 2 := (congrArg Proc.priority h1).trans (congrArg Proc.priority h2).symm
  cases heq

theorem Concur.distinct (h : Concur s pid) : Distinct s pid := by
  cases hi : pidSlot s pid with
  | none =>
      exact ⟨fun i _ hj _ => absurd hj.2 (pidSlot_none hi i),
        fun i _ hpid => absurd hpid (pidSlot_none hi i)⟩
  | some k =>
      have hk := h.has hi
      obtain ⟨-, hfirst⟩ := pidSlot_some hi
      have hset := h.set 1 (by decide) (by decide)
      rw [setpriority_found (by decide) (by decide) hi] at hset
      have hone := hset.1 fun he => by cases he
      refine ⟨fun i j hi' hj' => hone.unique hi' hj', fun i hun hpid => ⟨k, ?_, hk⟩⟩
      rcases lt_trichotomy k i with hlt | rfl | hgt
      · exact hlt
      · exact absurd hun hk.1
      · exact absurd hpid (hfirst i hgt)

/-- In a reachable state the lookups of a pid agree exactly if it is one process's at most and
no free slot comes first. -/
theorem reachable_agree_iff (hr : Reach next Free Booted s) (pid : Int) :
    Concur s pid ↔ Distinct s pid := by
  obtain ⟨hs, -⟩ := orderly_of_reach hr
  constructor
  · exact Concur.distinct
  · intro hd
    cases hi : pidSlot s pid with
    | none => exact Distinct.agree_missed hi
    | some i => exact hd.agree_found hs hi

omit [Link] in
theorem distinct_of_ne_zero (hs : Tidy s) (h0 : pid ≠ 0)
    (hu : ∀ i j, Has s pid i → Has s pid j → i = j) : Distinct s pid :=
  ⟨hu, fun i hun hpid => absurd (hpid.symm.trans ((hs i).noPid hun)) h0⟩

end

instance (s : State) (pid : Int) (i : Fin NPROC) : Decidable (Has s pid i) :=
  inferInstanceAs (Decidable (_ ∧ _))

/-- The only child is found by its pid. -/
theorem reachable_agree_iff_child : ∃ s, sampleRun [.fork 0] = some s ∧ Has s 2 1 ∧
    @Concur sampleLink s 2 := by
  obtain ⟨s, hs, hhas, hone⟩ := sampleRun_exists [.fork 0]
    (fun s => Has s 2 1 ∧ ∀ i, Has s 2 i → i = 1)
    (by set_option maxRecDepth 100000 in decide +kernel)
  have hr : Reach (@next sampleLink) Free (@Booted sampleLink) s :=
    sampleRun_reach (fun _ _ _ => trivial) hs
  have htidy := (@orderly_of_reach sampleLink s _ hr).1
  refine ⟨s, hs, hhas, (@reachable_agree_iff s sampleLink hr 2).2 ?_⟩
  exact distinct_of_ne_zero htidy (by decide) fun i j hi hj => (hone i hi).trans (hone j hj).symm

/-- No process has pid 0, but `getpriority(0)` finds a free slot and `setpriority(0, 5)` writes
to it. -/
theorem pid_zero_found : ∃ s, sampleRun [] = some s ∧
    Reach (@next sampleLink) Free (@Booted sampleLink) s ∧ (∀ i, ¬ Has s 0 i) ∧
    getpriority s 0 = 0 ∧ (setpriority s 0 5).1 = 0 ∧ (s.proc 1).state = .unused ∧
    ((setpriority s 0 5).2.proc 1).priority = 5 ∧ ¬ @Concur sampleLink s 0 := by
  obtain ⟨s, hs, hno, hget, hset, hun, hpri⟩ := sampleRun_exists []
    (fun s => (∀ i, ¬ Has s 0 i) ∧ getpriority s 0 = 0 ∧ (setpriority s 0 5).1 = 0 ∧
      (s.proc 1).state = .unused ∧ ((setpriority s 0 5).2.proc 1).priority = 5)
    (by set_option maxRecDepth 100000 in decide +kernel)
  refine ⟨s, hs, sampleRun_reach (fun _ _ _ => trivial) hs, hno, hget, hset, hun, hpri,
    fun ha => ?_⟩
  obtain ⟨i, hi, -⟩ := (@Concur.get sampleLink s 0 ha).1 (by rw [hget]; decide)
  exact hno i hi

/-! ## What is copied out -/

theorem safestrcpy_succ (buf : Buf) (s : Nat) (t : Buf) (n : Nat) :
    safestrcpy buf s t (n + 1) = safestrcpyLoop t n s 0 buf := rfl

/-- The copy ends with one or two zero bytes: two where the name is short. -/
theorem safestrcpyLoop_apply (t : Buf) (n s i : Nat) (buf : Buf) (j : Nat) :
    safestrcpyLoop t n s i buf j =
      if s ≤ j ∧ j < s + min ((cstr t n i).length + 2) (n + 1) then (cstr t n i)[j - s]?.getD 0
      else buf j := by
  induction n generalizing s i buf with
  | zero =>
      unfold safestrcpyLoop cstr
      by_cases hj : j = s
      · subst hj
        simp
      · rw [Function.update_of_ne hj, if_neg (by simp; omega)]
  | succ n ih =>
      unfold safestrcpyLoop cstr
      split
      · by_cases hj : j = s + 1
        · subst hj
          simp
        · rw [Function.update_of_ne hj]
          by_cases hj' : j = s
          · subst hj'
            simp
          · rw [Function.update_of_ne hj', if_neg (by simp; omega)]
      · rw [ih, List.length_cons]
        rcases lt_trichotomy j s with hlt | rfl | hgt
        · rw [if_neg (by omega), if_neg (by omega), Function.update_of_ne (by omega)]
        · rw [if_neg (by omega), if_pos (by omega), Function.update_self, Nat.sub_self]
          rfl
        · have hsub : j - s = j - (s + 1) + 1 := by omega
          rw [hsub, List.getElem?_cons_succ, Function.update_of_ne (by omega)]
          congr 1
          apply propext
          constructor
          · omega
          · omega

/-- The bytes of a `struct procinfo` that `getprocinfo` does not write, for a name of this
length: the padding in front of `sz`, and what is behind the copy of the name. -/
def Unwritten (len j : Nat) : Prop :=
  12 ≤ j ∧ j < 16 ∨ 24 + min (len + 2) 16 ≤ j ∧ j < PROCINFO_SIZE

structure SameInfo (s1 : State) (i1 : Fin NPROC) (s2 : State) (i2 : Fin NPROC) : Prop where
  pid : (s1.proc i1).pid = (s2.proc i2).pid
  ppid : ppid s1 i1 = ppid s2 i2
  state : (s1.proc i1).state = (s2.proc i2).state
  sz : (s1.proc i1).sz = (s2.proc i2).sz
  cname : (s1.proc i1).cname = (s2.proc i2).cname

section
variable {s s1 s2 : State} {i i1 i2 : Fin NPROC} {stack k1 k2 : Buf} {j : Nat}

theorem procinfo_unwritten (h : Unwritten (s.proc i).cname.length j) :
    procinfo s i stack j = stack j := by
  unfold Unwritten Proc.cname at h
  unfold procinfo
  rw [safestrcpy_succ, safestrcpyLoop_apply, if_neg (by omega), store_outside (by simp; omega),
    store_outside (by simp; omega), store_outside (by simp; omega), store_outside (by simp; omega)]

theorem procinfo_congr (h : SameInfo s1 i1 s2 i2) (hj : j < PROCINFO_SIZE)
    (hk : Unwritten (s1.proc i1).cname.length j → k1 j = k2 j) :
    procinfo s1 i1 k1 j = procinfo s2 i2 k2 j := by
  have hname := h.cname
  unfold Unwritten at hk
  unfold Proc.cname at hk hname
  unfold procinfo
  rw [safestrcpy_succ, safestrcpy_succ, safestrcpyLoop_apply, safestrcpyLoop_apply, ← hname,
    h.pid, h.ppid, h.state, h.sz]
  split
  · rfl
  rename_i hnot
  have hold : 12 ≤ j ∧ j < 16 ∨ 24 ≤ j → k1 j = k2 j := fun hr => hk (by omega)
  refine store_congr ?_
  rw [leBytes_length]
  by_cases h16 : 16 ≤ j ∧ j < 24
  · exact .inl h16
  refine .inr (store_congr ?_)
  rw [intBytes_length]
  by_cases h8 : 8 ≤ j ∧ j < 12
  · exact .inl h8
  refine .inr (store_congr ?_)
  rw [intBytes_length]
  by_cases h4 : 4 ≤ j ∧ j < 8
  · exact .inl h4
  refine .inr (store_congr ?_)
  rw [intBytes_length]
  by_cases h0 : 0 ≤ j ∧ j < 4
  · exact .inl h0
  · exact .inr (hold (by omega))

/-- The bytes for two alike targets are the same exactly if the stacks agree where nothing is
written. -/
theorem procinfoBytes_eq_iff (h : SameInfo s1 i1 s2 i2) :
    procinfoBytes s1 i1 k1 = procinfoBytes s2 i2 k2 ↔
      ∀ j, Unwritten (s1.proc i1).cname.length j → k1 j = k2 j := by
  unfold procinfoBytes
  rw [List.map_inj_left]
  constructor
  · intro heq j hj
    have hlt : j < PROCINFO_SIZE := by
      unfold Unwritten at hj
      norm_num at hj ⊢
      omega
    have h1 : procinfo s1 i1 k1 j = k1 j := procinfo_unwritten hj
    have h2 : procinfo s2 i2 k2 j = k2 j := procinfo_unwritten (h.cname ▸ hj)
    rw [← h1, ← h2]
    exact heq j (List.mem_range.2 hlt)
  · intro hk j hj
    exact procinfo_congr h (List.mem_range.1 hj) (hk j)

variable [Link]

theorem getprocinfo_copied {me : Fin NPROC} {pid : Int} {addr : Nat} {c : Copied} {t : State}
    (hi : pidSlot s pid = some i) (h : getprocinfo s me stack pid addr = .ok (0, c, t)) :
    c.bytes = procinfoBytes s i stack := by
  unfold getprocinfo at h
  rw [hi] at h
  obtain ⟨⟨ok, c', t'⟩, hc, h⟩ := bind_ok.1 h
  cases ok with
  | false => cases h
  | true =>
      cases h
      unfold copyoutTo at hc
      cases ho : (s.proc me).pagetable with
      | none => rw [ho] at hc; cases hc
      | some own =>
          rw [ho] at hc
          obtain ⟨⟨ok, c', own', m⟩, hl, hc⟩ := bind_ok.1 hc
          cases hc
          exact copyoutBytesLoop_bytes le_rfl hl

/-- Two calls about alike targets copy the same bytes exactly if the stacks agreed before on what
the function leaves unwritten. -/
theorem getprocinfo_same_iff {me1 me2 : Fin NPROC} {pid : Int} {addr1 addr2 : Nat} {c1 c2 : Copied}
    {t1 t2 : State} (hi1 : pidSlot s1 pid = some i1) (hi2 : pidSlot s2 pid = some i2)
    (h : SameInfo s1 i1 s2 i2) (h1 : getprocinfo s1 me1 k1 pid addr1 = .ok (0, c1, t1))
    (h2 : getprocinfo s2 me2 k2 pid addr2 = .ok (0, c2, t2)) :
    c1.bytes = c2.bytes ↔ ∀ j, Unwritten (s1.proc i1).cname.length j → k1 j = k2 j := by
  rw [getprocinfo_copied hi1 h1, getprocinfo_copied hi2 h2, procinfoBytes_eq_iff h]

end

theorem sample_getprocinfo (k : Buf)
    (hk : (sampleRun []).any (fun s => decide (pidSlot s 1 = some 0 ∧
      (@getprocinfo sampleLink s 0 (fun _ => 0) 1 16).toOption.any (fun x => x.1 = 0) = true ∧
      (@getprocinfo sampleLink s 0 k 1 16).toOption.any (fun x => x.1 = 0) = true)) = true) :
    ∃ s c1 t1 c2 t2, sampleRun [] = some s ∧ pidSlot s 1 = some 0 ∧
      @getprocinfo sampleLink s 0 (fun _ => 0) 1 16 = .ok (0, c1, t1) ∧
      @getprocinfo sampleLink s 0 k 1 16 = .ok (0, c2, t2) := by
  obtain ⟨s, hs, hi, h1, h2⟩ := sampleRun_exists [] _ hk
  obtain ⟨⟨r1, c1, t1⟩, hg1, hr1⟩ := (Option.any_eq_true _ _).1 h1
  obtain ⟨⟨r2, c2, t2⟩, hg2, hr2⟩ := (Option.any_eq_true _ _).1 h2
  obtain rfl : r1 = 0 := of_decide_eq_true hr1
  obtain rfl : r2 = 0 := of_decide_eq_true hr2
  exact ⟨s, c1, t1, c2, t2, hs, hi, toOption_some.1 hg1, toOption_some.1 hg2⟩

theorem SameInfo.refl (s : State) (i : Fin NPROC) : SameInfo s i s i := ⟨rfl, rfl, rfl, rfl, rfl⟩

/-- A byte that is written over does not matter. -/
theorem getprocinfo_same_iff_pid : ∃ s c1 t1 c2 t2, sampleRun [] = some s ∧
    @getprocinfo sampleLink s 0 (fun _ => 0) 1 16 = .ok (0, c1, t1) ∧
    @getprocinfo sampleLink s 0 (Function.update (fun _ => 0) 0 1) 1 16 = .ok (0, c2, t2) ∧
    c1.bytes = c2.bytes := by
  obtain ⟨s, c1, t1, c2, t2, hs, hi, h1, h2⟩ := sample_getprocinfo
    (Function.update (fun _ => 0) 0 1) (by set_option maxRecDepth 100000 in decide +kernel)
  refine ⟨s, c1, t1, c2, t2, hs, h1, h2,
    (@getprocinfo_same_iff s s 0 0 _ _ sampleLink 0 0 1 16 16 c1 c2 t1 t2 hi hi (SameInfo.refl s 0)
      h1 h2).2 fun j hj => ?_⟩
  have hne : j ≠ 0 := by
    unfold Unwritten at hj
    omega
  rw [Function.update_of_ne hne]

/-- A byte of the padding shows. -/
theorem getprocinfo_leaks_padding : ∃ s c1 t1 c2 t2, sampleRun [] = some s ∧
    @getprocinfo sampleLink s 0 (fun _ => 0) 1 16 = .ok (0, c1, t1) ∧
    @getprocinfo sampleLink s 0 (Function.update (fun _ => 0) 12 1) 1 16 = .ok (0, c2, t2) ∧
    c1.bytes ≠ c2.bytes := by
  obtain ⟨s, c1, t1, c2, t2, hs, hi, h1, h2⟩ := sample_getprocinfo
    (Function.update (fun _ => 0) 12 1) (by set_option maxRecDepth 100000 in decide +kernel)
  refine ⟨s, c1, t1, c2, t2, hs, h1, h2, fun heq => ?_⟩
  rw [@getprocinfo_copied s 0 _ sampleLink 0 1 16 c1 t1 hi h1,
    @getprocinfo_copied s 0 _ sampleLink 0 1 16 c2 t2 hi h2,
    procinfoBytes_eq_iff (SameInfo.refl s 0)] at heq
  exact absurd (heq 12 (.inl (by decide))) (by decide)

end G9OS.Kernel
