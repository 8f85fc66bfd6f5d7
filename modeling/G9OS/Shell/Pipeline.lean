import G9OS.Lib.Descriptors
import G9OS.Shell.Repl

/-! # Running a pipeline (`custom_shell.c`)

`run_pipeline` opens all pipes in the shell and forks one child for each command. A child
has a copy of the shell's descriptor table, wires its pipe ends, closes what it inherited
of the pipes and applies its redirections. The results of the system calls are arbitrary.
-/

namespace G9OS.Shell

open Lib

/-- What a descriptor refers to: something that was open before, or what was opened since. -/
inductive Obj (α P : Type)
  | old (a : α)
  | readEnd (k : Nat)
  | writeEnd (k : Nat)
  | input (file : P)
  | output (file : P) (append : Bool)
deriving DecidableEq, Repr

/-- The results of the system calls: which ones succeed, and the status of each child. The
argument is the number of the pipe or of the command. -/
structure Calls where
  chdir : Bool
  getcwd : Bool
  pipe : Nat → Bool
  fork : Nat → Bool
  /-- `dup2` of a pipe end -/
  dupRead : Nat → Bool
  dupWrite : Nat → Bool
  /-- `open` and `dup2` of a redirection -/
  openIn : Nat → Bool
  dupIn : Nat → Bool
  openOut : Nat → Bool
  dupOut : Nat → Bool
  status : Nat → Nat

inductive Fate (P : Type)
  | execs (argv : List P)
  | exits (status : Nat)
deriving DecidableEq, Repr

structure Child (α P : Type) where
  table : Table (Obj α P)
  fate : Fate P

/-- What `run_pipeline` does to the shell: end it, or return a status. -/
inductive Outcome (α P : Type)
  | exited (arg : Option P)
  | returned (status : Nat) (table : Table (Obj α P)) (children : List (Child α P))
      (waited : List Nat)

abbrev cdWord : Word := [99, 100]
abbrev pwdWord : Word := [112, 119, 100]

section
variable {α P : Type} (str : P → Word) (calls : Calls)

/-- `run_builtin`: `none` if the command is not built in. -/
def runBuiltin (cmd : Cmd P) (t : Table (Obj α P)) : Option (Outcome α P) :=
  match cmd.argv with
  | [] => none
  | w :: args =>
      if str w = exitWord then some (.exited args.head?)
      else if str w = cdWord then some (.returned (if calls.chdir then 0 else 1) t [] [])
      else if str w = pwdWord then some (.returned (if calls.getcwd then 0 else 1) t [] [])
      else none

/-- `dup2` with its result, which the code ignores. -/
def dup2 (ok : Bool) (t : Table (Obj α P)) (old new : Nat) : Table (Obj α P) :=
  if ok then t.dup2 old new else t

/-- One redirection, if the command has it: `open` the file and move it to number `new`. The child
exits if it cannot be opened. -/
def redirect (opens dups : Bool) (new : Nat) (t : Table (Obj α P)) :
    Option (Obj α P) → Except (Table (Obj α P)) (Table (Obj α P))
  | none => .ok t
  | some o =>
      if opens then
        let (fd, t) := t.alloc o
        .ok ((dup2 dups t fd new).close fd)
      else .error t

def fileIn (cmd : Cmd P) : Option (Obj α P) := cmd.redirIn.map .input

def fileOut (cmd : Cmd P) : Option (Obj α P) :=
  cmd.redirOut.map fun file => .output file cmd.appendOut

/-- `apply_redirections` in child `i`, with the table at its end or at its exit. -/
def applyRedirections (i : Nat) (cmd : Cmd P) (t : Table (Obj α P)) :
    Except (Table (Obj α P)) (Table (Obj α P)) := do
  let t ← redirect (calls.openIn i) (calls.dupIn i) 0 t (fileIn cmd)
  redirect (calls.openOut i) (calls.dupOut i) 1 t (fileOut cmd)

def pipeFds (pipes : List (Nat × Nat)) : List Nat := pipes.flatMap fun e => [e.1, e.2]

/-- Child `i` of `ncmds`, from `fork` to `execvp` or `exit`. -/
def child (pipes : List (Nat × Nat)) (ncmds i : Nat) (cmd : Cmd P) (t : Table (Obj α P)) :
    Child α P :=
  let t := if 0 < i then dup2 (calls.dupRead i) t (pipes.getD (i - 1) (0, 0)).1 0 else t
  let t := if i < ncmds - 1 then dup2 (calls.dupWrite i) t (pipes.getD i (0, 0)).2 1 else t
  let t := t.closeAll (pipeFds pipes)
  match applyRedirections calls i cmd t with
  | .error t => ⟨t, .exits 1⟩
  | .ok t => ⟨t, if cmd.argv = [] then .exits 0 else .execs cmd.argv⟩

def openPipe (k : Nat) (t : Table (Obj α P)) : (Nat × Nat) × Table (Obj α P) :=
  let (r, t) := t.alloc (.readEnd k)
  let (w, t) := t.alloc (.writeEnd k)
  ((r, w), t)

def pipeLoop : Nat → List (Nat × Nat) → Table (Obj α P) →
    Bool × List (Nat × Nat) × Table (Obj α P)
  | 0, pipes, t => (true, pipes, t)
  | n + 1, pipes, t =>
      if calls.pipe pipes.length then
        let (e, t) := openPipe pipes.length t
        pipeLoop n (pipes ++ [e]) t
      else (false, pipes, t)

def forkLoop (pipes : List (Nat × Nat)) (ncmds : Nat) (t : Table (Obj α P)) :
    Nat → List (Cmd P) → Bool × List (Child α P)
  | _, [] => (true, [])
  | i, cmd :: cmds =>
      if calls.fork i then
        let (ok, children) := forkLoop pipes ncmds t (i + 1) cmds
        (ok, child calls pipes ncmds i cmd t :: children)
      else (false, [])

/-- What follows the test for a built-in alone. -/
def runForked (cmds : List (Cmd P)) (background : Bool) (t : Table (Obj α P)) : Outcome α P :=
  match pipeLoop calls (cmds.length - 1) [] t with
  | (false, _, t) => .returned 1 t [] []
  | (true, pipes, t) =>
      match forkLoop calls pipes cmds.length t 0 cmds with
      | (false, children) => .returned 1 t children []
      | (true, children) =>
          let t := t.closeAll (pipeFds pipes)
          if background then .returned 0 t children []
          else .returned (calls.status (cmds.length - 1)) t children (List.range cmds.length)

def runPipeline (cmds : List (Cmd P)) (background : Bool) (t : Table (Obj α P)) :
    Outcome α P :=
  match cmds with
  | [] => .returned 0 t [] []
  | [cmd] => (runBuiltin str calls cmd t).getD (runForked calls [cmd] background t)
  | cmds => runForked calls cmds background t

end

section
variable {α P : Type} {str : P → Word} {calls : Calls} {t0 t : Table (Obj α P)}
  {pipes : List (Nat × Nat)} {cmds : List (Cmd P)} {cmd : Cmd P} {n i : Nat}

/-! ## Opening the pipes -/

/-- `t` is `t0` with the pipes open at numbers that were free. -/
structure Piped (t0 t : Table (Obj α P)) (pipes : List (Nat × Nat)) : Prop where
  ends : ∀ k e, pipes[k]? = some e →
    t.obj e.1 = some (.readEnd k) ∧ t.obj e.2 = some (.writeEnd k)
  rest : ∀ fd, fd ∉ pipeFds pipes → t.obj fd = t0.obj fd
  fresh : ∀ fd ∈ pipeFds pipes, t0.obj fd = none

theorem Piped.start (t : Table (Obj α P)) : Piped t t [] where
  ends := fun k e h => by cases h
  rest := fun _ _ => rfl
  fresh := fun _ h => by cases h

theorem Piped.free {fd : Nat} (h : Piped t0 t pipes) (hfd : t.obj fd = none) :
    t0.obj fd = none := by
  by_cases hm : fd ∈ pipeFds pipes
  · exact h.fresh fd hm
  · rw [← h.rest fd hm]
    exact hfd

theorem mem_pipeFds_concat {e : Nat × Nat} {fd : Nat} :
    fd ∈ pipeFds (pipes ++ [e]) ↔ fd ∈ pipeFds pipes ∨ fd = e.1 ∨ fd = e.2 := by
  simp [pipeFds]

/-- Both ends of a new pipe take free numbers, and nothing else changes. -/
theorem openPipe_spec (k : Nat) (t : Table (Obj α P)) :
    ∃ r w, (openPipe k t).1 = (r, w) ∧ t.obj r = none ∧ t.obj w = none ∧ r ≠ w ∧
      ∀ fd, (openPipe k t).2.obj fd =
        if fd = w then some (.writeEnd k) else if fd = r then some (.readEnd k)
        else t.obj fd := by
  have hw := (t.set t.lowest (.readEnd k)).obj_lowest
  rw [Table.obj_set] at hw
  split at hw
  · cases hw
  · rename_i hne
    refine ⟨t.lowest, (t.set t.lowest (.readEnd k)).lowest, rfl, t.obj_lowest, hw,
      fun he => hne he.symm, fun fd => ?_⟩
    exact Table.obj_set.trans (by rw [Table.obj_set])

theorem Piped.openPipe (h : Piped t0 t pipes) :
    Piped t0 (openPipe pipes.length t).2 (pipes ++ [(openPipe pipes.length t).1]) := by
  obtain ⟨r, w, he, hr, hw, hne, hobj⟩ := openPipe_spec pipes.length t
  have keep : ∀ fd o, t.obj fd = some o → (Shell.openPipe pipes.length t).2.obj fd = some o := by
    intro fd o ho
    rw [hobj, if_neg, if_neg]
    · exact ho
    · rintro rfl
      rw [hr] at ho
      cases ho
    · rintro rfl
      rw [hw] at ho
      cases ho
  rw [he]
  constructor
  · intro k e hk
    rw [List.getElem?_append] at hk
    split at hk
    · have := h.ends k e hk
      exact ⟨keep _ _ this.1, keep _ _ this.2⟩
    · rename_i hlen
      obtain ⟨hlt, rfl⟩ := List.getElem?_eq_some_iff.1 hk
      rw [List.length_singleton] at hlt
      obtain rfl : k = pipes.length := by omega
      simp [hobj, hne]
  · intro fd hfd
    rw [mem_pipeFds_concat] at hfd
    rw [hobj, if_neg fun hc => hfd (.inr (.inr hc)), if_neg fun hc => hfd (.inr (.inl hc))]
    exact h.rest fd fun hm => hfd (.inl hm)
  · intro fd hfd
    rcases mem_pipeFds_concat.1 hfd with hm | rfl | rfl
    · exact h.fresh fd hm
    · exact h.free hr
    · exact h.free hw

/-- The whole loop: `n` more pipes, or those in front of the first that cannot be opened. -/
theorem Piped.loop_cases (calls : Calls) (h : Piped t0 t pipes) (n : Nat) :
    ∃ pipes' t', Piped t0 t' pipes' ∧
      (∀ k, pipes.length ≤ k → k < pipes'.length → calls.pipe k = true) ∧
      (pipeLoop calls n pipes t = (true, pipes', t') ∧ pipes'.length = pipes.length + n ∨
        pipeLoop calls n pipes t = (false, pipes', t') ∧ pipes'.length < pipes.length + n ∧
          calls.pipe pipes'.length = false) := by
  induction n generalizing pipes t with
  | zero =>
      refine ⟨pipes, t, h, fun k hlow hhigh => ?_, .inl ⟨rfl, rfl⟩⟩
      omega
  | succ n ih =>
      by_cases hok : calls.pipe pipes.length = true
      · have hrun : pipeLoop calls (n + 1) pipes t =
            pipeLoop calls n (pipes ++ [(Shell.openPipe pipes.length t).1])
              (Shell.openPipe pipes.length t).2 := by
          rw [pipeLoop, if_pos hok]
        obtain ⟨pipes', t', hp, hall, hres⟩ := ih h.openPipe
        rw [List.length_append, List.length_singleton] at hall hres
        rw [Nat.add_assoc, Nat.add_comm 1 n] at hres
        refine ⟨pipes', t', hp, fun k hlow hhigh => ?_, ?_⟩
        · rcases Nat.eq_or_lt_of_le hlow with rfl | hlt
          · exact hok
          · exact hall k hlt hhigh
        · rw [hrun]
          exact hres
      · refine ⟨pipes, t, h, fun k hlow hhigh => ?_, .inr ⟨?_, ?_, Bool.eq_false_iff.2 hok⟩⟩
        · omega
        · rw [pipeLoop, if_neg hok]
        · omega

theorem Piped.closeAll (h : Piped t0 t pipes) (fd : Nat) :
    (t.closeAll (pipeFds pipes)).obj fd = t0.obj fd := by
  rw [Table.obj_closeAll]
  split
  · rename_i hm
    exact (h.fresh fd hm).symm
  · rename_i hm
    exact h.rest fd hm

/-! ## One child -/

/-- The loop that forks: a child for each command, or for those in front of the first that
cannot be forked. -/
theorem forkLoop_cases (calls : Calls) (pipes : List (Nat × Nat)) (n : Nat)
    (t : Table (Obj α P)) (i : Nat) (cmds : List (Cmd P)) :
    ∃ children,
      forkLoop calls pipes n t i cmds = (true, children) ∧ children.length = cmds.length ∧
          (∀ j < cmds.length, calls.fork (i + j) = true) ∧
          (∀ (j : Nat) (cmd : Cmd P), cmds[j]? = some cmd →
            children[j]? = some (child calls pipes n (i + j) cmd t)) ∨
        forkLoop calls pipes n t i cmds = (false, children) ∧
          children.length < cmds.length ∧ calls.fork (i + children.length) = false := by
  induction cmds generalizing i with
  | nil => exact ⟨[], .inl ⟨rfl, rfl, nofun, nofun⟩⟩
  | cons c cmds ih =>
      by_cases hok : calls.fork i = true
      · obtain ⟨children, hres⟩ := ih (i + 1)
        refine ⟨child calls pipes n i c t :: children, ?_⟩
        rw [forkLoop, if_pos hok]
        rcases hres with ⟨hrun, hlen, hall, hget⟩ | ⟨hrun, hlen, hfail⟩
        · refine .inl ⟨by rw [hrun], by simp [hlen], fun j hj => ?_, fun j cmd hj => ?_⟩
          · cases j with
            | zero => exact hok
            | succ j =>
                rw [← Nat.add_assoc, Nat.add_right_comm]
                exact hall j (Nat.lt_of_succ_lt_succ hj)
          · cases j with
            | zero =>
                cases hj
                rfl
            | succ j =>
                rw [List.getElem?_cons_succ] at hj ⊢
                rw [hget j cmd hj, Nat.add_assoc, Nat.add_comm 1 j]
        · refine .inr ⟨by rw [hrun], Nat.succ_lt_succ hlen, ?_⟩
          rwa [List.length_cons, ← Nat.add_assoc, Nat.add_right_comm]
      · refine ⟨[], .inr ⟨?_, Nat.succ_pos _, Bool.eq_false_iff.2 hok⟩⟩
        rw [forkLoop, if_neg hok]

/-- What follows the test for a built-in alone can do three things: stop at a pipe, stop at a
fork, or come to the wait. -/
theorem runForked_cases (calls : Calls) (cmds : List (Cmd P)) (background : Bool)
    (t0 : Table (Obj α P)) :
    ∃ pipes t, Piped t0 t pipes ∧ (∀ k < pipes.length, calls.pipe k = true) ∧
      (runForked calls cmds background t0 = .returned 1 t [] [] ∧
          pipes.length < cmds.length - 1 ∧ calls.pipe pipes.length = false ∨
        pipes.length = cmds.length - 1 ∧
          ∃ children,
            runForked calls cmds background t0 = .returned 1 t children [] ∧
                children.length < cmds.length ∧ calls.fork children.length = false ∨
              (∃ status, runForked calls cmds background t0 =
                  .returned status (t.closeAll (pipeFds pipes)) children
                    (if background then [] else List.range cmds.length)) ∧
                children.length = cmds.length ∧ (∀ i < cmds.length, calls.fork i = true) ∧
                ∀ (i : Nat) (cmd : Cmd P), cmds[i]? = some cmd →
                  children[i]? = some (child calls pipes cmds.length i cmd t)) := by
  obtain ⟨pipes, t, hp, hall, hpipes⟩ :=
    (Piped.start t0).loop_cases calls (cmds.length - 1)
  rw [List.length_nil, Nat.zero_add] at hpipes
  refine ⟨pipes, t, hp, fun k hk => hall k (Nat.zero_le _) hk, ?_⟩
  unfold runForked
  rcases hpipes with ⟨hrun, hlen⟩ | ⟨hrun, hlen, hfail⟩
  · rw [hrun]
    obtain ⟨children, hfork⟩ := forkLoop_cases calls pipes cmds.length t 0 cmds
    simp only [Nat.zero_add] at hfork
    refine .inr ⟨hlen, children, ?_⟩
    dsimp only
    rcases hfork with ⟨hrun, hcount, hall, hget⟩ | ⟨hrun, hfail⟩
    · refine .inr ⟨?_, hcount, hall, hget⟩
      rw [hrun]
      cases background with
      | true => exact ⟨_, rfl⟩
      | false => exact ⟨_, rfl⟩
    · refine .inl ⟨?_, hfail⟩
      rw [hrun]
  · rw [hrun]
    exact .inl ⟨rfl, hlen, hfail⟩

def Forked (str : P → Word) (calls : Calls) (cmds : List (Cmd P)) : Prop :=
  ∀ cmd, cmds = [cmd] → ∀ t : Table (Obj α P), runBuiltin str calls cmd t = none

end

/-! ## A pipeline of three -/

def fineCalls : Calls where
  chdir := true
  getcwd := true
  pipe := fun _ => true
  fork := fun _ => true
  dupRead := fun _ => true
  dupWrite := fun _ => true
  openIn := fun _ => true
  dupIn := fun _ => true
  openOut := fun _ => true
  dupOut := fun _ => true
  status := fun _ => 0

def threeOpen : Table Unit where
  obj := fun fd => if fd < 3 then some () else none
  bound := 3
  free := fun _ h => if_neg (by omega)

end G9OS.Shell
