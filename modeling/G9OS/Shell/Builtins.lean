import G9OS.Shell.Pipeline

/-! # Built-in commands in a pipeline (`custom_shell.c`)

`run_pipeline` looks for a built-in only if the command is alone, and then runs it in the shell
before it looks at the redirections. In a longer pipeline the child executes the command by its
name.
-/

namespace G9OS.Shell

open Lib

inductive Agent
  | builtin
  | execvp
deriving DecidableEq, Repr

inductive Place
  | shell
  | child
deriving DecidableEq, Repr

/-- How a command is carried out, and what its output goes to. -/
structure Execution (α P : Type) where
  agent : Agent
  place : Place
  stdout : Option (Obj α P)
deriving DecidableEq, Repr

section
variable {α P : Type} (str : P → Word)

def IsBuiltin (cmd : Cmd P) : Prop :=
  ∃ w ∈ cmd.argv.head?, str w = exitWord ∨ str w = cdWord ∨ str w = pwdWord

/-- What a child executes; nothing if it exits before. -/
def Child.execution (c : Child α P) : Option (Execution α P) :=
  match c.fate with
  | .execs _ => some ⟨.execvp, .child, c.table.obj 1⟩
  | .exits _ => none

def Outcome.execution (i : Nat) : Outcome α P → Option (Execution α P)
  | .exited _ => none
  | .returned _ _ children _ => children[i]?.bind Child.execution

/-- How `run_pipeline` carries out command number `i`, in the branches of `runPipeline`. -/
def execution (calls : Calls) (cmds : List (Cmd P)) (background : Bool) (t : Table (Obj α P))
    (i : Nat) : Option (Execution α P) :=
  match cmds with
  | [cmd] =>
      if (runBuiltin str calls cmd t).isSome then
        if i = 0 then some ⟨.builtin, .shell, t.obj 1⟩ else none
      else (runForked calls [cmd] background t).execution i
  | cmds => (runForked calls cmds background t).execution i

def renamed (w : P) (cmd : Cmd P) : Cmd P := { cmd with argv := w :: cmd.argv.tail }

/-- Whatever the other system calls return, every built-in among the commands is carried out by
the built-in code, alone in the shell and otherwise in its child, with the output that the
external command `w` would have in its place. -/
def Uniform (α : Type) (w : P) (cmds : List (Cmd P)) : Prop :=
  ∀ (calls : Calls) (background : Bool) (t : Table (Obj α P)) (i : Nat) (cmd : Cmd P),
    (∀ k, calls.pipe k = true) → (∀ k, calls.fork k = true) → cmds[i]? = some cmd →
    IsBuiltin str cmd →
    execution str calls cmds background t i =
      (execution str calls (cmds.set i (renamed w cmd)) background t i).map fun e =>
        { e with agent := .builtin, place := if cmds.length = 1 then .shell else .child }

end

section
variable {α P : Type} {str : P → Word} {calls : Calls} {cmds : List (Cmd P)} {cmd : Cmd P}
  {background : Bool} {t : Table (Obj α P)} {i : Nat} {w : P}

theorem runBuiltin_isSome : (runBuiltin str calls cmd t).isSome = true ↔ IsBuiltin str cmd := by
  unfold runBuiltin IsBuiltin
  cases cmd.argv with
  | nil => simp
  | cons w args =>
      dsimp only
      by_cases hexit : str w = exitWord
      · simp [hexit]
      · by_cases hcd : str w = cdWord
        · simp [hcd]
        · by_cases hpwd : str w = pwdWord
          · simp [hpwd]
          · simp [hexit, hcd, hpwd]

theorem execution_forked (background : Bool) (t : Table (Obj α P))
    (hpipe : ∀ k, calls.pipe k = true) (hfork : ∀ k, calls.fork k = true)
    (hcmd : cmds[i]? = some cmd) :
    ∃ pipes t', (runForked calls cmds background t).execution i =
      (child calls pipes cmds.length i cmd t').execution := by
  obtain ⟨pipes, t', -, -, hres⟩ := runForked_cases calls cmds background t
  refine ⟨pipes, t', ?_⟩
  rcases hres with ⟨-, -, hfail⟩ | ⟨-, children, hres⟩
  · exact absurd (hpipe _) (Bool.eq_false_iff.1 hfail)
  · rcases hres with ⟨-, -, hfail⟩ | ⟨⟨status, hrun⟩, -, -, hget⟩
    · exact absurd (hfork _) (Bool.eq_false_iff.1 hfail)
    · rw [hrun, Outcome.execution, hget i cmd hcmd]
      rfl

theorem child_execution_fine (pipes : List (Nat × Nat)) (n : Nat) (hargv : cmd.argv ≠ []) :
    ∃ stdout, (child fineCalls pipes n i cmd t).execution = some ⟨.execvp, .child, stdout⟩ := by
  have hredirect : ∀ (new : Nat) (t : Table (Obj α P)) (o : Option (Obj α P)),
      ∃ t', redirect true true new t o = .ok t' := by
    intro new t o
    cases o with
    | none => exact ⟨t, rfl⟩
    | some o => exact ⟨_, rfl⟩
  have happly : ∀ t : Table (Obj α P), ∃ t', applyRedirections fineCalls i cmd t = .ok t' := by
    intro t
    obtain ⟨t1, h1⟩ := hredirect 0 t (fileIn cmd)
    obtain ⟨t2, h2⟩ := hredirect 1 t1 (fileOut cmd)
    refine ⟨t2, ?_⟩
    show Except.bind (redirect true true 0 t (fileIn cmd)) _ = _
    rw [h1]
    exact h2
  unfold child
  extract_lets t1 t2 t3
  obtain ⟨t4, h4⟩ := happly t3
  refine ⟨t4.obj 1, ?_⟩
  rw [h4]
  dsimp only
  rw [if_neg hargv]
  rfl

theorem execution_builtin (hb : IsBuiltin str cmd) :
    execution str calls [cmd] background t 0 = some ⟨.builtin, .shell, t.obj 1⟩ :=
  (if_pos (runBuiltin_isSome.2 hb)).trans (if_pos rfl)

theorem execution_external (hb : ¬ IsBuiltin str cmd) (hargv : cmd.argv ≠ [])
    (hfork : calls.fork 0 = true) :
    execution str calls [cmd] background t 0 =
      (applyRedirections calls 0 cmd t).toOption.map fun t' => ⟨.execvp, .child, t'.obj 1⟩ := by
  have hforks : forkLoop calls [] 1 t 0 [cmd] = (true, [child calls [] 1 0 cmd t]) := by
    rw [forkLoop, if_pos hfork]
    rfl
  have hrun : execution str calls [cmd] background t 0 =
      (child calls [] 1 0 cmd t).execution := by
    refine (if_neg (mt runBuiltin_isSome.1 hb)).trans ?_
    simp only [runForked, List.length_singleton, Nat.sub_self, pipeLoop, hforks]
    cases background with
    | true => rfl
    | false => rfl
  have hfds : t.closeAll (pipeFds []) = t := rfl
  rw [hrun]
  simp only [child, lt_self_iff_false, if_false, Nat.sub_self, hfds, if_neg hargv]
  cases applyRedirections calls 0 cmd t with
  | error t' => rfl
  | ok t' => rfl

theorem execution_of_length (h : cmds.length ≠ 1) :
    execution str calls cmds background t i =
      (runForked calls cmds background t).execution i := by
  match cmds with
  | [] => rfl
  | [_] => exact absurd rfl h
  | _ :: _ :: _ => rfl

def noFiles : Calls := { fineCalls with openIn := fun _ => false, openOut := fun _ => false }

theorem applyRedirections_none (hin : cmd.redirIn = none) (hout : cmd.redirOut = none) :
    applyRedirections calls i cmd t = .ok t := by
  unfold applyRedirections fileIn fileOut
  rw [hin, hout]
  rfl

theorem applyRedirections_noFiles (h : (applyRedirections noFiles i cmd t).toOption ≠ none) :
    cmd.redirIn = none ∧ cmd.redirOut = none := by
  unfold applyRedirections fileIn fileOut at h
  cases hin : cmd.redirIn with
  | some f =>
      rw [hin] at h
      exact absurd rfl h
  | none =>
      cases hout : cmd.redirOut with
      | some f =>
          rw [hin, hout] at h
          exact absurd rfl h
      | none => exact ⟨rfl, rfl⟩

theorem IsBuiltin.argv_ne_nil (hb : IsBuiltin str cmd) : cmd.argv ≠ [] := by
  rintro hnil
  obtain ⟨w, hhead, -⟩ := hb
  rw [hnil] at hhead
  cases hhead

theorem not_isBuiltin_renamed (hw : str w ≠ exitWord ∧ str w ≠ cdWord ∧ str w ≠ pwdWord)
    (cmd : Cmd P) : ¬ IsBuiltin str (renamed w cmd) := by
  rintro ⟨w', hmem, hname⟩
  obtain rfl : w = w' := Option.some.inj hmem
  rcases hname with h | h | h
  · exact hw.1 h
  · exact hw.2.1 h
  · exact hw.2.2 h

/-- In a longer pipeline the child executes the command by name. -/
theorem Uniform.length_eq_one (h : Uniform str α w cmds) (hmem : cmd ∈ cmds)
    (hb : IsBuiltin str cmd) : cmds.length = 1 := by
  by_contra hlen
  obtain ⟨i, hi⟩ := List.mem_iff_getElem?.1 hmem
  let t : Table (Obj α P) := ⟨fun _ => none, 0, fun _ _ => rfl⟩
  obtain ⟨pipes, t', hrun⟩ := execution_forked false t
    (fun _ => rfl : ∀ k, fineCalls.pipe k = true) (fun _ => rfl) hi
  obtain ⟨stdout, hchild⟩ := child_execution_fine (i := i) (t := t') pipes cmds.length
    hb.argv_ne_nil
  have hsame := h fineCalls false t i cmd (fun _ => rfl) (fun _ => rfl) hi hb
  rw [execution_of_length hlen, hrun, hchild] at hsame
  obtain ⟨e, -, heq⟩ := Option.map_eq_some_iff.1 hsame.symm
  cases congrArg Execution.agent heq

/-- If a file were named, the external command would not start without it. -/
theorem Uniform.no_files (hw : str w ≠ exitWord ∧ str w ≠ cdWord ∧ str w ≠ pwdWord)
    (h : Uniform str α w [cmd]) (hb : IsBuiltin str cmd) :
    cmd.redirIn = none ∧ cmd.redirOut = none := by
  let t : Table (Obj α P) := ⟨fun _ => none, 0, fun _ _ => rfl⟩
  have hsame := h noFiles false t 0 cmd (fun _ => rfl) (fun _ => rfl) rfl hb
  rw [execution_builtin hb, List.set_cons_zero,
    execution_external (not_isBuiltin_renamed hw cmd) (List.cons_ne_nil _ _) rfl] at hsame
  refine applyRedirections_noFiles (i := 0) (t := t) fun hnone => ?_
  have hnone' : (applyRedirections noFiles 0 (renamed w cmd) t).toOption = none := hnone
  rw [hnone'] at hsame
  cases hsame

theorem uniform_singleton (hw : str w ≠ exitWord ∧ str w ≠ cdWord ∧ str w ≠ pwdWord)
    (hin : cmd.redirIn = none) (hout : cmd.redirOut = none) : Uniform str α w [cmd] := by
  intro calls background t i cmd' hpipe hfork hi hb
  obtain rfl : i = 0 := by
    have hlt := (List.getElem?_eq_some_iff.1 hi).1
    rw [List.length_singleton] at hlt
    omega
  obtain rfl : cmd = cmd' := Option.some.inj hi
  rw [execution_builtin hb, List.set_cons_zero,
    execution_external (not_isBuiltin_renamed hw cmd) (List.cons_ne_nil _ _) (hfork 0),
    applyRedirections_none]
  · rfl
  · exact hin
  · exact hout

end

/-- Built-ins are treated like external commands exactly if every one is alone and has no
redirection. -/
theorem uniform_iff {P : Type} (α : Type) (str : P → Word) (w : P)
    (hw : str w ≠ exitWord ∧ str w ≠ cdWord ∧ str w ≠ pwdWord) (cmds : List (Cmd P)) :
    Uniform str α w cmds ↔
      ∀ cmd ∈ cmds, IsBuiltin str cmd →
        cmds = [cmd] ∧ cmd.redirIn = none ∧ cmd.redirOut = none := by
  constructor
  · intro huni cmd hmem hb
    obtain ⟨cmd', rfl⟩ := List.length_eq_one_iff.1 (huni.length_eq_one hmem hb)
    obtain rfl := List.mem_singleton.1 hmem
    exact ⟨rfl, huni.no_files hw hb⟩
  · intro hall calls background t i cmd hpipe hfork hi hb
    obtain ⟨rfl, hin, hout⟩ := hall cmd (List.mem_of_getElem? hi) hb
    exact uniform_singleton hw hin hout calls background t i cmd hpipe hfork hi hb

/-- `cd` alone, compared with `ls` -/
theorem uniform_cd :
    Uniform id Unit [108, 115] [({ argv := [cdWord] } : Cmd Word)] ↔
      ∀ cmd ∈ [({ argv := [cdWord] } : Cmd Word)], IsBuiltin id cmd →
        [({ argv := [cdWord] } : Cmd Word)] = [cmd] ∧ cmd.redirIn = none ∧ cmd.redirOut = none :=
  uniform_iff Unit id [108, 115] (by decide) _

/-- In `pwd | b` the child looks for a program of the name `pwd`. In `pwd > f` the output goes
to that of the shell, and in `b > f` to the file. -/
theorem builtin_differs :
    execution id fineCalls [({ argv := [pwdWord] } : Cmd Word), { argv := [[98]] }] false
        (threeOpen.map .old) 0 = some ⟨.execvp, .child, some (.writeEnd 0)⟩ ∧
    execution id fineCalls [({ argv := [pwdWord], redirOut := some [102] } : Cmd Word)] false
        (threeOpen.map .old) 0 = some ⟨.builtin, .shell, some (.old ())⟩ ∧
    execution id fineCalls [({ argv := [[98]], redirOut := some [102] } : Cmd Word)] false
        (threeOpen.map .old) 0 = some ⟨.execvp, .child, some (.output [102] false)⟩ := by
  decide

end G9OS.Shell
