import G9OS.Lib.Checked
import G9OS.Shell.Pipeline

/-! # The arrays of the shell (`custom_shell.c`)

`tokenize`, `parse_pipeline` and `run_pipeline` once more, with every access to `line`, `toks`,
`cmds`, `argv`, `pipes` and `pids` checked against the size of the array. The loops of the source
count up, so the positions are numbers here.
-/

namespace G9OS.Shell

open Lib

abbrev MAX_TOKS : Nat := MAX_ARGS * MAX_CMDS + 1

/-! ## `tokenize` -/

def endTokens (max : Nat) (toks : List Nat) (buf : Buf) : Option (List Nat × Buf) := do
  within max toks.length
  some (toks, buf)

/-- `tokenizeLoop` with checked accesses to `line` and to `toks`, an array of `max` pointers. -/
def tokenizeLoopIn (max : Nat) : Nat → Buf → Nat → List Nat → Option (List Nat × Buf)
  | 0, _, _, _ => none
  | fuel + 1, buf, p, toks => do
      within MAX_LINE p
      if buf p = 0 then endTokens max toks buf
      else
        let p ← scanIn MAX_LINE inGap buf MAX_LINE p
        if buf p = 0 then endTokens max toks buf
        else if max - 1 ≤ toks.length then endTokens max toks buf
        else
          within max toks.length                        -- `toks[n++] = p`
          let q ← scanIn MAX_LINE inToken buf MAX_LINE p
          if buf q = 0 then tokenizeLoopIn max fuel buf q (toks ++ [p])
          else tokenizeLoopIn max fuel (Function.update buf q 0) (q + 1) (toks ++ [p])

def tokenizeIn (buf : Buf) (line max : Nat) : Option (List Nat × Buf) :=
  tokenizeLoopIn max MAX_LINE buf line []

/-! ## `parse_pipeline` -/

section
variable {P : Type} (str : P → Word)

/-- `parseLoop` from token number `i` on. The current command is number `done.length` of `cmds`,
and `argv[argc]` is number `cur.argv.length` of its `argv`. -/
def parseLoopIn (toks : List P) :
    Nat → Nat → List (Cmd P) → Cmd P → Bool → Option (Except ParseError (List (Cmd P) × Bool))
  | 0, _, _, _, _ => none
  | fuel + 1, i, done, cur, background =>
      if i < toks.length then do
        let t ← slot MAX_TOKS toks i
        if str t = pipe then
          within MAX_ARGS cur.argv.length               -- `cur->argv[cur->argc] = NULL`
          if MAX_CMDS ≤ done.length + 1 then some (.error .tooManyPipes)
          else
            within MAX_CMDS (done.length + 1)           -- `cur = &cmds[ncmds++]`
            parseLoopIn toks fuel (i + 1) (done ++ [cur]) {} background
        else if str t = lt then
          if toks.length ≤ i + 1 then some (.error .missingIn)
          else
            let f ← slot MAX_TOKS toks (i + 1)
            parseLoopIn toks fuel (i + 2) done { cur with redirIn := some f } background
        else if str t = gt then
          if toks.length ≤ i + 1 then some (.error .missingOut)
          else
            let f ← slot MAX_TOKS toks (i + 1)
            parseLoopIn toks fuel (i + 2) done { cur with redirOut := some f, appendOut := false }
              background
        else if str t = gtgt then
          if toks.length ≤ i + 1 then some (.error .missingAppend)
          else
            let f ← slot MAX_TOKS toks (i + 1)
            parseLoopIn toks fuel (i + 2) done { cur with redirOut := some f, appendOut := true }
              background
        else if str t = amp ∧ i = toks.length - 1 then
          parseLoopIn toks fuel (i + 1) done cur true
        else if MAX_ARGS - 1 ≤ cur.argv.length then some (.error .tooManyArguments)
        else
          within MAX_ARGS cur.argv.length               -- `cur->argv[cur->argc++] = t`
          parseLoopIn toks fuel (i + 1) done { cur with argv := cur.argv ++ [t] } background
      else do
        within MAX_ARGS cur.argv.length                 -- `cur->argv[cur->argc] = NULL`
        some (.ok (done ++ [cur], background))

def parsePipelineIn (toks : List P) : Option (Except ParseError (List (Cmd P) × Bool)) := do
  within MAX_CMDS 0                                     -- `cur = &cmds[ncmds++]`
  let r ← parseLoopIn str toks (toks.length + 1) 0 [] {} false
  match r with
  | .error e => some (.error e)
  | .ok (cmds, background) =>
      within MAX_CMDS (cmds.length - 1)                 -- `cmds[ncmds - 1].argc == 0`
      some (.ok (dropEmpty cmds, background))

end

/-! ## `run_pipeline` -/

section
variable {α P : Type} (str : P → Word) (calls : Calls)

/-- `cmd->argv[1]` if `cmd->argc > 1` -/
def secondArg (cmd : Cmd P) : Option (Option P) :=
  if 1 < cmd.argv.length then (slot MAX_ARGS cmd.argv 1).map some else some none

def runBuiltinIn (cmd : Cmd P) (t : Table (Obj α P)) : Option (Option (Outcome α P)) :=
  if cmd.argv.length = 0 then some none
  else do
    let w ← slot MAX_ARGS cmd.argv 0
    if str w = exitWord then
      let arg ← secondArg cmd
      some (some (.exited arg))
    else if str w = cdWord then
      let _ ← secondArg cmd
      some (some (.returned (if calls.chdir then 0 else 1) t [] []))
    else if str w = pwdWord then some (some (.returned (if calls.getcwd then 0 else 1) t [] []))
    else some none

def pipeLoopIn : Nat → List (Nat × Nat) → Table (Obj α P) →
    Option (Bool × List (Nat × Nat) × Table (Obj α P))
  | 0, pipes, t => some (true, pipes, t)
  | n + 1, pipes, t => do
      within (MAX_CMDS - 1) pipes.length
      if calls.pipe pipes.length then
        let (e, t) := openPipe pipes.length t
        pipeLoopIn n (pipes ++ [e]) t
      else some (false, pipes, t)

def closeLoopIn (pipes : List (Nat × Nat)) : Nat → Nat → Table (Obj α P) →
    Option (Table (Obj α P))
  | 0, _, t => some t
  | n + 1, k, t => do
      let e ← slot (MAX_CMDS - 1) pipes k
      closeLoopIn pipes n (k + 1) ((t.close e.1).close e.2)

def dupEndIn (has : Prop) [Decidable has] (ok : Bool) (pipes : List (Nat × Nat)) (k : Nat)
    (side : Nat × Nat → Nat) (new : Nat) (t : Table (Obj α P)) : Option (Table (Obj α P)) :=
  if has then (slot (MAX_CMDS - 1) pipes k).map fun e => dup2 ok t (side e) new else some t

/-- Child `i`; `execvp` reads `argv` up to its `NULL`. -/
def childIn (pipes : List (Nat × Nat)) (cmds : List (Cmd P)) (i : Nat) (t : Table (Obj α P)) :
    Option (Child α P) := do
  let t ← dupEndIn (0 < i) (calls.dupRead i) pipes (i - 1) Prod.fst 0 t
  let t ← dupEndIn (i < cmds.length - 1) (calls.dupWrite i) pipes i Prod.snd 1 t
  let t ← closeLoopIn pipes (cmds.length - 1) 0 t
  let cmd ← slot MAX_CMDS cmds i
  match applyRedirections calls i cmd t with
  | .error t => some ⟨t, .exits 1⟩
  | .ok t =>
      if cmd.argv.length = 0 then some ⟨t, .exits 0⟩
      else
        within MAX_ARGS cmd.argv.length
        some ⟨t, .execs cmd.argv⟩

def forkLoopIn (pipes : List (Nat × Nat)) (cmds : List (Cmd P)) (t : Table (Obj α P)) :
    Nat → Nat → Option (Bool × List (Child α P))
  | 0, _ => some (true, [])
  | n + 1, i =>
      if calls.fork i then do
        let c ← childIn calls pipes cmds i t
        within MAX_CMDS i                               -- `pids[i] = pid`
        let (ok, children) ← forkLoopIn pipes cmds t n (i + 1)
        some (ok, c :: children)
      else some (false, [])

def waitLoopIn (children : List (Child α P)) : Nat → Nat → Option (List Nat)
  | 0, _ => some []
  | n + 1, i => do
      let _ ← slot MAX_CMDS children i
      let waited ← waitLoopIn children n (i + 1)
      some (i :: waited)

def runForkedIn (cmds : List (Cmd P)) (background : Bool) (t : Table (Obj α P)) :
    Option (Outcome α P) := do
  match ← pipeLoopIn calls (cmds.length - 1) [] t with
  | (false, _, t) => some (.returned 1 t [] [])
  | (true, pipes, t) =>
      match ← forkLoopIn calls pipes cmds t cmds.length 0 with
      | (false, children) => some (.returned 1 t children [])
      | (true, children) =>
          let t ← closeLoopIn pipes (cmds.length - 1) 0 t
          if background then
            let _ ← slot MAX_CMDS children (cmds.length - 1)
            some (.returned 0 t children [])
          else
            let waited ← waitLoopIn children cmds.length 0
            some (.returned (calls.status (cmds.length - 1)) t children waited)

def runPipelineIn (cmds : List (Cmd P)) (background : Bool) (t : Table (Obj α P)) :
    Option (Outcome α P) :=
  if cmds.length = 0 then some (.returned 0 t [] [])
  else if cmds.length = 1 then do
    let cmd ← slot MAX_CMDS cmds 0
    match ← runBuiltinIn str calls cmd t with
    | some o => some o
    | none => runForkedIn calls cmds background t
  else runForkedIn calls cmds background t

end

/-! ## The tokens -/

theorem endTokens_eq {max : Nat} {toks : List Nat} {buf : Buf} (h : toks.length < max) :
    endTokens max toks buf = some (toks, buf) := by
  rw [endTokens, within_of_lt h]
  rfl

/-- A zero byte ahead keeps the loop in the line, and it takes a turn for each byte at most. The
zero byte stays, and every token lies in front of it. -/
theorem tokenizeLoopIn_eq {max fuel e p : Nat} {buf : Buf} {toks : List Nat} (he : p ≤ e)
    (hsize : e < MAX_LINE) (hzero : buf e = 0) (hfuel : e - p < fuel) (htoks : toks.length < max)
    (hfront : ∀ tok ∈ toks, tok ≤ e) :
    tokenizeLoopIn max fuel buf p toks = some (tokenizeLoop max fuel buf p toks) ∧
      (tokenizeLoop max fuel buf p toks).2 e = 0 ∧
      ∀ tok ∈ (tokenizeLoop max fuel buf p toks).1, tok ≤ e := by
  induction fuel generalizing buf p toks with
  | zero => omega
  | succ fuel ih =>
      have hendGap : inGap (buf e) = false := by rw [hzero]; rfl
      have hendToken : inToken (buf e) = false := by rw [hzero]; rfl
      have hstay : endTokens max toks buf = some (toks, buf) := endTokens_eq htoks
      rw [tokenizeLoopIn, tokenizeLoop, within_of_lt (he.trans_lt hsize)]
      by_cases hp : buf p = 0
      · rw [if_pos hp, if_pos hp]
        exact ⟨hstay, hzero, hfront⟩
      · obtain ⟨hgap, hlow, hhigh, hstop⟩ := scanIn_eq (n := MAX_LINE) he hsize hendGap (by omega)
        rw [if_neg hp, if_neg hp, hgap]
        generalize scan inGap buf MAX_LINE p = p' at hlow hhigh hstop
        simp only [Option.bind_eq_bind, Option.bind_some]
        by_cases hp' : buf p' = 0
        · rw [if_pos hp', if_pos hp']
          exact ⟨hstay, hzero, hfront⟩
        · rw [if_neg hp', if_neg hp']
          by_cases hfull : max - 1 ≤ toks.length
          · rw [if_pos hfull, if_pos hfull]
            exact ⟨hstay, hzero, hfront⟩
          · obtain ⟨htok, hlow', hhigh', hstop'⟩ :=
              scanIn_eq (n := MAX_LINE) hhigh hsize hendToken (by omega)
            rw [if_neg hfull, if_neg hfull, within_of_lt htoks, htok]
            generalize scan inToken buf MAX_LINE p' = q at hlow' hhigh' hstop'
            simp only [Option.bind_some]
            -- a token has at least one byte
            have hne : p' ≠ q := by
              rintro rfl
              rw [inToken_of_not_gap hp' hstop] at hstop'
              cases hstop'
            have hroom : (toks ++ [p']).length < max := by
              rw [List.length_append, List.length_singleton]
              omega
            have hfront' : ∀ tok ∈ toks ++ [p'], tok ≤ e := by
              rw [List.forall_mem_append, List.forall_mem_singleton]
              exact ⟨hfront, hhigh⟩
            by_cases hq : buf q = 0
            · rw [if_pos hq, if_pos hq]
              exact ih hhigh' hzero (by omega) hroom hfront'
            · rw [if_neg hq, if_neg hq]
              have hlt : q ≠ e := by
                rintro rfl
                exact hq hzero
              refine ih (by omega) ?_ (by omega) hroom hfront'
              rw [Function.update_of_ne (Ne.symm hlt)]
              exact hzero

theorem tokenizeIn_eq {line : List UInt8} {buf : Buf} {p : Nat} (hend : buf (p + line.length) = 0)
    (hlen : p + line.length < MAX_LINE) :
    tokenizeIn buf p MAX_TOKS = some (tokenize buf p MAX_TOKS) ∧
      ∀ tok ∈ (tokenize buf p MAX_TOKS).1,
        ∃ e, tok ≤ e ∧ e < MAX_LINE ∧ (tokenize buf p MAX_TOKS).2 e = 0 := by
  have hfew : ([] : List Nat).length < MAX_TOKS := by decide
  have hfuel : p + line.length - p < MAX_LINE := by omega
  obtain ⟨hrun, hzero, hfront⟩ :=
    tokenizeLoopIn_eq (Nat.le_add_right p line.length) hlen hend hfuel hfew nofun
  exact ⟨hrun, fun tok htok => ⟨_, hfront tok htok, hlen, hzero⟩⟩

/-! ## The commands -/

section
variable {P : Type} {str : P → Word}

/-- The current command and the number of commands fit into their arrays. -/
theorem parseLoopIn_eq {toks : List P} (htoks : toks.length ≤ MAX_TOKS) {fuel i : Nat}
    {done : List (Cmd P)} {cur : Cmd P} {background : Bool} (hfuel : toks.length - i < fuel)
    (hdone : done.length < MAX_CMDS) (hcur : cur.argv.length < MAX_ARGS) :
    parseLoopIn str toks fuel i done cur background =
      some (parseLoop str (toks.drop i) done cur background) := by
  induction fuel generalizing i done cur background with
  | zero => omega
  | succ fuel ih =>
      rw [parseLoopIn]
      by_cases hi : i < toks.length
      · -- the file behind a redirection, which goes to the current command
        have hfile : ∀ cur : Cmd P, cur.argv.length < MAX_ARGS → ∀ f rest,
            toks.drop (i + 1) = f :: rest →
            parseLoopIn str toks fuel (i + 2) done cur background =
              some (parseLoop str rest done cur background) := by
          intro cur hcur f rest hcons
          have hrest : toks.drop (i + 2) = rest := by
            rw [← List.tail_drop, hcons, List.tail_cons]
          rw [ih (by omega) hdone hcur, hrest]
        have hlast : (i = toks.length - 1) ↔ (toks.drop (i + 1)).isEmpty = true := by
          rw [List.isEmpty_iff, List.drop_eq_nil_iff]
          omega
        rw [if_pos hi, slot_of_lt htoks hi, List.getElem?_eq_getElem hi,
          List.drop_eq_getElem_cons hi, parseLoop.eq_def]
        generalize toks[i] = t
        simp only [Option.bind_eq_bind, Option.bind_some, within_of_lt hcur, hlast,
          apply_ite (some (α := Except ParseError (List (Cmd P) × Bool)))]
        -- both sides ask the same questions about the token
        refine ite_congr rfl (fun _ => ?pipe) fun _ =>
          ite_congr rfl (fun _ => slot_or_eq htoks ?inNil ?inCons) fun _ =>
          ite_congr rfl (fun _ => slot_or_eq htoks ?outNil ?outCons) fun _ =>
          ite_congr rfl (fun _ => slot_or_eq htoks ?appendNil ?appendCons) fun _ =>
          ite_congr rfl (fun _ => ih (by omega) hdone hcur) fun _ =>
          ite_congr rfl (fun _ => rfl) fun hroom => ih (by omega) hdone ?arg
        case pipe =>
          refine ite_congr rfl (fun _ => rfl) fun hroom => ?_
          rw [within_of_lt (by omega)]
          exact ih (by omega) (by simpa using hroom) (Nat.succ_pos _)
        case inNil | outNil | appendNil =>
          intro hnil
          rw [hnil]
        case inCons | outCons | appendCons =>
          intro f rest hcons
          rw [hcons]
          refine hfile _ ?_ f rest hcons
          exact hcur
        case arg =>
          rw [List.length_append, List.length_singleton]
          omega
      · rw [if_neg hi, within_of_lt hcur, List.drop_eq_nil_of_le (Nat.le_of_not_lt hi), parseLoop]
        rfl

theorem parseLoop_fits {toks : List P} {done cmds : List (Cmd P)} {cur : Cmd P}
    {background background' : Bool}
    (h : parseLoop str toks done cur background = .ok (cmds, background'))
    (hdone : done.length < MAX_CMDS) (hall : ∀ c ∈ done, c.argv.length < MAX_ARGS)
    (hcur : cur.argv.length < MAX_ARGS) :
    0 < cmds.length ∧ cmds.length ≤ MAX_CMDS ∧ ∀ c ∈ cmds, c.argv.length < MAX_ARGS := by
  have hnext : ∀ {done : List (Cmd P)} {cur : Cmd P}, (∀ c ∈ done, c.argv.length < MAX_ARGS) →
      cur.argv.length < MAX_ARGS → ∀ c ∈ done ++ [cur], c.argv.length < MAX_ARGS := by
    intro done cur hall hcur
    rw [List.forall_mem_append, List.forall_mem_singleton]
    exact ⟨hall, hcur⟩
  fun_induction parseLoop str toks done cur background with
  | case1 done cur background =>
      obtain ⟨rfl, rfl⟩ := Prod.mk.inj (Except.ok.inj h)
      refine ⟨by simp, ?_, hnext hall hcur⟩
      rw [List.length_append, List.length_singleton]
      exact hdone
  | case2 => cases h
  | case3 t rest done cur background ht hroom ih =>
      refine ih h ?_ (hnext hall hcur) (Nat.succ_pos _)
      rw [List.length_append, List.length_singleton]
      omega
  | case4 => cases h
  | case5 t done cur background _ _ f rest ih => exact ih h hdone hall hcur
  | case6 => cases h
  | case7 t done cur background _ _ _ f rest ih => exact ih h hdone hall hcur
  | case8 => cases h
  | case9 t done cur background _ _ _ _ f rest ih => exact ih h hdone hall hcur
  | case10 t rest done cur background _ _ _ _ _ ih => exact ih h hdone hall hcur
  | case11 => cases h
  | case12 t rest done cur background _ _ _ _ _ hroom ih =>
      refine ih h hdone hall ?_
      rw [List.length_append, List.length_singleton]
      omega

theorem dropEmpty_sublist (cmds : List (Cmd P)) : (dropEmpty cmds).Sublist cmds := by
  unfold dropEmpty
  split
  · split
    · exact List.dropLast_sublist cmds
    · exact List.Sublist.refl cmds
  · exact List.Sublist.refl cmds

theorem parsePipelineIn_eq {toks : List P} (htoks : toks.length ≤ MAX_TOKS) :
    parsePipelineIn str toks = some (parsePipeline str toks) := by
  have hloop : parseLoopIn str toks (toks.length + 1) 0 [] {} false =
      some (parseLoop str toks [] {} false) :=
    parseLoopIn_eq htoks (by omega) (Nat.succ_pos _) (Nat.succ_pos _)
  unfold parsePipelineIn parsePipeline
  rw [within_of_lt (by decide), hloop]
  simp only [Option.bind_eq_bind, Option.bind_some]
  cases hres : parseLoop str toks [] {} false with
  | error e => rfl
  | ok r =>
      obtain ⟨hpos, hle, -⟩ := parseLoop_fits hres (Nat.succ_pos _) nofun (Nat.succ_pos _)
      have hlast : r.1.length - 1 < MAX_CMDS := by omega
      dsimp only
      rw [within_of_lt hlast]
      rfl

theorem parsePipeline_fits {toks : List P} {cmds : List (Cmd P)} {background : Bool}
    (h : parsePipeline str toks = .ok (cmds, background)) :
    cmds.length ≤ MAX_CMDS ∧ ∀ c ∈ cmds, c.argv.length < MAX_ARGS := by
  unfold parsePipeline at h
  cases hres : parseLoop str toks [] {} false with
  | error e =>
      rw [hres] at h
      cases h
  | ok r =>
      rw [hres] at h
      obtain ⟨rfl, rfl⟩ := Prod.mk.inj (Except.ok.inj h)
      obtain ⟨-, hle, hall⟩ := parseLoop_fits hres (Nat.succ_pos _) nofun (Nat.succ_pos _)
      have hsub := dropEmpty_sublist r.1
      exact ⟨hsub.length_le.trans hle, fun c hc => hall c (hsub.subset hc)⟩

end

/-! ## The pipeline -/

section
variable {α P : Type} {str : P → Word} {calls : Calls} {cmds : List (Cmd P)} {cmd : Cmd P}
  {pipes : List (Nat × Nat)} {t : Table (Obj α P)} {n i k : Nat}

theorem secondArg_eq (hargv : cmd.argv.length < MAX_ARGS) :
    secondArg cmd = some cmd.argv.tail.head? := by
  unfold secondArg
  match h : cmd.argv with
  | [] => rfl
  | [_] => rfl
  | w :: v :: args =>
      rw [h] at hargv
      rw [if_pos (by simp), slot_of_lt hargv.le (by simp)]
      rfl

theorem runBuiltinIn_eq (hargv : cmd.argv.length < MAX_ARGS) :
    runBuiltinIn str calls cmd t = some (runBuiltin str calls cmd t) := by
  unfold runBuiltinIn runBuiltin
  rw [secondArg_eq hargv]
  cases h : cmd.argv with
  | nil => rfl
  | cons w args =>
      rw [h] at hargv
      rw [if_neg (by simp), slot_of_lt hargv.le (by simp)]
      simp only [List.getElem?_cons_zero, Option.bind_eq_bind, Option.bind_some, List.tail_cons,
        apply_ite (some (α := Option (Outcome α P)))]

theorem pipeLoopIn_eq (hn : pipes.length + n ≤ MAX_CMDS - 1) :
    pipeLoopIn calls n pipes t = some (pipeLoop calls n pipes t) := by
  induction n generalizing pipes t with
  | zero => rfl
  | succ n ih =>
      rw [pipeLoopIn, pipeLoop, within_of_lt (by omega)]
      simp only [Option.bind_eq_bind, Option.bind_some, apply_ite some]
      refine ite_congr rfl (fun _ => ih ?_) fun _ => rfl
      rw [List.length_append, List.length_singleton]
      omega

theorem closeLoopIn_eq (hpipes : pipes.length ≤ MAX_CMDS - 1) (hn : n + k = pipes.length) :
    closeLoopIn pipes n k t = some (t.closeAll (pipeFds (pipes.drop k))) := by
  induction n generalizing k t with
  | zero =>
      rw [List.drop_eq_nil_of_le (by omega)]
      rfl
  | succ n ih =>
      have hk : k < pipes.length := by omega
      rw [closeLoopIn, slot_of_lt hpipes hk, List.getElem?_eq_getElem hk,
        List.drop_eq_getElem_cons hk]
      exact ih (by omega)

theorem dupEndIn_eq {has : Prop} [Decidable has] {ok : Bool} {side : Nat × Nat → Nat} {new : Nat}
    (hpipes : pipes.length ≤ MAX_CMDS - 1) (hk : has → k < pipes.length) :
    dupEndIn has ok pipes k side new t =
      some (if has then dup2 ok t (side (pipes.getD k (0, 0))) new else t) := by
  unfold dupEndIn
  rw [apply_ite some]
  refine ite_congr rfl (fun h => ?_) fun _ => rfl
  rw [slot_of_lt hpipes (hk h), List.getElem?_eq_getElem (hk h), List.getD_eq_getElem _ _ (hk h)]
  rfl

theorem childIn_eq (hpipes : pipes.length = cmds.length - 1) (hcmds : cmds.length ≤ MAX_CMDS)
    (hi : cmds[i]? = some cmd) (hargv : cmd.argv.length < MAX_ARGS) :
    childIn calls pipes cmds i t = some (child calls pipes cmds.length i cmd t) := by
  have hlt := (List.getElem?_eq_some_iff.1 hi).1
  have hsize : pipes.length ≤ MAX_CMDS - 1 := by omega
  have hclose : ∀ t : Table (Obj α P), closeLoopIn pipes (cmds.length - 1) 0 t =
      some (t.closeAll (pipeFds pipes)) := fun t => by
    rw [closeLoopIn_eq hsize (by omega), List.drop_zero]
  unfold childIn child
  rw [dupEndIn_eq hsize (by omega)]
  simp only [Option.bind_eq_bind, Option.bind_some]
  rw [dupEndIn_eq hsize (by omega)]
  simp only [Option.bind_some, hclose, slot_of_lt hcmds hlt, hi, within_of_lt hargv,
    List.length_eq_zero_iff]
  generalize applyRedirections calls i cmd _ = r
  cases r with
  | error t' => rfl
  | ok t' =>
      by_cases hnil : cmd.argv = []
      · simp [hnil]
      · simp [hnil]

theorem forkLoopIn_eq (hpipes : pipes.length = cmds.length - 1) (hcmds : cmds.length ≤ MAX_CMDS)
    (hargv : ∀ c ∈ cmds, c.argv.length < MAX_ARGS) (hn : n + i = cmds.length) :
    forkLoopIn calls pipes cmds t n i =
      some (forkLoop calls pipes cmds.length t i (cmds.drop i)) := by
  induction n generalizing i with
  | zero =>
      rw [List.drop_eq_nil_of_le (by omega)]
      rfl
  | succ n ih =>
      have hi : i < cmds.length := by omega
      rw [forkLoopIn, List.drop_eq_getElem_cons hi, forkLoop, apply_ite some]
      refine ite_congr rfl (fun _ => ?_) fun _ => rfl
      rw [childIn_eq hpipes hcmds (List.getElem?_eq_getElem hi) (hargv _ (List.getElem_mem hi)),
        within_of_lt (by omega), ih (by omega)]
      rfl

theorem waitLoopIn_eq {children : List (Child α P)} (hsize : children.length ≤ MAX_CMDS)
    (hn : i + n ≤ children.length) : waitLoopIn children n i = some (List.range' i n) := by
  induction n generalizing i with
  | zero => rfl
  | succ n ih =>
      have hi : i < children.length := by omega
      rw [waitLoopIn, slot_of_lt hsize hi, List.getElem?_eq_getElem hi, ih (by omega)]
      rfl

theorem runForkedIn_eq (hpos : 0 < cmds.length) (hcmds : cmds.length ≤ MAX_CMDS)
    (hargv : ∀ c ∈ cmds, c.argv.length < MAX_ARGS) (background : Bool) :
    runForkedIn calls cmds background t = some (runForked calls cmds background t) := by
  unfold runForkedIn runForked
  rw [pipeLoopIn_eq (by simp; omega)]
  obtain ⟨pipes, t', -, -, hpipe⟩ := (Piped.start t).loop_cases calls (cmds.length - 1)
  rw [List.length_nil, Nat.zero_add] at hpipe
  rcases hpipe with ⟨hrun, hlen⟩ | ⟨hrun, -, -⟩
  · rw [hrun]
    simp only [Option.bind_eq_bind, Option.bind_some]
    rw [forkLoopIn_eq hlen hcmds hargv (by omega), List.drop_zero]
    obtain ⟨children, hfork⟩ := forkLoop_cases calls pipes cmds.length t' 0 cmds
    rcases hfork with ⟨hrun, hcount, -, -⟩ | ⟨hrun, -, -⟩
    · have hlast : cmds.length - 1 < children.length := by omega
      rw [hrun]
      simp only [Option.bind_some]
      rw [closeLoopIn_eq (by omega) (by omega), List.drop_zero,
        slot_of_lt (hcount ▸ hcmds) hlast, List.getElem?_eq_getElem hlast,
        waitLoopIn_eq (hcount ▸ hcmds) (by omega), ← List.range_eq_range']
      cases background with
      | true => rfl
      | false => rfl
    · rw [hrun]
      rfl
  · rw [hrun]
    rfl

theorem runPipelineIn_eq (hcmds : cmds.length ≤ MAX_CMDS)
    (hargv : ∀ c ∈ cmds, c.argv.length < MAX_ARGS) (background : Bool) :
    runPipelineIn str calls cmds background t = some (runPipeline str calls cmds background t) := by
  unfold runPipelineIn
  match cmds with
  | [] => rfl
  | [cmd] =>
      have hbuiltin : runBuiltinIn str calls cmd t = some (runBuiltin str calls cmd t) :=
        runBuiltinIn_eq (hargv cmd List.mem_cons_self)
      have hforked : runForkedIn calls [cmd] background t =
          some (runForked calls [cmd] background t) :=
        runForkedIn_eq (by simp) hcmds hargv background
      rw [if_neg (by simp), if_pos List.length_singleton, slot_of_lt hcmds (by simp)]
      simp only [List.getElem?_cons_zero, Option.bind_eq_bind, Option.bind_some, hbuiltin]
      show _ = some ((runBuiltin str calls cmd t).getD _)
      cases runBuiltin str calls cmd t with
      | none => exact hforked
      | some o => rfl
  | _ :: _ :: _ =>
      rw [if_neg (by simp), if_neg (by simp)]
      exact runForkedIn_eq (by simp) hcmds hargv background

end

/-- On every line that `main` passes on, the shell stays inside its arrays, and `tokenize` finds
all words without coming to its limit. The strings that the tokens point to end in the line. -/
theorem accesses_in_bounds (α : Type) (buf : Buf) (p : Nat) (line : List UInt8) (h0 : 0 ∉ line)
    (hline : Holds buf p line) (hend : buf (p + line.length) = 0)
    (hlen : p + line.length ≤ 4095) :
    let toks := (tokenize buf p MAX_TOKS).1
    let str := text (tokenize buf p MAX_TOKS).2
    tokenizeIn buf p MAX_TOKS = some (tokenize buf p MAX_TOKS) ∧
      toks.map str = words line ∧ toks.length < MAX_TOKS - 1 ∧
      (∀ tok ∈ toks, ∃ e, tok ≤ e ∧ e < MAX_LINE ∧ (tokenize buf p MAX_TOKS).2 e = 0) ∧
      parsePipelineIn str toks = some (parsePipeline str toks) ∧
      ∀ cmds background, parsePipeline str toks = .ok (cmds, background) →
        ∀ (calls : Calls) (t : Table (Obj α Nat)),
          runPipelineIn str calls cmds background t =
            some (runPipeline str calls cmds background t) := by
  intro toks str
  have hle := (isLine_of_nonzero h0).length_words_le
  have hmax : MAX_TOKS = 4097 := rfl
  have hfit : p + line.length < MAX_LINE := Nat.lt_succ_of_le hlen
  have hwords : toks.map str = words line :=
    tokenize_words h0 hline hend ((Nat.le_add_left _ p).trans_lt hfit) (by omega)
  have hcount : toks.length < MAX_TOKS - 1 := by
    rw [← List.length_map (f := str), hwords]
    omega
  obtain ⟨hrun, hstrings⟩ := tokenizeIn_eq hend hfit
  refine ⟨hrun, hwords, hcount, hstrings, parsePipelineIn_eq (by omega), ?_⟩
  intro cmds background hparse calls t
  obtain ⟨hcmds, hargv⟩ := parsePipeline_fits hparse
  exact runPipelineIn_eq hcmds hargv background

def sampleLine : List UInt8 := [32, 108, 115, 32, 124, 119, 99, 32]

theorem accesses_in_bounds_sample :
    tokenizeIn (fun i => sampleLine.getD i 0) 0 MAX_TOKS =
        some (tokenize (fun i => sampleLine.getD i 0) 0 MAX_TOKS) ∧
      words sampleLine = [[108, 115], [124, 119, 99]] :=
  ⟨(accesses_in_bounds Unit (fun i => sampleLine.getD i 0) 0 sampleLine (by decide) (by decide)
    (by decide) (by decide)).1, by decide⟩

end G9OS.Shell
