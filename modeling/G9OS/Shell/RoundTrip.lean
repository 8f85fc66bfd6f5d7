import G9OS.Shell.Parse

/-! # What the shell reads is what was written

A pipeline as a user means it, the line that says it, and what `tokenize` and
`parse_pipeline` make of the line.
-/

namespace G9OS.Shell

open Lib

inductive Mode
  | truncate
  | append
deriving DecidableEq, Repr

def Mode.operator : Mode → Word
  | .truncate => gt
  | .append => gtgt

/-- A command with its redirections. A file may be named like an operator, an argument may
not. -/
structure Command where
  args : List Word
  input : Option Word
  output : Option (Mode × Word)
  args_pos : args ≠ []
  args_lt : args.length < MAX_ARGS
  args_plain : ∀ w ∈ args, Plain w ∧ IsArgument w
  input_plain : ∀ f ∈ input, Plain f
  output_plain : ∀ o ∈ output, Plain o.2

def Command.cmd (c : Command) : Cmd Word where
  argv := c.args
  redirIn := c.input
  redirOut := c.output.map Prod.snd
  appendOut := c.output.any fun o => o.1 = .append

def inputTokens : Option Word → List Word
  | none => []
  | some f => [lt, f]

def outputTokens : Option (Mode × Word) → List Word
  | none => []
  | some (m, f) => [m.operator, f]

def Command.tokens (c : Command) : List Word :=
  c.args ++ (inputTokens c.input ++ outputTokens c.output)

/-- The command does not end in an argument that would be read as the background sign. -/
def Command.Closed (c : Command) : Prop :=
  c.input = none → c.output = none → c.args.getLast? ≠ some amp

instance (c : Command) : Decidable c.Closed := inferInstanceAs (Decidable (_ → _ → _))

structure Pipeline where
  commands : List Command
  background : Bool
  commands_pos : commands ≠ []
  commands_le : commands.length ≤ MAX_CMDS
  closed : background = false → ∀ c ∈ commands.getLast?, c.Closed

def joined : List Command → List Word
  | [] => []
  | [c] => c.tokens
  | c :: cs => c.tokens ++ pipe :: joined cs

def sign (background : Bool) : List Word := if background then [amp] else []

def Pipeline.tokens (P : Pipeline) : List Word := joined P.commands ++ sign P.background

/-- What `main` makes of a line, with the strings in place of the pointers to them. -/
def parseLine (buf : Buf) (line : Nat) : Except ParseError (List (Cmd Word) × Bool) :=
  let r := tokenize buf line (MAX_ARGS * MAX_CMDS + 1)
  readBack (text r.2) (parsePipeline (text r.2) r.1)

/-! ## The parser -/

section
variable {c : Command} {cs : List Command} {rest : List Word} {done : List (Cmd Word)}
  {cur : Cmd Word} {background : Bool}

theorem parseLoop_input (f : Option Word) (hin : cur.redirIn = none) :
    parseLoop id (inputTokens f ++ rest) done cur background =
      parseLoop id rest done { cur with redirIn := f } background := by
  cases f with
  | none =>
      have hcur : { cur with redirIn := none } = cur := by rw [← hin]
      rw [hcur]
      rfl
  | some f => exact parseLoop_in

theorem parseLoop_output (o : Option (Mode × Word)) (hout : cur.redirOut = none)
    (happ : cur.appendOut = false) :
    parseLoop id (outputTokens o ++ rest) done cur background =
      parseLoop id rest done
        { cur with redirOut := o.map Prod.snd, appendOut := o.any fun o => o.1 = .append }
        background := by
  obtain _ | ⟨m, f⟩ := o
  · rw [Option.map_none, Option.any_none, ← hout, ← happ]
    rfl
  · cases m with
    | truncate => exact parseLoop_out
    | append => exact parseLoop_append

theorem parseLoop_command (hc : rest = [] → c.Closed) :
    parseLoop id (c.tokens ++ rest) done {} background = parseLoop id rest done c.cmd background := by
  have hamp : inputTokens c.input ++ (outputTokens c.output ++ rest) = [] →
      c.args.getLast? ≠ some amp := by
    intro hnil
    obtain ⟨hin, hmore⟩ := List.append_eq_nil_iff.1 hnil
    obtain ⟨hout, hrest⟩ := List.append_eq_nil_iff.1 hmore
    apply hc hrest
    · cases h : c.input with
      | none => rfl
      | some f => rw [h] at hin; cases hin
    · cases h : c.output with
      | none => rfl
      | some o => rw [h] at hout; cases hout
  rw [Command.tokens, List.append_assoc, List.append_assoc,
    parseLoop_args (fun w hw => (c.args_plain w hw).2) hamp (by simpa using c.args_lt),
    parseLoop_input c.input rfl, parseLoop_output c.output rfl rfl]
  rfl

theorem parseLoop_sign :
    parseLoop id (sign background) done cur false = .ok (done ++ [cur], background) := by
  cases background with
  | false => rfl
  | true => exact parseLoop_amp

/-- All commands of a line, by induction on them: each pipe closes the current one. -/
theorem parseLoop_joined (hcs : cs ≠ []) (hroom : done.length + cs.length ≤ MAX_CMDS)
    (hclosed : background = false → ∀ c ∈ cs.getLast?, c.Closed) :
    parseLoop id (joined cs ++ sign background) done {} false =
      .ok (done ++ cs.map Command.cmd, background) := by
  induction cs generalizing done with
  | nil => exact absurd rfl hcs
  | cons c cs ih =>
      rw [List.length_cons] at hroom
      cases cs with
      | nil =>
          rw [joined, parseLoop_command, parseLoop_sign]
          · rfl
          · intro hsign
            apply hclosed _ c rfl
            cases background with
            | false => rfl
            | true => cases hsign
      | cons d ds =>
          have hmore : done.length + 1 < MAX_CMDS := by
            rw [List.length_cons] at hroom
            omega
          rw [joined, List.append_assoc, parseLoop_command, List.cons_append,
            parseLoop_pipe hmore, ih]
          · rw [List.append_assoc]
            rfl
          · exact nofun
          · rw [List.length_append, List.length_singleton]
            omega
          · exact hclosed
          · exact nofun
          · exact nofun

theorem parsePipeline_tokens (P : Pipeline) :
    parsePipeline id P.tokens = .ok (P.commands.map Command.cmd, P.background) := by
  have hloop : parseLoop id P.tokens [] {} false =
      .ok (P.commands.map Command.cmd, P.background) :=
    parseLoop_joined P.commands_pos (by simpa using P.commands_le) P.closed
  have hlast : dropEmpty (P.commands.map Command.cmd) = P.commands.map Command.cmd := by
    obtain ⟨c, hc⟩ := Option.isSome_iff_exists.1 (List.getLast?_isSome.2 P.commands_pos)
    have hargs : ¬ c.cmd.argv.isEmpty = true := fun h => c.args_pos (List.isEmpty_iff.1 h)
    rw [dropEmpty, List.getLast?_map, hc]
    exact if_neg hargs
  rw [parsePipeline, hloop, Except.map, hlast]

end

/-! ## The line -/

theorem operators_plain : ∀ w ∈ [pipe, lt, gt, gtgt, amp], Plain w := by decide +kernel

theorem Mode.operator_plain (m : Mode) : Plain m.operator := by
  apply operators_plain
  cases m <;> simp [Mode.operator]

theorem Command.tokens_plain (c : Command) : ∀ w ∈ c.tokens, Plain w := by
  intro w hw
  rcases List.mem_append.1 hw with hw | hw
  · exact (c.args_plain w hw).1
  · rcases List.mem_append.1 hw with hw | hw
    · cases hin : c.input with
      | none =>
          rw [hin] at hw
          cases hw
      | some f =>
          rw [hin] at hw
          rcases List.mem_pair.1 hw with rfl | rfl
          · exact operators_plain _ (by simp)
          · exact c.input_plain w hin
    · cases hout : c.output with
      | none =>
          rw [hout] at hw
          cases hw
      | some o =>
          rw [hout] at hw
          rcases List.mem_pair.1 hw with rfl | rfl
          · exact o.1.operator_plain
          · exact c.output_plain o hout

theorem joined_plain (cs : List Command) : ∀ w ∈ joined cs, Plain w := by
  intro w hw
  induction cs using joined.induct with
  | case1 => cases hw
  | case2 c => exact c.tokens_plain w hw
  | case3 c cs hcs ih =>
      rw [joined] at hw
      · rcases List.mem_append.1 hw with hw | hw
        · exact c.tokens_plain w hw
        · rcases List.mem_cons.1 hw with rfl | hw
          · exact operators_plain _ (by simp)
          · exact ih hw
      · exact hcs

theorem Pipeline.tokens_plain (P : Pipeline) : ∀ w ∈ P.tokens, Plain w := by
  intro w hw
  rcases List.mem_append.1 hw with hw | hw
  · exact joined_plain _ w hw
  · cases hbg : P.background with
    | false =>
        rw [hbg] at hw
        cases hw
    | true =>
        rw [hbg] at hw
        rw [List.mem_singleton.1 hw]
        exact operators_plain _ (by simp)

/-- The shell reads back every pipeline from its line, whatever whitespace stands between the
tokens and wherever the line lies in memory. -/
theorem parseLine_writeLine (P : Pipeline) (gap : Nat → List UInt8)
    (hgap : ∀ i, gap i ≠ [] ∧ ∀ b ∈ gap i, isspace b = true) (buf : Buf) (line : Nat)
    (hline : Holds buf line (writeLine gap P.tokens))
    (hend : buf (line + (writeLine gap P.tokens).length) = 0)
    (hlen : (writeLine gap P.tokens).length ≤ 4095) :
    parseLine buf line = .ok (P.commands.map Command.cmd, P.background) := by
  have hfew : P.tokens.length < MAX_ARGS * MAX_CMDS + 1 := by
    have hle := length_le_writeLine P.tokens_plain hgap
    have hmax : MAX_ARGS * MAX_CMDS = 4096 := rfl
    omega
  have htoks := tokenize_line P.tokens_plain hgap hline hend (Nat.lt_succ_of_le hlen) hfew
  rw [parseLine, parsePipeline_map, htoks, parsePipeline_tokens]

/-- `cat & < > | wc >> | &`: the background sign as an argument, and operators as files. -/
def samplePipeline : Pipeline where
  commands := [
    { args := [[99, 97, 116], amp], input := some gt, output := none,
      args_pos := by decide, args_lt := by decide, args_plain := by decide +kernel,
      input_plain := by decide +kernel, output_plain := nofun },
    { args := [[119, 99]], input := none, output := some (.append, pipe),
      args_pos := by decide, args_lt := by decide, args_plain := by decide +kernel,
      input_plain := nofun, output_plain := by decide +kernel }]
  background := true
  commands_pos := nofun
  commands_le := by decide
  closed := nofun

def sampleBuf : Buf := fun i => (writeLine (fun _ => [9, 32]) samplePipeline.tokens).getD i 0

theorem parseLine_writeLine_sample :
    parseLine sampleBuf 0 = .ok ([
      { argv := [[99, 97, 116], amp], redirIn := some gt },
      { argv := [[119, 99]], redirOut := some pipe, appendOut := true }], true) :=
  parseLine_writeLine samplePipeline (fun _ => [9, 32]) (fun _ => by decide +kernel) sampleBuf 0
    (by decide +kernel) (by decide +kernel) (by decide +kernel)

end G9OS.Shell
