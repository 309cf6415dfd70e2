/-
  Agent/Runner.lean --- invocations of the agent (`kojin-agent`: `runner.rs`).

  A task asks a runner to execute a prompt.  The runner that comes with the crate starts a
  `claude` process for it and reads the JSON the process prints:

      not started       Broker
      exit status       TaskFailed, with what the process wrote
      not JSON          TaskFailed
      otherwise         the output

  What the JSON library makes of a text, and how a float is printed, is the parameter
  `RunnerCodec`.
-/
import Kojin.Core.Basic
import Kojin.Foundation.Prog
import Mathlib.Data.List.DropRight

set_option autoImplicit false

namespace Kojin.Agent

open Kojin.Foundation Kojin.Core

/-! ## Texts -/

/-- A continuation byte of UTF-8. -/
def isContinuation (b : UInt8) : Bool := b &&& 0xC0 == 0x80

/-- The second byte of a sequence of three. -/
def isSecondOfThree (a b : UInt8) : Bool :=
  if a = 0xE0 then 0xA0 ≤ b && b ≤ 0xBF
  else if a = 0xED then 0x80 ≤ b && b ≤ 0x9F
  else isContinuation b

/-- The second byte of a sequence of four. -/
def isSecondOfFour (a b : UInt8) : Bool :=
  if a = 0xF0 then 0x90 ≤ b && b ≤ 0xBF
  else if a = 0xF4 then 0x80 ≤ b && b ≤ 0x8F
  else isContinuation b

/-- `char::REPLACEMENT_CHARACTER`. -/
def replacement : Char := '\uFFFD'

/-- A character of which some bytes are missing, the next of which must satisfy a
condition. -/
structure Unfinished where
  value : Nat
  missing : Nat
  next : UInt8 → Bool

/-- The first byte of a character: the character, if that is all of it, or what is
missing.  A byte that begins none is replaced. -/
def firstByte (a : UInt8) : List Char × Option Unfinished :=
  if a < 0x80 then ([Char.ofNat a.toNat], none)
  else if 0xC2 ≤ a && a ≤ 0xDF then ([], some ⟨a.toNat % 32, 1, isContinuation⟩)
  else if 0xE0 ≤ a && a ≤ 0xEF then ([], some ⟨a.toNat % 16, 2, isSecondOfThree a⟩)
  else if 0xF0 ≤ a && a ≤ 0xF4 then ([], some ⟨a.toNat % 8, 3, isSecondOfFour a⟩)
  else ([replacement], none)

/-- The characters of a text; one that is broken off is replaced as a whole. -/
def lossyChars : Option Unfinished → List UInt8 → List Char
  | none, [] => []
  | some _, [] => [replacement]
  | none, a :: rest => (firstByte a).1 ++ lossyChars (firstByte a).2 rest
  | some u, a :: rest =>
      if u.next a then
        let value := u.value * 64 + a.toNat % 64
        if u.missing = 1 then Char.ofNat value :: lossyChars none rest
        else lossyChars (some ⟨value, u.missing - 1, isContinuation⟩) rest
      else replacement :: ((firstByte a).1 ++ lossyChars (firstByte a).2 rest)

/-- `String::from_utf8_lossy`. -/
def fromUtf8Lossy (bytes : List UInt8) : String := String.ofList (lossyChars none bytes)

example : fromUtf8Lossy [0x6F, 0x6B, 0xE2, 0x82, 0xAC, 0xE2, 0x82, 0x21] = "ok€\uFFFD!" := by
  decide

/-- `char::is_whitespace`. -/
def isWhitespace (c : Char) : Bool :=
  ('\u0009' ≤ c && c ≤ '\u000D') || c = '\u0020' || c = '\u0085' || c = '\u00A0' ||
    c = '\u1680' || ('\u2000' ≤ c && c ≤ '\u200A') || c = '\u2028' || c = '\u2029' ||
    c = '\u202F' || c = '\u205F' || c = '\u3000'

/-- `str::trim`. -/
def trim (s : String) : String :=
  String.ofList ((s.toList.dropWhile isWhitespace).rdropWhile isWhitespace)

/-! ## Processes -/

/-- A command: the program, its arguments, and `current_dir` if it was set. -/
structure Command where
  program : String
  args : List String
  currentDir : Option String
  deriving DecidableEq, Repr

/-- An exit status and how it is displayed. -/
structure ExitStatus where
  success : Bool
  text : String
  deriving DecidableEq, Repr

/-- `std::process::Output`. -/
structure Output where
  status : ExitStatus
  stdout : List UInt8
  stderr : List UInt8
  deriving DecidableEq, Repr

/-! ## The runner -/

/-- The bits of a float, which nobody computes with. -/
abbrev F64 : Type := UInt64

/-- `RunArgs`. -/
structure RunArgs where
  model : Option String
  systemPrompt : Option String
  maxTurns : Option UInt32
  maxBudgetUsd : Option F64
  allowedTools : Option (List String)
  cwd : Option String
  deriving DecidableEq, Repr

namespace RunArgs

/-- `RunArgs::default`. -/
def default : RunArgs := ⟨none, none, none, none, none, none⟩

/-- `RunArgs::with_cwd`. -/
def withCwd (args : RunArgs) (cwd : String) : RunArgs := { args with cwd := some cwd }

end RunArgs

/-- `RunOutput`. -/
structure RunOutput where
  result : String
  sessionId : Option String
  costUsd : Option F64
  durationMs : Option UInt64
  numTurns : Option UInt32
  deriving DecidableEq, Repr

/-- What an agent task calls: the runner, and processes of its own. -/
inductive AgentOp where
  | claude (prompt : String) (args : RunArgs)
  | process (command : Command)

/-- The answers; a process that cannot be started has an error with a text. -/
abbrev AgentOp.Res : AgentOp → Type
  | .claude _ _ => TaskResult RunOutput
  | .process _ => Except String Output

/-- The interface of an agent task. -/
abbrev agentCalls : Interface := ⟨AgentOp, AgentOp.Res⟩

/-- `RawOutput`. -/
structure RawOutput where
  result : Option String
  sessionId : Option String
  costUsd : Option F64
  durationMs : Option UInt64
  numTurns : Option UInt32

/-- What the runner uses of other libraries. -/
structure RunnerCodec where
  displayF64 : F64 → String
  fromSlice : List UInt8 → Except String RawOutput

/-- `ProcessRunner`. -/
structure ProcessRunner where
  claudeBin : Option String

namespace ProcessRunner

variable (r : ProcessRunner) (codec : RunnerCodec)

/-- `ProcessRunner::bin`. -/
def bin : String := r.claudeBin.getD "claude"

/-- The flags of an optional argument. -/
def flag {α : Type} (name : String) (print : α → String) : Option α → List String
  | some a => [name, print a]
  | none => []

/-- The command of an invocation. -/
def command (prompt : String) (args : RunArgs) : Command where
  program := r.bin
  args := ["--bare", "-p", prompt, "--output-format", "json", "--no-session-persistence"] ++
    flag "--model" id args.model ++
    flag "--append-system-prompt" id args.systemPrompt ++
    flag "--max-turns" (fun n => toString n.toNat) args.maxTurns ++
    flag "--max-budget-usd" codec.displayF64 args.maxBudgetUsd ++
    flag "--allowedTools" (fun tools => ",".intercalate tools) args.allowedTools
  currentDir := args.cwd

/-- What is made of the process. -/
def parse (output : Output) : TaskResult RunOutput :=
  let stdout := fromUtf8Lossy output.stdout
  let stderr := fromUtf8Lossy output.stderr
  if output.status.success then
    match codec.fromSlice output.stdout with
    | .ok raw =>
        .ok ⟨raw.result.getD "", raw.sessionId, raw.costUsd, raw.durationMs, raw.numTurns⟩
    | .error e =>
        .error (.taskFailed ("failed to parse claude JSON output: " ++ e ++ "\nstdout: " ++ stdout))
  else
    .error (.taskFailed ("claude exited with " ++ output.status.text ++ ": " ++ trim stderr ++
      if stderr = "" then stdout else ""))

/-- `ProcessRunner::run`. -/
def run (prompt : String) (args : RunArgs) : Prog agentCalls (TaskResult RunOutput) := do
  match ← Prog.perform (I := agentCalls) (.process (r.command codec prompt args)) with
  | .error e => pure (.error (.broker ("failed to spawn claude process: " ++ e)))
  | .ok output => pure (parse codec output)

end ProcessRunner

end Kojin.Agent
