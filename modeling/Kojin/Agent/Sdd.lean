/-
  Agent/Sdd.lean --- specification-driven development (`kojin-agent`: `sdd.rs`).

  The task asks the runner for code, runs the tests, and asks for a fix as long as they
  fail and an attempt is left:

      claude   generate
      process  test        failed
      claude   fix
      process  test        failed
      ...
      process  test        passed, or the last attempt

  `sdd_accounting` says what a run that returns has called, and that a call that fails
  ends it.  `one_directory_iff` says when the calls share their directory.
-/
import Kojin.Agent.Runner

set_option autoImplicit false

namespace Kojin.Agent

open Kojin.Foundation Kojin.Core

/-! ## The task -/

/-- `SddTask`. -/
structure SddTask where
  spec : String
  testCommand : List String
  cwd : Option String
  maxFixAttempts : UInt32
  args : RunArgs
  deriving DecidableEq, Repr

/-- `SddOutput`. -/
structure SddOutput where
  passed : Bool
  attempts : UInt32
  genOutput : RunOutput
  fixOutputs : List RunOutput
  lastTestStdout : String
  lastTestStderr : String
  deriving DecidableEq, Repr

/-- `run_test_command`. -/
def runTestCommand (command : List String) (cwd : Option String) :
    Prog agentCalls (TaskResult Output) :=
  match command with
  | [] => pure (.error (.other "test_command is empty"))
  | program :: args => do
      let answer ← Prog.perform (I := agentCalls) (.process ⟨program, args, cwd⟩)
      pure (answer.mapError fun e => .broker ("failed to run test command: " ++ e))

namespace SddTask

/-- `SddTask::new`. -/
def new (spec : String) : SddTask := ⟨spec, ["cargo", "test"], none, 3, .default⟩

/-- `SddTask::with_test_command`. -/
def withTestCommand (task : SddTask) (cmd : List String) : SddTask :=
  { task with testCommand := cmd }

/-- `SddTask::with_args`. -/
def withArgs (task : SddTask) (args : RunArgs) : SddTask := { task with args := args }

/-- The task of `sdd_sig`. -/
def ofSig (spec : String) (testCommand : List String) (args : RunArgs) : SddTask :=
  ((new spec).withTestCommand testCommand).withArgs args

variable (task : SddTask)

/-- The arguments of the runner, with the directory of the task if it has one. -/
def runArgs : RunArgs :=
  match task.cwd with
  | some cwd => task.args.withCwd cwd
  | none => task.args

/-- The prompt of the first step. -/
def genPrompt : String :=
  "Implement the following specification. Write the code directly to files.\n\n" ++
    "## Specification\n\n" ++ task.spec ++ "\n\n" ++
    "## Verification\n\n" ++
    "The code will be verified by running: `" ++ " ".intercalate task.testCommand ++ "`"

/-- `chars().take(4000)`. -/
def excerpt (text : String) : String := String.ofList (text.toList.take 4000)

/-- The prompt of a fix. -/
def fixPrompt (stdout stderr : String) : String :=
  "The verification command `" ++ " ".intercalate task.testCommand ++
    "` failed. Fix the code.\n\n" ++
    "## Test Output\n\n" ++
    "### stdout\n```\n" ++ excerpt stdout ++ "\n```\n\n" ++
    "### stderr\n```\n" ++ excerpt stderr ++ "\n```\n\n" ++
    "## Original Specification\n\n" ++ task.spec

/-- `0..=max`. -/
def attemptsUpTo (max : UInt32) : List UInt32 := (List.range (max.toNat + 1)).map UInt32.ofNat

/-- The output after the loop. -/
def failedOutput (gen : RunOutput) (fixes : List RunOutput) (stdout stderr : String) : SddOutput :=
  ⟨false, task.maxFixAttempts + 1, gen, fixes, stdout, stderr⟩

/-- The loop over the attempts; `fixes`, `stdout` and `stderr` are its variables. -/
def verify (gen : RunOutput) : List UInt32 → List RunOutput → String → String →
    Prog agentCalls (TaskResult SddOutput)
  | [], fixes, stdout, stderr => pure (.ok (task.failedOutput gen fixes stdout stderr))
  | attempt :: rest, fixes, _, _ => do
      match ← runTestCommand task.testCommand task.cwd with
      | .error e => pure (.error e)
      | .ok test =>
          let stdout := fromUtf8Lossy test.stdout
          let stderr := fromUtf8Lossy test.stderr
          if test.status.success then
            pure (.ok ⟨true, attempt + 1, gen, fixes, stdout, stderr⟩)
          else if attempt = task.maxFixAttempts then
            pure (.ok (task.failedOutput gen fixes stdout stderr))
          else
            match ← Prog.perform (I := agentCalls)
              (.claude (task.fixPrompt stdout stderr) task.runArgs) with
            | .error e => pure (.error e)
            | .ok fix => verify gen rest (fixes ++ [fix]) stdout stderr

/-- `SddTask::run`, in a context with or without a runner. -/
def run (configured : Bool) : Prog agentCalls (TaskResult SddOutput) := do
  if configured then
    match ← Prog.perform (I := agentCalls) (.claude task.genPrompt task.runArgs) with
    | .error e => pure (.error e)
    | .ok gen => task.verify gen (attemptsUpTo task.maxFixAttempts) [] "" ""
  else
    pure (.error (.other ("ClaudeRunner not configured — add Arc<dyn ClaudeRunner> " ++
      "via KojinBuilder::data()")))

end SddTask

/-! ## What a run has called -/

/-- The error a call ended with. -/
def failure : Event agentCalls → Option KojinError
  | ⟨.claude _ _, .error e⟩ => some e
  | ⟨.process _, .error e⟩ => some (.broker ("failed to run test command: " ++ e))
  | _ => none

/-- Whether the call is one of the runner. -/
def isClaude : Event agentCalls → Bool
  | ⟨.claude _ _, _⟩ => true
  | ⟨.process _, _⟩ => false

/-- A failed test and the fix after it. -/
structure Round where
  test : Output
  fix : RunOutput

namespace SddTask

variable (task : SddTask)

/-- The test command. -/
def testCall : Command := ⟨task.testCommand.headD "", task.testCommand.tail, task.cwd⟩

/-- A test that was run. -/
def testEvent (test : Output) : Event agentCalls := ⟨.process task.testCall, .ok test⟩

/-- The calls of a round. -/
def roundEvents (r : Round) : List (Event agentCalls) :=
  [task.testEvent r.test,
    ⟨.claude (task.fixPrompt (fromUtf8Lossy r.test.stdout) (fromUtf8Lossy r.test.stderr))
      task.runArgs, .ok r.fix⟩]

/-- The calls of a run that returns: generation, rounds, and a last test. -/
def history (gen : RunOutput) (rounds : List Round) (last : Output) : List (Event agentCalls) :=
  ⟨.claude task.genPrompt task.runArgs, .ok gen⟩ ::
    (rounds.flatMap task.roundEvents ++ [task.testEvent last])

/-! ## One attempt -/

variable {task} {gen : RunOutput} {tr : List (Event agentCalls)} {out : TaskResult SddOutput}

/-- Everything an attempt can do: the calls up to the next attempt or the end of the
run, and what comes of them. -/
inductive Attempt (task : SddTask) (gen : RunOutput) (attempt : UInt32) (rest : List UInt32)
    (fixes : List RunOutput) : List (Event agentCalls) → TaskResult SddOutput → Prop where
  | notRun (e : String) :
      Attempt task gen attempt rest fixes [⟨.process task.testCall, .error e⟩]
        (.error (.broker ("failed to run test command: " ++ e)))
  | passed {test : Output} : test.status.success = true →
      Attempt task gen attempt rest fixes [task.testEvent test]
        (.ok ⟨true, attempt + 1, gen, fixes, fromUtf8Lossy test.stdout, fromUtf8Lossy test.stderr⟩)
  | last {test : Output} : test.status.success = false → attempt = task.maxFixAttempts →
      Attempt task gen attempt rest fixes [task.testEvent test]
        (.ok (task.failedOutput gen fixes (fromUtf8Lossy test.stdout) (fromUtf8Lossy test.stderr)))
  | notFixed {test : Output} (e : KojinError) :
      test.status.success = false → attempt ≠ task.maxFixAttempts →
      Attempt task gen attempt rest fixes
        [task.testEvent test, ⟨.claude (task.fixPrompt (fromUtf8Lossy test.stdout)
          (fromUtf8Lossy test.stderr)) task.runArgs, .error e⟩] (.error e)
  | fixed {r : Round} {tail : List (Event agentCalls)} {out : TaskResult SddOutput} :
      r.test.status.success = false → attempt ≠ task.maxFixAttempts →
      Prog.Trace (task.verify gen rest (fixes ++ [r.fix]) (fromUtf8Lossy r.test.stdout)
        (fromUtf8Lossy r.test.stderr)) tail out →
      Attempt task gen attempt rest fixes (task.roundEvents r ++ tail) out

/-- The test command as it is run. -/
theorem runTestCommand_eq (hcmd : task.testCommand ≠ []) :
    runTestCommand task.testCommand task.cwd =
      .call (I := agentCalls) (.process task.testCall) fun answer =>
        .ret (answer.mapError fun e => .broker ("failed to run test command: " ++ e)) := by
  obtain ⟨program, args, hlist⟩ := List.exists_cons_of_ne_nil hcmd
  rw [testCall, hlist]
  rfl

theorem verify_cases (hcmd : task.testCommand ≠ []) {attempt : UInt32} {rest : List UInt32}
    {fixes : List RunOutput} {stdout stderr : String}
    (h : Prog.Trace (task.verify gen (attempt :: rest) fixes stdout stderr) tr out) :
    Attempt task gen attempt rest fixes tr out := by
  rw [verify, runTestCommand_eq hcmd, Prog.call_bind] at h
  obtain ⟨answer, tail, rfl, hanswer⟩ := Prog.trace_call_iff.mp h
  cases answer with
  | error e =>
      obtain ⟨rfl, rfl⟩ := Prog.trace_ret_iff.mp hanswer
      exact .notRun e
  | ok test =>
      simp only [Except.mapError, Prog.ret_bind] at hanswer
      split at hanswer
      · rename_i hpassed
        obtain ⟨rfl, rfl⟩ := Prog.trace_ret_iff.mp hanswer
        exact .passed hpassed
      · rename_i hfailed
        have hfailed' : test.status.success = false := Bool.eq_false_iff.mpr hfailed
        split at hanswer
        · rename_i hlast
          obtain ⟨rfl, rfl⟩ := Prog.trace_ret_iff.mp hanswer
          exact .last hfailed' hlast
        · rename_i hmore
          rw [Prog.perform_bind] at hanswer
          obtain ⟨answer, tail, rfl, hfix⟩ := Prog.trace_call_iff.mp hanswer
          cases answer with
          | error e =>
              obtain ⟨rfl, rfl⟩ := Prog.trace_ret_iff.mp hfix
              exact .notFixed e hfailed' hmore
          | ok fix => exact .fixed (r := ⟨test, fix⟩) hfailed' hmore hfix

/-! ## The loop -/

/-- The output of a run that returns, and its last test: the attempt at which the loop is
is the number of rounds so far. -/
structure Accounts (task : SddTask) (gen : RunOutput) (fixes : List RunOutput)
    (rounds : List Round) (last : Output) (o : SddOutput) : Prop where
  earlier : ∀ r ∈ rounds, r.test.status.success = false
  generated : o.genOutput = gen
  fixed : o.fixOutputs = fixes ++ rounds.map Round.fix
  attempts : o.attempts.toNat = fixes.length + rounds.length + 1
  bound : o.attempts.toNat ≤ task.maxFixAttempts.toNat + 1
  passed : o.passed = last.status.success
  exhausted : o.passed = false → o.attempts.toNat = task.maxFixAttempts.toNat + 1
  stdout : o.lastTestStdout = fromUtf8Lossy last.stdout
  stderr : o.lastTestStderr = fromUtf8Lossy last.stderr

/-- One more round in front. -/
theorem Accounts.round {fixes : List RunOutput} {rounds : List Round} {last : Output}
    {o : SddOutput} {r : Round} (h : Accounts task gen (fixes ++ [r.fix]) rounds last o)
    (hfailed : r.test.status.success = false) : Accounts task gen fixes (r :: rounds) last o where
  earlier r' hmem := by
    rcases List.mem_cons.mp hmem with rfl | hrest
    · exact hfailed
    · exact h.earlier r' hrest
  generated := h.generated
  fixed := by rw [h.fixed, List.append_assoc, List.map_cons, List.singleton_append]
  attempts := by
    rw [h.attempts, List.length_append, List.length_singleton, List.length_cons]
    omega
  bound := h.bound
  passed := h.passed
  exhausted := h.exhausted
  stdout := h.stdout
  stderr := h.stderr

/-- Counting up does not wrap. -/
theorem toNat_succ {n : UInt32} (h : n.toNat < 2 ^ 32 - 1) : (n + 1).toNat = n.toNat + 1 := by
  rw [UInt32.toNat_add, UInt32.toNat_one, Nat.mod_eq_of_lt (by omega)]

/-- The attempts that are left, from one on. -/
def attemptsFrom (first count : Nat) : List UInt32 := (List.range' first count).map UInt32.ofNat

theorem attemptsUpTo_eq (max : UInt32) : attemptsUpTo max = attemptsFrom 0 (max.toNat + 1) := by
  rw [attemptsUpTo, attemptsFrom, List.range_eq_range']

/-- An attempt of a run that returns is the last one, or a round. -/
theorem Attempt.returned (hmax : task.maxFixAttempts.toNat < 2 ^ 32 - 1) {rest : List UInt32}
    {fixes : List RunOutput} (hle : fixes.length ≤ task.maxFixAttempts.toNat) {o : SddOutput}
    (h : Attempt task gen (UInt32.ofNat fixes.length) rest fixes tr (.ok o)) :
    (∃ last, tr = [task.testEvent last] ∧ Accounts task gen fixes [] last o) ∨
      ∃ r tail, tr = task.roundEvents r ++ tail ∧ r.test.status.success = false ∧
        fixes.length ≠ task.maxFixAttempts.toNat ∧
        Prog.Trace (task.verify gen rest (fixes ++ [r.fix]) (fromUtf8Lossy r.test.stdout)
          (fromUtf8Lossy r.test.stderr)) tail (.ok o) := by
  have hattempt : (UInt32.ofNat fixes.length).toNat = fixes.length := by
    rw [UInt32.toNat_ofNat', Nat.mod_eq_of_lt (by omega)]
  cases h with
  | @passed test hpassed =>
      have hattempts : (UInt32.ofNat fixes.length + 1).toNat = fixes.length + 1 := by
        rw [toNat_succ (by omega), hattempt]
      refine .inl ⟨test, rfl, ?_⟩
      exact
        { earlier := fun r hmem => by cases hmem
          generated := rfl
          fixed := (List.append_nil fixes).symm
          attempts := hattempts
          bound := by
            rw [hattempts]
            omega
          passed := hpassed.symm
          exhausted := fun hfalse => by cases hfalse
          stdout := rfl
          stderr := rfl }
  | @last test hfailed hlast =>
      have hattempts : (task.maxFixAttempts + 1).toNat = task.maxFixAttempts.toNat + 1 :=
        toNat_succ hmax
      have hlength : fixes.length = task.maxFixAttempts.toNat := by rw [← hlast, hattempt]
      refine .inl ⟨test, rfl, ?_⟩
      exact
        { earlier := fun r hmem => by cases hmem
          generated := rfl
          fixed := (List.append_nil fixes).symm
          attempts := by
            rw [hlength]
            exact hattempts
          bound := le_of_eq hattempts
          passed := hfailed.symm
          exhausted := fun _ => hattempts
          stdout := rfl
          stderr := rfl }
  | @fixed r tail _ hfailed hmore htail =>
      refine .inr ⟨r, tail, rfl, hfailed, fun hlength => hmore ?_, htail⟩
      rw [← UInt32.toNat_inj, hattempt, hlength]

theorem verify_returned (hcmd : task.testCommand ≠ [])
    (hmax : task.maxFixAttempts.toNat < 2 ^ 32 - 1) {count : Nat} {fixes : List RunOutput}
    (hcount : fixes.length + count = task.maxFixAttempts.toNat) {stdout stderr : String}
    {o : SddOutput} (h : Prog.Trace (task.verify gen (attemptsFrom fixes.length (count + 1)) fixes
      stdout stderr) tr (.ok o)) :
    ∃ rounds last, tr = rounds.flatMap task.roundEvents ++ [task.testEvent last] ∧
      Accounts task gen fixes rounds last o := by
  induction count generalizing fixes stdout stderr tr with
  | zero =>
      rcases (verify_cases hcmd h).returned hmax (by omega) with
        ⟨last, rfl, haccounts⟩ | ⟨r, tail, rfl, -, hmore, -⟩
      · exact ⟨[], last, rfl, haccounts⟩
      · exact absurd hcount hmore
  | succ count ih =>
      rcases (verify_cases hcmd h).returned hmax (by omega) with
        ⟨last, rfl, haccounts⟩ | ⟨r, tail, rfl, hfailed, -, htail⟩
      · exact ⟨[], last, rfl, haccounts⟩
      · have hlength : (fixes ++ [r.fix]).length = fixes.length + 1 := List.length_append
        rw [← hlength] at htail
        obtain ⟨rounds, last, rfl, haccounts⟩ := ih (by omega) htail
        exact ⟨r :: rounds, last, by rw [List.flatMap_cons, List.append_assoc],
          haccounts.round hfailed⟩

/-! ## Calls that fail -/

/-- A call that fails is the last one, and the run returns its error. -/
def StopsAtFailure (tr : List (Event agentCalls)) (out : TaskResult SddOutput) : Prop :=
  ∀ before e after err, tr = before ++ e :: after → failure e = some err →
    after = [] ∧ out = .error err

theorem stopsAtFailure_nil : StopsAtFailure [] out := by
  intro before e after err hsplit
  exact absurd hsplit.symm (by simp)

/-- A call in front that does not fail. -/
theorem StopsAtFailure.cons {e : Event agentCalls} (he : failure e = none)
    (h : StopsAtFailure tr out) : StopsAtFailure (e :: tr) out := by
  intro before e' after err hsplit hfail
  cases before with
  | nil =>
      obtain ⟨rfl, -⟩ := List.cons.inj hsplit
      rw [he] at hfail
      cases hfail
  | cons e'' before => exact h before e' after err (List.cons.inj hsplit).2 hfail

/-- A call that fails, and nothing after it. -/
theorem stopsAtFailure_single {e : Event agentCalls} {err : KojinError}
    (he : failure e = some err) : StopsAtFailure [e] (.error err) := by
  intro before e' after err' hsplit hfail
  cases before with
  | nil =>
      obtain ⟨rfl, rfl⟩ := List.cons.inj hsplit
      rw [he] at hfail
      exact ⟨rfl, congrArg Except.error (Option.some.inj hfail)⟩
  | cons e'' before => exact absurd (List.cons.inj hsplit).2.symm (by simp)

theorem verify_stops (hcmd : task.testCommand ≠ []) {attempts : List UInt32}
    {fixes : List RunOutput} {stdout stderr : String}
    (h : Prog.Trace (task.verify gen attempts fixes stdout stderr) tr out) :
    StopsAtFailure tr out := by
  induction attempts generalizing fixes stdout stderr tr with
  | nil =>
      obtain ⟨rfl, -⟩ := Prog.trace_ret_iff.mp h
      exact stopsAtFailure_nil
  | cons attempt rest ih =>
      cases verify_cases hcmd h with
      | notRun e => exact stopsAtFailure_single rfl
      | passed _ => exact stopsAtFailure_nil.cons rfl
      | last _ _ => exact stopsAtFailure_nil.cons rfl
      | notFixed e _ _ => exact (stopsAtFailure_single rfl).cons rfl
      | fixed _ _ htail => exact ((ih htail).cons rfl).cons rfl

/-! ## A run -/

/-- A run without a runner calls nothing; one with a runner first generates. -/
theorem run_cases {configured : Bool} (h : Prog.Trace (task.run configured) tr out) :
    (tr = [] ∧ ∃ e, out = .error e) ∨
      (∃ e, tr = [⟨.claude task.genPrompt task.runArgs, .error e⟩] ∧ out = .error e) ∨
      ∃ gen tail, tr = ⟨.claude task.genPrompt task.runArgs, .ok gen⟩ :: tail ∧
        Prog.Trace (task.verify gen (attemptsFrom 0 (task.maxFixAttempts.toNat + 1)) [] "" "")
          tail out := by
  cases configured with
  | false =>
      obtain ⟨rfl, rfl⟩ := Prog.trace_ret_iff.mp h
      exact .inl ⟨rfl, _, rfl⟩
  | true =>
      obtain ⟨answer, tail, rfl, hrest⟩ := Prog.trace_call_iff.mp h
      cases answer with
      | error e =>
          obtain ⟨rfl, rfl⟩ := Prog.trace_ret_iff.mp hrest
          exact .inr (.inl ⟨e, rfl, rfl⟩)
      | ok gen =>
          rw [← attemptsUpTo_eq]
          exact .inr (.inr ⟨gen, tail, rfl, hrest⟩)

/-- There is one call of the runner more than there are rounds, and one test. -/
theorem countP_history (gen : RunOutput) (rounds : List Round) (last : Output) :
    (task.history gen rounds last).countP isClaude = rounds.length + 1 ∧
      (task.history gen rounds last).countP (fun e => !isClaude e) = rounds.length + 1 := by
  have hrounds : ∀ p : Event agentCalls → Bool, (∀ r, (task.roundEvents r).countP p = 1) →
      (rounds.flatMap task.roundEvents).countP p = rounds.length := by
    intro p hp
    induction rounds with
    | nil => rfl
    | cons r rounds ih =>
        rw [List.flatMap_cons, List.countP_append, hp, ih, List.length_cons, Nat.add_comm]
  constructor
  · rw [history, List.countP_cons_of_pos rfl, List.countP_append, hrounds _ fun _ => rfl]
    rfl
  · rw [history, List.countP_cons_of_neg (by simp [isClaude]), List.countP_append,
      hrounds _ fun _ => rfl]
    rfl

/-- The accounts of a run.  A run that returns has generated, has had a round for every
failed test but the last, and has tested once more: the tests and the invocations of the
runner are as many as the attempts it reports, and the other outputs are those of these
calls.  A call that fails ends the run with its error. -/
theorem sdd_accounting (task : SddTask) (hcmd : task.testCommand ≠ [])
    (hmax : task.maxFixAttempts.toNat < 2 ^ 32 - 1) {configured : Bool}
    (h : Prog.Trace (task.run configured) tr out) :
    (∀ o, out = .ok o → ∃ rounds last, tr = task.history o.genOutput rounds last ∧
      Accounts task o.genOutput [] rounds last o ∧
      tr.countP isClaude = o.attempts.toNat ∧
      tr.countP (fun e => !isClaude e) = o.attempts.toNat ∧
      o.fixOutputs.length = o.attempts.toNat - 1) ∧
    StopsAtFailure tr out := by
  rcases run_cases h with ⟨rfl, e, rfl⟩ | ⟨e, rfl, rfl⟩ | ⟨gen, tail, rfl, htail⟩
  · exact ⟨(fun o ho => by cases ho), stopsAtFailure_nil⟩
  · exact ⟨(fun o ho => by cases ho), stopsAtFailure_single rfl⟩
  · refine ⟨?_, (verify_stops hcmd htail).cons rfl⟩
    rintro o rfl
    have hverify : Prog.Trace (task.verify gen (attemptsFrom ([] : List RunOutput).length
        (task.maxFixAttempts.toNat + 1)) [] "" "") tail (.ok o) := htail
    obtain ⟨rounds, last, rfl, haccounts⟩ :=
      verify_returned hcmd hmax (Nat.zero_add _) hverify
    obtain rfl := haccounts.generated
    have hattempts : o.attempts.toNat = rounds.length + 1 := by
      rw [haccounts.attempts, List.length_nil, Nat.zero_add]
    obtain ⟨hclaude, htests⟩ := countP_history o.genOutput rounds last
    refine ⟨rounds, last, rfl, haccounts, hclaude.trans hattempts.symm,
      htests.trans hattempts.symm, ?_⟩
    rw [haccounts.fixed, List.nil_append, List.length_map, hattempts, Nat.add_sub_cancel]

/-! ## A failed test, and a fix -/

/-- What the runner answers. -/
def doneOutput : RunOutput := ⟨"done", none, none, none, none⟩

/-- A test that writes nothing. -/
def silentTest (success : Bool) : Output := ⟨⟨success, "exit status"⟩, [], []⟩

/-- A task that runs `true` as its test, with the given directory for the runner. -/
def trueTask (cwd : Option String) : SddTask :=
  ofSig "spec" ["true"] { RunArgs.default with cwd := cwd }

/-- The first test fails, the second passes. -/
theorem trueTask_trace (cwd : Option String) :
    Prog.Trace ((trueTask cwd).run true)
      ((trueTask cwd).history doneOutput [⟨silentTest false, doneOutput⟩] (silentTest true))
      (.ok ⟨true, 2, doneOutput, [doneOutput], "", ""⟩) :=
  .call (.call (.call (.call (.ret _))))

/-- Two attempts: two invocations, two tests, and the fix between them. -/
theorem sdd_accounting_fixed :
    ∃ tr o, Prog.Trace ((trueTask none).run true) tr (.ok o) ∧ o.attempts = 2 ∧
      o.fixOutputs = [doneOutput] ∧ tr.countP isClaude = 2 ∧
      tr.countP (fun e => !isClaude e) = 2 ∧ StopsAtFailure tr (.ok o) := by
  obtain ⟨haccounts, hstops⟩ :=
    sdd_accounting (trueTask none) (by decide) (by decide) (trueTask_trace none)
  obtain ⟨-, -, -, -, hclaude, htests, -⟩ := haccounts _ rfl
  exact ⟨_, _, trueTask_trace none, rfl, rfl, hclaude, htests, hstops⟩

/-! ## Directories -/

section Directories

variable {Dir : Type} (own : Dir) (resolve : String → Dir)

/-- The directory a process works in: the one that was set, or that of its parent. -/
def dirOf : Option String → Dir
  | some path => resolve path
  | none => own

/-- The directory of a call: a runner works where its arguments say. -/
def workDir : Event agentCalls → Dir
  | ⟨.claude _ args, _⟩ => dirOf own resolve args.cwd
  | ⟨.process command, _⟩ => dirOf own resolve command.currentDir

/-- All calls of every run work in one directory. -/
def OneDirectory (task : SddTask) : Prop :=
  ∀ tr out, Prog.Trace (task.run true) tr out →
    ∀ e ∈ tr, ∀ e' ∈ tr, workDir own resolve e = workDir own resolve e'

/-- The calls a task makes. -/
def Makes (task : SddTask) (op : AgentOp) : Prop :=
  (∃ prompt, op = .claude prompt task.runArgs) ∨
    (task.testCommand ≠ [] ∧ op = .process task.testCall)

theorem runTestCommand_makes (task : SddTask) :
    (runTestCommand task.testCommand task.cwd).Calls (Makes task) := by
  by_cases hcmd : task.testCommand = []
  · rw [hcmd]
    trivial
  · rw [runTestCommand_eq hcmd]
    exact ⟨.inr ⟨hcmd, rfl⟩, fun _ => trivial⟩

theorem verify_makes (task : SddTask) (gen : RunOutput) (attempts : List UInt32)
    (fixes : List RunOutput) (stdout stderr : String) :
    (task.verify gen attempts fixes stdout stderr).Calls (Makes task) := by
  induction attempts generalizing fixes stdout stderr with
  | nil => trivial
  | cons attempt rest ih =>
      refine (runTestCommand_makes task).bind fun answer => ?_
      cases answer with
      | error e => trivial
      | ok test =>
          dsimp only
          split
          · trivial
          · split
            · trivial
            · refine ⟨.inl ⟨_, rfl⟩, fun answer => ?_⟩
              cases answer with
              | error e => trivial
              | ok fix => exact ih _ _ _

theorem run_makes (task : SddTask) : (task.run true).Calls (Makes task) := by
  refine ⟨.inl ⟨_, rfl⟩, fun answer => ?_⟩
  cases answer with
  | error e => trivial
  | ok gen => exact verify_makes task gen _ _ _ _

omit own resolve in
/-- A run whose first test passes. -/
theorem passes_trace (task : SddTask) (hcmd : task.testCommand ≠ []) :
    ∃ out, Prog.Trace (task.run true) (task.history doneOutput [] (silentTest true)) out := by
  refine ⟨.ok ⟨true, UInt32.ofNat 0 + 1, doneOutput, [], "", ""⟩, .call ?_⟩
  show Prog.Trace (task.verify doneOutput (attemptsUpTo task.maxFixAttempts) [] "" "") _ _
  have hfirst : attemptsUpTo task.maxFixAttempts =
      UInt32.ofNat 0 :: attemptsFrom 1 task.maxFixAttempts.toNat := attemptsUpTo_eq _
  rw [hfirst, verify, runTestCommand_eq hcmd]
  exact .call (.ret _)

/-- With a directory of its own, a task hands it to its runner. -/
theorem runArgs_cwd (task : SddTask) :
    task.runArgs.cwd = if task.cwd = none then task.args.cwd else task.cwd := by
  rw [runArgs]
  cases task.cwd <;> rfl

/-- When a task works in one directory: when it has a directory of its own, or it has
no test command, or the directory of its runner is that of the worker. -/
theorem one_directory_iff (task : SddTask) :
    OneDirectory own resolve task ↔
      task.cwd ≠ none ∨ task.testCommand = [] ∨ dirOf own resolve task.args.cwd = own := by
  have hcwd := runArgs_cwd task
  constructor
  · intro hone
    by_contra hnot
    obtain ⟨hnone, hcmd, hdir⟩ : task.cwd = none ∧ task.testCommand ≠ [] ∧
        dirOf own resolve task.args.cwd ≠ own := by simpa [not_or] using hnot
    rw [if_pos hnone] at hcwd
    obtain ⟨out, htr⟩ := passes_trace task hcmd
    -- the generation and the test after it
    have hsame : dirOf own resolve task.runArgs.cwd = dirOf own resolve task.cwd :=
      hone _ _ htr _ List.mem_cons_self _ (List.mem_cons_of_mem _ List.mem_cons_self)
    rw [hcwd, hnone] at hsame
    exact hdir hsame
  · intro hcond
    have htests : task.testCommand ≠ [] →
        dirOf own resolve task.cwd = dirOf own resolve task.runArgs.cwd := by
      intro hcmd
      rw [hcwd]
      split
      · rename_i hnone
        rcases hcond with hsome | hempty | hown
        · exact absurd hnone hsome
        · exact absurd hempty hcmd
        · rw [hown, hnone]
          rfl
      · rfl
    have hdir : ∀ tr out, Prog.Trace (task.run true) tr out → ∀ e ∈ tr,
        workDir own resolve e = dirOf own resolve task.runArgs.cwd := by
      intro tr out htr e he
      obtain ⟨op, res⟩ := e
      rcases (run_makes task).trace htr _ he with ⟨prompt, rfl⟩ | ⟨hcmd, rfl⟩
      · rfl
      · exact htests hcmd
    intro tr out htr e he e' he'
    rw [hdir tr out htr e he, hdir tr out htr e' he']

end Directories

/-- A task with a directory of its own. -/
theorem one_directory_own :
    OneDirectory "/worker" id { trueTask (some "/home") with cwd := some "/repo" } :=
  (one_directory_iff "/worker" id _).mpr (.inl (by decide))

/-- A task of `sdd_sig` tests elsewhere: its runner works in the directory of its
arguments, and its tests run in that of the worker. -/
theorem sig_tests_elsewhere :
    (∃ tr out, Prog.Trace ((ofSig "spec" ["true"] { RunArgs.default with
        cwd := some "/repo" }).run true) tr out ∧
      tr.map (workDir "/worker" id) = ["/repo", "/worker", "/repo", "/worker"]) ∧
    ¬ OneDirectory "/worker" id (ofSig "spec" ["true"] { RunArgs.default with
        cwd := some "/repo" }) := by
  have htr := trueTask_trace (some "/repo")
  refine ⟨⟨_, _, htr, by decide⟩, fun hone => ?_⟩
  have hsame : "/repo" = "/worker" :=
    hone _ _ htr _ List.mem_cons_self _ (List.mem_cons_of_mem _ List.mem_cons_self)
  exact absurd hsame (by decide)

end SddTask

end Kojin.Agent
