import NoblePort.Contract
import NoblePort.Shlex
import NoblePort.Values

/-!
# Allowlisted command execution

`app/tools/sandbox.py`. The operating system answers the calls that
`run_command` makes; what is not under `src/` enters as a parameter.
-/
namespace NoblePort.Sandbox

open Coroutine Coroutine.Contract NoblePort.Values

structure Settings where
  allowedCommands : List String
  sandboxTimeoutSeconds : Int

abbrev Bytes := List UInt8

structure SandboxResult where
  command : List String
  returncode : Int
  stdout : String
  stderr : String
  durationMs : Rat
  timedOut : Bool

inductive Op where
  | which (name : String)
  | time
  | createSubprocessExec (argv : List String) (cwd : Option String)
      (env : Option (List (String × String)))
  | communicate (timeout : Option Int)
  | kill
  | returncode

@[reducible] def Op.Resp : Op → Type
  | .which _ => Option String
  | .time => Rat
  | .createSubprocessExec .. => Unit
  | .communicate _ => Bytes × Bytes
  | .kill => Unit
  | .returncode => Option Int

/-- A command is a text or an argv list. -/
inductive Command where
  | text (s : String)
  | argv (argv : List String)
  deriving DecidableEq, Repr

/-- `os.path.basename`: what follows the last slash. -/
def basename (token : String) : String :=
  String.ofList (token.toList.reverse.takeWhile (· ≠ '/')).reverse

/-- `str.isspace` of one character. -/
def isSpace (c : Char) : Bool :=
  (9 ≤ c.toNat ∧ c.toNat ≤ 13) ∨ (28 ≤ c.toNat ∧ c.toNat ≤ 32) ∨ c.toNat = 0x85 ∨ c.toNat = 0xa0 ∨
    c.toNat = 0x1680 ∨ (0x2000 ≤ c.toNat ∧ c.toNat ≤ 0x200a) ∨ c.toNat = 0x2028 ∨ c.toNat = 0x2029 ∨
    c.toNat = 0x202f ∨ c.toNat = 0x205f ∨ c.toNat = 0x3000

def strip (s : String) : String :=
  String.ofList (((s.toList.dropWhile isSpace).reverse.dropWhile isSpace).reverse)

def isAllowed (settings : Settings) (argv : List String) (allowed : Option (List String)) : Bool :=
  match argv with
  | [] => false
  | name :: _ =>
    let allowed := allowed.getD settings.allowedCommands
    ((allowed.filter fun a => strip a ≠ "").map strip).contains (basename name)

def parseCommand : Command → Except Exc (List String)
  | .text s => (Shlex.split s).mapError (.exception .valueError)
  | .argv argv => .ok argv

/-- `SandboxRejected(f"command not on allowlist: {argv[0] if argv else ''!r}")` -/
def rejected (repr : String → String) (argv : List String) : Exc :=
  let name := repr (argv.headD "")
  .exception (.other "SandboxRejected") s!"command not on allowlist: {name}"

/-- The arguments of one call of `run_command`. -/
structure Request where
  command : Command
  cwd : Option String
  env : Option (List (String × String))
  timeoutSeconds : Option Int
  allowed : Option (List String)

section Run

variable (repr : String → String) (decode : Bytes → String) (settings : Settings) (req : Request)

/-- From `started = loop.time()` on. -/
def execute (realArgv : List String) : Prog Op Op.Resp Exc SandboxResult := do
  let timeout := req.timeoutSeconds.getD settings.sandboxTimeoutSeconds
  let started ← .call Op.time
  let () ← .call (Op.createSubprocessExec realArgv req.cwd req.env)
  let (stdout, stderr, timedOut) ← Prog.tryExcept
    (do
      let out ← .call (Op.communicate (some timeout))
      return ((out : Bytes × Bytes).1, out.2, false)) fun e =>
    match e with
    | .exception (.other "TimeoutError") _ => do
      let () ← .call Op.kill
      let out ← Prog.tryExcept (.call (Op.communicate none)) fun e =>
        match e with
        | .exception _ _ => return (([], []) : Bytes × Bytes)
        | .cancelled => .raise .cancelled
      return (out.1, out.2, true)
    | e => .raise e
  let ended ← .call Op.time
  let returncode ← .call Op.returncode
  return ⟨realArgv, (returncode : Option Int).getD (-1), decode stdout, decode stderr,
    ((ended : Rat) - started) * 1000, timedOut⟩

def runCommand : Prog Op Op.Resp Exc SandboxResult := do
  let argv ← .ofExcept (parseCommand req.command)
  if isAllowed settings argv req.allowed then
    match argv with
    | [] => .raise (.exception (.other "IndexError") "list index out of range")
    | name :: rest => do
      let found ← .call (Op.which name)
      execute decode settings req (pyOr found name :: rest)
  else .raise (rejected repr argv)

end Run

/-- An operating system. `shutil.which` finds nothing or a path with the same
basename, and the clock can be read; all other answers are arbitrary. -/
structure Host where
  State : Type
  start : State
  answer : (op : Op) → State → Except Exc op.Resp × State
  which_same : ∀ name s, ∃ found, (answer (.which name) s).1 = .ok found ∧
    ∀ path, found = some path → basename path = basename name
  time_ok : ∀ s, ∃ t, (answer .time s).1 = .ok t

namespace Host

variable (host : Host)

/-- The answers, with the calls written down. -/
def logged (op : Op) (s : host.State × List Op) : Except Exc op.Resp × (host.State × List Op) :=
  ((host.answer op s.1).1, (host.answer op s.1).2, s.2 ++ [op])

def run {α : Type} (p : Prog Op Op.Resp Exc α) : Except Exc α × (host.State × List Op) :=
  p.run host.logged (host.start, [])

end Host

def Op.argv? : Op → Option (List String)
  | .createSubprocessExec argv _ _ => some argv
  | _ => none

/-- The processes that were started. -/
def spawned (log : List Op) : List (List String) := log.filterMap Op.argv?

/-- The command is this argv and its name is on the list. -/
structure Permitted (settings : Settings) (req : Request) (name : String) (rest : List String) : Prop where
  argv : parseCommand req.command = .ok (name :: rest)
  listed : ∃ entry ∈ req.allowed.getD settings.allowedCommands,
    strip entry ≠ "" ∧ strip entry = basename name

/-- A permitted command starts its process; any other starts none and is rejected. -/
structure Gated (settings : Settings) (req : Request) (r : Except Exc SandboxResult)
    (log : List Op) : Prop where
  permitted : ∀ name rest, Permitted settings req name rest →
    ∃ resolved, spawned log = [resolved :: rest] ∧ basename resolved = basename name
  rejected : (∀ name rest, ¬ Permitted settings req name rest) →
    spawned log = [] ∧ ∃ message, r = .error (.exception (.other "SandboxRejected") message)

/-- A text leaves no quote open and no escape unfinished. -/
def Command.complete : Command → Bool
  | .text s => Shlex.closed s
  | .argv _ => true

theorem parseCommand_ok (c : Command) : (∃ argv, parseCommand c = .ok argv) ↔ c.complete = true := by
  cases c with
  | text s =>
    rw [Command.complete, ← Shlex.split_ok]
    cases h : Shlex.split s <;> simp [parseCommand, h, Except.mapError]
  | argv argv => simp [parseCommand, Command.complete]

theorem isAllowed_cons (settings : Settings) (name : String) (rest : List String)
    (allowed : Option (List String)) : isAllowed settings (name :: rest) allowed = true ↔
      ∃ entry ∈ allowed.getD settings.allowedCommands, strip entry ≠ "" ∧ strip entry = basename name := by
  simp [isAllowed, and_assoc]

theorem basename_pyOr {found : Option String} {name : String}
    (h : ∀ path, found = some path → basename path = basename name) :
    basename (pyOr found name) = basename name := by
  cases found with
  | none => rfl
  | some path =>
    by_cases hpath : path = ""
    · simp [pyOr, hpath]
    · simpa [pyOr, hpath] using h path rfl

section Gate

variable (repr : String → String) (decode : Bytes → String) (settings : Settings) (req : Request)
  (host : Host)

/-- The processes started so far are `argvs`. -/
def Spawned (argvs : List (List String)) (s : host.State × List Op) : Prop := spawned s.2 = argvs

theorem keeps_call (argvs : List (List String)) {op : Op} (hop : op.argv? = none) :
    (handled host.logged).Keeps (Spawned host argvs) (.call op) := by
  apply Keeps.call (fun _ _ => trivial)
  intro s r landed hs _
  simpa [Spawned, handled, Host.logged, spawned, hop] using hs

/-- Whatever the process does, `execute` starts just the one. -/
theorem wp_execute (realArgv : List String) (s : host.State × List Op) (hs : Spawned host [] s) :
    (handled host.logged).wp (execute decode settings req realArgv)
      (fun s _ => Spawned host [realArgv] s) s := by
  unfold execute
  apply wp_call_seq _ trivial
  · intro started landed hstarted
    have hspawn (s : host.State × List Op) (hs : Spawned host [] s) :
        Spawned host [realArgv] (host.logged (.createSubprocessExec realArgv req.cwd req.env) s).2 := by
      simpa [Spawned, Host.logged, spawned, Op.argv?] using hs
    have hquiet (s : host.State × List Op) (hs : Spawned host [] s) :
        Spawned host [] (host.logged .time s).2 := by
      simpa [Spawned, Host.logged, spawned, Op.argv?] using hs
    apply wp_call_seq _ trivial
    · intro _ landed _
      apply Keeps.wp (S := Spawned host [realArgv])
      · apply Keeps.bind
        · apply Keeps.tryExcept
          · exact (keeps_call host _ rfl).bind fun out => .ret _
          · intro e
            split
            · apply (keeps_call host _ rfl).bind
              intro _
              apply Keeps.bind
              · apply (keeps_call host _ rfl).tryExcept
                intro e
                cases e with
                | cancelled => exact .raise _
                | exception cls str => exact .ret _
              · exact fun out => .ret _
            · exact .raise _
        · intro out
          exact (keeps_call host _ rfl).bind fun ended => (keeps_call host _ rfl).bind fun rc => .ret _
      · exact hspawn _ (hquiet s hs)
    · intro _ landed _
      exact hspawn _ (hquiet s hs)
  · intro e landed he
    obtain ⟨t, ht⟩ := host.time_ok s.1
    have hsame : Except.error e = (host.answer .time s.1).1 := he
    rw [ht] at hsame
    cases hsame

/-- Past the gate the argv goes to `execute` with its name resolved. -/
theorem runCommand_permitted {name : String} {rest : List String}
    (h : Permitted settings req name rest) : ∃ resolved,
      spawned (host.run (runCommand repr decode settings req)).2.2 = [resolved :: rest] ∧
        basename resolved = basename name := by
  obtain ⟨found, hfound, hsame⟩ := host.which_same name host.start
  have hallowed := (isAllowed_cons settings name rest req.allowed).mpr h.listed
  refine ⟨pyOr found name, ?_, basename_pyOr hsame⟩
  have hwp : (handled host.logged).wp (runCommand repr decode settings req)
      (fun s _ => Spawned host [pyOr found name :: rest] s) (host.start, []) := by
    rw [runCommand, h.argv]
    change (handled host.logged).wp (if isAllowed settings (name :: rest) req.allowed then _ else _) _ _
    rw [if_pos hallowed]
    apply wp_call_seq _ trivial
    · intro found' landed hanswer
      have heq : Except.ok found' = (host.answer (.which name) host.start).1 := hanswer
      rw [hfound] at heq
      cases heq
      exact wp_execute decode settings req host _ _ rfl
    · intro e landed hanswer
      have heq : Except.error e = (host.answer (.which name) host.start).1 := hanswer
      rw [hfound] at heq
      cases heq
  exact (wp_handled host.logged _ _ _).mp hwp

/-- Short of the gate nothing is called. -/
theorem runCommand_refused {argv : List String} (hargv : parseCommand req.command = .ok argv)
    (h : isAllowed settings argv req.allowed = false) :
    host.run (runCommand repr decode settings req) =
      (.error (rejected repr argv), host.start, []) := by
  rw [runCommand, hargv]
  change Prog.run host.logged (if isAllowed settings argv req.allowed then _ else _) _ = _
  rw [if_neg (by simp [h])]
  rfl

theorem runCommand_unparsed {e : Exc} (h : parseCommand req.command = .error e) :
    host.run (runCommand repr decode settings req) = (.error e, host.start, []) := by
  rw [runCommand, h]
  rfl

theorem parseCommand_error {c : Command} {e : Exc} (h : parseCommand c = .error e) :
    ∃ message, e = .exception .valueError message := by
  cases c with
  | argv argv => cases h
  | text s =>
    cases hsplit : Shlex.split s with
    | ok argv => simp [parseCommand, hsplit, Except.mapError] at h
    | error message =>
      rw [parseCommand, hsplit] at h
      cases h
      exact ⟨message, rfl⟩

theorem gated_iff_complete : Gated settings req (host.run (runCommand repr decode settings req)).1
      (host.run (runCommand repr decode settings req)).2.2 ↔ req.command.complete = true := by
  rw [← parseCommand_ok]
  constructor
  · intro hgated
    cases hargv : parseCommand req.command with
    | ok argv => exact ⟨argv, rfl⟩
    | error e =>
      -- the exception of the tokeniser is not the one the gate promises
      obtain ⟨text, rfl⟩ := parseCommand_error hargv
      have hnone : ∀ name rest, ¬ Permitted settings req name rest := by
        intro name rest hpermitted
        have hok := hpermitted.argv
        rw [hargv] at hok
        cases hok
      obtain ⟨-, message, hr⟩ := hgated.rejected hnone
      rw [runCommand_unparsed repr decode settings req host hargv] at hr
      cases hr
  · rintro ⟨argv, hargv⟩
    refine ⟨fun name rest => runCommand_permitted repr decode settings req host, fun hnone => ?_⟩
    have hrefused : isAllowed settings argv req.allowed = false := by
      cases argv with
      | nil => rfl
      | cons name rest =>
        rw [← Bool.not_eq_true, isAllowed_cons]
        exact fun hlisted => hnone name rest ⟨hargv, hlisted⟩
    rw [runCommand_refused repr decode settings req host hargv hrefused]
    exact ⟨rfl, _, rfl⟩

end Gate

/-- A host without any executable. -/
def bare : Host where
  State := Unit
  start := ()
  answer
    | .which _, s => (.ok none, s)
    | .time, s => (.ok 0, s)
    | _, s => (.error (.exception (.other "FileNotFoundError") ""), s)
  which_same _ _ := ⟨none, rfl, fun _ h => by cases h⟩
  time_ok _ := ⟨0, rfl⟩

def unclosed : Request := ⟨.text "pytest 'unclosed", none, none, none, none⟩

/-- An unclosed quote raises the ValueError of the tokeniser. -/
theorem unclosed_quote_escapes :
    ¬ Gated ⟨["pytest"], 60⟩ unclosed (bare.run (runCommand id (fun _ => "") ⟨["pytest"], 60⟩ unclosed)).1
      (bare.run (runCommand id (fun _ => "") ⟨["pytest"], 60⟩ unclosed)).2.2 := by
  intro hgated
  have hparse : parseCommand unclosed.command =
      .error (.exception .valueError "No closing quotation") := by rfl
  have hnone : ∀ name rest, ¬ Permitted ⟨["pytest"], 60⟩ unclosed name rest := by
    intro name rest hpermitted
    have hok := hpermitted.argv
    rw [hparse] at hok
    cases hok
  obtain ⟨-, message, hr⟩ := hgated.rejected hnone
  rw [runCommand_unparsed id _ _ _ bare hparse] at hr
  cases hr

end NoblePort.Sandbox
