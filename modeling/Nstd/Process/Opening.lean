import Mathlib.Tactic.SplitIfs
import Nstd.Core.Bytes

/-!
# Starting a process

`Process::start` and `Process::open` on POSIX, up to the call of `execvpe` in the child.

* `Pointer`, `chars` — strings as C gets them.
* `prepareArgs`, `prepareEnv`, `request` — what the child is asked to execute.
* `start`, `openArgv`, `openList` — the functions; what the system answers is given.
* `request_openArgv` — when a child is started, and what for.
* **`open_list_iff`** — when both overloads of `open` ask for the same; `environment_dropped`.

The overload with a list hands on the command and the arguments to the other one, and not the
environment.
-/

namespace Nstd.Process

/-! ## What the child executes -/

/-- A `char*`: the bytes in front of the NUL, or the null pointer -/
abbrev Pointer := Option (List UInt8)

/-- `(const char*)` of a string -/
def chars (s : List UInt8) : List UInt8 := s.takeWhile (· ≠ 0)

/-- The strings of an array that ends with a null pointer -/
def strings : List Pointer → List (List UInt8)
  | [] => []
  | none :: _ => []
  | some s :: args => s :: strings args

/-- What `execvpe` is called with -/
structure Request where
  path : List UInt8
  argv : List (List UInt8)
  envp : List (List UInt8)
  deriving DecidableEq

/-- `args`, the array that becomes `argv` of the child -/
def prepareArgs (executable : List UInt8) (argv : List Pointer) : List Pointer :=
  -- an array that ends with a null pointer is taken as it is, with its own first element
  if argv.getLast? = some none then argv
  else some (chars executable) :: (argv.tail ++ [none])

/-- `prepareEnv`, on the entries of the map -/
def prepareEnv (environment : List (List UInt8 × List UInt8)) : List (List UInt8) :=
  environment.map fun i => i.1 ++ bytes "=" ++ i.2

/-- `env`, the environment of the child -/
def childEnv (environ : List (List UInt8)) (environment : List (List UInt8 × List UInt8)) :
    List (List UInt8) :=
  if environment = [] then environ else (prepareEnv environment).map chars

/-- The call of `execvpe` -/
def request (environ : List (List UInt8)) (executable : List UInt8) (argv : List Pointer)
    (environment : List (List UInt8 × List UInt8)) : Request :=
  ⟨chars executable, strings (prepareArgs executable argv), childEnv environ environment⟩

/-! ## The functions -/

/-- `Process::Stream` -/
inductive Stream
  | stdoutStream
  | stderrStream
  | stdinStream

def Stream.flag : Stream → BitVec 32
  | .stdoutStream => 0x01
  | .stderrStream => 0x02
  | .stdinStream => 0x04

/-- The fields of `Process` -/
structure State where
  pid : ℕ
  fdStdOutRead : ℕ
  fdStdErrRead : ℕ
  fdStdInWrite : ℕ

/-- What the system answers: its environment, the ends of a pipe for each stream, and the child -/
structure Answers where
  environ : List (List UInt8)
  pipe : Stream → Option (ℕ × ℕ)
  vfork : Option ℕ

/-- What the child does before it executes something -/
inductive Action
  | dup2 (fd target : ℕ)
  | close (fd : ℕ)

/-- How a call ends: the process, what is returned, which ends of pipes the caller has closed, and what
    the child does -/
structure Outcome where
  state : State
  result : Bool
  closed : List ℕ
  child : Option (List Action × Request)

/-- What the child is asked for, if there is one -/
def Outcome.request (o : Outcome) : Option Request := o.child.map Prod.snd

/-- `pipe(fds)`, for a stream that is asked for -/
def makePipe (answers : Answers) (streams : BitVec 32) (stream : Stream) : Option (ℕ × ℕ) :=
  if streams &&& stream.flag ≠ 0 then answers.pipe stream else some (0, 0)

/-- The label `error` -/
def openError (s : State) (fds : List (ℕ × ℕ)) : Outcome :=
  ⟨s, false, (fds.filter fun fd => fd.1 ≠ 0).flatMap fun fd => [fd.1, fd.2], none⟩

/-- What the child does with the ends of its pipes -/
def childActions (stdoutFds stderrFds stdinFds : ℕ × ℕ) : List Action :=
  (if stdoutFds.2 ≠ 0 then [.dup2 stdoutFds.2 1, .close stdoutFds.2] else []) ++
  (if stderrFds.2 ≠ 0 then [.dup2 stderrFds.2 2, .close stderrFds.2] else []) ++
  (if stdinFds.1 ≠ 0 then [.dup2 stdinFds.1 0, .close stdinFds.1] else []) ++
  ([stdoutFds.1, stderrFds.1, stdinFds.2].filter (· ≠ 0)).map .close

/-- `open(executable, argc, argv, streams, environment)` -/
def openArgv (answers : Answers) (s : State) (executable : List UInt8) (argv : List Pointer)
    (streams : BitVec 32) (environment : List (List UInt8 × List UInt8)) : Outcome :=
  if s.pid ≠ 0 then ⟨s, false, [], none⟩
  else
    match makePipe answers streams .stdoutStream with
    | none => openError s []
    | some stdoutFds =>
      match makePipe answers streams .stderrStream with
      | none => openError s [stdoutFds]
      | some stderrFds =>
        match makePipe answers streams .stdinStream with
        | none => openError s [stdoutFds, stderrFds]
        | some stdinFds =>
          match answers.vfork with
          | none => ⟨s, false, [], none⟩
          | some pid =>
            { state := ⟨pid, stdoutFds.1, stderrFds.1, stdinFds.2⟩
              result := true
              closed := [stdoutFds.2, stderrFds.2, stdinFds.1].filter (· ≠ 0)
              child := some (childActions stdoutFds stderrFds stdinFds,
                Process.request answers.environ executable argv environment) }

/-- `open(executable, args, streams, environment)`, which leaves out the environment when it calls the
    other overload, so that it takes the empty default -/
def openList (answers : Answers) (s : State) (executable : List UInt8) (args : List (List UInt8))
    (streams : BitVec 32) (_environment : List (List UInt8 × List UInt8)) : Outcome :=
  openArgv answers s executable (args.map fun arg => some (chars arg)) streams []

/-- `start(program, argc, argv, environment)`, with the id that it returns -/
def start (answers : Answers) (s : State) (program : List UInt8) (argv : List Pointer)
    (environment : List (List UInt8 × List UInt8)) : State × ℕ × Option Request :=
  if s.pid ≠ 0 then (s, 0, none)
  else
    match answers.vfork with
    | none => (s, 0, none)
    | some pid =>
      ({ s with pid }, pid, some (request answers.environ program argv environment))

/-! ## Both overloads -/

/-- A child is started: there is none yet, there are pipes for all streams, and the system has made it. -/
def CanOpen (answers : Answers) (s : State) (streams : BitVec 32) : Prop :=
  s.pid = 0 ∧ (∀ stream, (makePipe answers streams stream).isSome) ∧ answers.vfork.isSome

variable {answers : Answers} {s : State} {streams : BitVec 32}

/-- **A child is started** with what the request says. -/
lemma request_openArgv (h : CanOpen answers s streams) (executable : List UInt8)
    (argv : List Pointer) (environment : List (List UInt8 × List UInt8)) :
    (openArgv answers s executable argv streams environment).request =
      some (request answers.environ executable argv environment) := by
  obtain ⟨hpid, hpipes, hvfork⟩ := h
  obtain ⟨stdoutFds, hout⟩ := Option.isSome_iff_exists.mp (hpipes .stdoutStream)
  obtain ⟨stderrFds, herr⟩ := Option.isSome_iff_exists.mp (hpipes .stderrStream)
  obtain ⟨stdinFds, hin⟩ := Option.isSome_iff_exists.mp (hpipes .stdinStream)
  obtain ⟨pid, hchild⟩ := Option.isSome_iff_exists.mp hvfork
  rw [openArgv, if_neg (not_not.mpr hpid), hout, herr, hin, hchild]
  rfl

lemma request_openArgv_eq_none (h : ¬ CanOpen answers s streams) (executable : List UInt8)
    (argv : List Pointer) (environment : List (List UInt8 × List UInt8)) :
    (openArgv answers s executable argv streams environment).request = none := by
  rw [openArgv]
  split_ifs with hpid
  · rfl
  · cases hout : makePipe answers streams .stdoutStream with
    | none => rfl
    | some stdoutFds =>
      cases herr : makePipe answers streams .stderrStream with
      | none => rfl
      | some stderrFds =>
        cases hin : makePipe answers streams .stdinStream with
        | none => rfl
        | some stdinFds =>
          cases hchild : answers.vfork with
          | none => rfl
          | some pid =>
            refine absurd ⟨not_not.mp hpid, fun stream => ?_, ?_⟩ h
            · cases stream with
              | stdoutStream => rw [hout]; rfl
              | stderrStream => rw [herr]; rfl
              | stdinStream => rw [hin]; rfl
            · rw [hchild]; rfl

/-- **Both overloads** ask for the same, and the environment of the child is the one that was given,
    exactly if no child is started, or none was given, or the one that is inherited. -/
theorem open_list_iff (answers : Answers) (s : State) (executable : List UInt8)
    (args : List (List UInt8)) (streams : BitVec 32)
    (environment : List (List UInt8 × List UInt8)) :
    ((openList answers s executable args streams environment).request
        = (openArgv answers s executable (args.map fun arg => some (chars arg)) streams
            environment).request ∧
      ∀ r, (openList answers s executable args streams environment).request = some r →
        environment ≠ [] → r.envp = (prepareEnv environment).map chars) ↔
    (CanOpen answers s streams →
      environment = [] ∨ answers.environ = (prepareEnv environment).map chars) := by
  by_cases h : CanOpen answers s streams
  · rw [openList, request_openArgv h, request_openArgv h]
    by_cases hempty : environment = []
    · simp [hempty]
    · simp [h, hempty, request, childEnv]
  · rw [openList, request_openArgv_eq_none h, request_openArgv_eq_none h]
    simp [h]

/-- A system that starts the process 7 and has an empty environment -/
def bare : Answers := ⟨[], fun _ => some (3, 4), some 7⟩

/-- The overload for lists drops the environment. -/
theorem environment_dropped : ¬ ∀ (answers : Answers) (s : State) (executable : List UInt8)
    (args : List (List UInt8)) (streams : BitVec 32)
    (environment : List (List UInt8 × List UInt8)),
    (openList answers s executable args streams environment).request
        = (openArgv answers s executable (args.map fun arg => some (chars arg)) streams
            environment).request ∧
      ∀ r, (openList answers s executable args streams environment).request = some r →
        environment ≠ [] → r.envp = (prepareEnv environment).map chars := by
  intro h
  have hsame := (h bare ⟨0, 0, 0, 0⟩ (bytes "env") [bytes "env"] 1 [(bytes "A", bytes "1")]).1
  exact absurd hsame (by decide)

end Nstd.Process
