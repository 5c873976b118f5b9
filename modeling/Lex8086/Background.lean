import Lex8086.Analysis

namespace Lex8086

/-- Why work that was handed over has no value. Its text is passed on as it is. -/
structure JoinError where
  text : String
deriving DecidableEq

inductive WorkerError where
  | join (cause : JoinError)
deriving DecidableEq

def WorkerError.message : WorkerError → String
  | join cause => "Analysis task failed: " ++ cause.text

/-- Does work apart from its caller, who waits for the value or for the reason why there is none. -/
abbrev Worker (α : Type) := (Unit → α) → Except JoinError α

namespace Worker

variable {α : Type}

/-- No work is given up: the caller gets the value of whatever was handed over. -/
def Completes (worker : Worker α) : Prop := ∀ work, worker work = .ok (work ())

def inPlace : Worker α := fun work => .ok (work ())

theorem completes_inPlace : (inPlace : Worker α).Completes := fun _ => rfl

end Worker

def analyzeInBackground (worker : Worker (List Token)) (source : String) :
    Except WorkerError (List Token) :=
  (worker fun _ => tokenize source).mapError .join

theorem analyzeInBackground_of_completes {worker : Worker (List Token)} (h : worker.Completes)
    (source : String) : analyzeInBackground worker source = .ok (tokenize source) := by
  rw [analyzeInBackground, h]
  rfl

theorem analyzeInBackground_of_error {worker : Worker (List Token)} {source : String}
    {cause : JoinError} (h : worker (fun _ => tokenize source) = .error cause) :
    analyzeInBackground worker source = .error (.join cause) := by
  rw [analyzeInBackground, h]
  rfl

/-- Where a task stands: between two lines, within one, or at its end. -/
inductive Stage where
  | between (pending : List CleanLine)
  | within (line : Nat) (scan : Scan.State) (pending : List CleanLine)
  | finished
deriving DecidableEq

structure Task where
  lines : Nat
  stage : Stage
  tokens : List Token
deriving DecidableEq

namespace Stage

def pendingWork : List CleanLine → Nat
  | [] => 1
  | l :: pending => l.text.length + 2 + pendingWork pending

/-- A bound on the steps that are left. -/
def work : Stage → Nat
  | between pending => pendingWork pending
  | within _ scan pending => scan.rest.length + 1 + pendingWork pending
  | finished => 0

end Stage

namespace Task

def start (source : String) : Task :=
  let lines := cleanLines source
  ⟨lines.length, .between lines, []⟩

/-- One step of the scan, or one move to or from a line; a finished task stays as it is. -/
def step (t : Task) : List Event × Task :=
  match t.stage with
  | .between [] =>
    ([.analysisFinished t.lines t.tokens.length], { t with stage := .finished })
  | .between (l :: pending) =>
    ([], { t with stage := .within l.number (Scan.start l.text) pending })
  | .within line scan pending =>
    match Scan.step line scan with
    | some (out, next) =>
      (out.events, { t with stage := .within line next pending, tokens := t.tokens ++ out.tokens })
    | none =>
      let out := Scan.finish line scan
      (out.events, { t with stage := .between pending, tokens := t.tokens ++ out.tokens })
  | .finished => ([], t)

end Task

/-- The tasks in the order of their start, and the log that they share. -/
structure Pool where
  tasks : List Task
  log : Array (Nat × Event)
deriving DecidableEq

namespace Pool

def start (sources : List String) : Pool := ⟨sources.map Task.start, #[]⟩

def step (p : Pool) (i : Nat) : Pool :=
  match p.tasks[i]? with
  | none => p
  | some t => ⟨p.tasks.set i t.step.2, p.log ++ t.step.1.map fun e => (i, e)⟩

/-- A schedule says which task moves next. -/
def run (p : Pool) (schedule : List Nat) : Pool := schedule.foldl step p

def finished (p : Pool) : Bool := p.tasks.all fun t => t.stage == .finished

def results (p : Pool) : List (List Token) := p.tasks.map Task.tokens

/-- Every task in turn, for as many rounds as the longest of them may need. -/
def rounds (p : Pool) : List Nat :=
  (List.replicate ((p.tasks.map fun t => t.stage.work).foldr max 0)
    (List.range p.tasks.length)).flatten

end Pool

def analyzeTogether (sources : List String) : List (List Token) :=
  let pool := Pool.start sources
  (pool.run pool.rounds).results

end Lex8086
