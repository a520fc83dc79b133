import ProbeForge.Database.Server
import ProbeForge.Json.Access
import ProbeForge.Text.Blank

/-!
# Executing probes

Statements are sent one after another over one connection, which is made when it is first needed and
again after it was lost. Each statement ends with an outcome, `ok` or the name of the error. No
statement is sent twice.
-/

namespace ProbeForge.Database

/-- The server and the connection that is held to it. -/
structure Execution where
  server : Server
  held : Option Connection

/-! ### Single statements -/

structure Client where
  dsn : Json
  /-- How long a statement may take, in milliseconds. -/
  limit : Option Int

namespace Client

def limitStatement (limit : Int) : String := s!"SET statement_timeout = {limit}"

/-- The connection that is held, if the server has not ended it. -/
def live? (x : Execution) : Option Connection := x.held.filter (!x.server.hasEnded ·)

/-- A connection with the time limit set. It is held only once the limit is set. -/
def open? (client : Client) (x : Execution) : Except ServerError Connection × Execution :=
  match live? x with
  | some c => (.ok c, x)
  | none =>
    match x.server.connect client.dsn with
    | (.error failure, server) => (.error failure, { x with server })
    | (.ok c, server) =>
      match client.limit with
      | none => (.ok c, ⟨server, some c⟩)
      | some limit =>
        -- a connection without its limit is never held
        match server.execute c (limitStatement limit) none with
        | (.error failure, server) => (.error failure, { x with server })
        | (.ok (), server) => (.ok c, ⟨server, some c⟩)

/-- Gives up the connection; a failure to close it does not matter. -/
def release (x : Execution) : Execution :=
  match x.held with
  | some c => ⟨(x.server.close c).2, none⟩
  | none => x

/-- After an operational error the connection is given up. -/
def settle (failure : ServerError) (x : Execution) : String × Execution :=
  (failure.name, if failure.operational then release x else x)

def execute (client : Client) (statement : String) (x : Execution) : String × Execution :=
  match client.open? x with
  | (.error failure, x) => settle failure x
  | (.ok c, x) =>
    match x.server.execute c statement none with
    | (.error failure, server) => settle failure { x with server }
    | (.ok (), server) => ("ok", { x with server })

end Client

/-! ### Lists of statements -/

structure Statistics where
  total : Nat
  success : Nat
  failed : Nat
  outcomes : OrderedMap String Int
deriving DecidableEq, Repr

namespace Statistics

def success? (outcome : String) : Bool := outcome == "ok"

def empty : Statistics := ⟨0, 0, 0, ∅⟩

def record (s : Statistics) (outcome : String) : Statistics :=
  { total := s.total + 1
    success := if success? outcome then s.success + 1 else s.success
    failed := if success? outcome then s.failed else s.failed + 1
    outcomes := s.outcomes.count outcome 1 }

end Statistics

/-- An executor with its time limit as it was given; an empty limit is none. -/
structure Executor where
  dsn : Json
  timeout : Json

namespace Executor

def limit (e : Executor) : Except Fault (Option Int) :=
  if e.timeout.isFilled then some <$> e.timeout.toInteger else .ok none

/-- A limit that is no number is refused once there is a connection, which is then not held; so is
a statement that is no text, and then the connection is held. -/
def execute (e : Executor) (statement : Json) : Attempt Execution String := fun x =>
  let ended (failure : ServerError) (x : Execution) : EStateM.Result Fault Execution String :=
    let (outcome, x) := Client.settle failure x
    .ok outcome x
  match e.limit, statement with
  | .ok limit, .text statement =>
    let (outcome, x) := (Client.mk e.dsn limit).execute statement x
    .ok outcome x
  | .ok limit, _ =>
    match (Client.mk e.dsn limit).open? x with
    | (.ok _, x) => .error .noAttribute x
    | (.error failure, x) => ended failure x
  | .error fault, _ =>
    match x.server.connect e.dsn with
    | (.ok _, server) => .error fault { x with server }
    | (.error failure, server) => ended failure { x with server }

/-- Runs the statements that are not blank. -/
def runFrom (e : Executor) : List Json → Statistics → Attempt Execution Statistics
  | [], stats => return stats
  | statement :: rest, stats => do
    if !statement.isFilled then runFrom e rest stats
    else
      let text ← require .noAttribute statement.text?
      if Text.isBlankText text then runFrom e rest stats
      else runFrom e rest (stats.record (← e.execute text))

def run (e : Executor) (statements : List Json) : Attempt Execution Statistics :=
  e.runFrom statements .empty

end Executor

end ProbeForge.Database
