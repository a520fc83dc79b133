import ProbeForge.Json.Basic

/-!
# Database servers

A server is what it will answer: one reply for each connection attempt, each statement and each
fetch, taken in order. An exhausted queue answers with success. The log keeps what was asked of the
server and tells connections apart by number.
-/

namespace ProbeForge.Database

structure ServerError where
  name : String
  /-- The server is gone or the connection is lost. -/
  operational : Bool
deriving DecidableEq, Repr

inductive Reply where
  | ok
  /-- The statement succeeds and the server ends the connection. -/
  | drop
  | error (e : ServerError)
deriving DecidableEq, Repr

inductive Fetch where
  | rows (rows : List (List Json))
  | error (e : ServerError)

/-- The number of a connection, in the order in which they were made. -/
abbrev Connection := Nat

inductive Event where
  /-- An attempt to connect and the connection made, if any. -/
  | connect (dsn : Json) (connection : Option Connection)
  | execute (connection : Connection) (sql : String) (arguments : Option (List Json))
      (succeeded : Bool)
  | close (connection : Connection)

structure Server where
  connects : List Reply
  replies : List Reply
  fetches : List Fetch
  /-- What an attempt to close a connection fails with. -/
  closeErrors : Connection → Option ServerError
  made : Nat
  /-- The connections that were closed or dropped. -/
  ended : List Connection
  log : List Event

namespace Server

def answering (connects replies : List Reply) (fetches : List Fetch)
    (closeErrors : Connection → Option ServerError) : Server :=
  { connects, replies, fetches, closeErrors, made := 0, ended := [], log := [] }

/-- Every attempt to close a connection ends in the same way. -/
def scripted (connects replies : List Reply) (fetches : List Fetch)
    (closeError : Option ServerError) : Server :=
  answering connects replies fetches fun _ => closeError

def hasEnded (s : Server) (c : Connection) : Bool := s.ended.contains c

def note (s : Server) (e : Event) : Server := { s with log := s.log ++ [e] }

def connect (dsn : Json) (s : Server) : Except ServerError Connection × Server :=
  let reply := s.connects.head?.getD .ok
  let s := { s with connects := s.connects.tail }
  match reply with
  | .error e => (.error e, s.note (.connect dsn none))
  | .ok | .drop => (.ok s.made, { s.note (.connect dsn (some s.made)) with made := s.made + 1 })

def execute (c : Connection) (sql : String) (arguments : Option (List Json)) (s : Server) :
    Except ServerError Unit × Server :=
  let reply := s.replies.head?.getD .ok
  let s := { s with replies := s.replies.tail }
  match reply with
  | .ok => (.ok (), s.note (.execute c sql arguments true))
  | .drop => (.ok (), { s.note (.execute c sql arguments true) with ended := s.ended ++ [c] })
  | .error e => (.error e, s.note (.execute c sql arguments false))

/-- The rows that an exhausted queue gives stand for no real answer. -/
def fillerRows : List (List Json) := [[.text "o"], [.text "k"]]

def fetch (s : Server) : Except ServerError (List (List Json)) × Server :=
  let reply := s.fetches.head?.getD (.rows fillerRows)
  let s := { s with fetches := s.fetches.tail }
  match reply with
  | .rows rows => (.ok rows, s)
  | .error e => (.error e, s)

/-- Closing counts whether or not it fails. -/
def close (c : Connection) (s : Server) : Except ServerError Unit × Server :=
  let s := { s.note (.close c) with ended := s.ended ++ [c] }
  match s.closeErrors c with
  | some e => (.error e, s)
  | none => (.ok (), s)

end Server

end ProbeForge.Database
