import Typings.Event
import Typings.Fault
import Typings.Files.Store

/-!
Sessions: the files, the network and the output of a command. The network is the
list of replies still to come.
-/

namespace Typings

structure Response where
  status : Int := 200
  tag : Option String := none
  body : List UInt8 := []

inductive Reply where
  | response (r : Response)
  | trouble (kind : NetworkTrouble) (text : String)

structure DocumentRequest where
  url : String
  headers : List (String × String)

/-- Files, network and output. -/
structure Session where
  store : Store := .empty
  replies : List Reply := []
  requests : List DocumentRequest := []
  lines : List String := []
  events : List Event := []

/-- A job in a session. A fault keeps what was done before it. -/
abbrev Job := ExceptT Fault (StateM Session)

namespace Job

variable {α : Type}

def compute (outcome : Except Fault α) : Job α :=
  fun s => (outcome, s)

def say (line : String) : Job Unit :=
  modify fun s => { s with lines := s.lines ++ [line] }

def tell (events : List Event) : Job Unit :=
  modify fun s => { s with events := s.events ++ events }

/-- What stood in the way of a file as a fault. -/
def ofStore (outcome : Except StoreTrouble α) : Except Fault α :=
  match outcome with
  | .ok a => .ok a
  | .error trouble => .error (.store trouble)

def inspect (f : Store → Except StoreTrouble α) : Job α := do
  compute (ofStore (f (← get).store))

def change (f : Store → Except StoreTrouble Store) : Job Unit := do
  let store ← inspect f
  modify fun s => { s with store }

/-- Makes a folder and every folder around it. -/
def makeFolders (l : Location) : Job Unit := do
  let (outcome, store) := (← get).store.makeFolders l
  modify fun s => { s with store }
  compute (ofStore outcome)

/-- Sends a request and takes the next reply. Without one the
connection fails. -/
def request (r : DocumentRequest) : Job Reply := do
  modify fun s => { s with requests := s.requests ++ [r] }
  match (← get).replies with
  | [] => return .trouble .connection "no response left"
  | reply :: rest =>
    modify fun s => { s with replies := rest }
    return reply

end Job

end Typings
