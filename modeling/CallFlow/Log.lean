import CallFlow.Json

/-! Log records. A record is data; which of them are written, and in which of the two
forms, is for the outside to say. -/

namespace CallFlow.Log

inductive Level where
  | error
  | warn
  | info
  | debug
  | trace
deriving Repr, DecidableEq, Inhabited

namespace Level

def name : Level → String
  | error => "ERROR"
  | warn => "WARN"
  | info => "INFO"
  | debug => "DEBUG"
  | trace => "TRACE"

def rank : Level → Nat
  | error => 0
  | warn => 1
  | info => 2
  | debug => 3
  | trace => 4

/-- Reads a level in any case; a word that names none means `warn`. -/
def ofName (written : String) : Level :=
  match String.ofList (written.toList.map Char.toLower) with
  | "error" => error
  | "info" => info
  | "debug" => debug
  | "trace" => trace
  | _ => warn

end Level

inductive Value where
  | text (s : String)
  | count (n : Nat)
deriving Repr, DecidableEq

structure Record where
  level : Level
  /-- The part of the program that speaks. -/
  target : String
  message : String
  fields : List (String × Value)
deriving Repr, DecidableEq

/-- Is the record written where `threshold` is asked for? -/
def Record.passes (r : Record) (threshold : Level) : Bool := r.level.rank ≤ threshold.rank

def Value.json : Value → Json
  | text s => .str s
  | count n => .num n

def Value.plain : Value → String
  | text s => s
  | count n => toString n

namespace Record

/-- The record as one line of JSON. -/
def jsonLine (r : Record) : String :=
  let fields := ("message", Json.str r.message) :: r.fields.map fun (name, v) => (name, v.json)
  (Json.obj [("level", .str r.level.name), ("fields", .obj fields),
    ("target", .str r.target)]).compact

/-- The record as one line for people. -/
def plainLine (r : Record) : String :=
  let fields := r.fields.map fun (name, v) => s!" {name}={v.plain}"
  s!"{r.level.name} {r.target}: {r.message}" ++ String.join fields

end Record

end CallFlow.Log
