import Rro.Program.Documents
import Rro.Program.Text

/-!
# Shapes, modes and plans

A payload is grouped by its shape. The registry knows a shape by the text of its canonical key
and gives it an identifier, the FNV-1a hash of that text; the compiler turns a shape into a
plan, the role of every field. Modes are voted on by the field names of the payload itself.

SOURCE: crates/rrd/src/mode.rs, plan.rs, registry.rs.
-/

set_option autoImplicit false

namespace Rro.Program

open Rro.Library Rro.Program.Text

/-- `Mode`. -/
inductive Mode where
  | Mail
  | Record
  | Document
  | Event
  | Location
  | Media
  | Unshaped
deriving DecidableEq

/-- `MODE_VOTES`. -/
def MODE_VOTES : List (Mode × List String) := [
  (.Mail, ["from", "to", "cc", "bcc", "subject", "sender", "recipient", "mailbox"]),
  (.Record, ["amount", "price", "status", "quantity", "sku", "total", "currency", "row"]),
  (.Document, ["title", "body", "content", "text", "author", "abstract", "section"]),
  (.Event,
    ["event", "kind", "action", "occurred", "started", "ended", "duration", "severity"]),
  (.Location,
    ["lat", "lon", "latitude", "longitude", "address", "city", "country", "geo", "path"]),
  (.Media, ["mime", "bytes", "width", "height", "codec", "duration_ms", "url", "blob"])]

/-- `FieldRole`. -/
inductive FieldRole where
  | Identity
  | Time
  | Title
  | Content
  | Salience
  | Other
deriving DecidableEq

/-- The name under which a role is grouped. -/
def FieldRole.key : FieldRole → String
  | .Identity => "identity"
  | .Time => "time"
  | .Title => "title"
  | .Content => "content"
  | .Salience => "salience"
  | .Other => "other"

/-- `Plan`. -/
structure Plan where
  sliver_id : UInt64
  mode : Mode
  roles : Table String FieldRole
  version : ℕ

/-- `COMPILER_VERSION`. -/
def COMPILER_VERSION : ℕ := 1

/-- `sliver_id`: FNV-1a of the bytes of the key. -/
def sliverId (key : String) : UInt64 :=
  (encode key.toList).foldl (fun hash b => (hash ^^^ b.toUInt64) * 0x1000000001b3)
    0xcbf29ce484222325

/-- `Sliver`. -/
structure Sliver where
  id : UInt64
  key : String
  mode : Mode
  count : ℕ

/-- `ShapeRegistry`: the slivers by the key of their shape. -/
abbrev ShapeRegistry := Table String Sliver

/-- `ShapeRegistry::observe`: the identifier of the shape, and whether it is new. -/
def ShapeRegistry.observe (slivers : ShapeRegistry) (shape : Shape) (mode : Mode) :
    ShapeRegistry × UInt64 × Bool :=
  let key := shape.key
  match slivers[key]? with
  | some s => (slivers.insert key { s with count := s.count + 1 }, s.id, false)
  | none =>
    let id := sliverId key
    (slivers.insert key ⟨id, key, mode, 1⟩, id, true)

variable [Unicode]

/-- A name in lower case. -/
def lowered (name : String) : List Char := Unicode.toLowercase name.toList

/-- `ends_with`. -/
def endsWith (f : List Char) (suffix : String) : Bool := suffix.toList.isSuffixOf f

/-- `str::contains`. -/
def hasPart (f : List Char) (part : String) : Bool := f.tails.any part.toList.isPrefixOf

/-- `identify`. -/
def identify (metadata : Metadata) : Mode :=
  let fields := metadata.keys.map lowered
  if fields = [] then .Unshaped
  else
    let (best, bestVotes) := MODE_VOTES.foldl (fun best ballot =>
      let votes := fields.countP fun f =>
        ballot.2.any fun n => f == n.toList || (n.toList ++ ['_']).isPrefixOf f
      if best.2 < votes then (ballot.1, votes) else best) (.Unshaped, 0)
    let timeish := fields.any fun f =>
      endsWith f "_at" || f == "date".toList || f == "time".toList || f == "timestamp".toList
    if bestVotes = 0 ∧ timeish then .Event else best

/-- `infer_role`. -/
def inferRole (field ty : String) : FieldRole :=
  let f := lowered field
  let among (names : List String) := names.any fun n => f == n.toList
  if endsWith f "_id" || endsWith f "_key" ||
      among ["id", "uuid", "sku", "email", "from", "to", "sender", "recipient"] then .Identity
  else if endsWith f "_at" ||
      among ["date", "time", "timestamp", "occurred", "created", "updated"] then .Time
  else if among ["title", "subject", "name", "heading"] then .Title
  else if among ["body", "content", "text", "description", "message"] then .Content
  else if ty == "number" &&
      ["amount", "price", "score", "priority", "total", "severity"].any (hasPart f) then .Salience
  else .Other

/-- `compile`. -/
def compile (sliver_id : UInt64) (mode : Mode) (shape : Shape) : Plan :=
  { sliver_id, mode, roles := shape.fields.map inferRole, version := COMPILER_VERSION }

end Rro.Program
