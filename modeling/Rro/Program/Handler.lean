import Rro.Program.Auth
import Rro.Program.Graphql
import Rro.Program.Parser
import Rro.Program.Streams

/-!
# The handler of a node

One message is authorized and dispatched on its verb. Three verbs carry a language of
their own: `sql` applies one RRQL statement, `graphql` the root fields of a document and
`tx` a list of writes. The embedder and the decoding of documents are parameters, as is the
time of the check.

SOURCE: crates/rro-engine/src/handler.rs:75-809, sql.rs:80-205, graphql.rs:325-516,
crates/connxism/src/estate.rs:762-902 and rels.rs:62-68. The bodies of the replies to reads
and to successful writes are left out, and so is the wait for a quorum that follows the
commit of a `tx`.
-/

set_option autoImplicit false

namespace Rro.Program

open Rro.Library

/-! ## The contents of an estate -/

/-- An estate with its relations and its aliases. -/
structure Catalog where
  estate : Estate
  rels : Table Bytes Unit
  aliases : Table String String

/-- `rel_key`. -/
def relKey (dir : UInt8) (anchor verb other : String) : Bytes :=
  dir :: utf8 anchor ++ sep :: utf8 verb ++ sep :: utf8 other

namespace Catalog

/-- The catalog with another durable state of the store. -/
def withDb (c : Catalog) (db : Db) : Catalog := { c with estate := { c.estate with db } }

/-- `Estate::relate`: a row for each direction, marked `o` and `i`. -/
def relate (c : Catalog) (src verb dst : String) : Catalog :=
  { c with rels := (c.rels.insert (relKey 111 src verb dst) ()).insert (relKey 105 dst verb src) () }

/-- `Estate::create_alias`. -/
def createAlias (c : Catalog) (name collection : String) : Catalog :=
  { c with aliases := c.aliases.insert name collection }

/-- `Estate::delete_alias`. -/
def deleteAlias (c : Catalog) (name : String) : Catalog :=
  { c with aliases := c.aliases.erase name }

/-- `field_type_of`: the type keywords the schema knows. -/
def fieldTypeOf (ty : String) : Option String :=
  match ty with
  | "string" => some "string"
  | "int" => some "int"
  | "float" => some "float"
  | "bool" => some "bool"
  | "datetime" => some "datetime"
  | "uuid" => some "uuid"
  | _ => none

/-- The catalog with another schema. -/
def withSchema (c : Catalog) (schema : Table String (Table String String)) : Catalog :=
  c.withDb { c.estate.db with registry := { c.estate.db.registry with schema } }

/-- `Estate::define_field`. -/
def defineField (c : Catalog) (collection field ty : String) : Catalog × Except RroError Unit :=
  if (fieldTypeOf ty).isNone then (c, .error (.msg ("unknown field type `" ++ ty ++ "`")))
  else
    let schema := c.estate.db.registry.schema
    (c.withSchema (schema.insert collection ((schema[collection]?.getD ∅).insert field ty)), .ok ())

/-- `Estate::remove_field`: a collection without declarations leaves the schema. -/
def removeField (c : Catalog) (collection field : String) : Catalog :=
  let schema := c.estate.db.registry.schema
  match schema[collection]? with
  | none => c.withSchema schema
  | some fields =>
    let fields := fields.erase field
    c.withSchema (if fields.isEmpty then schema.erase collection else schema.insert collection fields)

end Catalog

variable [SerdeJson]

namespace Catalog

/-- `Estate::create_payload_index`. -/
def createIndex (c : Catalog) (field : String) : Catalog :=
  c.withDb (createPayloadIndex c.estate.db field)

/-- `Estate::drop_collection`: every member is removed, then the name is deregistered. -/
def dropCollection (h : ConnXRecall) (c : Catalog) (name : String) : Catalog × ℕ :=
  let members := collectionMembers c.estate.db name
  let estate := members.foldl (dropMember h) c.estate
  let collections := estate.db.registry.collections.erase name
  let db := { estate.db with registry := { estate.db.registry with collections } }
  ({ c with estate := { estate with db } }, members.length)

/-- A call of a public writer. -/
def run (h : ConnXRecall) (c : Catalog) (w : FeedWrite) : Catalog × Except RroError Unit :=
  let r := w.run h c.estate
  ({ c with estate := r.1 }, r.2)

/-- `ConnXRecall::set_payload`. -/
def setPayload (h : ConnXRecall) (c : Catalog) (id : Id) (patch : Metadata) :
    Catalog × Except RroError Unit :=
  c.run h (.mutatePayload id fun m => patch.toList.foldl (fun m e => m.insert e.1 e.2) m)

/-- `ConnXRecall::overwrite_payload`. -/
def overwritePayload (h : ConnXRecall) (c : Catalog) (id : Id) (metadata : Metadata) :
    Catalog × Except RroError Unit :=
  c.run h (.mutatePayload id fun _ => metadata)

/-- `ConnXRecall::delete_payload_keys`. -/
def deletePayloadKeys (h : ConnXRecall) (c : Catalog) (id : Id) (keys : List String) :
    Catalog × Except RroError Unit :=
  c.run h (.mutatePayload id fun m => keys.foldl (fun m k => m.erase k) m)

/-- `ConnXRecall::clear_payload`. -/
def clearPayload (h : ConnXRecall) (c : Catalog) (id : Id) : Catalog × Except RroError Unit :=
  c.run h (.mutatePayload id fun _ => ∅)

end Catalog

/-! ## RRQL statements -/

/-- `SqlOutcome`, without the ids of a walk and the catalog of an `INFO`. -/
inductive SqlOutcome where
  | defined (what : String)
  | removed (what : String) (count : Option ℕ)
  | updated (id : String) (replaced : Bool)
  | deleted (id : String) (payloadOnly : Bool)
  | related (edge : String)
  | traversed
  | catalog

/-- The metadata an `UPDATE` spells. -/
def metadataOf (set : List (String × Ql.Value)) : Metadata :=
  set.foldl (fun m e => m.insert e.1 e.2.toJson) ∅

/-- The outcome of a call that succeeded. -/
def answer {α : Type} (r : Catalog × Except RroError Unit) (outcome : α) :
    Catalog × Except RroError α :=
  (r.1, r.2.map fun _ => outcome)

/-- `sql::apply`. -/
def apply (h : ConnXRecall) (c : Catalog) : Ql.Statement → Catalog × Except RroError SqlOutcome
  | .select _ =>
    (c, .error (.msg ("apply() handles writes; a SELECT needs an embedder for its query vector — " ++
      "route it through rro_ql::parse_query and the flow")))
  | .define (.index field) => (c.createIndex field, .ok (.defined ("index " ++ field)))
  | .define (.alias_ name collection) =>
    (c.createAlias name collection, .ok (.defined ("alias " ++ name ++ " -> " ++ collection)))
  | .define (.field field collection ty) =>
    answer (c.defineField collection field ty.asStr)
      (.defined ("field " ++ collection ++ "." ++ field ++ " type " ++ ty.asStr))
  | .remove (.field field collection) =>
    (c.removeField collection field, .ok (.removed ("field " ++ collection ++ "." ++ field) none))
  | .remove (.alias_ name) => (c.deleteAlias name, .ok (.removed ("alias " ++ name) none))
  | .remove (.collection name) =>
    let r := c.dropCollection h name
    (r.1, .ok (.removed ("collection " ++ name) (some r.2)))
  | .update ⟨id, set, true⟩ => answer (c.overwritePayload h id (metadataOf set)) (.updated id true)
  | .update ⟨id, set, false⟩ => answer (c.setPayload h id (metadataOf set)) (.updated id false)
  | .delete ⟨id, false, _⟩ => answer (c.run h (.remove id)) (.deleted id false)
  | .delete ⟨id, true, []⟩ => answer (c.clearPayload h id) (.deleted id true)
  | .delete ⟨id, true, keys⟩ => answer (c.deletePayloadKeys h id keys) (.deleted id true)
  | .relate ⟨src, verb, dst⟩ =>
    (c.relate src verb dst, .ok (.related (src ++ " -" ++ verb ++ "-> " ++ dst)))
  | .traverse _ => (c, .ok .traversed)
  | .info => (c, .ok .catalog)
  | .live _ =>
    (c, .error (.msg ("LIVE opens a push stream, not a one-shot reply — send it to the a2a " ++
      "`live` verb (Client::live), which streams change frames from the LIVE cursor")))

/-! ## Parameters -/

/-- The embedder of the flow, and how documents and metadata are read from JSON. -/
class Services where
  embed : List String → Except RroError (List Embedding)
  documents : Value → Except RroError (List Document)
  metadata : Value → Except RroError Metadata

variable [Services]

/-- `ReasonReadyObject::embed_documents`. -/
def embedDocuments (docs : List Document) : Except RroError (List VectorRecord) := do
  let embeddings ← Services.embed (docs.map Document.text)
  pure (docs.zipWith (fun d e => { VectorRecord.new d.id e d.text with metadata := d.metadata })
    embeddings)

/-! ## GraphQL documents -/

/-- The string argument of a field. -/
def strArg (f : Gql.Field) (name : String) : Except String String :=
  match f.args[name]? with
  | some (.str s) => .ok s
  | _ => .error (f.name ++ "(...) requires a string `" ++ name ++ "`")

/-- `Display` of an error. The text of a panic is left out. -/
def RroError.display : RroError → String
  | .recall message => "recall: " ++ message
  | .quota message => "quota: " ++ message
  | .dimMismatch expected got =>
    "dimension mismatch: expected " ++ toString expected ++ ", got " ++ toString got
  | .msg message => message
  | .join => "recall: join: "

/-- The result of a resolver, its error as text. -/
def resolved (r : Catalog × Except RroError Unit) : Catalog × Except String Unit :=
  (r.1, r.2.mapError RroError.display)

/-- `resolve_mutation`. -/
def resolveMutation (h : ConnXRecall) (c : Catalog) (f : Gql.Field) :
    Catalog × Except String Unit :=
  match f.name with
  | "upsert" =>
    let parsed := do
      let id ← strArg f "id"
      let text ← strArg f "text"
      (embedDocuments [⟨id, text, ∅⟩]).mapError RroError.display
    match parsed with
    | .error e => (c, .error e)
    | .ok records => resolved (c.run h (.upsert records))
  | "delete" =>
    match strArg f "id" with
    | .error e => (c, .error e)
    | .ok id => resolved (c.run h (.remove id))
  | other => (c, .error ("unknown field `" ++ other ++ "` on Mutation"))

variable [Ql.RustFormat] [Gql.FloatDebug]

/-- `execute`: every root field is resolved, also after one has failed. The fields of a query
    are reads. -/
def execute (h : ConnXRecall) (c : Catalog) (query : String) : Catalog :=
  match Gql.parse query with
  | .ok (.mutation, roots) => roots.foldl (fun c f => (resolveMutation h c f).1) c
  | .ok (.query, _) => c
  | .error _ => c

/-! ## The node -/

/-- `Message`. -/
structure Message where
  verb : String
  body : Value
  token : Option String

/-- The reply to a message: one that is not modelled further, an error body, or the error the
    handler returns. -/
inductive Reply where
  | served
  | error (text : String)
  | failed (e : RroError)

/-- `as_bool`. -/
def Value.asBool : Value → Option Bool
  | .bool b => some b
  | _ => none

/-- `as_array`. -/
def Value.asArray : Value → Option (List Value)
  | .array items => some items
  | _ => none

/-- A string field of a body. -/
def Value.str? (body : Value) (key : String) : Option String := (body.get key).bind Value.asStr

/-- A string field of a body, empty when it is missing. -/
def Value.strOf (body : Value) (key : String) : String := (body.str? key).getD ""

/-- `FlowNode`: the recall handle of the attached estate, that of the flow where it writes to
    the same estate, and the guards. -/
structure FlowNode where
  estate : Option ConnXRecall
  flow : Option ConnXRecall
  auth : Option AuthPolicy
  token : Option String

/-- The reply to a call. -/
def replyOf {α : Type} (r : Catalog × Except RroError α) : Catalog × Reply :=
  match r.2 with
  | .ok _ => (r.1, .served)
  | .error e => (r.1, .error e.display)

/-- The end of a call whose error the handler returns. -/
def passOn (r : Catalog × Except RroError Unit) : Catalog × Reply :=
  match r.2 with
  | .ok _ => (r.1, .served)
  | .error e => (r.1, .failed e)

/-- One entry of the `ops` of a `tx`. -/
def txOp (op : Value) : Except RroError WriteOp :=
  match op.get "upsert" with
  | some docs => do
    let docs ← Services.documents docs
    let records ← embedDocuments docs
    pure (.upsert records)
  | none =>
    match op.str? "remove" with
    | some id => pure (.remove id)
    | none =>
      throw (.recall
        "each tx op must be \x7b\"upsert\": [...]\x7d or \x7b\"remove\": \"id\"\x7d")

namespace FlowNode

/-- `FlowNode::authorize`: the role of the caller where a policy decides it. -/
def authorize [TokenCodec] (node : FlowNode) (now : ℕ) (msg : Message) :
    Except Unit (Option Role) :=
  if msg.verb = "ping" then .ok none
  else
    match node.auth with
    | some policy =>
      match policy.authorize now msg.token msg.verb with
      | .ok role => .ok (some role)
      | .error _ => .error ()
    | none =>
      match node.token with
      | some required => if msg.token ≠ some required then .error () else .ok none
      | none => .ok none

/-- The arm of a verb that needs the estate. -/
def withEstate (node : FlowNode) (c : Catalog) (arm : ConnXRecall → Catalog × Reply) :
    Catalog × Reply :=
  match node.estate with
  | none => (c, .error "no estate attached to this node")
  | some h => arm h

/-- The `sql` arm. -/
def sql (h : ConnXRecall) (role : Option Role) (c : Catalog) (body : Value) : Catalog × Reply :=
  match body.str? "sql" with
  | none => (c, .error "sql needs a `sql` string")
  | some src =>
    match Ql.parse src with
    | .error e =>
      (c, .error (e.message ++ " (at " ++ toString e.span.1 ++ ".." ++ toString e.span.2 ++ ")"))
    | .ok stmt =>
      if role = some .reader ∧ stmt.isWrite then (c, .error "unauthorized")
      else if ((body.get "read_only").bind Value.asBool).getD false ∧ stmt.isWrite then
        (c, .error (stmt.keyword ++ " is a write and this request set read_only"))
      else
        match stmt with
        | .select _ => (c, .served)
        | stmt => replyOf (apply h c stmt)

/-- The `relate` arm. -/
def relate (c : Catalog) (body : Value) : Catalog × Reply :=
  match body.str? "from", body.str? "verb", body.str? "to" with
  | some src, some verb, some dst => (c.relate src verb dst, .served)
  | _, _, _ => (c, .error "relate needs `from`, `verb`, `to`")

/-- The `index` arm: `ReasonReadyObject::index`, on the store of the flow. -/
def index (node : FlowNode) (c : Catalog) (body : Value) : Catalog × Reply :=
  let docs : Except RroError (List Document) :=
    match body.get "docs" with
    | none => .ok []
    | some docs => Services.documents docs
  match docs with
  | .error e => (c, .failed e)
  | .ok [] => (c, .served)
  | .ok docs =>
    match embedDocuments docs with
    | .error e => (c, .failed e)
    | .ok records =>
      match node.flow with
      | none => (c, .served)
      | some h => passOn (c.run h (.upsert records))

/-- The `graphql` arm. -/
def graphql (h : ConnXRecall) (role : Option Role) (c : Catalog) (body : Value) :
    Catalog × Reply :=
  let query := body.strOf "query"
  if role = some .reader ∧ Gql.isMutation query then (c, .error "unauthorized")
  else (execute h c query, .served)

/-- The `tx` arm. -/
def tx (h : ConnXRecall) (c : Catalog) (body : Value) : Catalog × Reply :=
  match (body.get "ops").bind Value.asArray with
  | none => (c, .failed (.recall "tx body needs an `ops` array"))
  | some ops =>
    match ops.mapM txOp with
    | .error e => (c, .failed e)
    | .ok ops => passOn (c.run h (.transaction ops))

/-- The arms of `set_payload` and `overwrite_payload`. -/
def payload (c : Catalog) (body : Value)
    (write : Catalog → Id → Metadata → Catalog × Except RroError Unit) : Catalog × Reply :=
  let metadata : Except RroError Metadata :=
    match body.get "metadata" with
    | none => .ok ∅
    | some m => Services.metadata m
  match metadata with
  | .error e => (c, .failed e)
  | .ok metadata => replyOf (write c (body.strOf "id") metadata)

/-- The string items of an array field of a body. -/
def strings (body : Value) (key : String) : List String :=
  (((body.get key).bind Value.asArray).getD []).filterMap Value.asStr

/-- `FlowNode::handle`. -/
def handle [TokenCodec] (node : FlowNode) (now : ℕ) (c : Catalog) (msg : Message) :
    Catalog × Reply :=
  match node.authorize now msg with
  | .error _ => (c, .error "unauthorized")
  | .ok role =>
    let body := msg.body
    match msg.verb with
    | "ping" => (c, .served)
    | "ask" => (c, .served)
    | "recall" => (c, .served)
    | "map" => (c, .served)
    | "changes" => node.withEstate c fun _ => (c, .served)
    | "replicate" => node.withEstate c fun _ => (c, .served)
    | "query" => node.withEstate c fun _ => (c, .served)
    | "recommend" => node.withEstate c fun _ => (c, .served)
    | "sql" => node.withEstate c fun h => sql h role c body
    | "discover" => node.withEstate c fun _ => (c, .served)
    | "relate" => node.withEstate c fun _ => relate c body
    | "traverse" => node.withEstate c fun _ => (c, .served)
    | "index" => node.index c body
    | "graphql" => node.withEstate c fun h => graphql h role c body
    | "tx" => node.withEstate c fun h => tx h c body
    | "health" => (c, .served)
    | "info" => node.withEstate c fun _ => (c, .served)
    | "flush" => node.withEstate c fun _ => (c, .served)
    | "compact" => node.withEstate c fun _ => (c, .served)
    | "matrix" => node.withEstate c fun _ => (c, .served)
    | "sample" => node.withEstate c fun _ => (c, .served)
    | "collections" => node.withEstate c fun _ => (c, .served)
    | "drop_collection" =>
      node.withEstate c fun h => ((c.dropCollection h (body.strOf "name")).1, .served)
    | "create_alias" =>
      node.withEstate c fun _ =>
        (c.createAlias (body.strOf "alias") (body.strOf "collection"), .served)
    | "aliases" => node.withEstate c fun _ => (c, .served)
    | "delete_alias" => node.withEstate c fun _ => (c.deleteAlias (body.strOf "alias"), .served)
    | "set_payload" => node.withEstate c fun h => payload c body (Catalog.setPayload h)
    | "overwrite_payload" => node.withEstate c fun h => payload c body (Catalog.overwritePayload h)
    | "delete_payload_keys" =>
      node.withEstate c fun h =>
        replyOf (c.deletePayloadKeys h (body.strOf "id") (strings body "keys"))
    | "clear_payload" => node.withEstate c fun h => replyOf (c.clearPayload h (body.strOf "id"))
    | other => (c, .error ("unknown verb: " ++ other))

end FlowNode

end Rro.Program
