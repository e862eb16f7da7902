import Rro.Program.Baseline
import Rro.Program.Plans

/-!
# Distillation

`distill_stamped` takes a payload through the gates, has its shape observed and its fields
grouped by the plan of the shape, which is compiled once and cached. Calls run at once: each
lock is taken and released on its own, and between two of them any other call may move. Events
are left out; the cosine of two embeddings is given, and scores are exact.

SOURCE: crates/rrd/src/lib.rs:54-373, gates.rs, router.rs, rro.rs.
-/

set_option autoImplicit false

namespace Rro.Program

open Rro.Library Rro.Program.Text

variable {K : Type} [Field K] [LinearOrder K] [Unicode]

/-! ## Gates -/

/-- `SourceStamp`. -/
structure SourceStamp where
  identity : Option String
  session : Option String
  project : Option String
  mode : Option String
  channel : Option String
  source : Option String

/-- `GateVerdict`. -/
inductive GateVerdict where
  | Pass
  | Flag
  | Block
deriving DecidableEq

/-- `L0Config`. -/
structure L0Config where
  max_text_bytes : ℕ
  max_fields : ℕ

/-- `L0Config::default`. -/
def L0Config.default : L0Config := ⟨2 ^ 20, 256⟩

/-- `l0_deterministic`. -/
def l0Deterministic (config : L0Config) (text : List Char) (field_count : ℕ) (tainted : Bool) :
    GateVerdict :=
  if config.max_text_bytes < width text ∨ config.max_fields < field_count then .Block
  else if tainted then .Flag
  else .Pass

/-- `LexicalSignals`. -/
structure LexicalSignals where
  unicode_anomaly : Bool
  secret_signal : Bool
  injection_signal : Bool
  operation_signal : Bool

/-- `LexicalSignals::verdict`. -/
def LexicalSignals.verdict (s : LexicalSignals) : GateVerdict :=
  if s.unicode_anomaly || s.secret_signal || s.injection_signal then .Flag else .Pass

/-- `SECRET_PREFIXES`. -/
def SECRET_PREFIXES : List String :=
  ["sk-", "ghp_", "gho_", "xoxb-", "xoxp-", "AKIA", "-----BEGIN"]

/-- `INJECTION_MARKERS`. -/
def INJECTION_MARKERS : List String :=
  ["ignore previous instructions", "ignore all previous", "disregard your instructions",
    "you are now", "system prompt", "developer message"]

/-- `OPERATION_MARKERS`. -/
def OPERATION_MARKERS : List String :=
  ["delete", "drop table", "rm -rf", "shutdown", "transfer", "send money", "wire",
    "grant access"]

/-- An invisible or bidirectional control character. -/
def isInvisible (c : Char) : Bool :=
  (0x200b ≤ c.toNat && c.toNat ≤ 0x200f) || (0x202a ≤ c.toNat && c.toNat ≤ 0x202e) ||
    (0x2066 ≤ c.toNat && c.toNat ≤ 0x2069)

/-- A long word of mixed letters and digits. -/
def looksSecret (w : List Char) : Bool :=
  32 ≤ width w && w.all (fun c => c.isAlphanum || c == '+' || c == '/' || c == '=') &&
    w.any Char.isDigit && w.any Char.isUpper && w.any Char.isLower

/-- `l1_lexical`. -/
def l1Lexical (text : List Char) : LexicalSignals :=
  let lower := Unicode.toLowercase text
  let words := (text.splitOnP Toon.isWhitespace).filter fun w => !w.isEmpty
  { unicode_anomaly := text.any isInvisible
    secret_signal := SECRET_PREFIXES.any (hasPart text) || words.any looksSecret
    injection_signal := INJECTION_MARKERS.any (hasPart lower)
    operation_signal := OPERATION_MARKERS.any (hasPart lower) }

/-- `l2_ambiguity`. -/
def l2Ambiguity : List K → K
  | [] => 1
  | [_] => 0
  | top :: second :: _ => max (top - second) 0

/-! ## Routes -/

/-- `Embedding::cosine`. -/
class CosineScore (K : Type) where
  cosine : Embedding → Embedding → K

/-- `Route`. -/
structure Route (K : Type) where
  tag : String
  centroid : Embedding
  threshold : K

/-- `RoutedTag`. -/
structure RoutedTag (K : Type) where
  tag : String
  score : K

/-- `SemanticRouter::route`: the sort is stable. -/
def route [CosineScore K] (routes : List (Route K)) (doc : Embedding) : List (RoutedTag K) :=
  (routes.filterMap fun r =>
    let score := CosineScore.cosine doc r.centroid
    if r.threshold ≤ score then some ⟨r.tag, score⟩ else none).mergeSort
      fun a b => b.score ≤ a.score

/-! ## Reason-ready objects -/

/-- `ReadinessHints`. -/
structure ReadinessHints (K : Type) where
  has_identity : Bool
  has_time : Bool
  has_title : Bool
  has_content : Bool
  tag_confidence : K
  ambiguity_margin : K

/-- `ReadinessHints::default`. -/
def ReadinessHints.default : ReadinessHints K := ⟨false, false, false, false, 0, 0⟩

/-- `Rro`. The fields are grouped by the name of their role. -/
structure ReadyObject (K : Type) where
  doc_id : String
  sliver_id : UInt64
  mode : Mode
  fields : Table String (Table String Value)
  tags : List (RoutedTag K)
  hints : ReadinessHints K
  plan_version : ℕ
  stamp : SourceStamp
  gate : GateVerdict
  signals : LexicalSignals

/-- The arguments of a call. -/
structure Payload where
  doc_id : String
  text : List Char
  metadata : Metadata
  embedding : Option Embedding
  stamp : SourceStamp

namespace Payload

/-- The verdict of L0. -/
def l0 (p : Payload) : GateVerdict := l0Deterministic .default p.text p.metadata.size false

/-- The shape. -/
def shape (p : Payload) : Shape := .of p.metadata

/-- The baseline context: where the payload came from. -/
def context (p : Payload) : String :=
  ((p.stamp.channel.or p.stamp.source).or p.stamp.project).getD "global"

/-- What a payload that L0 blocks becomes. -/
def blocked (p : Payload) : ReadyObject K :=
  { doc_id := p.doc_id, sliver_id := 0xffffffffffffffff, mode := .Unshaped, fields := ∅
    tags := [], hints := .default, plan_version := 0, stamp := p.stamp, gate := .Block
    signals := ⟨false, false, false, false⟩ }

end Payload

/-- The role of a field under a plan. -/
def Plan.roleOf (plan : Plan) (field : String) : FieldRole := (plan.roles[field]?).getD .Other

/-- One field of the loop that executes a plan. -/
def groupField (plan : Plan) (acc : Table String (Table String Value) × ReadinessHints K)
    (row : String × Value) : Table String (Table String Value) × ReadinessHints K :=
  let role := plan.roleOf row.1
  let nonempty := match row.2 with
    | .null => false
    | _ => true
  let hints := match role with
    | .Identity => if nonempty then { acc.2 with has_identity := true } else acc.2
    | .Time => if nonempty then { acc.2 with has_time := true } else acc.2
    | .Title => if nonempty then { acc.2 with has_title := true } else acc.2
    | .Content => if nonempty then { acc.2 with has_content := true } else acc.2
    | _ => acc.2
  let slot := (acc.1[role.key]?).getD ∅
  (acc.1.insert role.key (slot.insert row.1 row.2), hints)

/-- The JIT. The router does not change. -/
structure Rrd (K : Type) where
  registry : ShapeRegistry
  plans : Table UInt64 Plan
  routes : List (Route K)
  baseline : ShapeBaseline K
  hits : ℕ
  compiles : ℕ

/-- `Rrd::with_router`. -/
def Rrd.withRouter (routes : List (Route K)) : Rrd K := ⟨∅, ∅, routes, .new, 0, 0⟩

/-- The end of `distill_stamped`: the plan is executed, and the embedding routed. -/
def Payload.execute [CosineScore K] (routes : List (Route K)) (p : Payload) (sliver_id : UInt64)
    (plan : Plan) : ReadyObject K :=
  let signals := l1Lexical p.text
  let gate := match p.l0, signals.verdict with
    | .Flag, _ => .Flag
    | _, .Flag => .Flag
    | _, _ => .Pass
  let start : ReadinessHints K :=
    { ReadinessHints.default with has_content := !(Toon.trim p.text).isEmpty }
  let (by_role, hints) := p.metadata.toList.foldl (groupField plan) (∅, start)
  let tags := (p.embedding.map (route routes)).getD []
  let hints :=
    { hints with
      tag_confidence := ((tags.head?).map RoutedTag.score).getD 0
      ambiguity_margin := l2Ambiguity (tags.map RoutedTag.score) }
  { doc_id := p.doc_id, sliver_id, mode := identify p.metadata, fields := by_role, tags, hints
    plan_version := plan.version, stamp := p.stamp, gate, signals }

/-- The plan that a call compiles itself. -/
def Payload.ownPlan (p : Payload) (sliver_id : UInt64) : Plan :=
  compile sliver_id (identify p.metadata) p.shape

/-! ## Calls -/

/-- Where a call stands between two locks. -/
inductive Stage (K : Type) where
  | entered
  | speculated (predicted : Option UInt64)
  | observed (predicted : Option UInt64) (sliver_id : UInt64) (is_new : Bool)
  | settled (sliver_id : UInt64) (is_new : Bool)
  | missed (sliver_id : UInt64)
  | returned (rro : ReadyObject K)

/-- A call up to its next lock. `order` is the order in which the prediction meets the slivers
    of the context. -/
def Rrd.step [CosineScore K] (st : Rrd K) (p : Payload) (order : List UInt64) :
    Stage K → Rrd K × Stage K
  | .entered =>
    if p.l0 = .Block then (st, .returned p.blocked)
    else (st, .speculated ((st.baseline.predict order p.context).map Prod.fst))
  | .speculated predicted =>
    let (registry, sliver_id, is_new) := st.registry.observe p.shape (identify p.metadata)
    ({ st with registry }, .observed predicted sliver_id is_new)
  | .observed predicted sliver_id is_new =>
    let baseline := (st.baseline.observe p.context sliver_id predicted).1
    ({ st with baseline }, .settled sliver_id is_new)
  | .settled sliver_id true =>
    let compiled := p.ownPlan sliver_id
    ({ st with plans := st.plans.insert sliver_id compiled, compiles := st.compiles + 1 },
      .returned (p.execute st.routes sliver_id compiled))
  | .settled sliver_id false =>
    let st := { st with hits := st.hits + 1 }
    match st.plans[sliver_id]? with
    | some plan => (st, .returned (p.execute st.routes sliver_id plan))
    | none => (st, .missed sliver_id)
  | .missed sliver_id =>
    let compiled := p.ownPlan sliver_id
    ({ st with plans := st.plans.insert sliver_id compiled },
      .returned (p.execute st.routes sliver_id compiled))
  | .returned rro => (st, .returned rro)

/-- `Rrd::distill_stamped`, with no other call running. -/
def Rrd.distillStamped [CosineScore K] (st : Rrd K) (p : Payload) (order : List UInt64) :
    Rrd K × ReadyObject K :=
  if p.l0 = .Block then (st, p.blocked)
  else
    let predicted := (st.baseline.predict order p.context).map Prod.fst
    let (registry, sliver_id, is_new) := st.registry.observe p.shape (identify p.metadata)
    let baseline := (st.baseline.observe p.context sliver_id predicted).1
    let st := { st with registry, baseline }
    let compiled := p.ownPlan sliver_id
    let cached := if is_new then none else st.plans[sliver_id]?
    let plan := cached.getD compiled
    ({ st with
       plans := if cached.isSome then st.plans else st.plans.insert sliver_id compiled
       hits := if is_new then st.hits else st.hits + 1
       compiles := if is_new then st.compiles + 1 else st.compiles },
      p.execute st.routes sliver_id plan)

/-- Calls that share one JIT. -/
structure Calls (K : Type) where
  rrd : Rrd K
  stage : ℕ → Stage K

/-- The turn of a call. -/
structure Turn where
  call : ℕ
  order : List UInt64

/-- A turn taken. -/
def Calls.turn [CosineScore K] (payloads : List Payload) (s : Calls K) (t : Turn) : Calls K :=
  match payloads[t.call]? with
  | none => s
  | some p =>
    let (rrd, stage) := s.rrd.step p t.order (s.stage t.call)
    ⟨rrd, Function.update s.stage t.call stage⟩

/-- The calls on a new JIT, after some turns. -/
def Calls.run [CosineScore K] (routes : List (Route K)) (payloads : List Payload)
    (turns : List Turn) : Calls K :=
  turns.foldl (Calls.turn payloads) ⟨.withRouter routes, fun _ => .entered⟩

end Rro.Program
