import Rro.Model.CollectionNames
import Rro.Model.EmptyEstate

/-!
# The role behind every change

On a node with a policy, a message that changes the estate carries a token whose role is
demanded for that change by the typed verb that makes it (`Respected`). The handler meets
this for every message but one kind (`handle_respected_iff`): the gate of `sql` asks of a
write statement only that the caller be no reader, so a writer drops a collection by a
`REMOVE COLLECTION` statement, which the verb `drop_collection` leaves to an admin.
-/

set_option autoImplicit false

namespace Rro.Analysis

open Rro.Library Rro.Program Rro.Model

/-- A kind of change of an estate. -/
inductive Effect where
  | document
  | payload
  | collection
  | relation
  | alias_
  | index
  | field
  | dropCollection

/-- The change happened between two states of an estate. -/
def Effect.Happens (before after : Catalog) : Effect → Prop
  | .document => before.estate.db.docs ≠ after.estate.db.docs ∨
      before.estate.db.rows ≠ after.estate.db.rows
  | .payload => ∃ (key : Bytes) (doc doc' : StoredDoc), before.estate.db.docs[key]? = some doc ∧
      after.estate.db.docs[key]? = some doc' ∧ doc.metadata ≠ doc'.metadata
  | .collection =>
    before.estate.db.registry.collections ≠ after.estate.db.registry.collections
  | .relation => before.rels ≠ after.rels
  | .alias_ => before.aliases ≠ after.aliases
  | .index => before.estate.db.payloadIndexes ≠ after.estate.db.payloadIndexes
  | .field => before.estate.db.registry.schema ≠ after.estate.db.registry.schema
  | .dropCollection => ∃ name, before.estate.db.registry.collections.contains name ∧
      ¬ after.estate.db.registry.collections.contains name

/-- The role the typed verb with an effect demands. No typed verb declares an index or a
    field; these are for writers. -/
def Effect.demanded : Effect → Role
  | .document => Role.minRole "tx"
  | .payload => Role.minRole "set_payload"
  | .collection => Role.minRole "index"
  | .relation => Role.minRole "relate"
  | .alias_ => Role.minRole "create_alias"
  | .index => .writer
  | .field => .writer
  | .dropCollection => Role.minRole "drop_collection"

/-- Every change comes from a token with the role demanded for it. -/
def Respected [TokenCodec] (policy : AuthPolicy) (now : ℕ) (msg : Message)
    (before after : Catalog) : Prop :=
  ∀ eff : Effect, eff.Happens before after →
    ∃ role, policy.authorize now msg.token msg.verb = .ok role ∧ eff.demanded ≤ role

/-- A statement drops a registered collection, and the gate of `sql` lets it through. -/
def dropsBy [Ql.RustFormat] (node : FlowNode) (c : Catalog) (msg : Message) : Prop :=
  msg.verb = "sql" ∧ node.estate.isSome ∧
    ((msg.body.get "read_only").bind Value.asBool).getD false = false ∧
    ∃ src name, msg.body.str? "sql" = some src ∧
      Ql.parse src = .ok (.remove (.collection name)) ∧
      c.estate.db.registry.collections.contains name

/-! ## The tiers -/

/-- An accepted token has the role its verb demands. -/
theorem authorize_allows [TokenCodec] {policy : AuthPolicy} {now : ℕ} {token : Option String}
    {verb : String} {role : Role} (h : policy.authorize now token verb = .ok role) :
    Role.minRole verb ≤ role := by
  unfold AuthPolicy.authorize at h
  cases token with
  | none => simp [throw, throwThe, MonadExceptOf.throw] at h
  | some token =>
    cases hverify : TokenCodec.verify token policy.key with
    | error e => simp [hverify, bind, Except.bind] at h
    | ok claims =>
      simp only [hverify, bind, Except.bind, pure, Except.pure, throw, throwThe,
        MonadExceptOf.throw] at h
      repeat' split at h
      all_goals simp_all [Role.allows]

/-- A role other than the reader's is at least the writer's. -/
theorem writer_le_of_not_reader {role : Role} (h : role ≠ .reader) : Role.writer ≤ role := by
  cases role with
  | reader => exact absurd rfl h
  | writer => decide
  | admin => decide

/-- A writer may make every change but dropping a collection. -/
theorem respected_of_keeps [TokenCodec] {policy : AuthPolicy} {now : ℕ} {msg : Message}
    {before after : Catalog} {role : Role}
    (hrole : policy.authorize now msg.token msg.verb = .ok role) (hwriter : Role.writer ≤ role)
    (hkeeps : Model.Keeps before after) : Respected policy now msg before after := by
  intro eff heff
  refine ⟨role, hrole, ?_⟩
  cases eff with
  | dropCollection =>
    obtain ⟨name, hbefore, hafter⟩ := heff
    exact absurd (hkeeps name hbefore) hafter
  | _ => exact hwriter

/-- An admin may change everything. -/
theorem respected_of_admin [TokenCodec] {policy : AuthPolicy} {now : ℕ} {msg : Message}
    {before after : Catalog} {role : Role}
    (hrole : policy.authorize now msg.token msg.verb = .ok role) (hadmin : Role.admin ≤ role) :
    Respected policy now msg before after := by
  have hall : ∀ r : Role, r ≤ role := by
    intro r
    cases role <;> cases r <;> first | decide | exact absurd hadmin (by decide)
  exact fun eff _ => ⟨role, hrole, hall _⟩

/-- Where nothing changes nothing is demanded. -/
theorem respected_of_unchanged [TokenCodec] {policy : AuthPolicy} {now : ℕ} {msg : Message}
    (c : Catalog) : Respected policy now msg c c := by
  intro eff heff
  exfalso
  cases eff with
  | document => exact heff.elim (fun h => h rfl) fun h => h rfl
  | payload =>
    obtain ⟨key, doc, doc', hdoc, hdoc', hne⟩ := heff
    rw [hdoc, Option.some.injEq] at hdoc'
    exact hne (by rw [hdoc'])
  | dropCollection =>
    obtain ⟨name, hbefore, hafter⟩ := heff
    exact hafter hbefore
  | _ => exact heff rfl

/-! ## What one message can do -/

/-- The arms of the verbs for data keep the names of the collections. -/
theorem replyOf_keeps {α : Type} {c : Catalog} {r : Catalog × Except RroError α}
    (h : Model.Keeps c r.1) : Model.Keeps c (replyOf r).1 := by
  unfold replyOf
  split
  · exact h
  · exact h

/-- Passing a result on keeps the catalog. -/
theorem passOn_keeps {c : Catalog} {r : Catalog × Except RroError Unit} (h : Model.Keeps c r.1) :
    Model.Keeps c (passOn r).1 := by
  unfold passOn
  split
  · exact h
  · exact h

/-- The relation verbs keep the collections. -/
theorem relate_keeps (c : Catalog) (body : Value) : Model.Keeps c (FlowNode.relate c body).1 := by
  unfold FlowNode.relate
  split
  · exact Keeps.of_db rfl
  · exact Keeps.of_db rfl

/-- The payload verbs keep the collections. -/
theorem payload_keeps [Services] (c : Catalog) (body : Value)
    (write : Catalog → Id → Metadata → Catalog × Except RroError Unit)
    (hwrite : ∀ id m, Model.Keeps c (write c id m).1) : Model.Keeps c (FlowNode.payload c body write).1 := by
  unfold FlowNode.payload
  dsimp only
  split
  · exact Keeps.of_db rfl
  · exact replyOf_keeps (hwrite _ _)

section Handle

variable [SerdeJson] [Services]

/-- The index verb keeps the collections. -/
theorem index_keeps (node : FlowNode) (c : Catalog) (body : Value) :
    Model.Keeps c (node.index c body).1 := by
  unfold FlowNode.index
  dsimp only
  repeat' split
  all_goals first | exact passOn_keeps (catalogRun_keeps _ c _) | exact Keeps.of_db rfl

/-- The `tx` verb keeps the collections. -/
theorem tx_keeps (h : ConnXRecall) (c : Catalog) (body : Value) :
    Model.Keeps c (FlowNode.tx h c body).1 := by
  unfold FlowNode.tx
  split
  · exact Keeps.of_db rfl
  · split
    · exact Keeps.of_db rfl
    · exact passOn_keeps (catalogRun_keeps h c _)

variable [Ql.RustFormat]

/-- What the arm of a verb does to the catalog, under the role that admitted the message. -/
inductive Move (node : FlowNode) (c : Catalog) (msg : Message) (role : Role) (c' : Catalog) :
    Prop where
  | nothing (h : c' = c)
  | data (hrole : Role.writer ≤ role) (h : Model.Keeps c c')
  | administration (hrole : Role.admin ≤ role)
  | statement (hrole : Role.writer ≤ role) (h : dropsBy node c msg)

variable {node : FlowNode} {c : Catalog} {msg : Message} {role : Role}

omit [SerdeJson] [Services] in
/-- A verb over the attached estate moves as its arm does, and without one nothing moves. -/
theorem withEstate_move {arm : ConnXRecall → Catalog × Reply}
    (h : ∀ h, node.estate = some h → Move node c msg role (arm h).1) :
    Move node c msg role (node.withEstate c arm).1 := by
  unfold FlowNode.withEstate
  split
  · exact .nothing rfl
  · exact h _ ‹_›

omit [Services] in
/-- The `sql` verb: a write statement takes a writer, and one of them drops a collection. -/
theorem sql_move (h : ConnXRecall) (hverb : msg.verb = "sql") (hnode : node.estate = some h) :
    Move node c msg role (FlowNode.sql h (some role) c msg.body).1 := by
  unfold FlowNode.sql
  split
  · exact .nothing rfl
  · rename_i src hsrc
    split
    · exact .nothing rfl
    · rename_i stmt hparse
      by_cases hwrite : stmt.isWrite = true
      · split
        · exact .nothing rfl
        · rename_i hreader
          have hwriter : Role.writer ≤ role := by
            apply writer_le_of_not_reader
            rintro rfl
            exact hreader ⟨rfl, hwrite⟩
          split
          · exact .nothing rfl
          · rename_i hopen
            split
            · exact .nothing rfl
            · -- the one statement that drops a collection asks for no more than the others
              by_cases hdrop : ∃ name, stmt = .remove (.collection name) ∧
                  c.estate.db.registry.collections.contains name
              · obtain ⟨name, rfl, hname⟩ := hdrop
                refine .statement hwriter ⟨hverb, by simp [hnode], ?_, src, name, hsrc, hparse, hname⟩
                simpa [hwrite] using hopen
              · refine .data hwriter (replyOf_keeps ?_)
                by_cases hremove : ∃ name, stmt = .remove (.collection name)
                · obtain ⟨name, rfl⟩ := hremove
                  exact dropCollection_keeps h c fun hname => hdrop ⟨name, rfl, hname⟩
                · exact apply_keeps h c fun name heq => hremove ⟨name, heq⟩
      · have hread : stmt.isWrite = false := by simpa using hwrite
        refine .nothing ?_
        simp only [hread, Bool.false_eq_true, and_false, if_false]
        split
        · rfl
        · unfold replyOf
          split
          · exact apply_read h c hread
          · exact apply_read h c hread

variable [Gql.FloatDebug]

/-- The `graphql` verb: a mutation takes a writer and drops no collection. -/
theorem graphql_move (h : ConnXRecall) (body : Value) :
    Move node c msg role (FlowNode.graphql h (some role) c body).1 := by
  unfold FlowNode.graphql
  dsimp only
  split
  · exact .nothing rfl
  · rename_i hgate
    by_cases hread : Gql.isMutation (body.strOf "query") = true
    · refine .data (writer_le_of_not_reader ?_) (execute_keeps h c _)
      rintro rfl
      exact hgate ⟨rfl, hread⟩
    · exact .nothing (execute_read h c (by simpa using hread))

/-- **What one message can do.** Without a role the catalog stays; with one, the arm of the
    verb moves it within the verb's own role, or applies a statement. -/
theorem handle_move [TokenCodec] {policy : AuthPolicy} (hauth : node.auth = some policy)
    (now : ℕ) (c : Catalog) (msg : Message) : (node.handle now c msg).1 = c ∨
      ∃ role, policy.authorize now msg.token msg.verb = .ok role ∧
        Move node c msg role (node.handle now c msg).1 := by
  by_cases hping : msg.verb = "ping"
  · exact .inl (by simp [FlowNode.handle, FlowNode.authorize, hping])
  cases hrole : policy.authorize now msg.token msg.verb with
  | error e => exact .inl (by simp [FlowNode.handle, FlowNode.authorize, hping, hauth, hrole])
  | ok role =>
    have hallows := authorize_allows hrole
    have hgate : node.authorize now msg = .ok (some role) := by
      simp [FlowNode.authorize, hping, hauth, hrole]
    refine .inr ⟨role, rfl, ?_⟩
    unfold FlowNode.handle
    rw [hgate]
    dsimp only
    split
    -- the verbs that write, in the order of the table; the others are reads
    case h_9 hsql => exact withEstate_move fun h hnode => sql_move h hsql hnode
    case h_11 hrelate =>
      rw [hrelate] at hallows
      exact withEstate_move fun _ _ => .data hallows (relate_keeps c _)
    case h_13 hindex =>
      rw [hindex] at hallows
      exact .data hallows (index_keeps node c _)
    case h_14 => exact withEstate_move fun h _ => graphql_move h _
    case h_15 htx =>
      rw [htx] at hallows
      exact withEstate_move fun h _ => .data hallows (tx_keeps h c _)
    case h_23 hdrop =>
      rw [hdrop] at hallows
      exact withEstate_move fun _ _ => .administration hallows
    case h_24 hcreate =>
      rw [hcreate] at hallows
      exact withEstate_move fun _ _ => .data hallows (Keeps.of_db rfl)
    case h_26 hdelete =>
      rw [hdelete] at hallows
      exact withEstate_move fun _ _ => .data hallows (Keeps.of_db rfl)
    case h_27 hset =>
      rw [hset] at hallows
      exact withEstate_move fun h _ =>
        .data hallows (payload_keeps c _ _ fun _ _ => catalogRun_keeps h c _)
    case h_28 hoverwrite =>
      rw [hoverwrite] at hallows
      exact withEstate_move fun h _ =>
        .data hallows (payload_keeps c _ _ fun _ _ => catalogRun_keeps h c _)
    case h_29 hkeys =>
      rw [hkeys] at hallows
      exact withEstate_move fun h _ => .data hallows (replyOf_keeps (catalogRun_keeps h c _))
    case h_30 hclear =>
      rw [hclear] at hallows
      exact withEstate_move fun h _ => .data hallows (replyOf_keeps (catalogRun_keeps h c _))
    all_goals first | exact .nothing rfl | exact withEstate_move fun _ _ => .nothing rfl

/-- A reader changes nothing, on any surface. -/
theorem reader_changes_nothing [TokenCodec] {policy : AuthPolicy} (hauth : node.auth = some policy)
    (now : ℕ) (c : Catalog) (msg : Message)
    (hreader : policy.authorize now msg.token msg.verb = .ok .reader) :
    (node.handle now c msg).1 = c := by
  rcases handle_move hauth now c msg with hsame | ⟨role, hrole, hmove⟩
  · exact hsame
  · obtain rfl : Role.reader = role := by simpa [hreader] using hrole
    cases hmove with
    | nothing h => exact h
    | data hwriter _ => exact absurd hwriter (by decide)
    | administration hadmin => exact absurd hadmin (by decide)
    | statement hwriter _ => exact absurd hwriter (by decide)

/-- The statement that drops a collection does so. -/
theorem handle_drops [TokenCodec] {policy : AuthPolicy} (hauth : node.auth = some policy)
    {now : ℕ} (hrole : policy.authorize now msg.token msg.verb = .ok .writer)
    (hdrop : dropsBy node c msg) :
    Effect.dropCollection.Happens c (node.handle now c msg).1 := by
  obtain ⟨hverb, hnode, hopen, src, name, hsrc, hparse, hname⟩ := hdrop
  obtain ⟨h, hnode⟩ := Option.isSome_iff_exists.mp hnode
  refine ⟨name, hname, ?_⟩
  have hping : msg.verb ≠ "ping" := by
    rw [hverb]
    decide
  have hgate : node.authorize now msg = .ok (some .writer) := by
    simp [FlowNode.authorize, hping, hauth, hrole]
  have hstate : (node.handle now c msg).1 = (c.dropCollection h name).1 := by
    simp [FlowNode.handle, hgate, hverb, FlowNode.withEstate, hnode, FlowNode.sql, hsrc, hparse,
      hopen, apply, replyOf]
  rw [hstate]
  exact dropCollection_drops h c name

/-- **Capabilities agree on every surface**, except that a writer's `sql` may drop a registered
    collection. -/
theorem handle_respected_iff [TokenCodec] {policy : AuthPolicy} (hauth : node.auth = some policy)
    (now : ℕ) (c : Catalog) (msg : Message) :
    Respected policy now msg c (node.handle now c msg).1 ↔
      ¬ (policy.authorize now msg.token msg.verb = .ok .writer ∧ dropsBy node c msg) := by
  constructor
  · rintro hrespected ⟨hrole, hdrop⟩
    obtain ⟨role, hrole', hdemand⟩ := hrespected .dropCollection (handle_drops hauth hrole hdrop)
    obtain rfl : Role.writer = role := by simpa [hrole] using hrole'
    exact absurd hdemand (by decide)
  · intro hnot
    rcases handle_move hauth now c msg with hsame | ⟨role, hrole, hmove⟩
    · rw [hsame]
      exact respected_of_unchanged c
    · cases hmove with
      | nothing h =>
        rw [h]
        exact respected_of_unchanged c
      | data hwriter hkeeps => exact respected_of_keeps hrole hwriter hkeeps
      | administration hadmin => exact respected_of_admin hrole hadmin
      | statement hwriter hdrop =>
        apply respected_of_admin hrole
        cases role with
        | reader => exact absurd hwriter (by decide)
        | writer => exact absurd ⟨hrole, hdrop⟩ hnot
        | admin => decide

end Handle

/-! ## A writer's statement -/

/-- A writer's token, as the key `k` signs it. -/
def writerToken : String :=
  "eyJhbGciOiJIUzI1NiIsInR5cCI6IkpXVCJ9." ++
  "eyJzdWIiOiJzIiwicm9sZSI6IndyaXRlciIsImlhdCI6MCwiZXhwIjo0MTAyNDQ0ODAwfQ." ++
  "ycz5Zfr9pVQIm-H1DvezGsH2GUX1p3x_Y2HuKUZFmHE"

/-- A codec that knows this token alone. -/
abbrev writerCodec : TokenCodec where
  verify token key :=
    if token = writerToken ∧ key = [107] then
      .ok { sub := "s", role := .writer, ns := none, iat := 0, exp := 4102444800 }
    else .error .badSignature

/-- No document is embedded or decoded. -/
abbrev idleServices : Services :=
  ⟨fun _ => .ok [], fun _ => .error (.msg "serde: "), fun _ => .error (.msg "serde: ")⟩

/-- Nothing is formatted. -/
abbrev idleFormat : Ql.RustFormat := ⟨fun _ => "", fun _ => ""⟩

/-- No float is printed. -/
abbrev idleDebug : Gql.FloatDebug := ⟨fun _ => ""⟩

/-- A node with a policy and an estate. -/
def guardedNode : FlowNode :=
  { estate := some sampleHandle, flow := some sampleHandle, auth := some ⟨[107], none⟩,
    token := none }

/-- An `sql` message with the writer's token. -/
def writerSql (src : String) : Message :=
  { verb := "sql", body := .object [("sql", .string src)], token := some writerToken }

/-- An estate with one registered collection, `c`, and an alias of it. -/
def catalogWithC : Catalog where
  estate := ⟨emptyDb { newRegistry with collections := (∅ : Table String Unit).insert "c" () } [], []⟩
  rels := ∅
  aliases := (∅ : Table String String).insert "a" "c"

/-- The catalog once the sample node has handled a message at the time 1. -/
def served (msg : Message) : Catalog :=
  (@FlowNode.handle sampleJson idleServices idleFormat idleDebug writerCodec guardedNode 1
    catalogWithC msg).1

/-- A writer removes an alias by a statement, and may. -/
theorem removed_alias_respected :
    catalogWithC.aliases["a"]? = some "c" ∧
      (served (writerSql "REMOVE ALIAS a")).aliases["a"]? = none ∧
      @Respected writerCodec ⟨[107], none⟩ 1 (writerSql "REMOVE ALIAS a") catalogWithC
        (served (writerSql "REMOVE ALIAS a")) := by
  refine ⟨by decide, by decide +kernel, ?_⟩
  let _ : TokenCodec := writerCodec
  let _ : Ql.RustFormat := idleFormat
  let _ : SerdeJson := sampleJson
  let _ : Services := idleServices
  let _ : Gql.FloatDebug := idleDebug
  refine (handle_respected_iff rfl 1 catalogWithC (writerSql "REMOVE ALIAS a")).mpr ?_
  rintro ⟨-, -, -, -, src, name, hsrc, hparse, -⟩
  obtain rfl : "REMOVE ALIAS a" = src := by
    simpa [writerSql, Value.str?, Value.get, Value.asStr] using hsrc
  have hstmt : Ql.parse "REMOVE ALIAS a" = .ok (.remove (.alias_ "a")) := by decide
  rw [hstmt] at hparse
  simp at hparse

/-- A writer drops a collection by a statement. -/
theorem writer_drops_collection :
    ¬ @Respected writerCodec ⟨[107], none⟩ 1 (writerSql "REMOVE COLLECTION c") catalogWithC
      (served (writerSql "REMOVE COLLECTION c")) := by
  let _ : TokenCodec := writerCodec
  let _ : Ql.RustFormat := idleFormat
  let _ : SerdeJson := sampleJson
  let _ : Services := idleServices
  let _ : Gql.FloatDebug := idleDebug
  have hrole : AuthPolicy.authorize ⟨[107], none⟩ 1 (some writerToken) "sql" = .ok .writer := by
    decide +kernel
  have hstmt : Ql.parse "REMOVE COLLECTION c" = .ok (.remove (.collection "c")) := by
    decide
  have hdrop : dropsBy guardedNode catalogWithC (writerSql "REMOVE COLLECTION c") :=
    ⟨rfl, rfl, rfl, _, "c", rfl, hstmt, by simp [catalogWithC, emptyDb]⟩
  intro hrespected
  obtain ⟨role, hrole', hdemand⟩ :=
    hrespected .dropCollection (handle_drops rfl hrole hdrop)
  obtain rfl : Role.writer = role := by simpa [writerSql, hrole] using hrole'
  exact absurd hdemand (by decide)

end Rro.Analysis
