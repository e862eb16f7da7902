import Rro.Model.Commits
import Rro.Model.PayloadIndexes
import Rro.Program.Handler

/-!
# What keeps the names of the collections

Every call of a writer keeps the registered collection names, whatever its outcome; only
`drop_collection` deregisters one. A statement of RRQL that is not a write changes nothing,
and one that is not a `REMOVE COLLECTION` keeps the names (`apply_read`, `apply_keeps`).
-/

set_option autoImplicit false

namespace Rro.Model

open Rro.Library Rro.Program

/-- Every collection registered in the first registry is registered in the second. -/
def KeepsNames (reg reg' : Registry) : Prop :=
  ∀ name : String, reg.collections.contains name → reg'.collections.contains name

/-- Unchanged declarations keep their collections. -/
theorem KeepsNames.refl (reg : Registry) : KeepsNames reg reg := fun _ h => h

/-- One step after another keeps the collections. -/
theorem KeepsNames.trans {a b c : Registry} (hab : KeepsNames a b) (hbc : KeepsNames b c) :
    KeepsNames a c := fun name h => hbc name (hab name h)

/-- Declarations with the same collections. -/
theorem KeepsNames.of_eq {reg reg' : Registry} (h : reg'.collections = reg.collections) :
    KeepsNames reg reg' := by
  intro name hname
  rwa [h]

/-! ## Calls of the writers -/

/-- Registering collections keeps those there are. -/
theorem registerCollections_keeps (records : List VectorRecord) (names : Table String Unit)
    (name : String) (h : names.contains name) :
    (registerCollections names records).contains name := by
  unfold registerCollections
  induction records generalizing names with
  | nil => exact h
  | cons r records ih =>
    rw [List.foldl_cons]
    apply ih
    split
    · exact h
    · split
      · exact h
      · simp [h]

variable [SerdeJson]

/-- Registering records keeps the collections. -/
theorem register_keeps (reg : Registry) (records : List VectorRecord) :
    KeepsNames reg (register reg records).1 := by
  have hgrown : ∀ info schema,
      KeepsNames reg ⟨info, registerCollections reg.collections records, schema⟩ := by
    intro info schema name hname
    exact registerCollections_keeps records reg.collections name hname
  unfold register
  cases hinfo : reg.estate with
  | none => exact KeepsNames.refl reg
  | some info =>
    cases hfirst : records.head? with
    | none => exact KeepsNames.refl reg
    | some first =>
      cases hguard : dimGuard info first.embedding.dim with
      | error e => simpa [hguard] using KeepsNames.refl reg
      | ok info₁ =>
        have hsame : KeepsNames reg ⟨some info₁, reg.collections, reg.schema⟩ := .of_eq rfl
        cases hdims : checkDims first.embedding.dim records with
        | error e => simpa [hguard, hdims] using hsame
        | ok u =>
          cases hschema : checkSchema reg.schema records with
          | error e => simpa [hguard, hdims, hschema] using hsame
          | ok u' =>
            cases hnamed : records.foldlM registerNamed info₁ with
            | error e => simpa [hguard, hdims, hschema, hnamed] using hgrown _ _
            | ok info₂ => simpa [hguard, hdims, hschema, hnamed] using hgrown _ _

/-- Staging upserts keeps the collections. -/
theorem upsertInto_keeps (an : Analyzer) (stats : Bool) (db : Db) (tx : Transaction)
    (records : List VectorRecord) :
    KeepsNames db.registry (upsertInto an stats db tx records).1.registry := by
  have hkeep := register_keeps db.registry records
  unfold upsertInto
  rcases hreg : register db.registry records with ⟨reg, err | u⟩
  · rw [hreg] at hkeep
    exact hkeep
  · rw [hreg] at hkeep
    dsimp only
    split
    · exact hkeep
    · exact hkeep

/-- Staging a transaction keeps the collections. -/
theorem applyOps_keeps (h : ConnXRecall) (ops : List WriteOp) (db : Db) (tx : Transaction) :
    KeepsNames db.registry (applyOps h db tx ops).1.registry := by
  induction ops generalizing db tx with
  | nil => exact KeepsNames.refl _
  | cons op ops ih =>
    cases op with
    | remove id => exact ih db _
    | upsert records =>
      have hkeep := upsertInto_keeps h.analyzer h.lexicalStats db tx records
      unfold applyOps
      rcases hinto : upsertInto h.analyzer h.lexicalStats db tx records with ⟨db₁, err | tx₁⟩
      · rwa [hinto] at hkeep
      · rw [hinto] at hkeep
        exact hkeep.trans (ih db₁ tx₁)

/-- Committing a transaction keeps the collections. -/
theorem commitOps_keeps (h : ConnXRecall) (e : Estate) (ops : List WriteOp) :
    KeepsNames e.db.registry (commitOps h e ops).1.db.registry := by
  have hkeep := applyOps_keeps h ops e.db (Transaction.begin e.db)
  unfold commitOps
  rcases happ : applyOps h e.db (Transaction.begin e.db) ops with ⟨db, err | tx⟩
  · rwa [happ] at hkeep
  · rw [happ] at hkeep
    simpa [Transaction.commit] using hkeep

/-- Every write of documents keeps the collections. -/
theorem run_keeps (h : ConnXRecall) (e : Estate) (w : FeedWrite) :
    KeepsNames e.db.registry (w.run h e).1.db.registry := by
  cases w with
  | upsert records =>
    rcases upsert_eq h e records with heq | ⟨outcome, heq⟩
    · rw [FeedWrite.run, heq]
      exact commitOps_keeps h e _
    · rw [FeedWrite.run, heq]
      exact KeepsNames.refl _
  | remove id => exact commitOps_keeps h e _
  | transaction ops =>
    rcases transaction_eq h e ops with heq | heq
    · rw [FeedWrite.run, heq]
      exact commitOps_keeps h e _
    · rw [FeedWrite.run, heq]
      exact KeepsNames.refl _
  | mutatePayload id f =>
    rw [FeedWrite.run, ConnXRecall.mutatePayload]
    split
    · exact KeepsNames.refl _
    · exact KeepsNames.of_eq (by rw [write_registry])

/-! ## Operations on the catalog -/

/-- The first catalog's collections are registered in the second. -/
def Keeps (c c' : Catalog) : Prop := KeepsNames c.estate.db.registry c'.estate.db.registry

omit [SerdeJson] in
/-- A catalog whose declarations are unchanged. -/
theorem Keeps.of_db {c c' : Catalog} (h : c'.estate.db.registry = c.estate.db.registry) :
    Keeps c c' := KeepsNames.of_eq (by rw [h])

/-- Creating an index leaves the declarations. -/
theorem createPayloadIndex_registry (db : Db) (field : String) :
    (createPayloadIndex db field).registry = db.registry := by
  unfold createPayloadIndex
  split
  · rfl
  · rw [write_registry, backfill]
    obtain ⟨rows, hrows⟩ := backfill_flushed field (db.docs.toList.map Prod.snd)
      ⟨registerField db field, [], 0⟩ ⟨[], rfl⟩
    simp only [registerField] at hrows ⊢
    rw [hrows, write_registry]

omit [SerdeJson] in
/-- Defining a field keeps the collections. -/
theorem defineField_keeps (c : Catalog) (collection field ty : String) :
    Keeps c (c.defineField collection field ty).1 := by
  unfold Catalog.defineField
  split
  · exact Keeps.of_db rfl
  · exact KeepsNames.of_eq rfl

omit [SerdeJson] in
/-- Removing a field keeps the collections. -/
theorem removeField_keeps (c : Catalog) (collection field : String) :
    Keeps c (c.removeField collection field) := by
  unfold Catalog.removeField
  dsimp only
  split
  · exact KeepsNames.of_eq rfl
  · exact KeepsNames.of_eq rfl

/-- A write of documents keeps the collections of the catalog. -/
theorem catalogRun_keeps (h : ConnXRecall) (c : Catalog) (w : FeedWrite) :
    Keeps c (c.run h w).1 := run_keeps h c.estate w

/-- Dropping the members of a collection keeps the collections. -/
theorem dropMembers_keeps (h : ConnXRecall) (ids : List Id) (e : Estate) :
    KeepsNames e.db.registry (ids.foldl (dropMember h) e).db.registry := by
  induction ids generalizing e with
  | nil => exact KeepsNames.refl _
  | cons id ids ih => exact (commitOps_keeps h e [.remove id]).trans (ih (dropMember h e id))

/-- A dropped collection is no longer registered. -/
theorem dropCollection_drops (h : ConnXRecall) (c : Catalog) (name : String) :
    ¬ (c.dropCollection h name).1.estate.db.registry.collections.contains name := by
  simp [Catalog.dropCollection]

/-- Dropping a collection keeps the names of the others. -/
theorem dropCollection_keeps (h : ConnXRecall) (c : Catalog) {name : String}
    (hname : ¬ c.estate.db.registry.collections.contains name) :
    Keeps c (c.dropCollection h name).1 := by
  intro other hother
  have hkept := dropMembers_keeps h (collectionMembers c.estate.db name) c.estate other hother
  have hne : other ≠ name := fun heq => hname (heq ▸ hother)
  simpa [Catalog.dropCollection, Ne.symm hne] using hkept

/-! ## Statements and documents -/

/-- A read statement changes nothing. -/
theorem apply_read (h : ConnXRecall) (c : Catalog) {stmt : Ql.Statement}
    (hread : stmt.isWrite = false) : (apply h c stmt).1 = c := by
  cases stmt with
  | select s => rfl
  | traverse t => rfl
  | live since => rfl
  | info => rfl
  | _ => simp [Ql.Statement.isWrite] at hread

/-- **Every statement** but the removal of a collection keeps the collections. -/
theorem apply_keeps (h : ConnXRecall) (c : Catalog) {stmt : Ql.Statement}
    (hne : ∀ name, stmt ≠ .remove (.collection name)) : Keeps c (apply h c stmt).1 := by
  cases stmt with
  | define d =>
    cases d with
    | index field => exact Keeps.of_db (createPayloadIndex_registry c.estate.db field)
    | alias_ name collection => exact Keeps.of_db rfl
    | field field collection ty => exact defineField_keeps c collection field _
  | remove r =>
    cases r with
    | alias_ name => exact Keeps.of_db rfl
    | collection name => exact absurd rfl (hne name)
    | field field collection => exact removeField_keeps c collection field
  | update u =>
    obtain ⟨id, set, _ | _⟩ := u
    · exact catalogRun_keeps h c _
    · exact catalogRun_keeps h c _
  | delete d =>
    obtain ⟨id, _ | _, keys⟩ := d
    · exact catalogRun_keeps h c _
    · cases keys with
      | nil => exact catalogRun_keeps h c _
      | cons k keys => exact catalogRun_keeps h c _
  | relate r => exact Keeps.of_db rfl
  | _ => exact Keeps.of_db rfl

/-- Every mutation keeps the collections. -/
theorem resolveMutation_keeps [Services] (h : ConnXRecall) (c : Catalog) (f : Gql.Field) :
    Keeps c (resolveMutation h c f).1 := by
  unfold resolveMutation
  split
  · dsimp only
    split
    · exact Keeps.of_db rfl
    · exact catalogRun_keeps h c _
  · split
    · exact Keeps.of_db rfl
    · exact catalogRun_keeps h c _
  · exact Keeps.of_db rfl

/-- **Every GraphQL text** keeps the collections. -/
theorem execute_keeps [Services] [Ql.RustFormat] [Gql.FloatDebug] (h : ConnXRecall) (c : Catalog)
    (query : String) : Keeps c (execute h c query) := by
  unfold execute
  split
  · rename_i roots hparse
    clear hparse
    induction roots generalizing c with
    | nil => exact Keeps.of_db rfl
    | cons f roots ih => exact (resolveMutation_keeps h c f).trans (ih _)
  · exact Keeps.of_db rfl
  · exact Keeps.of_db rfl

/-- A text that is no mutation changes nothing. -/
theorem execute_read [Services] [Ql.RustFormat] [Gql.FloatDebug] (h : ConnXRecall) (c : Catalog)
    {query : String} (hread : Gql.isMutation query = false) : execute h c query = c := by
  unfold Gql.isMutation at hread
  unfold execute
  split
  · rename_i hparse
    rw [hparse] at hread
    simp at hread
  · rfl
  · rfl

end Rro.Model
