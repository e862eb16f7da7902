import Rro.Model.Refinement

/-!
# Where runs start

An estate without documents, whatever its declarations, stands for the empty
corpus. `newEstate` is the estate as it is created, and `sampleHandle` a handle
on it: an analyzer that takes a one-word text for its one token, no quotas, and
document-frequency statistics on.
-/

set_option autoImplicit false

namespace Rro.Model

open Rro.Library Rro.Program

variable [SerdeJson]

/-- An estate is consistent when its documents, counters and index rows are those of some
    corpus. -/
def Consistent (h : ConnXRecall) (e : Estate) : Prop :=
  ∃ corpus, Refines h.analyzer h.lexicalStats e.db corpus ∧ ∀ cf, RowsOf h.analyzer e.db corpus cf

/-- An estate with the given declarations and no documents. -/
def emptyDb (registry : Registry) (fields : List String) : Db :=
  { registry
    payloadIndexes := fields
    counters := { docCount := 0, totalTokens := 0, feedSeq := 0, shapes := ∅ }
    docs := ∅
    feed := ∅
    tdf := ∅
    rows := fun _ => ∅ }

/-- An estate without documents stands for the empty corpus. -/
theorem refines_emptyDb (an : Analyzer) (stats : Bool) (registry : Registry)
    (fields : List String) : Refines an stats (emptyDb registry fields) ∅ where
  ids := by simp
  docs := by simp [emptyDb]
  docCount := by simp [emptyDb]
  totalTokens := by simp [emptyDb]
  shapes := by simp [emptyDb]
  tdf := by simp [emptyDb]

/-- An empty store has the rows of no documents. -/
theorem rowsOf_emptyDb (an : Analyzer) (registry : Registry) (fields : List String) (cf : Cf) :
    RowsOf an (emptyDb registry fields) ∅ cf := Derived.empty _

/-- The registry of an estate as it is created. -/
def newRegistry : Registry :=
  { estate := some { dim := none, namedDims := ∅ }, collections := ∅, schema := ∅ }

/-- An estate as it is created. -/
def newEstate : Estate := { db := emptyDb newRegistry [], pushed := [] }

/-- A record with nothing but an identifier. -/
def bareRecord (id : Id) : VectorRecord := VectorRecord.new id ⟨[]⟩ ""

/-- The text of the null value, the only value the samples print. -/
abbrev sampleJson : SerdeJson := ⟨fun _ => "null", id, id⟩

omit [SerdeJson] in
/-- The sample codec reads every number back as it was. -/
theorem keptByJson_sample (m : Metadata) : @KeptByJson sampleJson m :=
  @keptByJson_of_values sampleJson m fun _ _ _ => rfl

/-- A handle for worked examples, over texts of at most one lowercase word. -/
def sampleHandle : ConnXRecall :=
  { analyzer := ⟨fun text => if text = "" then [] else [text]⟩
    lexicalStats := true
    quotas := { maxDocs := none, maxPayloadBytes := none, maxBatch := none } }

end Rro.Model
