import Rro.Model.GraphqlGrammar

/-!
# GraphQL text and what is read from it

The parser inverts the rendering of a document up to its strings, which the lexer takes apart
into bytes and puts together as characters (`parse_document`): an operation is read back exactly
when its strings are ASCII ones and no name of it is a literal (`graphql_round_trip_iff`).
-/

set_option autoImplicit false

namespace Rro.Analysis.Gql

open Rro.Library Rro.Program Rro.Program.Gql Rro.Model.Gql

/-! ## What is read -/

/-- An argument value with its strings read byte by byte. -/
def rereadValue : Gql.Value → Gql.Value
  | .str s => .str (reread s)
  | v => v

mutual

/-- A field with its strings read byte by byte. -/
def rereadField : Gql.Field → Gql.Field
  | .mk name args selection => .mk name (args.map fun _ v => rereadValue v) (rereadFields selection)

/-- Some fields as they are read back. -/
def rereadFields : List Gql.Field → List Gql.Field
  | [] => []
  | f :: fs => rereadField f :: rereadFields fs

end

/-- The values a document is rendered with: strings, integers and booleans. -/
def IsWritten (v : Gql.Value) : Prop := ∀ x, v ≠ .float x

/-- A name the lexer does not take for a literal. -/
def IsOrdinary (n : String) : Prop := n ≠ "true" ∧ n ≠ "false"

instance (n : String) : Decidable (IsOrdinary n) := inferInstanceAs (Decidable (_ ∧ _))

/-- A string argument holds ASCII characters only. -/
def AsciiText (v : Gql.Value) : Prop := ∀ s, v = .str s → ∀ c ∈ s.toList, c.toNat < 128

/-- An ordinary name is a name. -/
theorem word_ordinary {n : String} (h : IsOrdinary n) : word n = .name n := by
  unfold word
  split
  · exact absurd rfl h.1
  · exact absurd rfl h.2
  · rfl

/-- What is lexed as a name is ordinary. -/
theorem isOrdinary_of_word {n m : String} (h : word n = .name m) : IsOrdinary m := by
  unfold word at h
  split at h
  · cases h
  · cases h
  · rename_i htrue hfalse
    cases h
    exact ⟨fun heq => htrue heq, fun heq => hfalse heq⟩

/-- A value is read back as it was exactly when its text is ASCII. -/
theorem rereadValue_eq_iff (v : Gql.Value) : rereadValue v = v ↔ AsciiText v := by
  cases v with
  | str s =>
    have hstr : rereadValue (.str s) = .str s ↔ reread s = s :=
      ⟨fun h => Gql.Value.str.inj h, fun h => congrArg Gql.Value.str h⟩
    rw [hstr, reread_eq_iff]
    constructor
    · rintro h t heq
      cases heq
      exact h
    · intro h
      exact h s rfl
  | int i => exact iff_of_true rfl (by rintro s ⟨⟩)
  | float f => exact iff_of_true rfl (by rintro s ⟨⟩)
  | bool b => exact iff_of_true rfl (by rintro s ⟨⟩)

/-! ## Documents -/

/-- The tokens of an argument, read back. -/
theorem argToks_reread (k : String) (v : Gql.Value) (hk : IsOrdinary k) :
    (argToks (k, v)).map rereadTok = argToks (k, rereadValue v) := by
  unfold argToks
  rw [List.map_cons, rereadTok, word_ordinary hk]
  cases v <;> rfl

/-- The tokens of the arguments, read back. -/
theorem argsToks_reread (args : Table String Gql.Value) (h : ∀ k v, args[k]? = some v → IsOrdinary k) :
    (argsToks args).map rereadTok = argsToks (args.map fun _ v => rereadValue v) := by
  have hlist : (args.map fun _ v => rereadValue v).toList =
      args.toList.map fun row => (row.1, rereadValue row.2) := Std.ExtTreeMap.toList_map
  have hrows : (args.toList.flatMap argToks).map rereadTok =
      (args.map fun _ v => rereadValue v).toList.flatMap argToks := by
    rw [hlist, List.map_flatMap, List.flatMap_map]
    apply List.flatMap_congr
    intro row hrow
    exact argToks_reread row.1 row.2 (h row.1 row.2 (Table.mem_toList.mp hrow))
  unfold argsToks
  by_cases hempty : args.toList = []
  · rw [if_pos hempty, if_pos (by rw [hlist, hempty]; rfl)]
    rfl
  · rw [if_neg hempty, if_neg (by rw [hlist, List.map_eq_nil_iff]; exact hempty), List.map_cons,
      List.map_append, hrows]
    rfl

mutual

/-- The tokens of a field are read as those of the field with its strings read. -/
theorem fieldToks_reread (f : Gql.Field) (h : EveryField IsOrdinary (fun _ => True) f) :
    (fieldToks f).map rereadTok = fieldToks (rereadField f) := by
  obtain ⟨n, args, selection⟩ := f
  obtain ⟨hn, hargs, hsel⟩ := h
  have hselection : (selectionToks selection).map rereadTok =
      selectionToks (rereadFields selection) := by
    have hread := fieldsToks_reread selection hsel
    cases selection with
    | nil => rfl
    | cons f fs =>
      show Tok.lBrace :: (fieldsToks (f :: fs) ++ [Tok.rBrace]).map rereadTok =
        Tok.lBrace :: (fieldsToks (rereadFields (f :: fs)) ++ [Tok.rBrace])
      rw [List.map_append, hread]
      rfl
  rw [rereadField, fieldToks_mk, fieldToks_mk, List.map_cons, List.map_append, hselection,
    argsToks_reread args fun k v hv => (hargs k v hv).1, rereadTok, word_ordinary hn]

/-- The tokens of some fields, read back. -/
theorem fieldsToks_reread (fs : List Gql.Field) (h : EveryFields IsOrdinary (fun _ => True) fs) :
    (fieldsToks fs).map rereadTok = fieldsToks (rereadFields fs) := by
  match fs with
  | [] => rfl
  | f :: fs =>
    rw [rereadFields, fieldsToks, fieldsToks, List.map_append, fieldToks_reread f h.1,
      fieldsToks_reread fs h.2]

end

mutual

/-- What is read is what was written when the strings are ASCII ones. -/
theorem rereadField_eq_iff (f : Gql.Field) :
    rereadField f = f ↔ EveryField (fun _ => True) AsciiText f := by
  obtain ⟨n, args, selection⟩ := f
  have hargs : (args.map fun _ v => rereadValue v) = args ↔
      ∀ (k : String) (v : Gql.Value), args[k]? = some v → True ∧ AsciiText v := by
    constructor
    · intro h k v hv
      have hread : (args.map fun _ v => rereadValue v)[k]? = args[k]? := by rw [h]
      rw [Std.ExtTreeMap.getElem?_map, hv, Option.map_some, Option.some.injEq] at hread
      exact ⟨trivial, (rereadValue_eq_iff v).mp hread⟩
    · intro h
      apply Table.ext
      intro k
      rw [Std.ExtTreeMap.getElem?_map]
      cases hv : args[k]? with
      | none => rfl
      | some v => rw [Option.map_some, (rereadValue_eq_iff v).mpr (h k v hv).2]
  rw [rereadField, Gql.Field.mk.injEq, hargs, rereadFields_eq_iff selection, EveryField]
  simp

/-- Fields are read back as they were exactly when their strings are ASCII. -/
theorem rereadFields_eq_iff (fs : List Gql.Field) :
    rereadFields fs = fs ↔ EveryFields (fun _ => True) AsciiText fs := by
  match fs with
  | [] => exact iff_of_true rfl trivial
  | f :: fs =>
    rw [rereadFields, List.cons.injEq, rereadField_eq_iff f, rereadFields_eq_iff fs]
    rfl

end

mutual

/-- Requirements on names and on values are requirements on both. -/
theorem everyField_and {name name' : String → Prop} {value value' : Gql.Value → Prop}
    (f : Gql.Field) : EveryField (fun n => name n ∧ name' n) (fun v => value v ∧ value' v) f ↔
      EveryField name value f ∧ EveryField name' value' f := by
  obtain ⟨n, args, selection⟩ := f
  have hsel : EveryFields (fun n => name n ∧ name' n) (fun v => value v ∧ value' v) selection ↔
      EveryFields name value selection ∧ EveryFields name' value' selection :=
    everyFields_and selection
  rw [EveryField, EveryField, EveryField, hsel]
  constructor
  · rintro ⟨⟨hn, hn'⟩, hargs, hs, hs'⟩
    exact ⟨⟨hn, fun k v hv => ⟨(hargs k v hv).1.1, (hargs k v hv).2.1⟩, hs⟩,
      hn', fun k v hv => ⟨(hargs k v hv).1.2, (hargs k v hv).2.2⟩, hs'⟩
  · rintro ⟨⟨hn, hargs, hs⟩, hn', hargs', hs'⟩
    exact ⟨⟨hn, hn'⟩, fun k v hv => ⟨⟨(hargs k v hv).1, (hargs' k v hv).1⟩,
      (hargs k v hv).2, (hargs' k v hv).2⟩, hs, hs'⟩

/-- Two conditions on all fields. -/
theorem everyFields_and {name name' : String → Prop} {value value' : Gql.Value → Prop}
    (fs : List Gql.Field) : EveryFields (fun n => name n ∧ name' n) (fun v => value v ∧ value' v) fs ↔
      EveryFields name value fs ∧ EveryFields name' value' fs := by
  match fs with
  | [] => simp [EveryFields]
  | f :: fs =>
    rw [EveryFields, EveryFields, EveryFields, everyField_and f, everyFields_and fs]
    tauto

end

mutual

/-- The tokens of a field are legible. -/
theorem legible_field (f : Gql.Field) (h : EveryField IsName IsWritten f) :
    ∀ t ∈ fieldToks f, Legible t := by
  obtain ⟨n, args, selection⟩ := f
  obtain ⟨hn, hargs, hsel⟩ := h
  have hselection := legible_fields selection hsel
  intro t ht
  rw [fieldToks_mk, List.mem_cons, List.mem_append] at ht
  rcases ht with rfl | ht | ht
  · exact hn
  · unfold argsToks at ht
    split at ht
    · exact absurd ht List.not_mem_nil
    · simp only [List.mem_cons, List.mem_append, List.mem_flatMap, List.not_mem_nil, or_false] at ht
      rcases ht with rfl | ⟨⟨k, v⟩, hrow, ht⟩ | rfl
      · trivial
      · obtain ⟨hk, hv⟩ := hargs k v (Table.mem_toList.mp hrow)
        simp only [argToks, List.mem_cons, List.not_mem_nil, or_false] at ht
        rcases ht with rfl | rfl | rfl
        · exact hk
        · trivial
        · cases v with
          | float x => exact absurd rfl (hv x)
          | _ => trivial
      · trivial
  · unfold selectionToks at ht
    split at ht
    · exact absurd ht List.not_mem_nil
    · simp only [List.mem_cons, List.mem_append, List.not_mem_nil, or_false] at ht
      rcases ht with rfl | ht | rfl
      · trivial
      · exact hselection t ht
      · trivial

/-- The tokens of a document without floats are read. -/
theorem legible_fields (fs : List Gql.Field) (h : EveryFields IsName IsWritten fs) :
    ∀ t ∈ fieldsToks fs, Legible t := by
  match fs with
  | [] => exact fun t ht => absurd ht List.not_mem_nil
  | f :: fs =>
    have hfirst := legible_field f h.1
    have hrest := legible_fields fs h.2
    intro t ht
    rw [fieldsToks, List.mem_append] at ht
    exact ht.elim (hfirst t) (hrest t)

end

section Parsing

variable [Ql.RustFormat] [FloatDebug]

omit [Ql.RustFormat] [FloatDebug] in
/-- The tokens of a document are legible. -/
theorem legible_document (op : Operation) {sel : List Gql.Field} (h : EveryFields IsName IsWritten sel) :
    ∀ t ∈ documentToks op sel, Legible t := by
  intro t ht
  simp only [documentToks, List.mem_cons, List.mem_append, List.not_mem_nil, or_false] at ht
  rcases ht with rfl | rfl | ht | rfl
  · cases op with
    | query => exact ⟨'q', ['u', 'e', 'r', 'y'], rfl, by decide, List.all_iff_forall_prop.mp (by decide)⟩
    | mutation => exact ⟨'m', ['u', 't', 'a', 't', 'i', 'o', 'n'], rfl, by decide, List.all_iff_forall_prop.mp (by decide)⟩
  · trivial
  · exact legible_fields sel h t ht
  · trivial

/-- What the parser is given. -/
theorem parse_eq (op : Operation) {sel : List Gql.Field} (h : EveryFields IsName IsWritten sel) :
    parse (renderDocument op sel) =
      document ((documentToks op sel).map rereadTok ++ [.eof]) := by
  rw [parse, renderDocument, lex_render (legible_document op h)]
  rfl

/-- **The parser inverts the rendering** up to the bytes of the strings. -/
theorem parse_document (op : Operation) {sel : List Gql.Field} (h : EveryFields IsName IsWritten sel)
    (hnames : EveryFields IsOrdinary (fun _ => True) sel) :
    parse (renderDocument op sel) = .ok (op, rereadFields sel) := by
  have htoks : (documentToks op sel).map rereadTok = documentToks op (rereadFields sel) := by
    have hkeyword : IsOrdinary (keyword op) := by cases op <;> exact ⟨by decide, by decide⟩
    rw [documentToks, List.map_cons, List.map_cons, List.map_append, fieldsToks_reread sel hnames,
      rereadTok, word_ordinary hkeyword]
    rfl
  rw [parse_eq op h, htoks, document_toks]

/-- No name that is read back is a literal. -/
theorem ordinary_of_parse {op : Operation} {sel : List Gql.Field}
    (h : EveryFields IsName IsWritten sel)
    (hparse : parse (renderDocument op sel) = .ok (op, sel)) :
    EveryFields IsOrdinary (fun _ => True) sel := by
  rw [parse_eq op h] at hparse
  let P : Tok → Prop := fun t => ∀ n, t = .name n → IsOrdinary n
  have htoks : ∀ t ∈ (documentToks op sel).map rereadTok ++ [.eof], P t := by
    intro t ht n hn
    rw [List.mem_append, List.mem_map, List.mem_singleton] at ht
    rcases ht with ⟨u, -, rfl⟩ | rfl
    · cases u with
      | name m => exact isOrdinary_of_word hn
      | _ => cases hn
    · cases hn
  have hnames := names_of_document (P := P) htoks hparse
  have hordinary : (fun n => P (.name n)) = IsOrdinary := by
    funext n
    exact propext ⟨fun hn => hn n rfl, fun hn m hm => Tok.name.inj hm ▸ hn⟩
  rwa [hordinary] at hnames

/-- **A document is read back exactly when its strings are ASCII ones** and none of its names
    is a literal. -/
theorem graphql_round_trip_iff (op : Operation) (sel : List Gql.Field)
    (h : EveryFields IsName IsWritten sel) :
    parse (renderDocument op sel) = .ok (op, sel) ↔ EveryFields IsOrdinary AsciiText sel := by
  have hand : EveryFields IsOrdinary AsciiText sel ↔
      EveryFields IsOrdinary (fun _ => True) sel ∧ EveryFields (fun _ => True) AsciiText sel := by
    rw [← everyFields_and]
    simp only [and_true, true_and]
  rw [hand]
  constructor
  · intro hparse
    have hnames := ordinary_of_parse h hparse
    rw [parse_document op h hnames, Except.ok.injEq, Prod.mk.injEq] at hparse
    exact ⟨hnames, (rereadFields_eq_iff sel).mp hparse.2⟩
  · rintro ⟨hnames, hascii⟩
    rw [parse_document op h hnames, (rereadFields_eq_iff sel).mpr hascii]

end Parsing

/-! ## A document that is read as another -/

/-- A request for the document of an id. -/
def documentById (id : String) : List Gql.Field :=
  [.mk "document" ((∅ : Table String Gql.Value).insert "id" (.str id)) []]

/-- The conditions on the request for a document. -/
theorem everyFields_documentById {name : String → Prop} {value : Gql.Value → Prop} {id : String}
    (hfield : name "document") (harg : name "id") (hvalue : value (.str id)) :
    EveryFields name value (documentById id) := by
  refine ⟨⟨hfield, ?_, trivial⟩, trivial⟩
  intro k v hv
  rw [Table.get_insert] at hv
  split at hv
  · rename_i hk
    cases hv
    exact ⟨hk ▸ harg, hvalue⟩
  · rw [Std.ExtTreeMap.getElem?_empty] at hv
    cases hv

/-- `document` is a name. -/
theorem isName_document : IsName "document" :=
  ⟨'d', ['o', 'c', 'u', 'm', 'e', 'n', 't'], rfl, by decide, List.all_iff_forall_prop.mp (by decide)⟩

/-- `id` is a name. -/
theorem isName_id : IsName "id" := ⟨'i', ['d'], rfl, by decide, List.all_iff_forall_prop.mp (by decide)⟩

/-- A request with an ASCII id is read back. -/
theorem graphql_round_trip_ascii :
    let _ : Ql.RustFormat := ⟨fun _ => "", id⟩
    let _ : FloatDebug := ⟨fun _ => ""⟩
    parse (renderDocument .query (documentById "a")) = .ok (.query, documentById "a") := by
  intro _ _
  have hread : EveryFields IsOrdinary AsciiText (documentById "a") := by
    refine everyFields_documentById (by decide) (by decide) ?_
    rintro s hs c hc
    cases hs
    obtain rfl : c = 'a' := List.mem_singleton.mp hc
    decide
  have hwritten : EveryFields IsName IsWritten (documentById "a") :=
    everyFields_documentById isName_document isName_id (by rintro x ⟨⟩)
  exact (graphql_round_trip_iff .query (documentById "a") hwritten).mpr hread

/-- The document of the id `é` is asked for by its text, and the document of another id is
    looked up: the two bytes of the character are read as two characters. -/
theorem accent_is_read_as_two_characters :
    let _ : Ql.RustFormat := ⟨fun _ => "", id⟩
    let _ : FloatDebug := ⟨fun _ => ""⟩
    EveryFields IsName IsWritten (documentById "é") ∧
      parse (renderDocument .query (documentById "é")) = .ok (.query, documentById "Ã©") ∧
      documentById "Ã©" ≠ documentById "é" := by
  intro _ _
  have hwritten : EveryFields IsName IsWritten (documentById "é") :=
    everyFields_documentById isName_document isName_id (by rintro x ⟨⟩)
  have hordinary : EveryFields IsOrdinary (fun _ => True) (documentById "é") :=
    everyFields_documentById (by decide) (by decide) trivial
  have hread : rereadFields (documentById "é") = documentById "Ã©" := by
    have hargs : ((∅ : Table String Gql.Value).insert "id" (.str "é")).map
        (fun _ v => rereadValue v) = (∅ : Table String Gql.Value).insert "id" (.str "Ã©") := by
      have hvalue : rereadValue (.str "é") = .str "Ã©" := by
        have hstr : reread "é" = "Ã©" := by decide
        rw [rereadValue, hstr]
      apply Table.ext
      intro k
      rw [Std.ExtTreeMap.getElem?_map, Table.get_insert, Table.get_insert]
      split
      · rw [Option.map_some, hvalue]
      · rw [Std.ExtTreeMap.getElem?_empty, Option.map_none]
    rw [documentById, rereadFields, rereadField, hargs]
    rfl
  refine ⟨hwritten, ?_, ?_⟩
  · rw [parse_document .query hwritten hordinary, hread]
  · intro heq
    have hargs := congrArg (fun sel => sel.map fun f => f.args["id"]?) heq
    simp only [documentById, List.map_cons, List.map_nil, Gql.Field.args, Table.get_insert, if_pos,
      List.cons.injEq, Option.some.injEq, Gql.Value.str.injEq, and_true] at hargs
    exact absurd hargs (by decide)

end Rro.Analysis.Gql
