import Rro.Library.Tables
import Rro.Model.GraphqlText

/-!
# GraphQL documents as tokens

`documentToks` lists the tokens of an operation, and the parser reads them back as the same
operation (`document_toks`), within a m of twice their number. Every name of a parsed
document is the name of one of its tokens (`names_of_document`).
-/

set_option autoImplicit false

namespace Rro.Model.Gql

open Rro.Library Rro.Program Rro.Program.Gql

/-! ## Tokens -/

/-- The token of an argument value. -/
def valueTok : Gql.Value → Tok
  | .str s => .str s
  | .int i => .int i
  | .float f => .float f
  | .bool b => .bool b

/-- The tokens of one argument. -/
def argToks (row : String × Gql.Value) : List Tok := [.name row.1, .colon, valueTok row.2]

/-- The arguments in parentheses, if there are any. -/
def argsToks (args : Table String Gql.Value) : List Tok :=
  if args.toList = [] then [] else .lParen :: (args.toList.flatMap argToks ++ [.rParen])

mutual

/-- The tokens of a field: its name, its arguments and its selection in braces. -/
def fieldToks : Field → List Tok
  | .mk name args selection =>
    .name name :: (argsToks args ++
      if selection.isEmpty then [] else .lBrace :: (fieldsToks selection ++ [.rBrace]))

/-- The tokens of some fields. -/
def fieldsToks : List Field → List Tok
  | [] => []
  | f :: fs => fieldToks f ++ fieldsToks fs

end

/-- The selection in braces, if there is any. -/
def selectionToks (fs : List Field) : List Tok :=
  if fs.isEmpty then [] else .lBrace :: (fieldsToks fs ++ [.rBrace])

/-- The tokens of a field: its name, its arguments and its selection. -/
theorem fieldToks_mk (n : String) (args : Table String Gql.Value) (selection : List Field) :
    fieldToks (.mk n args selection) = .name n :: (argsToks args ++ selectionToks selection) := rfl

/-- The keyword of an operation. -/
def keyword : Operation → String
  | .query => "query"
  | .mutation => "mutation"

/-- The tokens of a document. -/
def documentToks (op : Operation) (sel : List Field) : List Tok :=
  .name (keyword op) :: .lBrace :: (fieldsToks sel ++ [.rBrace])

/-- **The text of an operation.** -/
def renderDocument [FloatDebug] (op : Operation) (sel : List Field) : String :=
  String.ofList (render (documentToks op sel))

mutual

/-- All names and all argument values of a field and below it. -/
def EveryField (name : String → Prop) (value : Gql.Value → Prop) : Field → Prop
  | .mk n args selection =>
    name n ∧ (∀ k v, args[k]? = some v → name k ∧ value v) ∧ EveryFields name value selection

/-- The names and the values of some fields, at any depth. -/
def EveryFields (name : String → Prop) (value : Gql.Value → Prop) : List Field → Prop
  | [] => True
  | f :: fs => EveryField name value f ∧ EveryFields name value fs

end

/-! ## Reading tokens -/

section Reading

variable [Ql.RustFormat] [FloatDebug]

/-- The arguments are read up to the closing parenthesis. -/
theorem argumentsLoop_toks (rows : List (String × Gql.Value)) {m : ℕ} (hbound : rows.length < m)
    (args : Table String Gql.Value) (rest : List Tok) :
    argumentsLoop m (rows.flatMap argToks ++ .rParen :: rest) args =
      .ok (rows.foldl (fun args row => args.insert row.1 row.2) args, rest) := by
  induction rows generalizing m args with
  | nil =>
    obtain ⟨b, rfl⟩ := Nat.exists_eq_succ_of_ne_zero (Nat.ne_of_gt (Nat.lt_of_le_of_lt (Nat.zero_le _) hbound))
    rfl
  | cons row rows ih =>
    obtain ⟨b, rfl⟩ := Nat.exists_eq_succ_of_ne_zero (Nat.ne_of_gt (Nat.lt_of_le_of_lt (Nat.zero_le _) hbound))
    obtain ⟨key, v⟩ := row
    have hrest := ih (m := b) (by rw [List.length_cons] at hbound; omega) (args.insert key v)
    rw [List.foldl_cons, ← hrest]
    cases v <;> rfl

/-- The arguments are read back, and an absent list is not missed. -/
theorem arguments_toks (args : Table String Gql.Value) {m : ℕ}
    (hbound : (argsToks args).length < m) {rest : List Tok} (hrest : peek rest ≠ .lParen) :
    (if peek (argsToks args ++ rest) = .lParen then
      argumentsLoop m (argsToks args ++ rest).tail ∅ else pure (∅, argsToks args ++ rest)) =
      .ok (args, rest) := by
  have hfold := args.foldl_insert_toList
  unfold argsToks at hbound ⊢
  by_cases hempty : args.toList = []
  · rw [hempty] at hfold
    rw [if_pos hempty, List.nil_append, if_neg hrest, ← hfold]
    rfl
  · have hlen : args.toList.length ≤ (args.toList.flatMap argToks).length := by
      rw [List.length_flatMap]
      simp [argToks]
      omega
    rw [if_neg hempty, List.length_cons, List.length_append] at hbound
    have hread := argumentsLoop_toks args.toList (m := m) (by omega) ∅ rest
    rw [hfold] at hread
    rw [if_neg hempty, ← hread]
    simp [peek]

omit [Ql.RustFormat] [FloatDebug] in
/-- A selection does not start with a parenthesis. -/
theorem peek_selection (fs : List Field) {rest : List Tok} (hrest : peek rest ≠ .lParen) :
    peek (selectionToks fs ++ rest) ≠ .lParen := by
  cases fs with
  | nil => exact hrest
  | cons f fs => simp [selectionToks, peek]

/-- A selection is read when its fields are. -/
theorem selection_toks (fs : List Field) {m : ℕ} {rest : List Tok} (hrest : peek rest ≠ .lBrace)
    (hread : fs ≠ [] → fields m (fieldsToks fs ++ .rBrace :: rest) = .ok (fs, rest)) :
    (if peek (selectionToks fs ++ rest) = .lBrace then
      fields m (selectionToks fs ++ rest).tail else pure ([], selectionToks fs ++ rest)) =
      .ok (fs, rest) := by
  cases fs with
  | nil =>
    have hempty : selectionToks [] ++ rest = rest := rfl
    rw [hempty, if_neg hrest]
    rfl
  | cons f fs =>
    rw [← hread (List.cons_ne_nil f fs)]
    simp [selectionToks, peek]

omit [Ql.RustFormat] [FloatDebug] in
/-- The first token of fields in braces is a name or the closing brace. -/
theorem peek_fields (fs : List Field) (rest : List Tok) :
    peek (fieldsToks fs ++ .rBrace :: rest) = .rBrace ∨
      ∃ n, peek (fieldsToks fs ++ .rBrace :: rest) = .name n := by
  cases fs with
  | nil => exact .inl rfl
  | cons f fs =>
    obtain ⟨n, args, selection⟩ := f
    exact .inr ⟨n, rfl⟩

/-- A field, its parts read one after another. -/
theorem field_succ (b : ℕ) (n : String) (toks : List Tok) : field (b + 1) (.name n :: toks) =
    (if peek toks = .lParen then argumentsLoop b toks.tail ∅ else pure (∅, toks)) >>= fun r =>
      (if peek r.2 = .lBrace then fields b r.2.tail else pure ([], r.2)) >>= fun s =>
        pure (.mk n r.1 s.1, s.2) := by
  have hpeek : peek (.name n :: toks) = .name n := rfl
  have hsel : ∀ (args : Table String Gql.Value) (toks : List Tok), (if peek toks = .lBrace then do
        let s ← fields b toks.tail
        pure (Gql.Field.mk n args s.1, s.2)
      else do
        let s ← (pure ([], toks) : Except String (List Gql.Field × List Tok))
        pure (Gql.Field.mk n args s.1, s.2)) =
      ((if peek toks = .lBrace then fields b toks.tail else pure ([], toks)) >>= fun s =>
        pure (Gql.Field.mk n args s.1, s.2)) := by
    intro args toks
    split <;> rfl
  rw [field, hpeek]
  dsimp only [List.tail_cons]
  simp only [hsel]
  split <;> rfl

mutual

/-- A field is read back before a token that is no part of it. -/
theorem field_toks (f : Field) {m : ℕ} (hbound : 2 * (fieldToks f).length ≤ m)
    {rest : List Tok} (hparen : peek rest ≠ .lParen) (hbrace : peek rest ≠ .lBrace) :
    field m (fieldToks f ++ rest) = .ok (f, rest) := by
  obtain ⟨n, args, selection⟩ := f
  rw [fieldToks_mk, List.length_cons, List.length_append] at hbound
  obtain ⟨b, rfl⟩ := Nat.exists_eq_succ_of_ne_zero (n := m) (by omega)
  have hargs := arguments_toks args (m := b) (by omega) (peek_selection selection hparen)
  have hsel := selection_toks selection (m := b) hbrace fun hne => by
    have hlen : (selectionToks selection).length = (fieldsToks selection).length + 2 := by
      rw [selectionToks, if_neg (by rwa [List.isEmpty_iff])]
      simp
    exact fields_toks selection (by omega) rest
  rw [fieldToks_mk, List.cons_append, List.append_assoc, field_succ, hargs]
  simp only [bind, Except.bind]
  rw [hsel]
  rfl

/-- **Fields are read back** up to their closing brace. -/
theorem fields_toks (fs : List Field) {m : ℕ} (hbound : 2 * (fieldsToks fs).length < m)
    (rest : List Tok) : fields m (fieldsToks fs ++ .rBrace :: rest) = .ok (fs, rest) := by
  obtain ⟨b, rfl⟩ := Nat.exists_eq_succ_of_ne_zero (Nat.ne_of_gt (Nat.zero_lt_of_lt hbound))
  match fs with
  | [] => rfl
  | f :: fs =>
    have hpos : 1 ≤ (fieldToks f).length := by
      obtain ⟨n, args, selection⟩ := f
      rw [fieldToks, List.length_cons]
      omega
    rw [fieldsToks, List.length_append] at hbound
    have hnext := peek_fields fs rest
    have hfirst : field b (fieldToks f ++ (fieldsToks fs ++ .rBrace :: rest)) =
        .ok (f, fieldsToks fs ++ .rBrace :: rest) := field_toks f (by omega)
      (by rcases hnext with h | ⟨n, h⟩ <;> simp [h]) (by rcases hnext with h | ⟨n, h⟩ <;> simp [h])
    have hrest := fields_toks fs (m := b) (by omega) rest
    have hpeek : peek (fieldToks f ++ (fieldsToks fs ++ .rBrace :: rest)) = .name f.name := by
      obtain ⟨n, args, selection⟩ := f
      rfl
    rw [fieldsToks, List.append_assoc, fields, hpeek, if_neg (by simp), if_neg (by simp), hfirst]
    simp only [bind, Except.bind]
    rw [hrest]
    rfl

end

/-- **A document is read back.** -/
theorem document_toks (op : Operation) (sel : List Field) :
    document (documentToks op sel ++ [.eof]) = .ok (op, sel) := by
  have hbody : fieldsToks sel ++ [.rBrace] ++ [Tok.eof] = fieldsToks sel ++ .rBrace :: [Tok.eof] := by
    rw [List.append_assoc]
    rfl
  have hread := fields_toks sel (m := 4 * (fieldsToks sel ++ .rBrace :: [Tok.eof]).length)
    (by rw [List.length_append]; simp; omega) [.eof]
  have hexpect : expect .lBrace (.lBrace :: (fieldsToks sel ++ .rBrace :: [.eof])) =
      .ok (fieldsToks sel ++ .rBrace :: [.eof]) := rfl
  rw [documentToks, List.cons_append, List.cons_append, hbody]
  cases op with
  | query =>
    show (expect .lBrace (.lBrace :: (fieldsToks sel ++ .rBrace :: [.eof])) >>= fun body =>
      fields (4 * body.length) body >>= _) = _
    rw [hexpect]
    simp only [bind, Except.bind]
    rw [hread]
    rfl
  | mutation =>
    show (expect .lBrace (.lBrace :: (fieldsToks sel ++ .rBrace :: [.eof])) >>= fun body =>
      fields (4 * body.length) body >>= _) = _
    rw [hexpect]
    simp only [bind, Except.bind]
    rw [hread]
    rfl

/-! ## The names that are read -/

omit [Ql.RustFormat] [FloatDebug] in
/-- A name that comes next is among the tokens. -/
theorem mem_of_peek {toks : List Tok} {n : String} (h : peek toks = .name n) : .name n ∈ toks := by
  cases toks with
  | nil => cases h
  | cons t toks =>
    have ht : t = .name n := h
    rw [ht]
    exact List.mem_cons_self

omit [Ql.RustFormat] [FloatDebug] in
/-- A computation that succeeds in two parts. -/
theorem bind_eq_ok {α β : Type} {x : Except String α} {f : α → Except String β} {b : β}
    (h : (x >>= f) = .ok b) : ∃ a, x = .ok a ∧ f a = .ok b := by
  cases x with
  | error e => cases h
  | ok a => exact ⟨a, rfl, h⟩

/-- An expected token is taken away. -/
theorem expect_eq_ok {t : Tok} {toks rest : List Tok} (h : expect t toks = .ok rest) :
    rest = toks.tail := by
  unfold expect at h
  split at h
  · cases h
    rfl
  · cases h

/-- Every key the loop adds is a name token. -/
theorem argumentsLoop_names {P : Tok → Prop} {m : ℕ} {toks rest : List Tok}
    {args args' : Table String Gql.Value} (htoks : ∀ t ∈ toks, P t)
    (hargs : ∀ k v, args[k]? = some v → P (.name k))
    (h : argumentsLoop m toks args = .ok (args', rest)) :
    (∀ k v, args'[k]? = some v → P (.name k)) ∧ ∀ t ∈ rest, P t := by
  induction m generalizing toks args with
  | zero => cases h
  | succ m ih =>
    have htail : ∀ {ts : List Tok}, (∀ t ∈ ts, P t) → ∀ t ∈ ts.tail, P t :=
      fun hts t ht => hts t (List.mem_of_mem_tail ht)
    rw [argumentsLoop] at h
    split at h
    · cases h
      exact ⟨hargs, htail htoks⟩
    · split at h
      · rename_i key hkey
        obtain ⟨toks', hcolon, h⟩ := bind_eq_ok h
        have hnext : ∃ v, argumentsLoop m toks'.tail (args.insert key v) = .ok (args', rest) := by
          dsimp only at h
          split at h
          · exact ⟨_, h⟩
          · exact ⟨_, h⟩
          · exact ⟨_, h⟩
          · exact ⟨_, h⟩
          · cases h
        obtain ⟨v, h⟩ := hnext
        rw [expect_eq_ok hcolon] at h
        refine ih (htail (htail (htail htoks))) ?_ h
        intro k w hw
        rw [Table.get_insert] at hw
        split at hw
        · rename_i hk
          rw [hk]
          exact htoks _ (mem_of_peek hkey)
        · exact hargs k w hw
      · cases h

/-- **Every name of what is read** is the name of a token. -/
theorem field_names {P : Tok → Prop} (m : ℕ) :
    (∀ {toks rest : List Tok} {f : Gql.Field}, (∀ t ∈ toks, P t) → field m toks = .ok (f, rest) →
      EveryField (fun n => P (.name n)) (fun _ => True) f ∧ ∀ t ∈ rest, P t) ∧
    ∀ {toks rest : List Tok} {fs : List Gql.Field}, (∀ t ∈ toks, P t) →
      fields m toks = .ok (fs, rest) →
      EveryFields (fun n => P (.name n)) (fun _ => True) fs ∧ ∀ t ∈ rest, P t := by
  have htail : ∀ {ts : List Tok}, (∀ t ∈ ts, P t) → ∀ t ∈ ts.tail, P t :=
    fun hts t ht => hts t (List.mem_of_mem_tail ht)
  induction m with
  | zero =>
    constructor
    · intro toks rest f _ h
      rw [field] at h
      cases h
    · intro toks rest fs _ h
      rw [fields] at h
      cases h
  | succ m ih =>
    constructor
    · intro toks rest f htoks h
      cases toks with
      | nil => 
        rw [field] at h
        cases h
      | cons t toks =>
        cases t with
        | name n =>
          rw [field_succ] at h
          obtain ⟨r, hargs, h⟩ := bind_eq_ok h
          obtain ⟨s, hsel, h⟩ := bind_eq_ok h
          cases h
          have hr : (∀ k v, r.1[k]? = some v → P (.name k)) ∧ ∀ t ∈ r.2, P t := by
            split at hargs
            · exact argumentsLoop_names (htail (htail htoks)) (by simp) hargs
            · cases hargs
              exact ⟨by simp, htail htoks⟩
          have hs : EveryFields (fun n => P (.name n)) (fun _ => True) s.1 ∧ ∀ t ∈ s.2, P t := by
            split at hsel
            · exact ih.2 (htail hr.2) hsel
            · cases hsel
              exact ⟨trivial, hr.2⟩
          refine ⟨⟨htoks _ List.mem_cons_self, ?_, hs.1⟩, hs.2⟩
          exact fun k v hv => ⟨hr.1 k v hv, trivial⟩
        | _ =>
          rw [field] at h
          cases h
    · intro toks rest fs htoks h
      rw [fields] at h
      split at h
      · cases h
        exact ⟨trivial, htail htoks⟩
      · split at h
        · cases h
        · obtain ⟨r, hfirst, h⟩ := bind_eq_ok h
          obtain ⟨s, hrest, h⟩ := bind_eq_ok h
          cases h
          have hr := ih.1 htoks hfirst
          have hs := ih.2 hr.2 hrest
          exact ⟨⟨hr.1, hs.1⟩, hs.2⟩

/-- **Every name of a document** is the name of a token. -/
theorem names_of_document {P : Tok → Prop} {toks : List Tok} {op : Operation}
    {sel : List Gql.Field} (htoks : ∀ t ∈ toks, P t) (h : document toks = .ok (op, sel)) :
    EveryFields (fun n => P (.name n)) (fun _ => True) sel := by
  unfold document at h
  obtain ⟨body, hbody, h⟩ := bind_eq_ok h
  obtain ⟨r, hfields, h⟩ := bind_eq_ok h
  have hbody' : ∀ t ∈ body, P t := by
    rw [expect_eq_ok hbody]
    intro t ht
    have hmem := List.mem_of_mem_tail ht
    split at hmem
    · exact htoks t (List.mem_of_mem_tail hmem)
    · exact htoks t (List.mem_of_mem_tail hmem)
    · exact htoks t hmem
  have hnames := ((field_names _).2 hbody' hfields).1
  have hsel : r.1 = sel := by
    simp only at h
    split at h
    · cases h
    · cases h
      rfl
  rwa [← hsel]

end Reading

end Rro.Model.Gql
