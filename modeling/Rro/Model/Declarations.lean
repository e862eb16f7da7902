import Rro.Model.Registration

/-!
# What the declarations of an estate decide

The registry of an estate only grows: a call, whether it fails or not, keeps the
dimensions declared before it and may declare more (`Extends`). The one thing a
record's registration asks of the declarations is that its vectors have the
dimensions declared for their spaces (`registerOne_iff`).
-/

set_option autoImplicit false

namespace Rro.Model

open Rro.Library Rro.Program

/-- The declarations of the second registry include those of the first. -/
structure ExtendsInfo (info info' : EstateInfo) : Prop where
  dim : ∀ d, info.dim = some d → info'.dim = some d
  named : ∀ (space : String) d, info.namedDims[space]? = some d → info'.namedDims[space]? = some d

/-- A registry that has grown: the schema is the same, and no declaration is lost or changed. -/
structure Extends (reg reg' : Registry) : Prop where
  schema : reg'.schema = reg.schema
  absent : reg.estate = none → reg'.estate = none
  present : ∀ info, reg.estate = some info →
    ∃ info', reg'.estate = some info' ∧ ExtendsInfo info info'

/-- Unchanged dimensions. -/
theorem ExtendsInfo.refl (info : EstateInfo) : ExtendsInfo info info := ⟨fun _ h => h, fun _ _ h => h⟩

/-- One extension after another. -/
theorem ExtendsInfo.trans {a b c : EstateInfo} (hab : ExtendsInfo a b) (hbc : ExtendsInfo b c) :
    ExtendsInfo a c :=
  ⟨fun d h => hbc.dim d (hab.dim d h), fun space d h => hbc.named space d (hab.named space d h)⟩

/-- Unchanged declarations. -/
theorem Extends.refl (reg : Registry) : Extends reg reg :=
  ⟨rfl, id, fun info h => ⟨info, h, ExtendsInfo.refl info⟩⟩

/-- One extension after another, of all declarations. -/
theorem Extends.trans {a b c : Registry} (hab : Extends a b) (hbc : Extends b c) : Extends a c where
  schema := hbc.schema.trans hab.schema
  absent h := hbc.absent (hab.absent h)
  present := by
    intro info h
    obtain ⟨info', h', hinfo⟩ := hab.present info h
    obtain ⟨info'', h'', hinfo'⟩ := hbc.present info' h'
    exact ⟨info'', h'', hinfo.trans hinfo'⟩

/-- The declared dimensions are those of a record's vectors, where declared. -/
structure Fits (info : EstateInfo) (r : VectorRecord) : Prop where
  dim : ∀ d, info.dim = some d → d = r.embedding.dim
  named : ∀ (space : String) v d, r.named[space]? = some v → info.namedDims[space]? = some d →
    d = v.dim

/-! ## Named spaces -/

/-- A named space is registered exactly when it has no other dimension, and it is added if it is
    new. -/
theorem registerSpace_ok {info info' : EstateInfo} {space : String × Embedding} :
    registerSpace info space = .ok info' ↔
      (∀ d, info.namedDims[space.1]? = some d → d = space.2.dim) ∧
        info' = if info.namedDims[space.1]? = none then
          { info with namedDims := info.namedDims.insert space.1 space.2.dim } else info := by
  unfold registerSpace
  cases hd : info.namedDims[space.1]? with
  | none => simp [eq_comm]
  | some expected =>
    by_cases hne : expected = space.2.dim
    · simp [hne, eq_comm]
    · simp [hne]

/-- The loop over the named vectors of a record, whose spaces are distinct. -/
theorem registerSpaces_iff (info : EstateInfo) {spaces : List (String × Embedding)}
    (hnodup : (spaces.map Prod.fst).Nodup) :
    (∃ info', spaces.foldlM registerSpace info = .ok info') ↔
      ∀ space ∈ spaces, ∀ d, info.namedDims[space.1]? = some d → d = space.2.dim := by
  induction spaces generalizing info with
  | nil => simp [pure, Except.pure]
  | cons space spaces ih =>
    rw [List.map_cons, List.nodup_cons] at hnodup
    rw [List.foldlM_cons, List.forall_mem_cons]
    have hrest : ∀ info', registerSpace info space = .ok info' →
        ((∃ info'', spaces.foldlM registerSpace info' = .ok info'') ↔
          ∀ s ∈ spaces, ∀ d, info.namedDims[s.1]? = some d → d = s.2.dim) := by
      intro info' hone
      obtain ⟨-, rfl⟩ := registerSpace_ok.mp hone
      rw [ih _ hnodup.2]
      refine forall₂_congr fun s hs => ?_
      have hne : s.1 ≠ space.1 := fun heq => hnodup.1 (heq ▸ List.mem_map_of_mem hs)
      split
      · rw [Table.get_insert, if_neg hne]
      · rfl
    cases hone : registerSpace info space with
    | error e =>
      have hbad : ¬ ∀ d, info.namedDims[space.1]? = some d → d = space.2.dim := by
        intro hall
        rw [registerSpace_ok.mpr ⟨hall, rfl⟩] at hone
        simp at hone
      simp [bind, Except.bind, hbad]
    | ok info' =>
      have hgood := (registerSpace_ok.mp hone).1
      simp only [bind, Except.bind]
      rw [hrest info' hone]
      exact ⟨fun h => ⟨hgood, h⟩, fun h => h.2⟩

/-- Registering the named spaces of a record extends the dimensions. -/
theorem registerSpaces_extends {spaces : List (String × Embedding)} {info info' : EstateInfo}
    (h : spaces.foldlM registerSpace info = .ok info') : ExtendsInfo info info' := by
  refine foldlM_keeps (ExtendsInfo info) ?_ (ExtendsInfo.refl info) h
  intro info₀ space _ info₁ hbefore hone
  refine hbefore.trans ?_
  obtain ⟨-, rfl⟩ := registerSpace_ok.mp hone
  split
  · rename_i hnone
    refine ⟨fun _ hd => hd, fun name d hd => ?_⟩
    rw [Table.get_insert]
    have hne : name ≠ space.1 := by
      rintro rfl
      simp [hnone] at hd
    rw [if_neg hne]
    exact hd
  · exact ExtendsInfo.refl info₀

/-- Registering the named vectors of a record extends the dimensions. -/
theorem registerNamed_extends {info info' : EstateInfo} {r : VectorRecord}
    (h : registerNamed info r = .ok info') : ExtendsInfo info info' := by
  unfold registerNamed at h
  split at h
  · simp at h
  · rename_i info₁ hs
    have hext := registerSpaces_extends hs
    split at h
    · obtain rfl := Except.ok.inj h
      exact hext
    · split at h
      · simp at h
      · obtain rfl := Except.ok.inj h
        exact hext

/-- Registering those of many records extends the dimensions. -/
theorem registerNamed_all_extends {records : List VectorRecord} {info info' : EstateInfo}
    (h : records.foldlM registerNamed info = .ok info') : ExtendsInfo info info' := by
  refine foldlM_keeps (ExtendsInfo info) ?_ (ExtendsInfo.refl info) h
  intro info₀ r _ info₁ hbefore hone
  exact hbefore.trans (registerNamed_extends hone)

/-! ## Registration -/

/-- The dimension guard extends the dimensions. -/
theorem dimGuard_extends {info info' : EstateInfo} {dim : ℕ} (h : dimGuard info dim = .ok info') :
    ExtendsInfo info info' := by
  unfold dimGuard at h
  split at h
  · rename_i hnone
    obtain rfl := Except.ok.inj h
    exact ⟨by simp [hnone], fun _ _ hd => hd⟩
  · split at h
    · simp at h
    · obtain rfl := Except.ok.inj h
      exact ExtendsInfo.refl info

section Registering

variable [SerdeJson]

/-- **Registration only adds declarations**, at whatever check it fails. -/
theorem register_extends (reg : Registry) (records : List VectorRecord) :
    Extends reg (register reg records).1 := by
  unfold register
  cases hinfo : reg.estate with
  | none => exact Extends.refl reg
  | some info =>
    have hgrown : ∀ (info' : EstateInfo) (collections : Table String Unit), ExtendsInfo info info' →
        Extends reg ⟨some info', collections, reg.schema⟩ := by
      intro info' collections hext
      refine ⟨rfl, by simp [hinfo], fun info₀ h₀ => ⟨info', rfl, ?_⟩⟩
      obtain rfl : info = info₀ := by simpa [hinfo] using h₀
      exact hext
    cases hfirst : records.head? with
    | none => exact Extends.refl reg
    | some first =>
      cases hguard : dimGuard info first.embedding.dim with
      | error e => simpa [hguard] using Extends.refl reg
      | ok info₁ =>
        have hext := dimGuard_extends hguard
        cases hdims : checkDims first.embedding.dim records with
        | error e => simpa [hguard, hdims] using hgrown info₁ reg.collections hext
        | ok u =>
          cases hschema : checkSchema reg.schema records with
          | error e => simpa [hguard, hdims, hschema] using hgrown info₁ reg.collections hext
          | ok u' =>
            cases hnamed : records.foldlM registerNamed info₁ with
            | error e => simpa [hguard, hdims, hschema, hnamed] using hgrown info₁ _ hext
            | ok info₂ =>
              simpa [hguard, hdims, hschema, hnamed] using
                hgrown info₂ _ (hext.trans (registerNamed_all_extends hnamed))

/-- The token vectors of a record agree among themselves. -/
def tokensAgree (r : VectorRecord) : Bool :=
  match r.multi.head? with
  | none => true
  | some first => !r.multi.any fun t => t.dim ≠ first.dim

omit [SerdeJson] in
/-- A record's named vectors are registered exactly when they have the declared dimensions and its
    tokens agree. -/
theorem registerNamed_iff {info : EstateInfo} {r : VectorRecord} :
    (∃ info', registerNamed info r = .ok info') ↔
      (∀ (space : String) v d, r.named[space]? = some v → info.namedDims[space]? = some d →
        d = v.dim) ∧ tokensAgree r = true := by
  have hspaces := registerSpaces_iff info r.named.keys_nodup
  have hlist : (∀ space ∈ r.named.toList, ∀ d, info.namedDims[space.1]? = some d →
      d = space.2.dim) ↔ ∀ (space : String) v d, r.named[space]? = some v →
        info.namedDims[space]? = some d → d = v.dim := by
    constructor
    · intro hall space v d hv hd
      exact hall (space, v) (Table.mem_toList.mpr hv) d hd
    · intro hall space hmem d hd
      exact hall space.1 space.2 d (Table.mem_toList.mp hmem) hd
  rw [← hlist, ← hspaces]
  unfold registerNamed tokensAgree
  cases hs : r.named.toList.foldlM registerSpace info with
  | error e => simp
  | ok info₁ =>
    cases hm : r.multi.head? with
    | none => simp
    | some first =>
      by_cases hany : (r.multi.any fun t => t.dim ≠ first.dim) = true
      · simp only [hany, if_true]
        simp
      · simp only [hany]
        simp

/-- **What registering one record asks for.** -/
theorem registerOne_iff {reg : Registry} {r : VectorRecord} :
    (register reg [r]).2 = .ok () ↔
      (∃ info, reg.estate = some info ∧ Fits info r) ∧
        checkSchema reg.schema [r] = .ok () ∧ tokensAgree r = true := by
  constructor
  · intro hok
    obtain ⟨info, first, info₁, info₂, hinfo, hfirst, hguard, -, hschema, hnamed, -⟩ :=
      register_ok (Prod.ext rfl hok : register reg [r] = ((register reg [r]).1, .ok ()))
    obtain rfl : r = first := by simpa using hfirst
    have hone : registerNamed info₁ r = .ok info₂ := by
      cases hr : registerNamed info₁ r with
      | error e => simp [hr, bind, Except.bind] at hnamed
      | ok info' => simpa [hr, bind, Except.bind, pure, Except.pure] using hnamed
    have hext := dimGuard_extends hguard
    obtain ⟨hspaces, htokens⟩ := registerNamed_iff.mp ⟨info₂, hone⟩
    refine ⟨⟨info, hinfo, ?_, ?_⟩, hschema, htokens⟩
    · intro d hd
      have := (hext.dim d hd).symm.trans (dimGuard_ok hguard)
      simpa using this
    · intro space v d hv hd
      exact hspaces space v d hv (hext.named space d hd)
  · rintro ⟨⟨info, hinfo, hfits⟩, hschema, htokens⟩
    have hguard : ∃ info₁, dimGuard info r.embedding.dim = .ok info₁ ∧
        info₁.namedDims = info.namedDims := by
      unfold dimGuard
      cases hd : info.dim with
      | none => exact ⟨_, rfl, rfl⟩
      | some expected =>
        have heq := hfits.dim expected hd
        exact ⟨info, by simp [heq], rfl⟩
    obtain ⟨info₁, hguard, hsame⟩ := hguard
    have hnamed : ∃ info₂, registerNamed info₁ r = .ok info₂ := by
      refine registerNamed_iff.mpr ⟨?_, htokens⟩
      rw [hsame]
      exact hfits.named
    obtain ⟨info₂, hnamed⟩ := hnamed
    have hall : [r].foldlM registerNamed info₁ = .ok info₂ := by
      simp [hnamed, bind, Except.bind, pure, Except.pure]
    rw [register_of hinfo rfl hguard (by simp) hschema hall]

/-! ## Schemas -/

omit [SerdeJson] in
/-- The present declared fields of a collection have their declared types. -/
def Conforms (schema : Table String (Table String String)) (collection : Option String)
    (metadata : Metadata) : Prop :=
  ∀ coll fields, collection = some coll → schema[coll]? = some fields →
    ∀ (field : String) ty v, fields[field]? = some ty → metadata[field]? = some v →
      valueMatchesType v ty = true

/-- A field passes exactly when its value, if there is one, has the declared type. -/
theorem checkField_ok {r : VectorRecord} {coll : String} {decl : String × String} :
    checkField r coll decl = .ok () ↔
      ∀ v, r.metadata[decl.1]? = some v → valueMatchesType v decl.2 = true := by
  unfold checkField
  cases hv : r.metadata[decl.1]? with
  | none => simp
  | some v => by_cases hm : valueMatchesType v decl.2 = true <;> simp [hm]

/-- **The schema check** is exact. -/
theorem checkSchema_iff {schema : Table String (Table String String)} {records : List VectorRecord} :
    checkSchema schema records = .ok () ↔ ∀ r ∈ records, Conforms schema r.collection r.metadata := by
  rw [checkSchema, forM_ok]
  refine forall₂_congr fun r _ => ?_
  unfold Conforms
  cases hc : r.collection with
  | none => simp
  | some coll =>
    cases hs : schema[coll]? with
    | none =>
      refine ⟨fun _ coll' fields heq hfields => ?_, fun _ => by simp [hs]⟩
      obtain rfl := Option.some.inj heq
      simp [hs] at hfields
    | some fields =>
      simp only [hs, forM_ok, checkField_ok]
      constructor
      · intro hall coll' fields' heq hfields field ty v hty hv
        obtain rfl := Option.some.inj heq
        obtain rfl := Option.some.inj (hs.symm.trans hfields)
        exact hall (field, ty) (Table.mem_toList.mpr hty) v hv
      · intro hall decl hdecl v hv
        exact hall coll fields rfl hs decl.1 decl.2 v (Table.mem_toList.mp hdecl) hv

end Registering

end Rro.Model
