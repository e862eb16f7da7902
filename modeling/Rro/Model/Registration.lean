import Rro.Library.Loops
import Rro.Program.Store

/-!
# Registration

The checks and registrations of a batch of records are those of its records one
after another: a batch that registers also registers record by record, with the
same final registry (`register_each`). The record-level keys have two more
guards, which read nothing but the record and the indexed fields (`KeysFit`).
-/

set_option autoImplicit false

namespace Rro.Model

open Rro.Library Rro.Program

variable [SerdeJson]

omit [SerdeJson] in
/-- A loop of checks passes exactly when every check does. -/
theorem forM_ok {α ε : Type} (f : α → Except ε Unit) (xs : List α) :
    xs.forM f = .ok () ↔ ∀ x ∈ xs, f x = .ok () := by
  rw [List.forM_eq_forM]
  induction xs with
  | nil => simp [pure, Except.pure]
  | cons x xs ih =>
    cases hx : f x with
    | error e => simp [List.forM_cons, hx, bind, Except.bind]
    | ok u => simp [List.forM_cons, hx, bind, Except.bind, ih]

/-- The guards on the keys of one record. -/
def KeysFit (fields : List String) (r : VectorRecord) : Prop :=
  keyTooLong (utf8 r.id) = false ∧ ∃ b, pidxPuts fields r = .ok b

/-- What a successful registration went through. -/
theorem register_ok {reg reg' : Registry} {records : List VectorRecord}
    (h : register reg records = (reg', .ok ())) :
    ∃ info first info₁ info₂, reg.estate = some info ∧ records.head? = some first ∧
      dimGuard info first.embedding.dim = .ok info₁ ∧
      (∀ r ∈ records, r.embedding.dim = first.embedding.dim) ∧
      checkSchema reg.schema records = .ok () ∧
      records.foldlM registerNamed info₁ = .ok info₂ ∧
      reg' = { estate := some info₂
               collections := registerCollections reg.collections records
               schema := reg.schema } := by
  unfold register at h
  cases hinfo : reg.estate with
  | none => simp [hinfo] at h
  | some info =>
    cases hfirst : records.head? with
    | none => simp [hinfo, hfirst] at h
    | some first =>
      cases hguard : dimGuard info first.embedding.dim with
      | error e => simp [hinfo, hfirst, hguard] at h
      | ok info₁ =>
        cases hdims : checkDims first.embedding.dim records with
        | error e => simp [hinfo, hfirst, hguard, hdims] at h
        | ok u =>
          cases hschema : checkSchema reg.schema records with
          | error e => simp [hinfo, hfirst, hguard, hdims, hschema] at h
          | ok u' =>
            cases hnamed : records.foldlM registerNamed info₁ with
            | error e => simp [hinfo, hfirst, hguard, hdims, hschema, hnamed] at h
            | ok info₂ =>
              refine ⟨info, first, info₁, info₂, rfl, rfl, hguard, ?_, rfl, hnamed, ?_⟩
              · intro r hr
                have := (forM_ok _ _).mp hdims r hr
                by_contra hne
                simp [hne] at this
              · simpa [hinfo, hfirst, hguard, hdims, hschema, hnamed] using h.symm

/-- The conditions of `register_ok` are sufficient. -/
theorem register_of {reg : Registry} {records : List VectorRecord} {info info₁ info₂ : EstateInfo}
    {first : VectorRecord} (hinfo : reg.estate = some info) (hfirst : records.head? = some first)
    (hguard : dimGuard info first.embedding.dim = .ok info₁)
    (hdims : ∀ r ∈ records, r.embedding.dim = first.embedding.dim)
    (hschema : checkSchema reg.schema records = .ok ())
    (hnamed : records.foldlM registerNamed info₁ = .ok info₂) :
    register reg records =
      ({ estate := some info₂
         collections := registerCollections reg.collections records
         schema := reg.schema }, .ok ()) := by
  have hcheck : checkDims first.embedding.dim records = .ok () := by
    rw [checkDims, forM_ok]
    intro r hr
    simp [hdims r hr]
  simp [register, hinfo, hfirst, hguard, hcheck, hschema, hnamed]

omit [SerdeJson] in
/-- The dimension guard leaves the dimension fixed. -/
theorem dimGuard_ok {info info' : EstateInfo} {dim : ℕ} (h : dimGuard info dim = .ok info') :
    info'.dim = some dim := by
  unfold dimGuard at h
  cases hd : info.dim with
  | none =>
    simp only [hd, Except.ok.injEq] at h
    rw [← h]
  | some expected =>
    by_cases hne : expected = dim
    · simp only [hd, hne, ne_eq, not_true_eq_false, if_false, Except.ok.injEq] at h
      rw [← h, hd, hne]
    · simp [hd, hne] at h

omit [SerdeJson] in
/-- A fixed dimension passes the guard unchanged. -/
theorem dimGuard_of {info : EstateInfo} {dim : ℕ} (h : info.dim = some dim) :
    dimGuard info dim = .ok info := by
  simp [dimGuard, h]

omit [SerdeJson] in
/-- Registering named spaces leaves the dimension. -/
private theorem registerSpaces_dim (spaces : List (String × Embedding)) {info info' : EstateInfo}
    (h : spaces.foldlM registerSpace info = .ok info') : info'.dim = info.dim := by
  refine foldlM_keeps (fun i => i.dim = info.dim) ?_ rfl h
  intro info₀ s _ info₁ hdim hs
  unfold registerSpace at hs
  cases hd : info₀.namedDims[s.1]? with
  | none =>
    simp only [hd, Except.ok.injEq] at hs
    rw [← hs]
    exact hdim
  | some expected =>
    by_cases hne : expected = s.2.dim
    · simp only [hd, hne, ne_eq, not_true_eq_false, if_false, Except.ok.injEq] at hs
      rw [← hs]
      exact hdim
    · simp [hd, hne] at hs

omit [SerdeJson] in
/-- Named spaces do not move the dense dimension. -/
theorem registerNamed_dim {info info' : EstateInfo} {r : VectorRecord}
    (h : registerNamed info r = .ok info') : info'.dim = info.dim := by
  unfold registerNamed at h
  cases hs : r.named.toList.foldlM registerSpace info with
  | error e => simp [hs] at h
  | ok info₁ =>
    have hdim := registerSpaces_dim _ hs
    cases hm : r.multi.head? with
    | none =>
      simp only [hs, hm, Except.ok.injEq] at h
      rw [← h, hdim]
    | some first =>
      by_cases hany : (r.multi.any fun t => t.dim ≠ first.dim) = true
      · simp only [hs, hm, hany, if_true, reduceCtorEq] at h
      · simp only [hs, hm, hany, Bool.false_eq_true, if_false, Except.ok.injEq] at h
        rw [← h, hdim]

/-- The registration of one record. -/
def registerOne (reg : Registry) (r : VectorRecord) : Except RroError Registry :=
  match register reg [r] with
  | (reg, .ok ()) => .ok reg
  | (_, .error e) => .error e

/-- One record is registered as a batch of one. -/
theorem registerOne_ok {reg reg' : Registry} {r : VectorRecord} :
    registerOne reg r = .ok reg' ↔ register reg [r] = (reg', .ok ()) := by
  unfold registerOne
  rcases hreg : register reg [r] with ⟨reg₁, e | u⟩
  · simp
  · simp

/-- **A batch registers record by record.** -/
theorem register_each {reg reg' : Registry} {records : List VectorRecord}
    (h : register reg records = (reg', .ok ())) :
    records.foldlM registerOne reg = .ok reg' := by
  induction records generalizing reg with
  | nil =>
    obtain ⟨_, _, _, _, _, hfirst, -⟩ := register_ok h
    simp at hfirst
  | cons r rest ih =>
    obtain ⟨info, first, info₁, info₂, hinfo, hfirst, hguard, hdims, hschema, hnamed, hreg'⟩ :=
      register_ok h
    obtain rfl : r = first := by simpa using hfirst
    rw [List.foldlM_cons] at hnamed
    cases hr : registerNamed info₁ r with
    | error e => simp [hr, bind, Except.bind] at hnamed
    | ok infoR =>
      have hrest : rest.foldlM registerNamed infoR = .ok info₂ := by
        simpa [hr, bind, Except.bind] using hnamed
      have hschemas := (forM_ok _ _).mp hschema
      have hone : register reg [r] =
          ({ estate := some infoR
             collections := registerCollections reg.collections [r]
             schema := reg.schema }, .ok ()) := by
        apply register_of hinfo rfl hguard
        · simp
        · rw [checkSchema, forM_ok]
          intro r' hr'
          obtain rfl : r' = r := by simpa using hr'
          exact hschemas r' List.mem_cons_self
        · simp [hr, bind, Except.bind, pure, Except.pure]
      rw [List.foldlM_cons, registerOne_ok.mpr hone]
      cases rest with
      | nil =>
        obtain rfl : infoR = info₂ := by simpa [pure, Except.pure] using hrest
        rw [hreg']
        rfl
      | cons r₂ rest =>
        have hdim : infoR.dim = some r₂.embedding.dim := by
          rw [registerNamed_dim hr, dimGuard_ok hguard, hdims r₂ (by simp)]
        apply ih
        rw [hreg']
        apply register_of rfl rfl (dimGuard_of hdim)
        · intro r' hr'
          rw [hdims r' (List.mem_cons_of_mem _ hr'), hdims r₂ (by simp)]
        · rw [checkSchema, forM_ok]
          intro r' hr'
          exact hschemas r' (List.mem_cons_of_mem _ hr')
        · exact hrest

end Rro.Model
