import Rro.Library.SeparatedKeys
import Rro.Program.Distill

/-!
# The plan cache and the shape key

A call returns its payload grouped by a plan compiled from some payload of the history whose
shape key has the same hash. When hashes of keys do not collide the two payloads have the same
key, but a key is plain text: a field name may itself contain the text of another field. The
cache is transparent exactly when payloads with equal keys give each other's fields the same
roles (`plan_cache_transparent_iff`), which holds whenever no field name contains a comma.
-/

set_option autoImplicit false

namespace Rro.Analysis

open Rro.Library Rro.Program Rro.Program.Text

variable {K : Type}

/-- What a returned object must share with the one of a new JIT. -/
structure Agrees (a b : ReadyObject K) : Prop where
  fields : a.fields = b.fields
  hints : a.hints = b.hints
  mode : a.mode = b.mode
  version : a.plan_version = b.plan_version

section Roles

variable [Unicode]

/-- The role that a payload's own shape gives to a field name. -/
def roleIn (p : Payload) (field : String) : FieldRole :=
  ((p.shape.fields[field]?).map (inferRole field)).getD .Other

/-- Payloads with one shape key, past the first gate, give each other's fields the same roles. -/
def SharedRoles (payloads : List Payload) : Prop :=
  ∀ p ∈ payloads, ∀ q ∈ payloads, p.l0 ≠ .Block → q.l0 ≠ .Block → p.shape.key = q.shape.key →
    ∀ field ∈ q.metadata, roleIn p field = roleIn q field

/-! ## Grouping -/

/-- A payload's own plan gives its fields their roles. -/
theorem roleOf_ownPlan (p : Payload) (id : UInt64) (field : String) :
    (p.ownPlan id).roleOf field = roleIn p field := by
  unfold Plan.roleOf Payload.ownPlan compile roleIn
  dsimp only
  rw [Std.ExtTreeMap.getElem?_map]

end Roles

/-- Roles are told apart by their keys. -/
theorem roleKey_injective : Function.Injective FieldRole.key := by
  intro a b h
  cases a <;> cases b <;> first | rfl | exact absurd h (by decide)

/-- A field is grouped under a name. -/
def Under (groups : Table String (Table String Value)) (key field : String) : Prop :=
  ((groups[key]?).bind fun group => group[field]?).isSome

/-- Grouping one field files it under its role. -/
theorem under_groupField (plan : Plan)
    (acc : Table String (Table String Value) × ReadinessHints K) (row : String × Value)
    (key field : String) :
    Under (groupField plan acc row).1 key field ↔
      (row.1 = field ∧ key = (plan.roleOf field).key) ∨ Under acc.1 key field := by
  unfold Under groupField
  dsimp only
  rw [Table.get_insert]
  by_cases hkey : key = (plan.roleOf row.1).key
  · rw [if_pos hkey, Option.bind_some, Table.get_insert]
    by_cases hfield : field = row.1
    · rw [if_pos hfield]
      subst hfield
      exact ⟨fun _ => Or.inl ⟨rfl, hkey⟩, fun _ => rfl⟩
    · rw [if_neg hfield, ← hkey]
      cases acc.1[key]? with
      | none => simp [Ne.symm hfield]
      | some group => simp [Ne.symm hfield]
  · rw [if_neg hkey]
    constructor
    · exact Or.inr
    · rintro (⟨rfl, hk⟩ | h)
      · exact absurd hk hkey
      · exact h

/-- Grouping all fields files each under its role. -/
theorem under_fold (plan : Plan) (rows : List (String × Value)) (key field : String)
    (acc : Table String (Table String Value) × ReadinessHints K) :
    Under (rows.foldl (groupField plan) acc).1 key field ↔
      (field ∈ rows.map Prod.fst ∧ key = (plan.roleOf field).key) ∨ Under acc.1 key field := by
  induction rows generalizing acc with
  | nil => simp
  | cons row rows ih =>
    rw [List.foldl_cons, ih, under_groupField, List.map_cons, List.mem_cons]
    constructor
    · rintro (⟨hmem, hkey⟩ | ⟨heq, hkey⟩ | hacc)
      · exact Or.inl ⟨Or.inr hmem, hkey⟩
      · exact Or.inl ⟨Or.inl heq.symm, hkey⟩
      · exact Or.inr hacc
    · rintro (⟨heq | hmem, hkey⟩ | hacc)
      · exact Or.inr (Or.inl ⟨heq.symm, hkey⟩)
      · exact Or.inl ⟨hmem, hkey⟩
      · exact Or.inr (Or.inr hacc)

/-- A field is grouped by its role alone. -/
theorem groupField_congr {plan plan' : Plan} {row : String × Value}
    (h : plan.roleOf row.1 = plan'.roleOf row.1)
    (acc : Table String (Table String Value) × ReadinessHints K) :
    groupField plan acc row = groupField plan' acc row := by
  unfold groupField
  rw [h]

/-- The fields of the rows are those of the metadata. -/
theorem mem_toList_iff {metadata : Metadata} {field : String} :
    field ∈ metadata.toList.map Prod.fst ↔ field ∈ metadata := by
  rw [List.mem_map, Std.ExtTreeMap.mem_iff_isSome_getElem?, Option.isSome_iff_exists]
  constructor
  · rintro ⟨row, hrow, rfl⟩
    exact ⟨row.2, Table.mem_toList.mp hrow⟩
  · rintro ⟨v, hv⟩
    exact ⟨(field, v), Table.mem_toList.mpr hv, rfl⟩

section Execute

variable [Field K] [LinearOrder K] [Unicode] [CosineScore K] {routes : List (Route K)}

/-- Plans that agree on the fields of a payload and on the version group it alike. -/
theorem execute_congr {p : Payload} {id : UInt64} {plan plan' : Plan}
    (hroles : ∀ field ∈ p.metadata, plan.roleOf field = plan'.roleOf field)
    (hversion : plan.version = plan'.version) :
    p.execute routes id plan = p.execute routes id plan' := by
  have hfold : ∀ acc : Table String (Table String Value) × ReadinessHints K,
      p.metadata.toList.foldl (groupField plan) acc =
        p.metadata.toList.foldl (groupField plan') acc := by
    intro acc
    refine List.foldl_ext _ _ _ fun acc row hrow => groupField_congr (hroles _ ?_) acc
    exact mem_toList_iff.mp (List.mem_map_of_mem hrow)
  unfold Payload.execute
  dsimp only
  rw [hfold, hversion]

/-- The groups of a payload show the role of every field. -/
theorem roles_of_fields {p : Payload} {id id' : UInt64} {plan plan' : Plan}
    (h : (p.execute routes id plan).fields = (p.execute routes id' plan').fields)
    {field : String} (hfield : field ∈ p.metadata) : plan.roleOf field = plan'.roleOf field := by
  have hmem := mem_toList_iff.mpr hfield
  have hunder : Under (p.execute routes id plan).fields (plan.roleOf field).key field :=
    (under_fold plan _ _ field _).mpr (Or.inl ⟨hmem, rfl⟩)
  rw [h] at hunder
  rcases (under_fold plan' _ _ field _).mp hunder with ⟨-, hkey⟩ | hempty
  · exact roleKey_injective hkey
  · simp [Under] at hempty

/-! ## Where plans come from -/

/-- The identifier of a payload's shape. -/
def idOf (p : Payload) : UInt64 := sliverId p.shape.key

/-- A plan that some payload past the first gate compiles under the identifier. -/
def CompiledBy (payloads : List Payload) (id : UInt64) (plan : Plan) : Prop :=
  ∃ p ∈ payloads, p.l0 ≠ .Block ∧ idOf p = id ∧ plan = p.ownPlan id

/-- The JIT holds identifiers of keys and plans of payloads. -/
structure CacheCoherent (routes : List (Route K)) (payloads : List Payload) (st : Rrd K) : Prop where
  registry : ∀ key s, st.registry[key]? = some s → s.id = sliverId key
  plans : ∀ id plan, st.plans[id]? = some plan → CompiledBy payloads id plan
  routes : st.routes = routes

/-- What a call knows where it stands. -/
def StageSound (routes : List (Route K)) (payloads : List Payload) (p : Payload) : Stage K → Prop
  | .entered => True
  | .speculated _ => p.l0 ≠ .Block
  | .observed _ id _ => p.l0 ≠ .Block ∧ id = idOf p
  | .settled id _ => p.l0 ≠ .Block ∧ id = idOf p
  | .missed id => p.l0 ≠ .Block ∧ id = idOf p
  | .returned rro => (p.l0 = .Block ∧ rro = p.blocked) ∨
      (p.l0 ≠ .Block ∧ ∃ plan, CompiledBy payloads (idOf p) plan ∧
        rro = p.execute routes (idOf p) plan)

omit [Unicode] in
/-- Observing a shape registers it under its own id. -/
theorem observe_spec {registry : ShapeRegistry}
    (h : ∀ key s, registry[key]? = some s → s.id = sliverId key) (shape : Shape) (mode : Mode) :
    (∀ key s, (registry.observe shape mode).1[key]? = some s → s.id = sliverId key) ∧
      (registry.observe shape mode).2.1 = sliverId shape.key := by
  unfold ShapeRegistry.observe
  dsimp only
  split
  · rename_i s hs
    refine ⟨fun key t ht => ?_, h _ _ hs⟩
    rw [Table.get_insert] at ht
    split at ht
    · rename_i hkey
      cases ht
      rw [hkey]
      exact (h _ s hs : s.id = _)
    · exact h _ _ ht
  · refine ⟨fun key t ht => ?_, rfl⟩
    rw [Table.get_insert] at ht
    split at ht
    · rename_i hkey
      cases ht
      rw [hkey]
    · exact h _ _ ht

variable {payloads : List Payload} {p : Payload}

/-- A payload's own plan is compiled by a payload of its shape. -/
theorem compiledBy_own (hp : p ∈ payloads) (hpass : p.l0 ≠ .Block) :
    CompiledBy payloads (idOf p) (p.ownPlan (idOf p)) :=
  ⟨p, hp, hpass, rfl, rfl⟩

omit [Field K] [LinearOrder K] [CosineScore K] in
/-- A plan put under its own id keeps the cache coherent. -/
theorem plans_insert {st : Rrd K} (h : CacheCoherent routes payloads st) {id : UInt64} {plan : Plan}
    (hplan : CompiledBy payloads id plan) :
    ∀ id' plan', (st.plans.insert id plan)[id']? = some plan' →
      CompiledBy payloads id' plan' := by
  intro id' plan' hget
  rw [Table.get_insert] at hget
  split at hget
  · rename_i hid
    cases hget
    rw [hid]
    exact hplan
  · exact h.plans _ _ hget

/-- **A step** of a call keeps the JIT coherent and the call sound. -/
theorem step_sound {st : Rrd K} {g : Stage K} (hst : CacheCoherent routes payloads st)
    (hp : p ∈ payloads) (hg : StageSound routes payloads p g) (order : List UInt64) :
    CacheCoherent routes payloads (st.step p order g).1 ∧
      StageSound routes payloads p (st.step p order g).2 := by
  cases g with
  | entered =>
    unfold Rrd.step
    dsimp only
    split
    · rename_i hblock
      exact ⟨hst, Or.inl ⟨hblock, rfl⟩⟩
    · rename_i hpass
      exact ⟨hst, hpass⟩
  | speculated predicted =>
    have hspec := observe_spec hst.registry p.shape (identify p.metadata)
    exact ⟨⟨hspec.1, hst.plans, hst.routes⟩, hg, hspec.2⟩
  | observed predicted id is_new => exact ⟨⟨hst.registry, hst.plans, hst.routes⟩, hg⟩
  | settled id is_new =>
    obtain ⟨hpass, rfl⟩ := hg
    have hown := compiledBy_own hp hpass
    cases is_new with
    | true =>
      refine ⟨⟨hst.registry, plans_insert hst hown, hst.routes⟩, Or.inr ⟨hpass, _, hown, ?_⟩⟩
      rw [hst.routes]
    | false =>
      unfold Rrd.step
      dsimp only
      split
      · rename_i plan hplan
        refine ⟨⟨hst.registry, hst.plans, hst.routes⟩,
          Or.inr ⟨hpass, plan, hst.plans _ _ hplan, ?_⟩⟩
        rw [hst.routes]
      · exact ⟨⟨hst.registry, hst.plans, hst.routes⟩, hpass, rfl⟩
  | missed id =>
    obtain ⟨hpass, rfl⟩ := hg
    have hown := compiledBy_own hp hpass
    refine ⟨⟨hst.registry, plans_insert hst hown, hst.routes⟩, Or.inr ⟨hpass, _, hown, ?_⟩⟩
    rw [hst.routes]
  | returned rro => exact ⟨hst, hg⟩

/-- What holds of calls that share a JIT. -/
structure Served (routes : List (Route K)) (payloads : List Payload) (s : Calls K) : Prop where
  rrd : CacheCoherent routes payloads s.rrd
  calls : ∀ i p, payloads[i]? = some p → StageSound routes payloads p (s.stage i)

/-- Every turn keeps the calls served. -/
theorem turn_served {s : Calls K} (h : Served routes payloads s) (t : Turn) :
    Served routes payloads (s.turn payloads t) := by
  unfold Calls.turn
  split
  · exact h
  · rename_i p hp
    have hstep := step_sound h.rrd (List.mem_of_getElem? hp) (h.calls _ _ hp) t.order
    refine ⟨hstep.1, fun i q hq => ?_⟩
    dsimp only
    by_cases hi : i = t.call
    · subst hi
      cases hp.symm.trans hq
      rw [Function.update_self]
      exact hstep.2
    · rw [Function.update_of_ne hi]
      exact h.calls i q hq

/-- **A run** of any turns. -/
theorem run_served (routes : List (Route K)) (payloads : List Payload) (turns : List Turn) :
    Served routes payloads (Calls.run routes payloads turns) := by
  have hfold : ∀ s : Calls K, Served routes payloads s →
      Served routes payloads (turns.foldl (Calls.turn payloads) s) := by
    induction turns with
    | nil => exact fun _ h => h
    | cons t turns ih => exact fun s h => ih _ (turn_served h t)
  refine hfold _ ⟨⟨?_, ?_, rfl⟩, fun _ _ _ => trivial⟩
  · intro key s hs
    simp [Rrd.withRouter] at hs
  · intro id plan hplan
    simp [Rrd.withRouter] at hplan

/-! ## A call on its own -/

/-- On a new JIT a payload is grouped by the plan of its own shape. -/
theorem distillStamped_new (routes : List (Route K)) (p : Payload) (order : List UInt64) :
    ((Rrd.withRouter routes).distillStamped p order).2 =
      if p.l0 = .Block then p.blocked
      else p.execute routes (idOf p) (p.ownPlan (idOf p)) := by
  unfold Rrd.distillStamped
  split
  · rfl
  · have hnew : (∅ : ShapeRegistry)[p.shape.key]? = none := by simp
    unfold ShapeRegistry.observe Rrd.withRouter
    dsimp only
    rw [hnew]
    rfl

/-- Some steps of one call. -/
def steps (p : Payload) (order : List UInt64) (n : ℕ) (st : Rrd K) (g : Stage K) :
    Rrd K × Stage K :=
  (fun x => x.1.step p order x.2)^[n] (st, g)

/-- One more step. -/
theorem steps_succ (p : Payload) (order : List UInt64) (n : ℕ) (st : Rrd K) (g : Stage K) :
    steps p order (n + 1) st g =
      steps p order n (st.step p order g).1 (st.step p order g).2 := rfl

/-- A call that has returned stays as it is. -/
theorem steps_returned (p : Payload) (order : List UInt64) (n : ℕ) (st : Rrd K)
    (rro : ReadyObject K) : steps p order n st (.returned rro) = (st, .returned rro) := by
  induction n with
  | zero => rfl
  | succ n ih => exact ih

/-- Turns of one call alone are its steps. -/
theorem foldl_turn {i : ℕ} (hp : payloads[i]? = some p) (order : List UInt64) (n : ℕ)
    (s : Calls K) :
    (List.replicate n ⟨i, order⟩).foldl (Calls.turn payloads) s =
      ⟨(steps p order n s.rrd (s.stage i)).1,
        Function.update s.stage i (steps p order n s.rrd (s.stage i)).2⟩ := by
  induction n generalizing s with
  | zero =>
    unfold steps
    dsimp only [List.replicate, List.foldl_nil, Function.iterate_zero, id]
    rw [Function.update_eq_self]
  | succ n ih =>
    have hturn : s.turn payloads ⟨i, order⟩ =
        ⟨(s.rrd.step p order (s.stage i)).1,
          Function.update s.stage i (s.rrd.step p order (s.stage i)).2⟩ := by
      unfold Calls.turn
      rw [hp]
    rw [List.replicate_succ, List.foldl_cons, hturn, ih]
    dsimp only
    rw [Function.update_self, Function.update_idem]
    rfl

/-- Five steps of a call, with no other call between them, do what `distill_stamped` does. -/
theorem steps_five (st : Rrd K) (p : Payload) (order : List UInt64) :
    steps p order 5 st .entered =
      ((st.distillStamped p order).1, .returned (st.distillStamped p order).2) := by
  by_cases hblock : p.l0 = .Block
  · have hstep : st.step p order .entered = (st, .returned p.blocked) := if_pos hblock
    have hall : st.distillStamped p order = (st, p.blocked) := if_pos hblock
    rw [steps_succ, hstep, steps_returned, hall]
  · rcases hobs : st.registry.observe p.shape (identify p.metadata) with ⟨registry, id, is_new⟩
    have hentered : st.step p order .entered =
        (st, .speculated ((st.baseline.predict order p.context).map Prod.fst)) := if_neg hblock
    rw [steps_succ, hentered, steps_succ, Rrd.step, hobs, steps_succ, Rrd.step, steps_succ]
    unfold Rrd.distillStamped
    rw [if_neg hblock, hobs]
    cases is_new with
    | true => rfl
    | false =>
      dsimp only [Rrd.step]
      cases hplan : st.plans[id]? with
      | some plan => rfl
      | none => rfl

/-- After the first call its shape is known, and its plan cached. -/
theorem after_first (routes : List (Route K)) (hpass : p.l0 ≠ .Block) (order : List UInt64) :
    let st := ((Rrd.withRouter routes).distillStamped p order).1
    (∃ s, st.registry[p.shape.key]? = some s ∧ s.id = idOf p) ∧
      st.plans[idOf p]? = some (p.ownPlan (idOf p)) ∧ st.routes = routes := by
  have hnew : (∅ : ShapeRegistry)[p.shape.key]? = none := by simp
  unfold Rrd.distillStamped ShapeRegistry.observe Rrd.withRouter
  rw [if_neg hpass]
  dsimp only
  rw [hnew]
  dsimp only
  refine ⟨⟨⟨idOf p, p.shape.key, identify p.metadata, 1⟩, ?_, rfl⟩, ?_, rfl⟩
  · rw [Table.get_insert, if_pos rfl]
    rfl
  · simp [idOf]

/-- A call whose shape key is known takes the cached plan. -/
theorem distillStamped_seen {st : Rrd K} {s : Sliver} {plan : Plan} (hpass : p.l0 ≠ .Block)
    (hs : st.registry[p.shape.key]? = some s) (hid : s.id = idOf p)
    (hplan : st.plans[idOf p]? = some plan) (order : List UInt64) :
    (st.distillStamped p order).2 = p.execute st.routes (idOf p) plan := by
  unfold Rrd.distillStamped ShapeRegistry.observe
  rw [if_neg hpass]
  dsimp only
  rw [hs]
  dsimp only
  rw [hid, hplan]
  rfl

/-- **Two calls in a row** with one shape key: the second is grouped by the first one's plan. -/
theorem second_call (routes : List (Route K)) {q : Payload} {i j : ℕ} (hi : payloads[i]? = some p)
    (hj : payloads[j]? = some q) (hij : i ≠ j) (hp : p.l0 ≠ .Block) (hq : q.l0 ≠ .Block)
    (hkey : p.shape.key = q.shape.key) :
    (Calls.run routes payloads (List.replicate 5 ⟨i, []⟩ ++ List.replicate 5 ⟨j, []⟩)).stage j =
      .returned (q.execute routes (idOf q) (p.ownPlan (idOf p))) := by
  obtain ⟨⟨s, hs, hid⟩, hplan, hroutes⟩ := after_first routes hp []
  have hids : idOf p = idOf q := congrArg sliverId hkey
  unfold Calls.run
  rw [List.foldl_append, foldl_turn hi, steps_five, foldl_turn hj]
  dsimp only
  rw [Function.update_self, Function.update_of_ne hij.symm, steps_five]
  dsimp only
  rw [hkey] at hs
  have hseen : ((Rrd.withRouter routes).distillStamped p []).1.plans[idOf q]? =
      some (p.ownPlan (idOf p)) := by
    rw [← hids]
    exact hplan
  rw [distillStamped_seen hq hs (hid.trans hids) hseen, hroutes]

/-! ## Transparency -/

omit [Field K] [LinearOrder K] [CosineScore K] in
/-- With shared roles a plan of another payload with one's own key is as good as one's own. -/
theorem roleOf_shared (hshared : SharedRoles payloads) {q : Payload} (hp : p ∈ payloads)
    (hq : q ∈ payloads) (hpp : p.l0 ≠ .Block) (hqq : q.l0 ≠ .Block)
    (hkey : p.shape.key = q.shape.key) {id id' : UInt64} :
    ∀ field ∈ q.metadata, (p.ownPlan id).roleOf field = (q.ownPlan id').roleOf field := by
  intro field hfield
  rw [roleOf_ownPlan, roleOf_ownPlan]
  exact hshared p hp q hq hpp hqq hkey field hfield

/-- **The cache is transparent exactly when payloads with one shape key share the roles of their
fields.** Whatever the payloads and the order of the turns, every call returns what a new JIT
would, if any two payloads with equal keys give the same role to each other's fields; and if
they do not, calls one after the other already differ. -/
theorem plan_cache_transparent_iff (routes : List (Route K)) (payloads : List Payload)
    (hfnv : ∀ p ∈ payloads, ∀ q ∈ payloads, sliverId p.shape.key = sliverId q.shape.key →
      p.shape.key = q.shape.key) :
    (∀ (turns : List Turn) (i : ℕ) (p : Payload) (rro : ReadyObject K) (order : List UInt64),
        payloads[i]? = some p → (Calls.run routes payloads turns).stage i = .returned rro →
        Agrees rro ((Rrd.withRouter routes).distillStamped p order).2) ↔
      SharedRoles payloads := by
  constructor
  · intro h p hp q hq hpp hqq hkey field hfield
    obtain ⟨i, hi⟩ := List.mem_iff_getElem?.mp hp
    obtain ⟨j, hj⟩ := List.mem_iff_getElem?.mp hq
    by_cases hij : i = j
    · subst hij
      cases hi.symm.trans hj
      rfl
    · have hagrees := h _ j q _ [] hj (second_call routes hi hj hij hpp hqq hkey)
      have hfields := hagrees.fields
      rw [distillStamped_new, if_neg hqq] at hfields
      have hroles := roles_of_fields hfields hfield
      rw [roleOf_ownPlan, roleOf_ownPlan] at hroles
      exact hroles
  · intro hshared turns i q rro order hq hrro
    have hsound := (run_served routes payloads turns).calls i q hq
    rw [hrro] at hsound
    have hmem := List.mem_of_getElem? hq
    rcases hsound with ⟨hblock, rfl⟩ | ⟨hpass, plan, ⟨p, hp, hpp, hid, rfl⟩, rfl⟩
    · rw [distillStamped_new, if_pos hblock]
      exact ⟨rfl, rfl, rfl, rfl⟩
    · rw [distillStamped_new, if_neg hpass]
      have hkey := hfnv p hp q hmem hid
      rw [execute_congr (roleOf_shared hshared hp hmem hpp hpass hkey) rfl]
      exact ⟨rfl, rfl, rfl, rfl⟩

end Execute

/-! ## Keys of names without commas -/

/-- No field of the payload has a comma in its name. -/
def Commaless (p : Payload) : Prop := ∀ field ∈ p.metadata, ',' ∉ field.toList

/-- The text of a field in a shape key. -/
def fieldText (f : String × String) : List Char := f.1.toList ++ ':' :: f.2.toList

/-- The key of a shape lists its fields, between commas. -/
theorem key_toList (s : Shape) :
    s.key.toList = [','].intercalate (s.fields.toList.map fieldText) := by
  unfold Shape.key
  rw [String.toList_intercalate, List.map_map]
  refine congrArg₂ List.intercalate rfl (List.map_congr_left fun f _ => ?_)
  simp [fieldText]

/-- The name of a type has no comma and no colon. -/
theorem typeName_plain (v : Value) : ',' ∉ v.typeName.toList ∧ ':' ∉ v.typeName.toList := by
  cases v <;> simp [Value.typeName]

/-- A field of a shape is a field of the payload, with the name of a type. -/
theorem mem_shape {p : Payload} {f : String × String} (hf : f ∈ p.shape.fields.toList) :
    f.1 ∈ p.metadata ∧ ',' ∉ f.2.toList ∧ ':' ∉ f.2.toList := by
  have hget : p.shape.fields[f.1]? = some f.2 := Table.mem_toList.mp hf
  unfold Payload.shape Shape.of at hget
  dsimp only at hget
  rw [Std.ExtTreeMap.getElem?_map] at hget
  obtain ⟨v, hv, hty⟩ := Option.map_eq_some_iff.mp hget
  refine ⟨?_, ?_⟩
  · rw [Std.ExtTreeMap.mem_iff_isSome_getElem?, hv]
    rfl
  · rw [← hty]
    exact typeName_plain v

/-- The key of names without commas splits into its fields. -/
theorem splitOn_key {p : Payload} (h : Commaless p) (hne : p.shape.fields.toList ≠ []) :
    p.shape.key.toList.splitOn ',' = p.shape.fields.toList.map fieldText := by
  rw [key_toList]
  apply List.splitOn_intercalate
  · intro l hl hcomma
    obtain ⟨f, hf, rfl⟩ := List.mem_map.mp hl
    obtain ⟨hmem, htype, -⟩ := mem_shape hf
    rcases List.mem_append.mp hcomma with hname | hrest
    · exact h _ hmem hname
    · rcases List.mem_cons.mp hrest with hcolon | hty
      · exact absurd hcolon (by decide)
      · exact htype hty
  · simpa using hne

/-- The key of a shape without fields. -/
theorem key_of_empty {p : Payload} (h : p.shape.fields.toList = []) :
    p.shape.key.toList.splitOn ',' = [[]] := by
  rw [key_toList, h]
  rfl

/-- Without commas in names, different shapes have different keys. -/
theorem fields_of_key {p q : Payload} (hp : Commaless p) (hq : Commaless q)
    (hkey : p.shape.key = q.shape.key) :
    p.shape.fields.toList.map fieldText = q.shape.fields.toList.map fieldText := by
  have hnotext : ∀ fields : List (String × String), [[]] ≠ fields.map fieldText := by
    intro fields
    cases fields with
    | nil => simp
    | cons f fields => simp [fieldText]
  by_cases hpe : p.shape.fields.toList = []
  · by_cases hqe : q.shape.fields.toList = []
    · rw [hpe, hqe]
    · refine absurd ?_ (hnotext q.shape.fields.toList)
      rw [← splitOn_key hq hqe, ← hkey, key_of_empty hpe]
  · by_cases hqe : q.shape.fields.toList = []
    · refine absurd ?_ (hnotext p.shape.fields.toList)
      rw [← splitOn_key hp hpe, hkey, key_of_empty hqe]
    · rw [← splitOn_key hp hpe, ← splitOn_key hq hqe, hkey]

/-- Fields whose types have no colon are told apart by their texts. -/
theorem shape_of_texts {fields fields' : List (String × String)}
    (hf : ∀ f ∈ fields, ':' ∉ f.2.toList) (hf' : ∀ f ∈ fields', ':' ∉ f.2.toList)
    (h : fields.map fieldText = fields'.map fieldText) : fields = fields' := by
  induction fields generalizing fields' with
  | nil => exact (List.map_eq_nil_iff.mp h.symm).symm
  | cons f fields ih =>
    cases fields' with
    | nil => simp at h
    | cons f' fields' =>
      rw [List.map_cons, List.map_cons] at h
      obtain ⟨hhead, htail⟩ := List.cons.inj h
      obtain ⟨hname, htype⟩ := last_segment_inj (hf f List.mem_cons_self)
        (hf' f' List.mem_cons_self) hhead
      have heq : f = f' :=
        Prod.ext (String.toList_injective hname) (String.toList_injective htype)
      rw [heq, ih (fun g hg => hf g (List.mem_cons_of_mem _ hg))
        (fun g hg => hf' g (List.mem_cons_of_mem _ hg)) htail]

/-- **Without commas in field names roles are shared**: equal keys come from equal shapes. -/
theorem sharedRoles_of_commaless [Unicode] {payloads : List Payload}
    (h : ∀ p ∈ payloads, Commaless p) : SharedRoles payloads := by
  intro p hp q hq _ _ hkey field _
  have hlists := shape_of_texts (fun f hf => (mem_shape hf).2.2) (fun f hf => (mem_shape hf).2.2)
    (fields_of_key (h p hp) (h q hq) hkey)
  have hget : p.shape.fields[field]? = q.shape.fields[field]? := by
    apply Option.ext
    intro ty
    rw [← Table.mem_toList, ← Table.mem_toList, hlists]
  unfold roleIn
  rw [hget]

/-! ## A field name that spells another field -/

section Names

/-- Lower case of ASCII names. -/
local instance asciiNames : Unicode := ⟨Char.isAlphanum, fun s => s.map Char.toLower⟩

/-- Nothing is routed. -/
local instance noScore : CosineScore ℚ := ⟨fun _ _ => 0⟩

/-- A payload with a text and some fields that hold texts. -/
def strings (fields : List (String × String)) : Payload :=
  { doc_id := "d", text := "x".toList
    metadata := fields.foldl (fun m f => m.insert f.1 (.string f.2)) ∅
    embedding := none, stamp := ⟨none, none, none, none, none, none⟩ }

/-- A payload whose one field is named like two. -/
def spelled : Payload := strings [("a:string,id", "x")]

/-- A payload that has the two fields. -/
def plain : Payload := strings [("a", "x"), ("id", "y")]

/-- The plan of the first payload takes the identity from the second. -/
theorem spelled_name_hides_identity :
    ¬ ∀ (turns : List Turn) (i : ℕ) (p : Payload) (rro : ReadyObject ℚ) (order : List UInt64),
      [spelled, plain][i]? = some p → (Calls.run [] [spelled, plain] turns).stage i = .returned rro →
      Agrees rro ((Rrd.withRouter []).distillStamped p order).2 := by
  intro h
  have hp : spelled.l0 ≠ .Block := by decide
  have hq : plain.l0 ≠ .Block := by decide
  have hkey : spelled.shape.key = plain.shape.key := by decide
  have hfields := (h _ 1 plain _ [] rfl
    (second_call [] (i := 0) rfl rfl (by decide) hp hq hkey)).fields
  rw [distillStamped_new, if_neg hq] at hfields
  have hid : "id" ∈ plain.metadata := by decide
  have hroles := roles_of_fields hfields hid
  rw [roleOf_ownPlan, roleOf_ownPlan] at hroles
  exact absurd hroles (by decide)

/-- Mail and records share one JIT. -/
theorem plan_cache_transparent_iff_mail :
    SharedRoles [strings [("from", "a")], plain] ∧
      ∀ (turns : List Turn) (i : ℕ) (p : Payload) (rro : ReadyObject ℚ) (order : List UInt64),
        [strings [("from", "a")], plain][i]? = some p →
        (Calls.run [] [strings [("from", "a")], plain] turns).stage i = .returned rro →
        Agrees rro ((Rrd.withRouter []).distillStamped p order).2 := by
  have hnames : ∀ p ∈ [strings [("from", "a")], plain],
      ∀ field ∈ p.metadata.toList.map Prod.fst, ',' ∉ field.toList := by
    decide
  have hshared : SharedRoles [strings [("from", "a")], plain] :=
    sharedRoles_of_commaless fun p hp field hfield =>
      hnames p hp field (mem_toList_iff.mpr hfield)
  refine ⟨hshared, (plan_cache_transparent_iff [] [strings [("from", "a")], plain] ?_).mpr hshared⟩
  decide

end Names

end Rro.Analysis
