import Mathlib.Data.Fintype.Order
import Rro.Model.GraphInsertion
import Rro.Model.GraphStores
import Rro.Program.AnnStore

/-!
# Safety of the layered graph

Every run of insertions and removals keeps the graph sound and its lists within their caps, so
that no index is out of range and every loop ends; a search of any graph of a run returns live
ids, each once, nearest first (`graph_safety`). Node numbers have 32 bits, a product quantizer
has to split the dimension, and a list of neighbours is allocated for the degree bound: beyond
these limits a run overwrites the number of its first node (`node_numbers_wrap`), or panics
(`collecting_run`, `insert_crowded`).
-/

set_option autoImplicit false

namespace Rro.Analysis

open Rro.Library Rro.Program Rro.Model

section Runs

variable {σ V δ : Type} [VectorStore σ V δ] [LinearOrder δ] [OrderTop δ]
  [Heap (Scored.dist : Scored δ → δ)]

/-- The graph after some calls. -/
def runCalls (g : AnnGraph σ) (calls : List (GraphCall V)) : Option (AnnGraph σ) :=
  calls.foldlM AnnGraph.call g

omit [LinearOrder δ] [OrderTop δ] [Heap (Scored.dist : Scored δ → δ)] [VectorStore σ V δ] in
/-- The ids inserted, in order. -/
def insertedIds (calls : List (GraphCall V)) : List Id :=
  calls.filterMap fun
    | .insert id _ _ => some id
    | .remove _ => none

/-- The vectors inserted have the dimension of the store. -/
def OfDimension (σ : Type) [VectorStore σ V δ] (calls : List (GraphCall V)) : Prop :=
  ∀ id v level, GraphCall.insert id v level ∈ calls → VectorStore.dimOf σ v = VectorStore.dim σ

/-- The id has a node that is not tombstoned. -/
def IsLive (g : AnnGraph σ) (id : Id) : Prop :=
  ∃ n : ℕ, g.byId[id]? = some n ∧ g.deleted[n]? = some false

/-- Live ids, each once, nearest first, at most `k`, each with the distance of its node. -/
structure Found (g : AnnGraph σ) (query : V) (k : ℕ) (found : List (Id × δ)) : Prop where
  nodup : (found.map Prod.fst).Nodup
  live : ∀ row ∈ found, ∃ n : ℕ, g.byId[row.1]? = some n ∧ g.deleted[n]? = some false ∧
    row.2 = VectorStore.distTo g.store n query
  nearest : found.Pairwise fun a b => a.2 ≤ b.2
  length : found.length ≤ k

omit [LinearOrder δ] [OrderTop δ] [Heap (Scored.dist : Scored δ → δ)] [VectorStore σ V δ] in
/-- Nodes read as ids. -/
theorem mapM_ids {g : AnnGraph σ} {found : List (Scored δ)}
    (h : ∀ s ∈ found, s.node < g.ids.length) :
    (found.mapM fun s => (g.ids[s.node]?).map fun id => (id, s.dist)) =
      some (found.map fun s => ((g.ids[s.node]?).getD "", s.dist)) := by
  induction found with
  | nil => rfl
  | cons s found ih =>
    rw [List.mapM_cons, ih fun t ht => h t (List.mem_cons_of_mem _ ht),
      List.getElem?_eq_getElem (h s List.mem_cons_self), List.map_cons,
      List.getElem?_eq_getElem (h s List.mem_cons_self)]
    rfl

/-- **A search** of a sound graph succeeds. -/
theorem search_found {g : AnnGraph σ} (h : Model.Sound g) (query : V) (k ef : ℕ) :
    ∃ found, g.search query k ef = some found ∧ Found g query k found := by
  have hnone : Found g query k ([] : List (Id × δ)) :=
    ⟨List.nodup_nil, fun row hrow => (List.not_mem_nil hrow).elim, List.Pairwise.nil, Nat.zero_le k⟩
  unfold AnnGraph.search
  cases hentry : g.entry with
  | none => exact ⟨[], rfl, hnone⟩
  | some entry =>
    obtain ⟨e, top⟩ := entry
    obtain ⟨htop, -⟩ := h.entry_some e top hentry
    dsimp only
    split
    · exact ⟨[], rfl, hnone⟩
    · have hT : ∀ L, Territory g L fun n => HasLayer g.links n L ∧ True :=
        fun L => h.parallel.territory h.targeted L fun _ _ _ _ _ => trivial
      obtain ⟨cur, hdescend, hend⟩ := descend_spec query 1 top e
        (fun L _ => hT L) (fun L n hn => ⟨hn.1.mono (Nat.le_succ L), trivial⟩)
        fun hpos => ⟨by rwa [Nat.add_comm, Nat.add_sub_cancel], trivial⟩
      have hcur : HasLayer g.links cur 0 := by
        rcases hend with ⟨rfl, rfl⟩ | hlayer
        · exact htop
        · exact hlayer.1.mono (Nat.zero_le 1)
      obtain ⟨found, hfound, hnodup, hsorted, hall⟩ := beamAdmit_spec (hT 0) query ⟨hcur, trivial⟩
        (max (max ef g.config.efSearch) k) false fun _ => true
      let rows := (found.take k).map fun s => ((g.ids[s.node]?).getD "", s.dist)
      have hlive : ∀ s ∈ found.take k, g.byId[(g.ids[s.node]?).getD ""]? = some s.node ∧
          g.deleted[s.node]? = some false ∧ s.dist = VectorStore.distTo g.store s.node query := by
        intro s hs
        obtain ⟨hP, hdist, hok⟩ := hall s (List.mem_of_mem_take hs)
        have hdead : g.deleted[s.node]? = some false := by simpa [admissible] using hok
        have hid := List.getElem?_eq_getElem ((hT 0).listed hP)
        rw [hid, Option.getD_some]
        exact ⟨h.one _ _ hid hdead, hdead, hdist⟩
      have hsublist := List.take_sublist k found
      refine ⟨rows, ?_, ⟨?_, ?_, ?_, ?_⟩⟩
      · have hbeam : g.beam query cur 0 (max (max ef g.config.efSearch) k) false = some found :=
          hfound
        rw [hdescend]
        simp only [bind, Option.bind]
        rw [hbeam]
        exact mapM_ids fun s hs => (hT 0).listed (hall s (List.mem_of_mem_take hs)).1
      · have hids : rows.map Prod.fst =
            ((found.take k).map Scored.node).map fun n => (g.ids[n]?).getD "" := by
          rw [List.map_map, List.map_map]
          rfl
        rw [hids]
        refine List.Nodup.map_on ?_ (hnodup.sublist (hsublist.map _))
        intro n hn n' hn' heq
        obtain ⟨s, hs, rfl⟩ := List.mem_map.mp hn
        obtain ⟨s', hs', rfl⟩ := List.mem_map.mp hn'
        have hnode := (hlive s hs).1
        rw [heq, (hlive s' hs').1, Option.some.injEq] at hnode
        exact hnode.symm
      · intro row hrow
        obtain ⟨s, hs, rfl⟩ := List.mem_map.mp hrow
        exact ⟨s.node, (hlive s hs).1, (hlive s hs).2.1, (hlive s hs).2.2⟩
      · exact List.pairwise_map.mpr (hsorted.sublist hsublist)
      · rw [List.length_map]
        exact List.length_take_le k found

/-! ## Runs -/

/-- What a run of calls leaves. -/
structure Ran (g g' : AnnGraph σ) (calls : List (GraphCall V)) : Prop where
  sound : Model.Sound g'
  ids : g'.ids = g.ids ++ insertedIds calls
  config : g'.config = g.config
  bounded : Bounded g → Bounded g'

omit [LinearOrder δ] [OrderTop δ] [Heap (Scored.dist : Scored δ → δ)] [VectorStore σ V δ] in
/-- The ids of the first call come first. -/
theorem insertedIds_cons (call : GraphCall V) (calls : List (GraphCall V)) :
    insertedIds (call :: calls) = insertedIds [call] ++ insertedIds calls := by
  unfold insertedIds
  rw [← List.singleton_append, List.filterMap_append]

omit [LinearOrder δ] [OrderTop δ] [Heap (Scored.dist : Scored δ → δ)] in
/-- The calls before and after have the dimension too. -/
theorem ofDimension_cons {call : GraphCall V} {calls : List (GraphCall V)}
    (h : OfDimension σ (call :: calls)) : OfDimension σ [call] ∧ OfDimension σ calls := by
  refine ⟨fun id v level hmem => h id v level ?_, fun id v level hmem => h id v level ?_⟩
  · rw [List.mem_singleton.mp hmem]
    exact List.mem_cons_self
  · exact List.mem_cons_of_mem _ hmem

/-- A call that succeeds on a sound graph. -/
theorem ran_call {g g' : AnnGraph σ} (h : Model.Sound g) {call : GraphCall V}
    (hdim : OfDimension σ [call]) (hroom : g.ids.length + (insertedIds [call]).length ≤ 2 ^ 32)
    (hcall : g.call call = some g') : Ran g g' [call] := by
  cases call with
  | insert id v level =>
    have hlt : g.ids.length < 2 ^ 32 := Nat.lt_of_succ_le hroom
    obtain ⟨store, -, hi⟩ := h.insert_of_some (hdim id v level List.mem_cons_self) hlt hcall
    exact ⟨hi.sound, hi.ids, hi.config, hi.bounded⟩
  | remove id =>
    obtain ⟨g₁, hremove, hr⟩ := h.remove id
    have heq : g₁ = g' := Option.some.inj (hremove.symm.trans hcall)
    subst heq
    refine ⟨hr.sound h, ?_, by rw [hr.same], fun hb n L l hl => ?_⟩
    · rw [hr.same]
      exact (List.append_nil _).symm
    · rw [hr.same] at hl ⊢
      exact hb n L l hl

/-- **Runs keep the invariant**, from any sound graph. -/
theorem ran_of_run {g g' : AnnGraph σ} (h : Model.Sound g) {calls : List (GraphCall V)}
    (hdim : OfDimension σ calls) (hroom : g.ids.length + (insertedIds calls).length ≤ 2 ^ 32)
    (hrun : runCalls g calls = some g') : Ran g g' calls := by
  induction calls generalizing g with
  | nil =>
    cases hrun
    exact ⟨h, (List.append_nil _).symm, rfl, id⟩
  | cons call calls ih =>
    obtain ⟨hfirst, hrest⟩ := ofDimension_cons hdim
    rw [insertedIds_cons, List.length_append] at hroom
    rw [runCalls, List.foldlM_cons] at hrun
    obtain ⟨g₁, hcall, hrun⟩ := Option.bind_eq_some_iff.mp hrun
    have h₁ := ran_call h hfirst (by omega) hcall
    have h₂ := ih h₁.sound hrest (by rw [h₁.ids, List.length_append]; omega) hrun
    refine ⟨h₂.sound, ?_, h₂.config.trans h₁.config, h₂.bounded ∘ h₁.bounded⟩
    rw [h₂.ids, h₁.ids, insertedIds_cons call calls, List.append_assoc]

omit [LinearOrder δ] [OrderTop δ] [Heap (Scored.dist : Scored δ → δ)] in
/-- The store takes any vectors of the dimension. -/
def Takes (s : σ) : Prop :=
  ∀ vs : List V, (∀ v ∈ vs, VectorStore.dimOf σ v = VectorStore.dim σ) →
    (vs.foldlM VectorStore.push s).isSome

omit [LinearOrder δ] [OrderTop δ] [Heap (Scored.dist : Scored δ → δ)] in
/-- One of them, and then any others. -/
theorem Takes.push {s : σ} (h : Takes s) {v : V}
    (hv : VectorStore.dimOf σ v = VectorStore.dim σ) :
    ∃ s', VectorStore.push s v = some s' ∧ Takes s' := by
  have hcons : ∀ vs : List V, (∀ w ∈ vs, VectorStore.dimOf σ w = VectorStore.dim σ) →
      ((VectorStore.push s v).bind fun s' => vs.foldlM VectorStore.push s').isSome := by
    intro vs hvs
    have hall := h (v :: vs) fun w hw => (List.mem_cons.mp hw).elim (fun heq => heq ▸ hv) (hvs w)
    rwa [List.foldlM_cons] at hall
  cases hpush : VectorStore.push s v with
  | none =>
    rw [hpush] at hcons
    exact absurd (hcons [] fun w hw => absurd hw List.not_mem_nil) Bool.false_ne_true
  | some s' =>
    rw [hpush] at hcons
    exact ⟨s', rfl, hcons⟩

/-- A call on a sound graph whose store takes its vectors succeeds. -/
theorem exists_call {g : AnnGraph σ} (h : Model.Sound g) (htakes : Takes g.store)
    (hcap : 8 * g.config.m < 2 ^ 63) {call : GraphCall V} (hdim : OfDimension σ [call])
    (hroom : g.ids.length + (insertedIds [call]).length ≤ 2 ^ 32) :
    ∃ g', g.call call = some g' ∧ Takes g'.store := by
  cases call with
  | insert id v level =>
    have hlt : g.ids.length < 2 ^ 32 := Nat.lt_of_succ_le hroom
    have hv := hdim id v level List.mem_cons_self
    obtain ⟨store, hpush, htakes'⟩ := htakes.push hv
    obtain ⟨g', hinsert, hi⟩ := h.insert id level hpush hv hlt fun _ => hcap
    exact ⟨g', hinsert, hi.store.symm ▸ htakes'⟩
  | remove id =>
    obtain ⟨g', hremove, hr⟩ := h.remove id
    refine ⟨g', hremove, ?_⟩
    rw [hr.same]
    exact htakes

/-- **Runs succeed** from a sound graph whose store takes their vectors. -/
theorem exists_run {g : AnnGraph σ} (h : Model.Sound g) (htakes : Takes g.store)
    (hcap : 8 * g.config.m < 2 ^ 63) {calls : List (GraphCall V)} (hdim : OfDimension σ calls)
    (hroom : g.ids.length + (insertedIds calls).length ≤ 2 ^ 32) :
    ∃ g', runCalls g calls = some g' := by
  induction calls generalizing g with
  | nil => exact ⟨g, rfl⟩
  | cons call calls ih =>
    obtain ⟨hfirst, hrest⟩ := ofDimension_cons hdim
    rw [insertedIds_cons, List.length_append] at hroom
    obtain ⟨g₁, hcall, htakes₁⟩ := exists_call h htakes hcap hfirst (by omega)
    have h₁ := ran_call h hfirst (by omega) hcall
    obtain ⟨g', hrun⟩ := ih h₁.sound htakes₁ (h₁.config.symm ▸ hcap) hrest
      (by rw [h₁.ids, List.length_append]; omega)
    refine ⟨g', ?_⟩
    rw [runCalls, List.foldlM_cons, hcall]
    exact hrun

/-- The limits within which a run from the empty graph succeeds. -/
theorem exists_run_new (config : AnnConfig) {calls : List (GraphCall V)}
    (hdim : OfDimension σ calls) (hroom : (insertedIds calls).length ≤ 2 ^ 32)
    (hsplits : config.quantizer.Splits (VectorStore.dim σ)) (hcap : config.m < 2 ^ 60) :
    ∃ g : AnnGraph σ, runCalls (AnnGraph.new config) calls = some g := by
  have hdegree : 8 * (AnnGraph.new config : AnnGraph σ).config.m < 2 ^ 63 := by
    show 8 * config.m < 2 ^ 63
    omega
  refine exists_run (sound_new config) (fun vs hvs => ?_) hdegree hdim ?_
  · exact VectorStore.isSome_pushes config.quantizer vs hsplits hvs
  · rwa [show (AnnGraph.new config : AnnGraph σ).ids = [] from rfl, List.length_nil, Nat.zero_add]

/-- A run from the empty graph. -/
theorem ran_new (config : AnnConfig) {calls : List (GraphCall V)} {g : AnnGraph σ}
    (hdim : OfDimension σ calls) (hroom : (insertedIds calls).length ≤ 2 ^ 32)
    (hrun : runCalls (AnnGraph.new config) calls = some g) : Ran (AnnGraph.new config) g calls := by
  refine ran_of_run (sound_new config) hdim ?_ hrun
  rwa [show (AnnGraph.new config : AnnGraph σ).ids = [] from rfl, List.length_nil, Nat.zero_add]

/-- The number of the node an insertion makes. -/
theorem ids_insert {g g' : AnnGraph σ} {id : Id} {v : V} {level : ℕ}
    (h : g.insert id v level = some g') :
    g'.ids = g.ids ++ [id] ∧ g'.byId = g.byId.insert id (g.ids.length % 2 ^ 32) := by
  obtain ⟨g₁, store, hremove, -, hsame, -⟩ := same_insert h
  have hids : g₁.ids = g.ids := by rw [same_remove hremove]
  have hbyId : g₁.byId = g.byId := by rw [same_remove hremove]
  rw [hsame, ← hids, ← hbyId]
  exact ⟨rfl, rfl⟩

/-- Degrees from `2 ^ 60` on: the second node panics where its neighbours are allocated. -/
theorem insert_crowded {g : AnnGraph σ} (hentry : g.entry ≠ none) (hm : 2 ^ 60 ≤ g.config.m)
    (id : Id) (v : V) (level : ℕ) : g.insert id v level = none := by
  cases hinsert : g.insert id v level with
  | none => rfl
  | some g' =>
    have hroom := room_of_insert hinsert hentry
    omega

end Runs

/-! ## A quantizer that does not split the dimension -/

section Collecting

variable {δ : Type} [Kernels δ] [Dimension] [LinearOrder δ] [OrderTop δ]
  [Heap (Scored.dist : Scored δ → δ)]

/-- The store still collects the vectors that its codebook is to be trained on. -/
def Collecting (m : ℕ) (s : GraphStore) : Prop :=
  ∃ warmup codes, s.store = .pq none warmup codes m ∧ warmup.length = s.count * Dimension.dim ∧
    s.count < PQ_TRAIN_SIZE

omit [Dimension] [LinearOrder δ] [OrderTop δ] [Heap (Scored.dist : Scored δ → δ)] in
/-- Training panics under subspaces that do not split the dimension. -/
theorem pqTrain_uneven {dim m : ℕ} (hm : ¬ m ∣ dim) (sample : List (List F32)) (iters : ℕ) :
    pqTrain sample dim m iters = none := by
  rw [pqTrain, if_neg fun h => hm (Nat.dvd_of_mod_eq_zero h.2)]

omit [LinearOrder δ] [OrderTop δ] [Heap (Scored.dist : Scored δ → δ)] in
/-- A push keeps the store collecting, or panics. -/
theorem Collecting.push {m : ℕ} {s s' : GraphStore} (h : Collecting m s)
    (hm : ¬ m ∣ Dimension.dim) {v : List F32} (hv : v.length = Dimension.dim)
    (hpush : s.push v = some s') : Collecting m s' := by
  obtain ⟨warmup, codes, hstore, hlength, hfew⟩ := h
  have hdim : 0 < Dimension.dim := Nat.pos_of_ne_zero fun hzero => hm (hzero ▸ dvd_zero m)
  have hcollected : (warmup ++ v).length = (s.count + 1) * Dimension.dim := by
    rw [List.length_append, hlength, hv, Nat.succ_mul]
  have hcount : (warmup ++ v).length / Dimension.dim = s.count + 1 := by
    rw [hcollected, Nat.mul_div_cancel _ hdim]
  obtain ⟨store, hstored, rfl⟩ := Option.map_eq_some_iff.mp hpush
  rw [hstore, Store.push, hv, hcount] at hstored
  split at hstored
  · rw [Store.trained, trainPq, pqTrain_uneven hm] at hstored
    cases hstored
  · rename_i hlimit
    cases hstored
    exact ⟨warmup ++ v, codes, rfl, hcollected, Nat.lt_of_not_le fun hge => hlimit ⟨hdim, hge⟩⟩

/-- **Runs** that succeed under subspaces that do not split the dimension never train: the store
    keeps collecting. -/
theorem collecting_run {m : ℕ} (hm : ¬ m ∣ Dimension.dim) {g g' : AnnGraph GraphStore}
    (h : Collecting m g.store) {calls : List (GraphCall (List F32))}
    (hdim : OfDimension GraphStore calls) (hrun : runCalls g calls = some g') :
    Collecting m g'.store := by
  induction calls generalizing g with
  | nil =>
    cases hrun
    exact h
  | cons call calls ih =>
    obtain ⟨hfirst, hrest⟩ := ofDimension_cons hdim
    rw [runCalls, List.foldlM_cons] at hrun
    obtain ⟨g₁, hcall, hrun⟩ := Option.bind_eq_some_iff.mp hrun
    refine ih ?_ hrest hrun
    cases call with
    | insert id v level =>
      obtain ⟨g₀, store, -, hpush, hsame, -⟩ := same_insert hcall
      have hstore : g₁.store = store := by rw [hsame]; rfl
      rw [hstore]
      exact h.push hm (hfirst id v level List.mem_cons_self) hpush
    | remove id =>
      rw [same_remove hcall]
      exact h

/-- No run of `PQ_TRAIN_SIZE` insertions succeeds under subspaces that do not split the
    dimension. -/
theorem uneven_run_panics {config : AnnConfig} {m : ℕ} (hq : config.quantizer = .pq m)
    (hm : ¬ m ∣ Dimension.dim) {calls : List (GraphCall (List F32))}
    (hdim : OfDimension GraphStore calls) (hroom : (insertedIds calls).length ≤ 2 ^ 32)
    (hmany : PQ_TRAIN_SIZE ≤ (insertedIds calls).length) :
    runCalls (AnnGraph.new config : AnnGraph GraphStore) calls = none := by
  cases hrun : runCalls (AnnGraph.new config : AnnGraph GraphStore) calls with
  | none => rfl
  | some g =>
    have hnew : Collecting m (AnnGraph.new config : AnnGraph GraphStore).store := by
      have hfew : 0 < PQ_TRAIN_SIZE := by decide
      refine ⟨[], .inRam, ?_, (Nat.zero_mul _).symm, hfew⟩
      show Store.empty config.quantizer = _
      rw [hq]
      rfl
    obtain ⟨-, -, -, -, hfew⟩ := collecting_run hm hnew hdim hrun
    have h := ran_new config hdim hroom hrun
    have hcount : g.store.count = (insertedIds calls).length := by
      have hsize : g.store.count = g.ids.length := h.sound.store
      rw [hsize, h.ids]
      rfl
    omega

end Collecting

/-- Kernels that find every vector at one place. -/
abbrev flatKernels : Kernels Bool where
  sqAffine _ := (⟨0⟩, ⟨0⟩)
  sqCode _ _ _ := 0
  codeSum _ := ⟨0⟩
  kmeans points subDim k _ := List.replicate (max (min k points.length) 1 * subDim) ⟨0⟩
  nearest _ _ _ := 0
  dot _ _ := false
  dotQuery _ _ _ := false
  dotCodes _ _ _ _ := false
  bqDotQuery _ _ := false
  bqDotCodes _ _ _ := false
  pqDotQuery _ _ _ := false
  pqDotCodes _ _ _ := false
  decode _ _ := []
  bqDecode _ _ := []
  pqDecode _ _ := []
  length_kmeans _ _ _ _ _ := List.length_replicate

section Flat

local instance : Kernels Bool := flatKernels

local instance : Dimension := ⟨1⟩

local instance : Heap (Scored.dist : Scored Bool → Bool) := selectHeap _

/-- A vector of one element. -/
abbrev oneVector : List F32 := [⟨0x3f800000⟩]

/-- The same insertion, so many times. -/
abbrev repeated (n : ℕ) : List (GraphCall (List F32)) :=
  List.replicate n (.insert "a" oneVector 0)

/-- Repeated insertions have one dimension. -/
theorem ofDimension_repeated (n : ℕ) : OfDimension GraphStore (repeated n) := by
  intro id v level hmem
  cases (List.mem_replicate.mp hmem).2
  rfl

/-- They insert one id again and again. -/
theorem insertedIds_repeated (n : ℕ) : insertedIds (repeated n) = List.replicate n "a" := by
  induction n with
  | zero => rfl
  | succ n ih =>
    rw [repeated, List.replicate_succ, List.replicate_succ, ← ih]
    rfl

/-- After `2 ^ 32` insertions of one id, the next node gets the number of the first: the table
    no longer holds the most recent node. -/
theorem node_numbers_wrap :
    ¬ ∃ g : AnnGraph GraphStore, runCalls (AnnGraph.new ⟨1, 4, 4, .none⟩)
        (repeated (2 ^ 32 + 1)) = some g ∧
      ∀ (id : Id) (n : ℕ), g.byId[id]? = some n ↔ IsLast g.ids id n := by
  rintro ⟨g, hrun, hlast⟩
  rw [repeated, List.replicate_succ', runCalls, List.foldlM_append] at hrun
  obtain ⟨g₀, hrun₀, hinsert⟩ := Option.bind_eq_some_iff.mp hrun
  have h := ran_new ⟨1, 4, 4, .none⟩ (ofDimension_repeated (2 ^ 32))
    (by rw [insertedIds_repeated, List.length_replicate]) hrun₀
  have hlen : g₀.ids.length = 2 ^ 32 := by
    rw [h.ids, insertedIds_repeated]
    exact List.length_replicate
  obtain ⟨g₁, hinsert, hpure⟩ := Option.bind_eq_some_iff.mp
    (show (g₀.insert "a" oneVector 0).bind some = some g from hinsert)
  cases hpure
  obtain ⟨hids, hbyId⟩ := ids_insert hinsert
  have hzero : g.byId["a"]? = some 0 := by
    rw [hbyId, hlen, Table.get_insert, if_pos rfl, Nat.mod_self]
  obtain ⟨-, hmax⟩ := (hlast "a" 0).mp hzero
  have hle := hmax (2 ^ 32) (by rw [hids, ← hlen, List.getElem?_concat_length])
  exact absurd hle (by decide)

end Flat

end Rro.Analysis
