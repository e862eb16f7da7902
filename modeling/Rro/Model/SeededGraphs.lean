import Rro.Model.AnnCodec
import Rro.Model.GraphInsertion
import Rro.Model.GraphStores

/-!
# Graphs over the store of vectors

`Kept` is what every run of calls keeps of the graph and of its store. `Agree` relates two
graphs that differ in where their vectors are: every search gives the same result, and every
call leaves graphs that agree again.
-/

set_option autoImplicit false

namespace Rro.Model

open Rro.Library Rro.Program

/-! ## Stores in memory -/

/-- No element is in a file. -/
def InRam : Store → Prop
  | .full vectors => vectors.base = none
  | .sq8 codes _ => codes.base = none
  | .bq bits => bits.base = none
  | .pq _ _ codes _ => codes.base = none

/-- Nothing collected waits for its codebook. -/
def Sealed : Store → Prop
  | .pq none warmup _ _ => warmup = []
  | _ => True

instance : DecidablePred Sealed
  | .pq none warmup _ _ => inferInstanceAs (Decidable (warmup = []))
  | .pq (some _) _ _ _ => inferInstanceAs (Decidable True)
  | .full _ => inferInstanceAs (Decidable True)
  | .sq8 _ _ => inferInstanceAs (Decidable True)
  | .bq _ => inferInstanceAs (Decidable True)

section Stores

variable {δ : Type} [Kernels δ] {dim : ℕ}

/-- A vector in memory is its blocks. -/
theorem ram_of_stores {T : Type} [Pod T] {unit : ℕ} {m : MappedVec T} {nodes : List (List T)}
    (h : Stores unit m nodes) (hram : m.base = none) : m = ⟨none, 0, nodes.flatten⟩ := by
  obtain ⟨base, baseLen, tail⟩ := m
  obtain ⟨stored, fresh, rfl, rfl, hbase⟩ := h.split
  cases hram
  obtain ⟨rfl, rfl⟩ := hbase
  rfl

/-- A store in memory is the one its contents give. -/
theorem eq_ramStore {s : Store} {c : Contents} (h : Represents dim s c) (hram : InRam s) :
    s = ramStore c := by
  match s, c, h with
  | .full vectors, .full nodes, h => exact congrArg Store.full (ram_of_stores h hram)
  | .sq8 codes params, .sq8 nodes, ⟨hcodes, hparams⟩ =>
    rw [hparams, ram_of_stores hcodes hram]
    rfl
  | .bq bits, .bq nodes, h => exact congrArg Store.bq (ram_of_stores h hram)
  | .pq none warmup codes m, .warming m' nodes, ⟨hm, hblocks, hwarmup, hcodes, hfew⟩ =>
    rw [hm, hwarmup, hcodes]
    rfl
  | .pq (some cb) warmup codes m, .pq cb' nodes, ⟨hcb, hm, hok, hwarmup, hcodes⟩ =>
    subst hcb hm
    rw [hwarmup, ram_of_stores hcodes hram]
    rfl

/-- A trained store is in memory and keeps its number of subspaces. -/
theorem quantizer_trained {warmup : List F32} {codes : MappedVec UInt8} {m d : ℕ} {s : Store}
    (hram : codes.base = none) (h : Store.trained warmup codes m d = some s) :
    InRam s ∧ s.quantizer = .pq m := by
  obtain ⟨cb, -, h⟩ := Option.bind_eq_some_iff.mp h
  obtain ⟨blocks, -, h⟩ := Option.bind_eq_some_iff.mp h
  cases h
  exact ⟨hram, rfl⟩

/-- A push stays in memory, under the same quantizer. -/
theorem inRam_push {s s' : Store} {v : List F32} (hram : InRam s) (h : s.push v = some s') :
    InRam s' ∧ s'.quantizer = s.quantizer := by
  match s, h with
  | .full vectors, h =>
    cases h
    exact ⟨hram, rfl⟩
  | .sq8 codes params, h =>
    cases h
    exact ⟨hram, rfl⟩
  | .bq bits, h =>
    cases h
    exact ⟨hram, rfl⟩
  | .pq (some cb) warmup codes m, h =>
    rw [push_encoding] at h
    obtain ⟨added, -, h⟩ := Option.bind_eq_some_iff.mp h
    cases h
    exact ⟨hram, rfl⟩
  | .pq none warmup codes m, h =>
    rw [push_collecting] at h
    split at h
    · exact quantizer_trained hram h
    · cases h
      exact ⟨hram, rfl⟩

/-- Sealing keeps a store in memory and its quantizer. -/
theorem inRam_seal {s s' : Store} {d : ℕ} (hram : InRam s) (h : s.sealWithDim d = some s') :
    InRam s' ∧ s'.quantizer = s.quantizer := by
  unfold Store.sealWithDim at h
  split at h
  · split at h
    · exact quantizer_trained hram h
    · cases h
      exact ⟨hram, rfl⟩
  · cases h
    exact ⟨hram, rfl⟩

/-- A graph without vectors has nothing to seal. -/
theorem sealWithDim_zero (s : Store) : s.sealWithDim 0 = some s := by
  unfold Store.sealWithDim
  split
  · exact if_neg fun h => absurd h.2 (lt_irrefl 0)
  · rfl

/-- Sealing an empty store changes nothing. -/
theorem sealWithDim_empty (quantizer : Quantizer) (d : ℕ) :
    (Store.empty quantizer).sealWithDim d = some (.empty quantizer) := by
  cases quantizer with
  | pq m =>
    unfold Store.empty Store.sealWithDim
    exact if_neg fun h => h.1 rfl
  | none | sq8 | bq => rfl

/-- The contents of a sealed store are sealed. -/
theorem isSealed_of_sealed {s : Store} {c : Contents} (hdim : 0 < dim) (h : Represents dim s c)
    (hsealed : Sealed s) : c.IsSealed := by
  match s, c, h with
  | .full vectors, .full nodes, _ => trivial
  | .sq8 codes params, .sq8 nodes, _ => trivial
  | .bq bits, .bq nodes, _ => trivial
  | .pq (some cb) warmup codes m, .pq cb' nodes, _ => trivial
  | .pq none warmup codes m, .warming m' nodes, ⟨hm, hblocks, hwarmup, hcodes, hfew⟩ =>
    have hlen := length_flatten_blocks hblocks
    have hnil : warmup = [] := hsealed
    rw [← hwarmup, hnil, List.length_nil] at hlen
    have hzero : nodes.length = 0 := (Nat.mul_eq_zero.mp hlen.symm).resolve_right hdim.ne'
    exact List.length_eq_zero_iff.mp hzero

/-- Stores of the same contents take the same vector, or neither does. -/
theorem rel_push {s s' : Store} {c : Contents} (hdim : 0 < dim) (h : Represents dim s c)
    (h' : Represents dim s' c) {v : List F32} (hv : v.length = dim) :
    Option.Rel (fun s s' => ∃ c', Represents dim s c' ∧ Represents dim s' c' ∧
      c'.size = c.size + 1) (s.push v) (s'.push v) := by
  obtain ⟨hpush, hnone⟩ | ⟨s₁, c₁, hpush, hsome, hrep, hsize⟩ := represents_push hdim h hv
  · obtain ⟨hpush', -⟩ | ⟨s₁', c₁', -, hsome', -⟩ := represents_push hdim h' hv
    · rw [hpush, hpush']
      exact .none
    · rw [hnone] at hsome'
      cases hsome'
  · obtain ⟨-, hnone'⟩ | ⟨s₁', c₁', hpush', hsome', hrep', -⟩ := represents_push hdim h' hv
    · rw [hsome] at hnone'
      cases hnone'
    · rw [hsome] at hsome'
      cases hsome'
      rw [hpush, hpush']
      exact .some ⟨c₁, hrep, hrep', hsize⟩

/-- Stores with the same contents are sealed to stores with the same contents. -/
theorem rel_seal {s s' : Store} {c : Contents} (hdim : 0 < dim) (h : Represents dim s c)
    (h' : Represents dim s' c) :
    Option.Rel (fun s s' => ∃ c', Represents dim s c' ∧ Represents dim s' c' ∧ c'.size = c.size)
      (s.sealWithDim dim) (s'.sealWithDim dim) := by
  obtain ⟨hseal, hnone⟩ | ⟨s₁, c₁, hseal, hsome, hrep, hsize⟩ := represents_seal hdim h
  · obtain ⟨hseal', -⟩ | ⟨s₁', c₁', -, hsome', -⟩ := represents_seal hdim h'
    · rw [hseal, hseal']
      exact .none
    · rw [hnone] at hsome'
      cases hsome'
  · obtain ⟨-, hnone'⟩ | ⟨s₁', c₁', hseal', hsome', hrep', -⟩ := represents_seal hdim h'
    · rw [hsome] at hnone'
      cases hnone'
    · rw [hsome] at hsome'
      cases hsome'
      rw [hseal, hseal']
      exact .some ⟨c₁, hrep, hrep', hsize⟩

/-- An empty store has no contents. -/
theorem represents_empty (quantizer : Quantizer) :
    ∃ c, Represents dim (.empty quantizer) c ∧ c.size = 0 := by
  cases quantizer with
  | none => exact ⟨.full [], stores_inRam dim, rfl⟩
  | sq8 => exact ⟨.sq8 [], ⟨stores_inRam dim, rfl⟩, rfl⟩
  | bq => exact ⟨.bq [], stores_inRam _, rfl⟩
  | pq m => exact ⟨.warming m [], ⟨rfl, equalBlocks_nil dim, rfl, rfl, by decide⟩, rfl⟩

end Stores

variable {δ : Type} [Kernels δ] [Dimension] [LinearOrder δ] [OrderTop δ]

/-- Stores of the same contents read alike. -/
theorem sameReads_of_contents {s s' : GraphStore} {c : Contents} (hdim : 0 < Dimension.dim)
    (h : Represents Dimension.dim s.store c) (h' : Represents Dimension.dim s'.store c)
    (hcount : s.count = c.size) (hcount' : s'.count = c.size) : SameReads s s' where
  size := hcount'.trans hcount.symm
  distTo node hnode q := by
    have hlt : node < c.size := hcount ▸ hnode
    have heq : (s'.store.distQuery Dimension.dim node q : Option δ) =
        s.store.distQuery Dimension.dim node q := by
      rw [distQuery_eq hdim h' hlt, distQuery_eq hdim h hlt]
    exact congrArg (Option.getD · ⊤) heq
  distNodes a ha b hb := by
    have hlt : a < c.size := hcount ▸ ha
    have hlt' : b < c.size := hcount ▸ hb
    have heq : (s'.store.distNodes Dimension.dim a b : Option δ) =
        s.store.distNodes Dimension.dim a b := by
      rw [distNodes_eq hdim h' hlt hlt', distNodes_eq hdim h hlt hlt']
    exact congrArg (Option.getD · ⊤) heq
  materialize node hnode := by
    have hlt : node < c.size := hcount ▸ hnode
    have heq : s'.store.materialize Dimension.dim node = s.store.materialize Dimension.dim node := by
      rw [materialize_eq hdim h' hlt, materialize_eq hdim h hlt]
    exact congrArg (Option.getD · []) heq

/-- A push of a graph's store is a push of the store it counts. -/
theorem pushStore_eq (s : GraphStore) (v : List F32) :
    VectorStore.push s v = (s.store.push v).map fun store => ⟨store, s.count + 1⟩ := rfl

variable [Heap (Scored.dist : Scored δ → δ)]

/-- An insertion panics with the push of its vector. -/
theorem insert_stuck {graph : AnnGraph GraphStore} {v : List F32}
    (h : VectorStore.push graph.store v = none) (id : Id) (level : ℕ) :
    graph.insert id v level = none := by
  cases hinsert : graph.insert id v level with
  | none => rfl
  | some g' =>
    obtain ⟨g₁, store, -, hpush, -⟩ := same_insert hinsert
    rw [h] at hpush
    cases hpush

omit [Kernels δ] [LinearOrder δ] [OrderTop δ] [Heap (Scored.dist : Scored δ → δ)] in
/-- The vectors inserted have the dimension of the graph. -/
def OfDim (calls : List SeededCall) : Prop :=
  ∀ id v, SeededCall.insert id v ∈ calls → v.length = Dimension.dim

/-! ## Graphs that agree -/

/-- The graphs are the same, except for where the vectors are that both hold. -/
structure Agree (g g' : SeededGraph) : Prop where
  same : g'.graph = AnnGraph.withStore g.graph g'.graph.store
  rng : g'.rng = g.rng
  dim : g.graph.dim = none ∨ g.graph.dim = some Dimension.dim
  vectors : ∃ c, Represents Dimension.dim g.graph.store.store c ∧
    Represents Dimension.dim g'.graph.store.store c ∧ g.graph.store.count = c.size ∧
    g'.graph.store.count = c.size

variable {g g' : SeededGraph}

/-- **Searches** of graphs that agree. -/
theorem Agree.search (h : Agree g g') (hdim : 0 < Dimension.dim) (query : List F32) (k ef : ℕ) :
    (g'.graph.search query k ef : Option (List (Id × δ))) = g.graph.search query k ef := by
  obtain ⟨c, hc, hc', hcount, hcount'⟩ := h.vectors
  rw [h.same]
  exact search_withStore (sameReads_of_contents hdim hc hc' hcount hcount') query k ef

/-- Insertions into graphs that agree. -/
theorem Agree.insert [LevelDraw] (h : Agree g g') (hdim : 0 < Dimension.dim) (id : Id)
    {v : List F32} (hv : v.length = Dimension.dim) :
    Option.Rel Agree (g.call (.insert id v)) (g'.call (.insert id v)) := by
  obtain ⟨graph, rng₀⟩ := g
  obtain ⟨graph', rng⟩ := g'
  obtain ⟨hsame, hrng, hgdim, c, hc, hc', hcount, hcount'⟩ := h
  dsimp only at hsame hrng hgdim hc hc' hcount hcount'
  generalize hstore : graph'.store = store' at hsame hc' hcount'
  subst hsame hrng
  have hrel := rel_push hdim hc hc' hv
  have hconfig : (AnnGraph.withStore graph store').config = graph.config := rfl
  simp only [SeededGraph.call, bind]
  rw [hconfig]
  generalize hlevel : (nextLevel rng graph.config.m).1 = level
  cases hpush : graph.store.store.push v with
  | none =>
    rw [hpush] at hrel
    generalize hpush' : store'.store.push v = pushed' at hrel
    cases hrel
    have hstuck : VectorStore.push graph.store v = none := by
      rw [pushStore_eq, hpush]
      rfl
    have hstuck' : VectorStore.push (AnnGraph.withStore graph store').store v = none := by
      show VectorStore.push store' v = none
      rw [pushStore_eq, hpush']
      rfl
    rw [insert_stuck hstuck, insert_stuck hstuck']
    exact .none
  | some s₁ =>
    rw [hpush] at hrel
    generalize hpush' : store'.store.push v = pushed' at hrel
    obtain ⟨⟨c₁, hrep, hrep', hsize⟩⟩ := hrel
    rename_i s₁'
    have hpushed : VectorStore.push graph.store v = some ⟨s₁, graph.store.count + 1⟩ := by
      rw [pushStore_eq, hpush]
      rfl
    have hpushed' : VectorStore.push store' v = some ⟨s₁', store'.count + 1⟩ := by
      rw [pushStore_eq, hpush']
      rfl
    have hcount₁ : graph.store.count + 1 = c₁.size := by rw [hcount, hsize]
    have hcount₁' : store'.count + 1 = c₁.size := by rw [hcount', hsize]
    rw [insert_withStore graph id level hpushed hpushed'
      (sameReads_of_contents hdim hrep hrep' hcount₁ hcount₁')]
    cases hrun : graph.insert id v level with
    | none => exact .none
    | some h =>
      obtain ⟨g₁, store₁, hremove, hpush₁, hinserted, -⟩ := same_insert hrun
      have hstore₁ : h.store = ⟨s₁, graph.store.count + 1⟩ := by
        rw [hinserted]
        exact Option.some.inj (hpush₁.symm.trans hpushed)
      refine .some ⟨rfl, rfl, Or.inr ?_, c₁, ?_, hrep', ?_, hcount₁'⟩
      · rw [hinserted, same_remove hremove]
        have hdims : graph.dim.getD v.length = Dimension.dim := by
          cases hgdim with
          | inl hnone => rw [hnone, Option.getD_none, hv]
          | inr hsome => rw [hsome, Option.getD_some]
        exact congrArg some hdims
      · rw [hstore₁]
        exact hrep
      · rw [hstore₁]
        exact hcount₁

/-- Removals from graphs that agree. -/
theorem Agree.remove [LevelDraw] (h : Agree g g') (id : Id) :
    Option.Rel Agree (g.call (.remove id)) (g'.call (.remove id)) := by
  obtain ⟨graph, rng₀⟩ := g
  obtain ⟨graph', rng⟩ := g'
  obtain ⟨hsame, hrng, hgdim, c, hc, hc', hcount, hcount'⟩ := h
  dsimp only at hsame hrng hgdim hc hc' hcount hcount'
  generalize hstore : graph'.store = store' at hsame hc' hcount'
  subst hsame hrng
  simp only [SeededGraph.call]
  rw [remove_withStore]
  cases hrun : graph.remove id with
  | none => exact .none
  | some h =>
    have hremoved := same_remove hrun
    refine .some ⟨rfl, rfl, ?_, c, ?_, hc', ?_, hcount'⟩
    · rw [hremoved]
      exact hgdim
    · rw [hremoved]
      exact hc
    · rw [hremoved]
      exact hcount

/-- Graphs that agree, sealed. -/
theorem Agree.seal [LevelDraw] (h : Agree g g') (hdim : 0 < Dimension.dim) :
    Option.Rel Agree (g.call .seal_) (g'.call .seal_) := by
  obtain ⟨graph, rng₀⟩ := g
  obtain ⟨graph', rng⟩ := g'
  obtain ⟨hsame, hrng, hgdim, c, hc, hc', hcount, hcount'⟩ := h
  dsimp only at hsame hrng hgdim hc hc' hcount hcount'
  generalize hstore : graph'.store = store' at hsame hc' hcount'
  subst hsame hrng
  have hseal : Option.Rel (fun s s' => ∃ c', Represents Dimension.dim s c' ∧
      Represents Dimension.dim s' c' ∧ c'.size = c.size)
      (graph.store.store.sealWithDim (graph.dim.getD 0))
      (store'.store.sealWithDim (graph.dim.getD 0)) := by
    cases hgdim with
    | inl hnone =>
      rw [hnone, Option.getD_none, sealWithDim_zero, sealWithDim_zero]
      exact .some ⟨c, hc, hc', rfl⟩
    | inr hsome =>
      rw [hsome, Option.getD_some]
      exact rel_seal hdim hc hc'
  simp only [SeededGraph.call, AnnGraph.withStore, bind]
  generalize graph.store.store.sealWithDim (graph.dim.getD 0) = sealed at hseal
  generalize store'.store.sealWithDim (graph.dim.getD 0) = sealed' at hseal
  cases hseal with
  | none => exact .none
  | some hrel =>
    obtain ⟨c', hrep, hrep', hsize⟩ := hrel
    exact .some ⟨rfl, rfl, hgdim, c', hrep, hrep', hcount.trans hsize.symm,
      hcount'.trans hsize.symm⟩

/-- **A call** on graphs that agree. -/
theorem Agree.call [LevelDraw] (h : Agree g g') (hdim : 0 < Dimension.dim) (call : SeededCall)
    (hcall : OfDim [call]) : Option.Rel Agree (g.call call) (g'.call call) := by
  cases call with
  | insert id v => exact h.insert hdim id (hcall id v List.mem_cons_self)
  | remove id => exact h.remove id
  | seal_ => exact h.seal hdim

/-! ## What runs keep -/

/-- **The invariant** of the runs under a configuration. -/
structure Kept (config : AnnConfig) (g : SeededGraph) : Prop where
  sound : Sound g.graph
  bounded : Bounded g.graph
  configured : g.graph.config = config
  dim : g.graph.dim = none ∧ g.graph.ids = [] ∨ g.graph.dim = some Dimension.dim
  level : ∀ e top, g.graph.entry = some (e, top) → top ≤ 16
  quantizer : g.graph.store.store.quantizer = config.quantizer
  inRam : InRam g.graph.store.store
  empty : g.graph.ids = [] → g.graph.store.store = .empty config.quantizer
  vectors : ∃ c, Represents Dimension.dim g.graph.store.store c ∧ g.graph.store.count = c.size

variable {config : AnnConfig}

omit [Heap (Scored.dist : Scored δ → δ)] in
/-- A new graph is kept. -/
theorem kept_new (config : AnnConfig) : Kept config (.new config) where
  sound := sound_new config
  bounded := bounded_new config
  configured := rfl
  dim := Or.inl ⟨rfl, rfl⟩
  level e top h := by cases h
  quantizer := by
    have hquantizer : ∀ q, (Store.empty q).quantizer = q := fun q => by cases q <;> rfl
    exact hquantizer config.quantizer
  inRam := by
    have hram : ∀ q, InRam (.empty q) := fun q => by cases q <;> rfl
    exact hram config.quantizer
  empty _ := rfl
  vectors := by
    obtain ⟨c, hc, hsize⟩ := represents_empty config.quantizer
    exact ⟨c, hc, hsize.symm⟩

/-- **Runs** of graphs that agree. -/
theorem Agree.run [LevelDraw] (h : Agree g g') (hdim : 0 < Dimension.dim)
    (calls : List SeededCall) (hcalls : OfDim calls) :
    Option.Rel Agree (g.run calls) (g'.run calls) := by
  induction calls generalizing g g' with
  | nil => exact .some h
  | cons call calls ih =>
    have hfirst := h.call hdim call fun id v hmem => hcalls id v (by
      rw [List.mem_singleton.mp hmem]
      exact List.mem_cons_self)
    unfold SeededGraph.run at ih ⊢
    rw [List.foldlM_cons, List.foldlM_cons]
    generalize g.call call = next at hfirst
    generalize g'.call call = next' at hfirst
    cases hfirst with
    | none => exact .none
    | some hnext => exact ih hnext fun id v hmem => hcalls id v (List.mem_cons_of_mem _ hmem)

/-- An insertion keeps the invariant. -/
theorem Kept.insert [LevelDraw] (h : Kept config g) (hdim : 0 < Dimension.dim) {id : Id}
    {v : List F32} (hv : v.length = Dimension.dim) (hroom : g.graph.ids.length < 2 ^ 32)
    (hrun : g.call (.insert id v) = some g') : Kept config g' := by
  obtain ⟨c, hc, hcount⟩ := h.vectors
  obtain ⟨graph, hinsert, hrun⟩ := Option.bind_eq_some_iff.mp hrun
  cases hrun
  have hinsert : g.graph.insert id v (nextLevel g.rng g.graph.config.m).1 = some graph := hinsert
  obtain ⟨pushed, hpushed, hi⟩ := h.sound.insert_of_some hv hroom hinsert
  obtain ⟨s₁, hpush, rfl⟩ := Option.map_eq_some_iff.mp hpushed
  obtain ⟨g₁, _, hremove, -, hinserted, hentry⟩ := same_insert hinsert
  have hstore : graph.store = ⟨s₁, g.graph.store.count + 1⟩ := hi.store
  obtain ⟨hram, hquantizer⟩ := inRam_push h.inRam hpush
  obtain ⟨hnone, -⟩ | ⟨s₂, c₁, hpush', -, hrep, hsize⟩ := represents_push hdim hc hv
  · rw [hpush] at hnone
    cases hnone
  · rw [hpush] at hpush'
    cases hpush'
    refine ⟨hi.sound, hi.bounded h.bounded, hi.config.trans h.configured, Or.inr ?_, ?_, ?_, ?_, ?_,
      c₁, ?_, ?_⟩
    · have hgdim : graph.dim = some (g.graph.dim.getD v.length) := by
        rw [hinserted, same_remove hremove]
        rfl
      rw [hgdim]
      cases h.dim with
      | inl hnone => rw [hnone.1, Option.getD_none, hv]
      | inr hsome => rw [hsome, Option.getD_some]
    · intro e top htop
      cases hentry with
      | inl hnew =>
        rw [hnew] at htop
        cases htop
        exact Nat.min_le_right _ _
      | inr hold =>
        rw [hold, same_remove hremove] at htop
        exact h.level e top htop
    · rw [hstore]
      exact hquantizer.trans h.quantizer
    · rw [hstore]
      exact hram
    · rw [hi.ids]
      exact fun hnil => absurd hnil (by simp)
    · rw [hstore]
      exact hrep
    · rw [hstore, hsize, ← hcount]

/-- A removal keeps the invariant. -/
theorem Kept.remove [LevelDraw] (h : Kept config g) {id : Id}
    (hrun : g.call (.remove id) = some g') : Kept config g' := by
  obtain ⟨c, hc, hcount⟩ := h.vectors
  obtain ⟨graph, hremove, hrun⟩ := Option.map_eq_some_iff.mp hrun
  cases hrun
  obtain ⟨graph', hremove', hretired⟩ := h.sound.remove id
  rw [hremove] at hremove'
  cases hremove'
  have hsame := same_remove hremove
  refine ⟨hretired.sound h.sound, ?_, ?_, ?_, ?_, ?_, ?_, ?_, c, ?_, ?_⟩ <;> rw [hsame]
  · exact h.bounded
  · exact h.configured
  · exact h.dim
  · exact h.level
  · exact h.quantizer
  · exact h.inRam
  · exact h.empty
  · exact hc
  · exact hcount

/-- Sealing keeps the invariant. -/
theorem Kept.seal [LevelDraw] (h : Kept config g) (hdim : 0 < Dimension.dim)
    (hrun : g.call .seal_ = some g') : Kept config g' := by
  obtain ⟨c, hc, hcount⟩ := h.vectors
  obtain ⟨s₁, hseal, hrun⟩ := Option.bind_eq_some_iff.mp hrun
  cases hrun
  obtain ⟨hram, hquantizer⟩ := inRam_seal h.inRam hseal
  have hcontents : ∃ c, Represents Dimension.dim s₁ c ∧ g.graph.store.count = c.size := by
    cases h.dim with
    | inl hnone =>
      rw [hnone.1, Option.getD_none, sealWithDim_zero] at hseal
      cases hseal
      exact ⟨c, hc, hcount⟩
    | inr hsome =>
      rw [hsome, Option.getD_some] at hseal
      obtain ⟨hnone, -⟩ | ⟨s₂, c₁, hseal', -, hrep, hsize⟩ := represents_seal hdim hc
      · rw [hseal] at hnone
        cases hnone
      · rw [hseal] at hseal'
        cases hseal'
        exact ⟨c₁, hrep, hcount.trans hsize.symm⟩
  refine ⟨?_, h.bounded, h.configured, h.dim, h.level, hquantizer.trans h.quantizer, hram,
    ?_, hcontents⟩
  · exact { h.sound with store := h.sound.store }
  · intro hnil
    rw [h.empty hnil, sealWithDim_empty] at hseal
    exact (Option.some.inj hseal).symm

/-- **One call** keeps the invariant. -/
theorem Kept.call [LevelDraw] (h : Kept config g) (hdim : 0 < Dimension.dim) {call : SeededCall}
    (hcall : OfDim [call]) (hroom : g.graph.ids.length < 2 ^ 32) (hrun : g.call call = some g') :
    Kept config g' := by
  cases call with
  | insert id v => exact h.insert hdim (hcall id v List.mem_cons_self) hroom hrun
  | remove id => exact h.remove hrun
  | seal_ => exact h.seal hdim hrun

/-- A call takes no node away. -/
theorem length_ids_call [LevelDraw] {call : SeededCall} (hrun : g.call call = some g') :
    g.graph.ids.length ≤ g'.graph.ids.length := by
  cases call with
  | insert id v =>
    obtain ⟨graph, hinsert, hrun⟩ := Option.bind_eq_some_iff.mp hrun
    cases hrun
    obtain ⟨g₁, _, hremove, -, hinserted, -⟩ := same_insert hinsert
    have hids : graph.ids = g.graph.ids ++ [id] := by
      rw [hinserted, same_remove hremove]
      rfl
    rw [hids, List.length_append]
    exact Nat.le_add_right _ _
  | remove id =>
    obtain ⟨graph, hremove, hrun⟩ := Option.map_eq_some_iff.mp hrun
    cases hrun
    rw [same_remove hremove]
  | seal_ =>
    obtain ⟨s₁, -, hrun⟩ := Option.bind_eq_some_iff.mp hrun
    cases hrun
    exact le_rfl

/-- A run takes no node away. -/
theorem length_ids_run [LevelDraw] {calls : List SeededCall} (hrun : g.run calls = some g') :
    g.graph.ids.length ≤ g'.graph.ids.length := by
  induction calls generalizing g with
  | nil =>
    cases hrun
    exact le_rfl
  | cons call calls ih =>
    unfold SeededGraph.run at hrun
    rw [List.foldlM_cons] at hrun
    obtain ⟨g₁, hcall, hrest⟩ := Option.bind_eq_some_iff.mp hrun
    exact (length_ids_call hcall).trans (ih hrest)

/-- **Runs** keep the invariant, while the nodes fit their 32 bits. -/
theorem Kept.run [LevelDraw] (h : Kept config g) (hdim : 0 < Dimension.dim)
    {calls : List SeededCall} (hcalls : OfDim calls) (hrun : g.run calls = some g')
    (hroom : g'.graph.ids.length < 2 ^ 32) : Kept config g' := by
  induction calls generalizing g with
  | nil =>
    cases hrun
    exact h
  | cons call calls ih =>
    unfold SeededGraph.run at hrun
    rw [List.foldlM_cons] at hrun
    obtain ⟨g₁, hcall, hrest⟩ := Option.bind_eq_some_iff.mp hrun
    have hroom₁ : g.graph.ids.length < 2 ^ 32 :=
      lt_of_le_of_lt ((length_ids_call hcall).trans (length_ids_run hrest)) hroom
    have hfirst := h.call hdim (fun id v hmem => hcalls id v (by
      rw [List.mem_singleton.mp hmem]
      exact List.mem_cons_self)) hroom₁ hcall
    exact ih hfirst (fun id v hmem => hcalls id v (List.mem_cons_of_mem _ hmem)) hrest

end Rro.Model
