import Mathlib.Data.Fintype.Order
import Rro.Analysis.GraphSafety
import Rro.Model.SeededGraphs

/-!
# The round trip of the graph

A graph of a run that is sealed comes back from its blob as it was, and from its structure and
its file of vectors as a graph that agrees with it, for every later call
(`persistence_round_trip`). A product quantizer that has not been sealed loses the vectors it
has collected, and its blob is refused (`fromBytes_unsealed`). The dimension zero is written as no
dimension: a graph of vectors without elements comes back without one
(`zero_width_graph_lost`).
-/

set_option autoImplicit false

namespace Rro.Analysis

open Rro.Library Rro.Program Rro.Model

/-- The counts of the graph fit the fields they are written in, and full vectors fit in memory. -/
structure CountsFit [Dimension] (g : SeededGraph) : Prop where
  nodes : g.graph.ids.length < 2 ^ 32
  ids : ∀ id ∈ g.graph.ids, (utf8 id).length < 2 ^ 32
  dim : Dimension.dim < 2 ^ 32
  blocks : BlocksFit g.graph.config.quantizer
  room : g.graph.config.quantizer = .none → 4 * (g.graph.ids.length * Dimension.dim) < 2 ^ 63

section Formats

variable {δ : Type} [Kernels δ] [Dimension] [LinearOrder δ] [OrderTop δ]
  {g : SeededGraph} {config : AnnConfig}

/-- What a run keeps fits the head. -/
theorem headFits_of_kept (h : Kept config g) (hfits : CountsFit g) (hdim : 0 < Dimension.dim) :
    HeadFits g.graph := by
  have hnode : ∀ n L, HasLayer g.graph.links n L → n < 2 ^ 32 := by
    intro n L hn
    have hlt := lt_of_hasLayer hn
    rw [h.sound.links] at hlt
    exact hlt.trans hfits.nodes
  refine ⟨?_, ?_, ?_, hfits.nodes, hfits.ids, ?_, h.sound.deleted, h.sound.links, ?_⟩
  · intro d hd
    cases h.dim with
    | inl hnone =>
      rw [hnone.1] at hd
      cases hd
    | inr hsome =>
      rw [hsome] at hd
      cases hd
      exact ⟨hdim, hfits.dim⟩
  · have hle : g.graph.live ≤ g.graph.deleted.length := by
      rw [h.sound.live]
      exact List.count_le_length
    have hnodes := hfits.nodes
    rw [h.sound.deleted] at hle
    omega
  · intro node layer hentry
    have htop := (h.sound.entry_some node layer hentry).1
    have hlevel := h.level node layer hentry
    exact ⟨hnode node layer htop, by omega⟩
  · apply Table.ext
    intro id
    apply Option.ext
    intro n
    exact (h.sound.byId id n).trans (getElem?_indexIds g.graph.ids id n).symm
  · intro layers hlayers
    obtain ⟨n, hn⟩ := List.getElem?_of_mem hlayers
    have hlayer : ∀ L, layerAt g.graph.links n L = layers[L]? := fun L => by
      rw [layerAt, hn, Option.bind_some]
    refine ⟨?_, ?_⟩
    · cases hentry : g.graph.entry with
      | none =>
        have hlen := h.sound.links
        rw [h.sound.entry_none hentry, List.length_nil, List.length_eq_zero_iff] at hlen
        rw [hlen] at hlayers
        exact absurd hlayers List.not_mem_nil
      | some entry =>
        obtain ⟨e, top⟩ := entry
        have hlevel := h.level e top hentry
        have hmax := (h.sound.entry_some e top hentry).2 n (layers.length - 1)
        by_contra hlarge
        have hlast : HasLayer g.graph.links n (layers.length - 1) := by
          unfold HasLayer
          rw [hlayer, List.getElem?_eq_getElem (by omega)]
          rfl
        have hle := hmax hlast
        omega
    · intro layer hmem
      obtain ⟨L, hL⟩ := List.getElem?_of_mem hmem
      rw [← hlayer L] at hL
      have hnb : ∀ nb ∈ layer, nb < 2 ^ 32 :=
        fun nb hnb => hnode nb L (h.sound.targeted n L layer hL nb hnb)
      refine ⟨?_, hnb⟩
      have hlt : ∀ nb ∈ layer, nb < g.graph.ids.length := fun nb hnb =>
        h.sound.links ▸ lt_of_hasLayer (h.sound.targeted n L layer hL nb hnb)
      exact (length_le_of_nodup (h.sound.distinct n L layer hL) hlt).trans_lt hfits.nodes

/-- What a run keeps fits the store section. -/
theorem storeFits_of_kept (h : Kept config g) (hfits : CountsFit g) (hdim : 0 < Dimension.dim) :
    ∃ c, StoreFits Dimension.dim g.graph.store.store c ∧ c.size = g.graph.ids.length ∧
      g.graph.store.store = ramStore c := by
  obtain ⟨c, hc, hcount⟩ := h.vectors
  have hsize : c.size = g.graph.ids.length := hcount.symm.trans h.sound.store
  refine ⟨c, ⟨hc, hdim, hfits.dim, ?_, ?_, ?_⟩, hsize, eq_ramStore hc h.inRam⟩
  · rw [hsize]
    exact hfits.nodes
  · rw [hsize, h.quantizer, ← h.configured]
    exact hfits.room
  · rw [h.quantizer, ← h.configured]
    exact hfits.blocks

/-! ## The whole blob -/

/-- The blob of a sealed graph gives the graph back, under any configuration of its
    quantizer, and is refused under the others. -/
theorem fromBytes_toBytes (h : Kept config g) (hfits : CountsFit g) (hdim : 0 < Dimension.dim)
    (hsealed : Sealed g.graph.store.store) :
    ∃ b, g.toBytes = some b ∧ ∀ config', fromBytes b config' =
      if config'.quantizer = config.quantizer then
        .ok { g with graph := { g.graph with config := config' } }
      else .error .refused := by
  obtain ⟨c, hstore, hsize, hram⟩ := storeFits_of_kept h hfits hdim
  obtain ⟨b, hb, hread⟩ :=
    reads_store hstore (isSealed_of_sealed hdim hstore.represents hsealed)
  have hhead := reads_head (headFits_of_kept h hfits hdim)
  rw [hsize] at hread
  have hgraph : ReadsBack readGraph (MAGIC_GRAPH ++ (g.writeHead ++ b))
      (SeededGraph.head g, ramStore c) :=
    (reads_magic [82, 82, 79, 71] 1 rfl).bind (hhead.bind (hread.result _))
  refine ⟨MAGIC_GRAPH ++ (g.writeHead ++ b), ?_, fun config' => ?_⟩
  · rw [SeededGraph.toBytes, hb, Option.map_some]
  · have hindex : (SeededGraph.head g).intoIndex config' (ramStore c) =
        { g with graph := { g.graph with config := config' } } := by
      have hcount : (⟨ramStore c, g.graph.ids.length⟩ : GraphStore) = g.graph.store := by
        rw [← hram, ← h.sound.store]
        rfl
      unfold Head.intoIndex SeededGraph.head
      dsimp only
      rw [hcount]
    have hquantizer : (ramStore c).quantizer = config.quantizer := by rw [← hram, h.quantizer]
    rw [fromBytes, hgraph.all]
    by_cases heq : config'.quantizer = config.quantizer
    · rw [if_pos heq, ← hindex]
      exact if_neg (not_not.mpr (hquantizer.trans heq.symm))
    · rw [if_neg heq]
      exact if_pos fun hsame => heq (hsame.symm.trans hquantizer)

/-- The blob of a graph that is not sealed is refused. -/
theorem fromBytes_unsealed (h : Kept config g) (hfits : CountsFit g) (hdim : 0 < Dimension.dim)
    (hsealed : ¬ Sealed g.graph.store.store) (config' : AnnConfig) :
    ∃ b, g.toBytes = some b ∧ fromBytes b config' = .error .refused := by
  obtain ⟨c, hstore, hsize, hram⟩ := storeFits_of_kept h hfits hdim
  have hhead := reads_head (headFits_of_kept h hfits hdim)
  have hne : g.graph.ids.length ≠ 0 := by
    intro hzero
    refine hsealed ?_
    rw [h.empty (List.length_eq_zero_iff.mp hzero)]
    cases config.quantizer with
    | pq m => exact rfl
    | none | sq8 | bq => trivial
  cases c with
  | warming m nodes =>
    have hblocks : m < 2 ^ 32 := by
      have hfit := hstore.blocks
      rw [hram] at hfit
      exact hfit
    have hbytes : g.graph.store.store.toBytes = some (3 :: (writePq m none ++ (le64 0 ++ []))) := by
      rw [hram]
      rfl
    refine ⟨_, by rw [SeededGraph.toBytes, hbytes, Option.map_some], ?_⟩
    have hcodes := reads_codes (stores_inRam (T := UInt8) 0) (by norm_num)
    have hpq := reads_pq hblocks none fun cb hsome => by cases hsome
    have hstored : readPqStore g.graph.ids.length (writePq m none ++ (le64 0 ++ [])) =
        .error .refused := by
      refine hpq.bind_error ?_
      have hrest := hcodes.bind_error (d := []) (f := fun codes =>
        if g.graph.ids.length ≠ 0 ∧ ((none : Option PqCodebook).isNone ∨
          codes.len ≠ g.graph.ids.length * m) then throw .refused
        else pure (Store.pq none [] codes m)) (e := .refused) (by
          rw [if_pos ⟨hne, Or.inl rfl⟩]
          rfl)
      exact hrest
    have hsection : readStore g.graph.ids.length ([3] ++ (writePq m none ++ (le64 0 ++ []))) =
        .error .refused := by
      unfold readStore
      refine (reads_u8 3).bind_error ?_
      rw [if_neg (by decide), if_neg (by decide), if_neg (by decide), if_pos rfl]
      exact hstored
    have hread : readGraph (MAGIC_GRAPH ++ (g.writeHead ++ ([3] ++
        (writePq m none ++ (le64 0 ++ []))))) = .error .refused := by
      refine ReadsBack.bind_error (reads_magic [82, 82, 79, 71] 1 rfl) (hhead.bind_error ?_)
      change (readStore g.graph.ids.length ([3] ++ (writePq m none ++ (le64 0 ++ []))) >>= _) = _
      rw [hsection]
      rfl
    change (readGraph (MAGIC_GRAPH ++ (g.writeHead ++ ([3] ++
      (writePq m none ++ (le64 0 ++ []))))) >>= _) = _
    rw [hread]
    rfl
  | full nodes => exact absurd (by rw [hram]; trivial) hsealed
  | sq8 nodes => exact absurd (by rw [hram]; trivial) hsealed
  | bq nodes => exact absurd (by rw [hram]; trivial) hsealed
  | pq cb nodes => exact absurd (by rw [hram]; trivial) hsealed

/-! ## The structure and the vectors -/

/-- The reader of a structure. -/
theorem reads_structure (h : Kept config g) (hfits : CountsFit g) (hdim : 0 < Dimension.dim)
    {c : Contents} (hstore : StoreFits Dimension.dim g.graph.store.store c) :
    ReadsBack readStructure g.toStructureBytes
      (SeededGraph.head g, g.graph.store.store.quantizer, sideOf c) :=
  (reads_magic [82, 82, 79, 83] 1 rfl).bind
    ((reads_head (headFits_of_kept h hfits hdim)).bind ((reads_side hstore).result _))

/-- The structure and the vectors of a sealed graph give a graph that agrees with it, whatever
    the cache may hold, and are refused under another quantizer. -/
theorem fromPaged_toStructureBytes (h : Kept config g) (hfits : CountsFit g)
    (hdim : 0 < Dimension.dim) (hsealed : Sealed g.graph.store.store) :
    ∃ vectors, g.writeVectorsTo = some vectors ∧
      (∀ budget, ∃ g', fromPaged g.toStructureBytes vectors config budget = .ok g' ∧ Agree g g') ∧
      ∀ config' budget, config'.quantizer ≠ config.quantizer →
        fromPaged g.toStructureBytes vectors config' budget = .error .refused := by
  obtain ⟨c, hstore, hsize, hram⟩ := storeFits_of_kept h hfits hdim
  have hread := (reads_structure h hfits hdim hstore).all
  have hcount : g.graph.store.count = c.size := h.sound.store.trans hsize.symm
  have hquantizer := h.quantizer
  have hrefused : ∀ vectors config' budget, config'.quantizer ≠ config.quantizer →
      fromPaged g.toStructureBytes vectors config' budget = .error .refused := by
    intro vectors config' budget hne
    rw [fromPaged, hread]
    exact if_pos fun hsame => hne (hsame.symm.trans hquantizer)
  have hagree : ∀ store, Model.Represents Dimension.dim store c →
      Agree g ((SeededGraph.head g).intoIndex config store) := by
    intro store hrep
    refine ⟨?_, rfl, ?_, c, hstore.represents, hrep, hcount, hsize.symm⟩
    · rw [← h.configured]
      rfl
    · exact h.dim.imp And.left id
  cases hids : g.graph.ids with
  | nil =>
    have hempty := h.empty hids
    refine ⟨[], ?_, ?_, hrefused []⟩
    · rw [SeededGraph.writeVectorsTo, hempty]
      cases config.quantizer <;> rfl
    · intro budget
      refine ⟨(SeededGraph.head g).intoIndex config g.graph.store.store, ?_,
        hagree _ hstore.represents⟩
      rw [fromPaged, hread]
      refine (if_neg (not_not.mpr hquantizer)).trans ((if_pos ?_).trans ?_)
      · exact congrArg List.length hids
      · rw [hquantizer, ← hempty]
  | cons id ids =>
    have hne : g.graph.ids.length ≠ 0 := by simp [hids]
    have hdims : g.graph.dim = some Dimension.dim := by
      cases h.dim with
      | inl hnone => exact absurd hnone.2 (by simp [hids])
      | inr hsome => exact hsome
    obtain ⟨vectors, hfile⟩ := fileOf_sealed hstore.represents
      (isSealed_of_sealed hdim hstore.represents hsealed) (by omega)
    refine ⟨vectors, hfile.written, fun budget => ?_, hrefused vectors⟩
    obtain ⟨store, hopened, hrep⟩ := hfile.opened budget
    refine ⟨_, ?_, hagree store hrep⟩
    have hlength := hfile.length
    have hparams := hfile.params
    rw [hsize] at hlength hparams hopened
    have hunit : (SeededGraph.head g).dim.getD 0 = Dimension.dim := by
      unfold SeededGraph.head
      rw [hdims, Option.getD_some]
    rw [← hunit] at hlength hopened
    rw [fromPaged, hread]
    generalize sideOf c = side at hparams hopened
    obtain ⟨params, codebook⟩ := side
    refine (if_neg (not_not.mpr hquantizer)).trans ((if_neg hne).trans ?_)
    refine (if_neg (Bool.eq_false_iff.mp hparams)).trans ((if_neg (not_not.mpr hlength)).trans ?_)
    have hstore : pagedStore params codebook vectors (fileUnit ((SeededGraph.head g).dim.getD 0)
        g.graph.store.store.quantizer) (SeededGraph.head g).ids.length budget
        g.graph.store.store.quantizer = some store := hopened
    rw [hstore]

end Formats

section RoundTrip

variable {δ : Type} [Kernels δ] [Dimension] [LevelDraw] [LinearOrder δ] [OrderTop δ]
  [Heap (Scored.dist : Scored δ → δ)]

/-- Every run of calls from either graph panics alike or leaves graphs that agree, and every
    search of them gives the same result. -/
def SameBehaviour (g g' : SeededGraph) : Prop :=
  ∀ calls, OfDim calls → Option.Rel (fun h h' => Agree h h' ∧ ∀ (query : List F32) (k ef : ℕ),
    (h'.graph.search query k ef : Option (List (Id × δ))) = h.graph.search query k ef)
    (g.run calls) (g'.run calls)

omit [LevelDraw] in
/-- Graphs that agree behave alike. -/
theorem rel_behaviour {g g' : SeededGraph} [LevelDraw] (h : Agree g g') (hdim : 0 < Dimension.dim) :
    SameBehaviour g g' := by
  intro calls hcalls
  have hrun := h.run hdim calls hcalls
  generalize g.run calls = last at hrun
  generalize g'.run calls = last' at hrun
  cases hrun with
  | none => exact .none
  | some hlast => exact .some ⟨hlast, hlast.search hdim⟩

/-- **The round trip**: for every run of insertions (of vectors of one positive dimension),
    removals and seals, at any levels and under any quantizer, that leaves the graph sealed and
    its counts within their fields, the blob gives back the same graph, the structure with the
    file of vectors gives back a graph that agrees with it under every later call and search,
    and both are refused under another quantizer. -/
theorem persistence_round_trip (config : AnnConfig) (calls : List SeededCall) (g : SeededGraph)
    (hdim : 0 < Dimension.dim) (hcalls : OfDim calls)
    (hrun : (SeededGraph.new config).run calls = some g) (hsealed : Sealed g.graph.store.store)
    (hfits : CountsFit g) :
    (∃ b, g.toBytes = some b ∧ fromBytes b config = .ok g ∧
      ∀ config', config'.quantizer ≠ config.quantizer → fromBytes b config' = .error .refused) ∧
    ∃ vectors, g.writeVectorsTo = some vectors ∧
      (∀ budget, ∃ g', fromPaged g.toStructureBytes vectors config budget = .ok g' ∧
        Agree g g' ∧ SameBehaviour g g') ∧
      ∀ config' budget, config'.quantizer ≠ config.quantizer →
        fromPaged g.toStructureBytes vectors config' budget = .error .refused := by
  have hkept := (kept_new config).run hdim hcalls hrun hfits.nodes
  obtain ⟨b, hb, hread⟩ := fromBytes_toBytes hkept hfits hdim hsealed
  obtain ⟨vectors, hvectors, hpaged, hrefused⟩ :=
    fromPaged_toStructureBytes hkept hfits hdim hsealed
  refine ⟨⟨b, hb, ?_, fun config' hne => ?_⟩, vectors, hvectors, fun budget => ?_, hrefused⟩
  · rw [hread config, if_pos rfl, ← hkept.configured]
  · rw [hread config', if_neg hne]
  · obtain ⟨g', hg', hagree⟩ := hpaged budget
    exact ⟨g', hg', hagree, rel_behaviour hagree hdim⟩

end RoundTrip

/-- Every node at layer 0. -/
abbrev flatLevels : LevelDraw := ⟨fun _ _ => 0⟩

/-- Vectors of one element. -/
abbrev oneElement (bits : UInt32) : List F32 := [⟨bits⟩]

section Sealed

/-- Distances of two values. -/
local instance sealedKernels : Kernels Bool := flatKernels

/-- Every node is drawn at the lowest level. -/
local instance sealedLevels : LevelDraw := flatLevels

/-- The heap selects the least. -/
local instance sealedHeap : Heap (Scored.dist : Scored Bool → Bool) := selectHeap _

section OneElement

/-- Vectors have one element. -/
local instance sealedDimension : Dimension := ⟨1⟩

/-- Insertions of which one overwrites, a removal and a seal. -/
abbrev sealedCalls : List SeededCall :=
  [.insert "a" (oneElement 0x3f800000), .insert "b" (oneElement 0x3f000000),
    .insert "a" (oneElement 0x3e800000), .remove "b", .seal_]

/-- The sample vectors have one element. -/
theorem ofDim_sealedCalls : OfDim sealedCalls := by
  intro id v hmem
  simp only [List.mem_cons, SeededCall.insert.injEq, List.not_mem_nil, or_false, reduceCtorEq] at hmem
  obtain ⟨-, rfl⟩ | ⟨-, rfl⟩ | ⟨-, rfl⟩ := hmem <;> rfl

/-- A sealed product quantizer comes back. -/
theorem persistence_round_trip_sealed :
    ∃ g, (SeededGraph.new ⟨1, 4, 4, .pq 1⟩).run sealedCalls = some g ∧
      (∃ b, g.toBytes = some b ∧ fromBytes b ⟨1, 4, 4, .pq 1⟩ = .ok g ∧
        ∀ config', config'.quantizer ≠ .pq 1 → fromBytes b config' = .error .refused) ∧
      ∃ vectors, g.writeVectorsTo = some vectors ∧
        (∀ budget, ∃ g', fromPaged g.toStructureBytes vectors ⟨1, 4, 4, .pq 1⟩ budget = .ok g' ∧
          Agree g g' ∧ SameBehaviour g g') ∧
        ∀ config' budget, config'.quantizer ≠ .pq 1 →
          fromPaged g.toStructureBytes vectors config' budget = .error .refused := by
  have hgraph : ((SeededGraph.new ⟨1, 4, 4, .pq 1⟩).run sealedCalls).map (fun g =>
      (g.graph.ids, g.graph.config.quantizer, decide (Sealed g.graph.store.store))) =
        some (["a", "b", "a"], .pq 1, true) := by decide +kernel
  obtain ⟨g, hrun, hg⟩ := Option.map_eq_some_iff.mp hgraph
  simp only [Prod.mk.injEq] at hg
  obtain ⟨hids, hquantizer, hstore⟩ := hg
  have hsealed : Sealed g.graph.store.store := of_decide_eq_true hstore
  refine ⟨g, hrun, persistence_round_trip ⟨1, 4, 4, .pq 1⟩ sealedCalls g Nat.one_pos
    ofDim_sealedCalls hrun hsealed ⟨?_, ?_, by decide, ?_, ?_⟩⟩
  · rw [hids]
    decide
  · rw [hids]
    decide
  · rw [hquantizer]
    show 1 < 2 ^ 32
    decide
  · intro hnone
    rw [hquantizer] at hnone
    cases hnone

end OneElement

section ZeroWidth

/-- Vectors have no elements. -/
local instance zeroDimension : Dimension := ⟨0⟩

/-- A graph of vectors without elements comes back without a dimension: its search finds the
    vector, and that of the graph read back finds nothing. -/
theorem zero_width_graph_lost : ∃ (g g' : SeededGraph) (b : Bytes),
    (SeededGraph.new ⟨1, 4, 4, .none⟩).run [.insert "a" []] = some g ∧ g.toBytes = some b ∧
      fromBytes b ⟨1, 4, 4, .none⟩ = .ok g' ∧ g.graph.dim = some 0 ∧ g'.graph.dim = none ∧
      g.graph.search [] 1 4 = some [("a", false)] ∧ g'.graph.search [] 1 4 = some [] :=
  ⟨_, _, _, rfl, rfl, rfl, rfl, rfl, rfl, rfl⟩

end ZeroWidth

end Sealed

end Rro.Analysis
