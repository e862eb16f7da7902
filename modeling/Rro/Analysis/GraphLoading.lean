import Rro.Model.AnnLoading
import Rro.Model.GraphInvariant

/-!
# Loading a graph from whatever is on disk

A blob or a structure that was cut off anywhere is refused, what follows its end is ignored, and
a file of vectors of another length is refused. A graph that was accepted has arrays of one
length and finds each identifier at its last node; a loaded blob is written and loaded again as
it is. Nothing is asked of node numbers: the entry and the links are as they were read.
-/

set_option autoImplicit false

namespace Rro.Analysis

open Rro.Library Rro.Program Rro.Model

variable {config : AnnConfig} {g : SeededGraph}

/-- **A graph that was accepted**: its arrays have one length, each identifier is found at its
    last node, and its store is that of the configured quantizer. -/
structure Loaded (config : AnnConfig) (g : SeededGraph) : Prop where
  configured : g.graph.config = config
  quantizer : g.graph.store.store.quantizer = config.quantizer
  deleted : g.graph.deleted.length = g.graph.ids.length
  links : g.graph.links.length = g.graph.ids.length
  byId : ∀ (id : Id) (n : ℕ), g.graph.byId[id]? = some n ↔ IsLast g.graph.ids id n

/-- Cut off anywhere before its end, it is refused; what follows the end changes nothing. -/
def EndsItself (load : Bytes → Except LoadEnd SeededGraph) (b : Bytes) : Prop :=
  ∃ c, c <+: b ∧ (∀ t, load (c ++ t) = load b) ∧ ∀ p, p <+: c → p ≠ c → load p = .error .refused

/-- A head that fits its fields makes a loaded graph with a store of the configured quantizer. -/
theorem loaded_intoIndex {head : Head} {store : Store}
    (hfits : HeadFits (head.intoIndex config store).graph)
    (hq : store.quantizer = config.quantizer) : Loaded config (head.intoIndex config store) where
  configured := rfl
  quantizer := hq
  deleted := hfits.deleted
  links := hfits.links
  byId id n := by
    rw [hfits.byId]
    exact getElem?_indexIds _ id n

/-! ## Blobs -/

/-- A blob is accepted exactly when it reads as a graph of the configured quantizer. -/
theorem fromBytes_eq_ok {b : Bytes} : fromBytes b config = .ok g ↔
    ∃ head store rest, readGraph b = .ok ((head, store), rest) ∧
      store.quantizer = config.quantizer ∧ g = head.intoIndex config store := by
  unfold fromBytes
  cases readGraph b with
  | error e => exact iff_of_false (fun h => nomatch h) fun ⟨_, _, _, h, _⟩ => nomatch h
  | ok r =>
    obtain ⟨⟨head, store⟩, rest⟩ := r
    change (if store.quantizer ≠ config.quantizer then .error LoadEnd.refused
      else .ok (head.intoIndex config store)) = Except.ok g ↔ _
    by_cases hq : store.quantizer = config.quantizer
    · rw [if_neg (not_not.mpr hq)]
      constructor
      · exact fun h => ⟨head, store, rest, rfl, hq, (Except.ok.inj h).symm⟩
      · rintro ⟨_, _, _, h, -, rfl⟩
        cases h
        rfl
    · rw [if_pos hq]
      refine iff_of_false (fun h => nomatch h) ?_
      rintro ⟨_, _, _, h, hsame, -⟩
      cases h
      exact hq hsame

/-- A blob that does not read is refused. -/
theorem fromBytes_of_error {b : Bytes} {e : LoadEnd} (h : readGraph b = .error e) :
    fromBytes b config = .error e := by
  unfold fromBytes
  rw [h]
  rfl

/-- What `from_bytes` accepts has an end of its own. -/
theorem ends_fromBytes {b : Bytes} (h : fromBytes b config = .ok g) :
    EndsItself (fun b => fromBytes b config) b := by
  obtain ⟨head, store, rest, hread, hq, rfl⟩ := fromBytes_eq_ok.mp h
  obtain ⟨c, rfl, hwhole, hcut⟩ := delimited_graph b _ rest hread
  refine ⟨c, List.prefix_append c rest, fun t => ?_, fun p hp hne => ?_⟩
  · exact (fromBytes_eq_ok.mpr ⟨head, store, t, hwhole t, hq, rfl⟩).trans h.symm
  · exact fromBytes_of_error (hcut p hp hne)

/-- A graph that was read fits its fields. -/
theorem readGraph_yields : Yields readGraph fun r => LoadedStore r.1.ids.length r.2 ∧
    ∀ config store, HeadFits (r.1.intoIndex config store).graph := by
  have hmagic : Yields (expectMagic MAGIC_GRAPH) fun _ => True := fun _ _ _ _ => trivial
  refine hmagic.bind fun _ _ => yields_head.bind fun head hhead => ?_
  exact (yields_store head.ids.length).bind fun store hstore => yields_pure ⟨hstore, hhead⟩

/-- A loaded graph is written and loaded again, but from no part of what was written. -/
theorem fromBytes_again {b : Bytes} (h : fromBytes b config = .ok g) :
    Loaded config g ∧ ∃ w, g.toBytes = some w ∧ (∀ t, fromBytes (w ++ t) config = .ok g) ∧
      ∀ p, p <+: w → p ≠ w → fromBytes p config = .error .refused := by
  obtain ⟨head, store, rest, hread, hq, rfl⟩ := fromBytes_eq_ok.mp h
  obtain ⟨hstore, hhead⟩ := readGraph_yields b _ rest hread
  have hfits := hhead config store
  obtain ⟨w, hw, hreads⟩ := reads_loaded hstore
  let blob := MAGIC_GRAPH ++ ((head.intoIndex config store).writeHead ++ w)
  have hgraph : ReadsBack readGraph blob
      (SeededGraph.head (head.intoIndex config store), store) :=
    (reads_magic [82, 82, 79, 71] 1 rfl).bind ((reads_head hfits).bind
      (hreads.result fun s => (SeededGraph.head (head.intoIndex config store), s)))
  refine ⟨loaded_intoIndex hfits hq, blob, ?_, fun t => ?_, fun p hp hne => ?_⟩
  · have hsame : (head.intoIndex config store).graph.store.store = store := rfl
    rw [SeededGraph.toBytes, hsame, hw]
    rfl
  · exact fromBytes_eq_ok.mpr ⟨_, _, t, hgraph t, hq, rfl⟩
  · obtain ⟨c, hc, -, hcut⟩ := delimited_graph blob _ [] hgraph.all
    rw [List.append_nil] at hc
    exact fromBytes_of_error (hcut p (hc ▸ hp) (hc ▸ hne))

/-! ## Structures and their files -/

/-- What `from_paged` makes of a structure it has read. -/
def openOver (config : AnnConfig) (budget : ℕ) (vectors : Bytes) (head : Head)
    (quantizer : Quantizer) (params : Option (List SqParams)) (codebook : Option PqCodebook) : Except LoadEnd SeededGraph :=
  let n := head.ids.length
  let unit := fileUnit (head.dim.getD 0) quantizer
  if quantizer ≠ config.quantizer then .error .refused
  else if n = 0 then .ok (head.intoIndex config (.empty quantizer))
  else if (params.any fun p => p.length ≠ n) then .error .refused
  else if vectors.length ≠ n * unit * elemBytes quantizer then .error .refused
  else match pagedStore params codebook vectors unit n budget quantizer with
    | some store => .ok (head.intoIndex config store)
    | none => .error .refused

/-- A structure that reads is accepted with a sidecar of its length. -/
theorem fromPaged_of_read {s rest vectors : Bytes} {budget : ℕ} {head : Head}
    {quantizer : Quantizer} {params : Option (List SqParams)} {codebook : Option PqCodebook}
    (h : readStructure s = .ok ((head, quantizer, params, codebook), rest)) :
    fromPaged s vectors config budget =
      openOver config budget vectors head quantizer params codebook := by
  unfold fromPaged
  rw [h]
  rfl

/-- A structure that does not read is refused. -/
theorem fromPaged_of_error {s vectors : Bytes} {budget : ℕ} {e : LoadEnd}
    (h : readStructure s = .error e) : fromPaged s vectors config budget = .error e := by
  unfold fromPaged
  rw [h]
  rfl

/-- What `from_paged` accepts has been read. -/
theorem exists_read {s vectors : Bytes} {budget : ℕ}
    (h : fromPaged s vectors config budget = .ok g) :
    ∃ head quantizer params codebook rest,
      readStructure s = .ok ((head, quantizer, params, codebook), rest) := by
  cases hread : readStructure s with
  | error e =>
    rw [fromPaged_of_error hread] at h
    cases h
  | ok r =>
    obtain ⟨⟨head, quantizer, params, codebook⟩, rest⟩ := r
    exact ⟨head, quantizer, params, codebook, rest, rfl⟩

/-- A structure that `from_paged` accepts has an end of its own. -/
theorem ends_fromPaged {s vectors : Bytes} {budget : ℕ}
    (h : fromPaged s vectors config budget = .ok g) :
    EndsItself (fun s => fromPaged s vectors config budget) s := by
  obtain ⟨head, quantizer, params, codebook, rest, hread⟩ := exists_read h
  obtain ⟨c, rfl, hwhole, hcut⟩ := delimited_structure s _ rest hread
  refine ⟨c, List.prefix_append c rest, fun t => ?_, fun p hp hne => ?_⟩
  · exact (fromPaged_of_read (hwhole t)).trans (fromPaged_of_read hread).symm
  · exact fromPaged_of_error (hcut p hp hne)

/-- A paged store has the quantizer of its structure. -/
theorem quantizer_pagedStore {params : Option (List SqParams)} {codebook : Option PqCodebook}
    {vectors : Bytes} {unit n budget : ℕ} {quantizer : Quantizer} {store : Store}
    (h : pagedStore params codebook vectors unit n budget quantizer = some store) :
    store.quantizer = quantizer := by
  cases quantizer with
  | none | sq8 | bq =>
    rw [← Option.some.inj h]
    rfl
  | pq m =>
    obtain ⟨cb, -, rfl⟩ := Option.map_eq_some_iff.mp h
    rfl

/-- What is opened over a file, and that no file of another length is. -/
theorem openOver_spec {vectors : Bytes} {budget : ℕ} {head : Head} {quantizer : Quantizer}
    {params : Option (List SqParams)} {codebook : Option PqCodebook}
    (h : openOver config budget vectors head quantizer params codebook = .ok g) :
    (∃ store : Store, store.quantizer = config.quantizer ∧ g = head.intoIndex config store) ∧
      (head.ids ≠ [] → ∀ vectors' : Bytes, vectors'.length ≠ vectors.length →
        openOver config budget vectors' head quantizer params codebook = .error .refused) := by
  unfold openOver at h
  dsimp only at h
  split at h
  · cases h
  · rename_i hq
    rw [not_not] at hq
    split at h
    · rename_i hn
      refine ⟨⟨_, ?_, (Except.ok.inj h).symm⟩, fun hne => ?_⟩
      · rw [← hq]
        cases quantizer <;> rfl
      · exact absurd (List.length_eq_zero_iff.mp hn) hne
    · rename_i hn
      split at h
      · cases h
      · rename_i hparams
        split at h
        · cases h
        · rename_i hlen
          rw [not_not] at hlen
          split at h
          · rename_i store hstore
            refine ⟨⟨store, (quantizer_pagedStore hstore).trans hq, (Except.ok.inj h).symm⟩,
              fun _ vectors' hother => ?_⟩
            rw [hlen] at hother
            unfold openOver
            dsimp only
            rw [if_neg (not_not.mpr hq), if_neg hn, if_neg hparams, if_pos hother]
          · cases h

/-- A structure that was read fits its fields. -/
theorem readStructure_yields : Yields readStructure fun r =>
    ∀ config store, HeadFits (r.1.intoIndex config store).graph := by
  have hmagic : Yields (expectMagic MAGIC_STRUCTURE) fun _ => True := fun _ _ _ _ => trivial
  have hside : Yields readSide fun _ => True := fun _ _ _ _ => trivial
  refine hmagic.bind fun _ _ => yields_head.bind fun head hhead => ?_
  exact hside.bind fun side _ => yields_pure hhead

/-- **Loading is safe against what is on disk**: an accepted blob or structure has an end of its
    own, before which no cut is accepted and after which nothing counts; the graph it gives is in
    shape; a blob's graph is written and loaded again as it is, and no part of what was written
    is accepted; and no file of another length goes with a structure of nodes. -/
theorem loading_safe :
    (∀ (b : Bytes) (config : AnnConfig) (g : SeededGraph), fromBytes b config = .ok g →
      EndsItself (fun b => fromBytes b config) b ∧ Loaded config g ∧
        ∃ w, g.toBytes = some w ∧ (∀ t, fromBytes (w ++ t) config = .ok g) ∧
          ∀ p, p <+: w → p ≠ w → fromBytes p config = .error .refused) ∧
    ∀ (s vectors : Bytes) (config : AnnConfig) (budget : ℕ) (g : SeededGraph),
      fromPaged s vectors config budget = .ok g →
        EndsItself (fun s => fromPaged s vectors config budget) s ∧ Loaded config g ∧
          (g.graph.ids ≠ [] → ∀ vectors' : Bytes, vectors'.length ≠ vectors.length →
            fromPaged s vectors' config budget = .error .refused) := by
  constructor
  · intro b config g h
    exact ⟨ends_fromBytes h, fromBytes_again h⟩
  · intro s vectors config budget g h
    obtain ⟨head, quantizer, params, codebook, rest, hread⟩ := exists_read h
    rw [fromPaged_of_read hread] at h
    obtain ⟨⟨store, hq, rfl⟩, hother⟩ := openOver_spec h
    have hfits := readStructure_yields s _ rest hread config store
    refine ⟨ends_fromPaged ((fromPaged_of_read hread).trans h), loaded_intoIndex hfits hq,
      fun hne vectors' hlen => ?_⟩
    rw [fromPaged_of_read hread]
    exact hother hne vectors' hlen

/-- A graph of two linked nodes, the first of them removed. -/
def pairGraph : SeededGraph :=
  { graph :=
      { config := ⟨16, 100, 50, .none⟩, dim := some 1
        store := ⟨.full { MappedVec.inRam with tail := [⟨0x3f800000⟩, ⟨0x3f000000⟩] }, 2⟩
        ids := ["a", "b"], byId := indexIds ["a", "b"], deleted := [true, false]
        links := [[[1]], [[0]]], entry := some (0, 0), live := 1 }
    rng := 0x9E3779B97F4A7C15 }

/-- Its blob, with a byte after the end, and its structure over the file of its vectors. -/
theorem loading_safe_pair : ∃ (b vectors : Bytes) (g g' : SeededGraph),
    pairGraph.toBytes = some b ∧ pairGraph.writeVectorsTo = some vectors ∧
    fromBytes (b ++ [7]) ⟨16, 100, 50, .none⟩ = .ok g ∧
    fromPaged pairGraph.toStructureBytes vectors ⟨16, 100, 50, .none⟩ 4096 = .ok g' ∧
    (EndsItself (fun b => fromBytes b ⟨16, 100, 50, .none⟩) (b ++ [7]) ∧
      Loaded ⟨16, 100, 50, .none⟩ g ∧
      ∃ w, g.toBytes = some w ∧ (∀ t, fromBytes (w ++ t) ⟨16, 100, 50, .none⟩ = .ok g) ∧
        ∀ p, p <+: w → p ≠ w → fromBytes p ⟨16, 100, 50, .none⟩ = .error .refused) ∧
    EndsItself (fun s => fromPaged s vectors ⟨16, 100, 50, .none⟩ 4096)
      pairGraph.toStructureBytes ∧
    Loaded ⟨16, 100, 50, .none⟩ g' ∧
    ∀ vectors' : Bytes, vectors'.length ≠ vectors.length →
      fromPaged pairGraph.toStructureBytes vectors' ⟨16, 100, 50, .none⟩ 4096 = .error .refused := by
  have hload : ∃ (b vectors : Bytes) (g g' : SeededGraph), pairGraph.toBytes = some b ∧
      pairGraph.writeVectorsTo = some vectors ∧
      fromBytes (b ++ [7]) ⟨16, 100, 50, .none⟩ = .ok g ∧
      fromPaged pairGraph.toStructureBytes vectors ⟨16, 100, 50, .none⟩ 4096 = .ok g' ∧
      g'.graph.ids = ["a", "b"] := ⟨_, _, _, _, rfl, rfl, rfl, rfl, rfl⟩
  obtain ⟨b, vectors, g, g', hb, hvectors, hg, hg', hids⟩ := hload
  have hpaged := loading_safe.2 _ _ _ _ _ hg'
  refine ⟨b, vectors, g, g', hb, hvectors, hg, hg', loading_safe.1 _ _ _ hg, hpaged.1, hpaged.2.1,
    hpaged.2.2 ?_⟩
  rw [hids]
  exact List.cons_ne_nil _ _

end Rro.Analysis
