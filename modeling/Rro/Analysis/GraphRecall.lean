import Rro.Analysis.GraphSafety
import Rro.Model.FilteredWidth
import Rro.Model.GraphReach

/-!
# What a search finds

A search whose beam is wide enough is exact about what its start leads to: it returns the nearest
of the live ids that are reached through the bottom layer, so it misses a live id only if no path
leads there (`search_exact`). A filtered search walks through every node and is exact about the
allowed ids in the same way; its beam is never narrower than asked while no more ids are allowed
than there are nodes (`search_filtered_exact`).
-/

set_option autoImplicit false

namespace Rro.Analysis

open Rro.Library Rro.Program Rro.Model

section Recall

variable {σ V δ : Type} [VectorStore σ V δ] [LinearOrder δ] [OrderTop δ]
  [Heap (Scored.dist : Scored δ → δ)]

/-- The id has a live node that a node leads to. -/
def FoundFrom (g : AnnGraph σ) (start : ℕ) (id : Id) : Prop :=
  ∃ n, g.byId[id]? = some n ∧ g.deleted[n]? = some false ∧ Leads g 0 start n

/-- The id has a live node that the start of the search leads to. -/
def Findable (g : AnnGraph σ) (query : V) (id : Id) : Prop :=
  ∃ start, g.searchStart query = some (some start) ∧ FoundFrom g start id

/-- The ids of a kind, each once with the distance of its node, nearest first. -/
structure AllNearest (g : AnnGraph σ) (query : V) (p : Id → Prop) (all : List (Id × δ)) :
    Prop where
  nodup : (all.map Prod.fst).Nodup
  mem : ∀ id, id ∈ all.map Prod.fst ↔ p id
  dist : ∀ row ∈ all, ∃ n, g.byId[row.1]? = some n ∧ row.2 = VectorStore.distTo g.store n query
  nearest : all.Pairwise fun a b => a.2 ≤ b.2

variable {g : AnnGraph σ} {start : ℕ} {query : V}

omit [LinearOrder δ] [OrderTop δ] [Heap (Scored.dist : Scored δ → δ)] [VectorStore σ V δ] in
/-- What is found lives. -/
theorem FoundFrom.live {id : Id} (h : FoundFrom g start id) : IsLive g id := by
  obtain ⟨n, hby, hdeleted, -⟩ := h
  exact ⟨n, hby, hdeleted⟩

omit [OrderTop δ] [Heap (Scored.dist : Scored δ → δ)] in
/-- What can be found lives. -/
theorem Findable.live {id : Id} (h : Findable g query id) : IsLive g id := by
  obtain ⟨start, -, hfrom⟩ := h
  exact hfrom.live

/-! ## The start -/

omit [OrderTop δ] [Heap (Scored.dist : Scored δ → δ)] in
/-- The bottom layer is walked from a node of it. -/
theorem searchStart_spec (h : Model.Sound g) (query : V) :
    g.entry = none ∨ ∃ start cur top, g.entry = some (cur, top) ∧
      g.descend query 1 top cur = some start ∧ g.searchStart query = some (some start) ∧
      HasLayer g.links start 0 := by
  cases hentry : g.entry with
  | none => exact .inl rfl
  | some entry =>
    obtain ⟨cur, top⟩ := entry
    obtain ⟨htop, -⟩ := h.entry_some cur top hentry
    have hT : ∀ L, Territory g L fun n => HasLayer g.links n L ∧ True :=
      fun L => h.parallel.territory h.targeted L fun _ _ _ _ _ => trivial
    obtain ⟨start, hdescend, hend⟩ := descend_spec query 1 top cur
      (fun L _ => hT L) (fun L n hn => ⟨hn.1.mono (Nat.le_succ L), trivial⟩)
      fun hpos => ⟨by rwa [Nat.add_comm, Nat.add_sub_cancel], trivial⟩
    refine .inr ⟨start, cur, top, rfl, hdescend, ?_, ?_⟩
    · rw [AnnGraph.searchStart, hentry]
      simp only [hdescend, Option.map_some]
    · rcases hend with ⟨rfl, rfl⟩ | hlayer
      · exact htop
      · exact hlayer.1.mono (Nat.zero_le 1)

omit [OrderTop δ] [Heap (Scored.dist : Scored δ → δ)] in
/-- What is findable is found from the start. -/
theorem findable_iff (hstart : g.searchStart query = some (some start)) (id : Id) :
    Findable g query id ↔ FoundFrom g start id := by
  constructor
  · rintro ⟨start', hstart', hfound⟩
    obtain rfl : start = start' := Option.some.inj (Option.some.inj (hstart.symm.trans hstart'))
    exact hfound
  · exact fun hfound => ⟨start, hstart, hfound⟩

/-! ## The rows of a beam -/

omit [LinearOrder δ] [OrderTop δ] [Heap (Scored.dist : Scored δ → δ)] in
/-- A live node is that of its id. -/
theorem live_id (h : Model.Sound g) {n : ℕ} (hlt : n < g.ids.length)
    (hlive : g.deleted[n]? = some false) :
    ∃ id, g.ids[n]? = some id ∧ g.byId[id]? = some n :=
  ⟨g.ids[n], List.getElem?_eq_getElem hlt, h.one n _ (List.getElem?_eq_getElem hlt) hlive⟩

/-- A bound on ids is one on their nodes. -/
theorem atMost_nodes (byId : Table Id ℕ) {p : Id → Prop} {P : ℕ → Prop} {width : ℕ}
    (hmost : AtMost width p) (hP : ∀ n, P n → ∃ id, byId[id]? = some n ∧ p id) :
    AtMost width P := by
  intro l hnodup hl
  have hchoose : ∀ n, ∃ id, P n → byId[id]? = some n ∧ p id := by
    intro n
    by_cases hn : P n
    · obtain ⟨id, hid⟩ := hP n hn
      exact ⟨id, fun _ => hid⟩
    · exact ⟨"", fun hn' => absurd hn' hn⟩
  choose f hf using hchoose
  have hmap : (l.map f).Nodup := by
    refine hnodup.map_on fun n hn n' hn' heq => ?_
    have hid := (hf n (hl n hn)).1
    rw [heq, (hf n' (hl n' hn')).1] at hid
    exact (Option.some.inj hid).symm
  have hle := hmost (l.map f) hmap fun id hid => by
    obtain ⟨n, hn, rfl⟩ := List.mem_map.mp hid
    exact (hf n (hl n hn)).2
  rwa [List.length_map] at hle

omit [LinearOrder δ] [OrderTop δ] [Heap (Scored.dist : Scored δ → δ)] in
/-- There are no more ids than nodes. -/
theorem atMost_length (h : Model.Sound g) {p : Id → Prop} (hp : ∀ id, p id → IsLive g id) :
    AtMost g.ids.length p := by
  intro l hnodup hl
  have hchoose : ∀ id, ∃ n, p id → g.byId[id]? = some n ∧ n < g.ids.length := by
    intro id
    by_cases hid : p id
    · obtain ⟨n, hn, -⟩ := hp id hid
      exact ⟨n, fun _ => ⟨hn, (List.getElem?_eq_some_iff.mp ((h.byId id n).mp hn).1).1⟩⟩
    · exact ⟨0, fun hid' => absurd hid' hid⟩
  choose f hf using hchoose
  have hmap : (l.map f).Nodup := by
    refine hnodup.map_on fun id hid id' hid' heq => ?_
    have hnode := ((h.byId id (f id)).mp (hf id (hl id hid)).1).1
    have hnode' := ((h.byId id' (f id')).mp (hf id' (hl id' hid')).1).1
    rw [← heq, hnode] at hnode'
    exact Option.some.inj hnode'
  have hsub : l.map f ⊆ List.range g.ids.length := by
    intro n hn
    obtain ⟨id, hid, rfl⟩ := List.mem_map.mp hn
    exact List.mem_range.mpr (hf id (hl id hid)).2
  have hle := (List.subperm_of_subset hmap hsub).length_le
  rwa [List.length_map, List.length_range] at hle

/-- The rows of the nodes found. -/
def rowsFound (g : AnnGraph σ) (found : List (Scored δ)) : List (Id × δ) :=
  found.map fun s => ((g.ids[s.node]?).getD "", s.dist)

/-- **The bottom beam**: its rows are live, admitted and within what the start leads to, nearest
    first, and all of these if they are not more than its width. -/
theorem bottom_beam (h : Model.Sound g) (query : V) (hstart : HasLayer g.links start 0) (width : ℕ)
    (admits : ℕ → Bool) (q : Id → Prop)
    (hadmits : ∀ (n : ℕ) id, g.ids[n]? = some id → (admits n = true ↔ q id)) :
    ∃ found, g.beamAdmit query start 0 width false admits = some found ∧
      ((rowsFound g found).map Prod.fst).Nodup ∧
      (rowsFound g found).Pairwise (fun a b => a.2 ≤ b.2) ∧
      (∀ k, ((found.take k).mapM fun s => (g.ids[s.node]?).map fun id => (id, s.dist)) =
        some ((rowsFound g found).take k)) ∧
      (∀ row ∈ rowsFound g found, q row.1 ∧ ∃ n, g.byId[row.1]? = some n ∧
        g.deleted[n]? = some false ∧ row.2 = VectorStore.distTo g.store n query) ∧
      (AtMost width (fun id => FoundFrom g start id ∧ q id) →
        AllNearest g query (fun id => FoundFrom g start id ∧ q id) (rowsFound g found)) := by
  have hT : Territory g 0 fun n => HasLayer g.links n 0 ∧ True :=
    h.parallel.territory h.targeted 0 fun _ _ _ _ _ => trivial
  have hwithin := hT.within start
  obtain ⟨found, hfound, hnodup, hsorted, hall⟩ := beamAdmit_spec hwithin query
    ⟨⟨hstart, trivial⟩, .refl⟩ width false admits
  -- a node that may be a result is the live node of an admitted id
  have hnode : ∀ n, ((HasLayer g.links n 0 ∧ True) ∧ Leads g 0 start n) →
      admissible g false admits n = true →
      ∃ id, g.ids[n]? = some id ∧ g.byId[id]? = some n ∧ g.deleted[n]? = some false ∧
        FoundFrom g start id ∧ q id := by
    intro n hn hok
    obtain ⟨hlive, hadm⟩ : g.deleted[n]? = some false ∧ admits n = true := by
      simpa [admissible] using hok
    obtain ⟨id, hid, hby⟩ := live_id h (hwithin.listed hn) hlive
    exact ⟨id, hid, hby, hlive, ⟨n, hby, hlive, hn.2⟩, (hadmits n id hid).mp hadm⟩
  have hrow : ∀ s ∈ found, ∃ id, (g.ids[s.node]?).getD "" = id ∧ g.byId[id]? = some s.node ∧
      g.deleted[s.node]? = some false ∧ FoundFrom g start id ∧ q id := by
    intro s hs
    obtain ⟨hP, -, hok⟩ := hall s hs
    obtain ⟨id, hid, hrest⟩ := hnode s.node hP hok
    exact ⟨id, by rw [hid, Option.getD_some], hrest⟩
  have hids : ((rowsFound g found).map Prod.fst).Nodup := by
    rw [rowsFound, List.map_map]
    refine List.Nodup.of_map (fun id => (g.byId[id]?).getD 0) ?_
    rw [List.map_map]
    have heq : found.map ((fun id => (g.byId[id]?).getD 0) ∘
        (Prod.fst ∘ fun s => ((g.ids[s.node]?).getD "", s.dist))) = found.map Scored.node := by
      refine List.map_congr_left fun s hs => ?_
      obtain ⟨id, hid, hby, -⟩ := hrow s hs
      simp only [Function.comp_apply, hid, hby, Option.getD_some]
    rwa [heq]
  have hdist : ∀ row ∈ rowsFound g found, q row.1 ∧ ∃ n, g.byId[row.1]? = some n ∧
      g.deleted[n]? = some false ∧ row.2 = VectorStore.distTo g.store n query := by
    intro row hrow'
    obtain ⟨s, hs, rfl⟩ := List.mem_map.mp hrow'
    obtain ⟨id, rfl, hby, hlive, -, hq⟩ := hrow s hs
    exact ⟨hq, s.node, hby, hlive, (hall s hs).2.1⟩
  have hnearest : (rowsFound g found).Pairwise fun a b => a.2 ≤ b.2 := List.pairwise_map.mpr hsorted
  refine ⟨found, hfound, hids, hnearest, ?_, hdist, fun hwide => ⟨hids, ?_, ?_, hnearest⟩⟩
  · intro k
    rw [rowsFound, ← List.map_take]
    exact mapM_ids fun s hs => hwithin.listed (hall s (List.mem_of_mem_take hs)).1
  · have hmost : AtMost width fun n => ((HasLayer g.links n 0 ∧ True) ∧ Leads g 0 start n) ∧
        admissible g false admits n = true := by
      refine atMost_nodes g.byId hwide fun n hn => ?_
      obtain ⟨id, -, hby, -, hid⟩ := hnode n hn.1 hn.2
      exact ⟨id, hby, hid⟩
    have hcomplete := beamAdmit_complete hT ⟨hstart, trivial⟩ hmost hfound
    intro id
    constructor
    · intro hid
      obtain ⟨row, hrow', rfl⟩ := List.mem_map.mp hid
      obtain ⟨s, hs, rfl⟩ := List.mem_map.mp hrow'
      obtain ⟨id, rfl, -, -, hfrom, hq⟩ := hrow s hs
      exact ⟨hfrom, hq⟩
    · rintro ⟨⟨n, hby, hlive, hlead⟩, hq⟩
      have hget := ((h.byId id n).mp hby).1
      have hlt := (List.getElem?_eq_some_iff.mp hget).1
      have hok : admissible g false admits n = true := by
        simp [admissible, hlive, (hadmits n id hget).mpr hq]
      obtain ⟨s, hs, rfl⟩ := List.mem_map.mp
        (hcomplete n ⟨⟨h.bottom n hlt, trivial⟩, hlead⟩ hok)
      rw [rowsFound, List.map_map]
      refine List.mem_map.mpr ⟨s, hs, ?_⟩
      simp only [Function.comp_apply, hget, Option.getD_some]
  · intro row hrow'
    obtain ⟨-, n, hby, -, hd⟩ := hdist row hrow'
    exact ⟨n, hby, hd⟩

/-! ## The searches -/

/-- **A search** of a sound graph. -/
theorem search_nearest (h : Model.Sound g) (query : V) {k ef : ℕ} (hk : 0 < k)
    (hdim : g.dim = some (VectorStore.dimOf σ query))
    (hwide : AtMost (max (max ef g.config.efSearch) k) (Findable g query)) :
    ∃ all, AllNearest g query (Findable g query) all ∧ g.search query k ef = some (all.take k) := by
  rcases searchStart_spec h query with hnone | ⟨start, cur, top, hentry, hdescend, hstart, hlayer⟩
  · refine ⟨[], ⟨List.nodup_nil, fun id => ?_, by simp, List.Pairwise.nil⟩, ?_⟩
    · refine iff_of_false (List.not_mem_nil) ?_
      rintro ⟨start, hstart, -⟩
      rw [AnnGraph.searchStart, hnone] at hstart
      cases hstart
    · rw [AnnGraph.search, hnone, List.take_nil]
  · obtain ⟨found, hfound, -, -, hrows, -, hall⟩ := bottom_beam h query hlayer
      (max (max ef g.config.efSearch) k) (fun _ => true) (fun _ => True)
      fun _ _ _ => ⟨fun _ => trivial, fun _ => rfl⟩
    have hiff : ∀ id, FoundFrom g start id ∧ True ↔ Findable g query id :=
      fun id => (iff_of_eq (and_true _)).trans (findable_iff hstart id).symm
    have hnearest := hall fun l hnodup hl => hwide l hnodup fun id hid => (hiff id).mp (hl id hid)
    refine ⟨rowsFound g found, ⟨hnearest.nodup, fun id => (hnearest.mem id).trans (hiff id),
      hnearest.dist, hnearest.nearest⟩, ?_⟩
    have hclosed : ¬(k = 0 ∨ g.dim ≠ some (VectorStore.dimOf σ query)) := by
      rintro (rfl | hne)
      · exact absurd hk (lt_irrefl 0)
      · exact hne hdim
    rw [AnnGraph.search, hentry]
    simp only [hclosed, if_false, hdescend, bind, Option.bind]
    have hbeam : g.beam query start 0 (max (max ef g.config.efSearch) k) false = some found := hfound
    rw [hbeam]
    exact hrows k

/-- **A filtered search** of a sound graph. -/
theorem searchFiltered_nearest (h : Model.Sound g) (query : V) {k ef : ℕ} (hk : 0 < k)
    (hdim : g.dim = some (VectorStore.dimOf σ query)) (allow : Finset Id)
    (hnodes : g.ids.length < 2 ^ 53) :
    ∃ found, g.searchFiltered query k ef allow = some found ∧ Found g query k found ∧
      (∀ row ∈ found, row.1 ∈ allow) ∧
      (allow.card ≤ g.ids.length →
        AtMost (max (max ef g.config.efSearch) k) (fun id => Findable g query id ∧ id ∈ allow) →
        ∃ all, AllNearest g query (fun id => Findable g query id ∧ id ∈ allow) all ∧
          found = all.take k) := by
  have hempty : (allow = ∅ ∨ g.entry = none) →
      ∃ all, AllNearest g query (fun id => Findable g query id ∧ id ∈ allow) all ∧
        ([] : List (Id × δ)) = all.take k := by
    intro hnone
    refine ⟨[], ⟨List.nodup_nil, fun id => ?_, by simp, List.Pairwise.nil⟩, List.take_nil.symm⟩
    refine iff_of_false List.not_mem_nil ?_
    rintro ⟨⟨start, hstart, -⟩, hid⟩
    rcases hnone with rfl | hnone
    · exact absurd hid (Finset.notMem_empty id)
    · rw [AnnGraph.searchStart, hnone] at hstart
      cases hstart
  have hnil : Found g query k ([] : List (Id × δ)) :=
    ⟨List.nodup_nil, by simp, List.Pairwise.nil, Nat.zero_le k⟩
  rcases searchStart_spec h query with hnone | ⟨start, cur, top, hentry, hdescend, hstart, hlayer⟩
  · exact ⟨[], by rw [AnnGraph.searchFiltered, hnone], hnil, by simp,
      fun _ _ => hempty (.inr hnone)⟩
  · by_cases hallow : allow = ∅
    · refine ⟨[], ?_, hnil, by simp, fun _ _ => hempty (.inl hallow)⟩
      rw [AnnGraph.searchFiltered, hentry]
      simp only [hallow, or_true, if_true]
    · have hopen : ¬(k = 0 ∨ g.dim ≠ some (VectorStore.dimOf σ query) ∨ allow = ∅) := by
        rintro (rfl | hne | heq)
        · exact absurd hk (lt_irrefl 0)
        · exact hne hdim
        · exact hallow heq
      let width := AnnGraph.filteredWidth (max (max ef g.config.efSearch) k) allow.card g.ids.length
      have hadmits : ∀ (n : ℕ) id, g.ids[n]? = some id → (g.allows allow n = true ↔ id ∈ allow) := by
        intro n id hid
        rw [AnnGraph.allows, hid, Option.any_some, decide_eq_true_eq]
      obtain ⟨found, hfound, hnodup, hsorted, hrows, hall, hexact⟩ :=
        bottom_beam h query hlayer width (g.allows allow) (fun id => id ∈ allow) hadmits
      have hsub := List.take_sublist k (rowsFound g found)
      refine ⟨(rowsFound g found).take k, ?_, ⟨?_, ?_, ?_, ?_⟩, ?_, ?_⟩
      · rw [AnnGraph.searchFiltered, hentry]
        simp only [hopen, if_false, hdescend, bind, Option.bind]
        rw [hfound]
        exact hrows k
      · exact hnodup.sublist (hsub.map _)
      · exact fun row hrow => (hall row (List.mem_of_mem_take hrow)).2
      · exact hsorted.sublist hsub
      · exact List.length_take_le k _
      · exact fun row hrow => (hall row (List.mem_of_mem_take hrow)).1
      · intro hcard hmost
        have hiff : ∀ id, FoundFrom g start id ∧ id ∈ allow ↔ Findable g query id ∧ id ∈ allow :=
          fun id => and_congr_left' (findable_iff hstart id).symm
        have hlength : AtMost g.ids.length fun id => FoundFrom g start id ∧ id ∈ allow :=
          atMost_length h fun id hid => hid.1.live
        have hnearest := hexact fun l hl hin => (le_min
          (hmost l hl fun id hid => (hiff id).mp (hin id hid)) (hlength l hl hin)).trans
          (le_filteredWidth hcard hnodes)
        exact ⟨rowsFound g found, ⟨hnearest.nodup, fun id => (hnearest.mem id).trans (hiff id),
          hnearest.dist, hnearest.nearest⟩, rfl⟩

/-- **A wide search is exact.** After any run of insertions and removals, a search whose beam is
    as wide as there are findable ids returns the nearest `k` of them; where no more than `k` ids
    are live, it returns every live id exactly if each is findable. -/
theorem search_exact (config : AnnConfig) (calls : List (GraphCall V)) (hdim : OfDimension σ calls)
    (hroom : (insertedIds calls).length ≤ 2 ^ 32) :
    (config.quantizer.Splits (VectorStore.dim σ) → config.m < 2 ^ 60 →
      ∃ g : AnnGraph σ, runCalls (AnnGraph.new config) calls = some g) ∧
    ∀ g : AnnGraph σ, runCalls (AnnGraph.new config) calls = some g →
      ∀ (query : V) (k ef : ℕ), 0 < k → g.dim = some (VectorStore.dimOf σ query) →
        AtMost (max (max ef config.efSearch) k) (Findable g query) →
        ∃ all, AllNearest g query (Findable g query) all ∧
          g.search query k ef = some (all.take k) ∧
          (AtMost k (IsLive g) → ((∀ id, IsLive g id → id ∈ (all.take k).map Prod.fst) ↔
            ∀ id, IsLive g id → Findable g query id)) := by
  refine ⟨exists_run_new config hdim hroom, fun g hrun query k ef hk hquery hwide => ?_⟩
  have h := ran_new config hdim hroom hrun
  have hsearch : g.config = config := h.config
  rw [← hsearch] at hwide
  obtain ⟨all, hall, hfound⟩ := search_nearest h.sound query hk hquery hwide
  refine ⟨all, hall, hfound, fun hlive => ?_⟩
  have hlength : (all.map Prod.fst).length ≤ k :=
    hlive _ hall.nodup fun id hid => ((hall.mem id).mp hid).live
  rw [List.length_map] at hlength
  rw [List.take_of_length_le hlength]
  exact forall₂_congr fun id _ => hall.mem id

/-- **A filtered search is sound, and exact when it is wide**: it returns allowed live ids, nearest
    first; where no more ids are allowed than there are nodes, its beam is no narrower than asked
    or than there are nodes, and if as many allowed ids are findable as the search is asked for
    width, it returns the nearest `k` of them. -/
theorem search_filtered_exact (config : AnnConfig) (calls : List (GraphCall V))
    (hdim : OfDimension σ calls) (hroom : (insertedIds calls).length ≤ 2 ^ 32) :
    (config.quantizer.Splits (VectorStore.dim σ) → config.m < 2 ^ 60 →
      ∃ g : AnnGraph σ, runCalls (AnnGraph.new config) calls = some g) ∧
    ∀ g : AnnGraph σ, runCalls (AnnGraph.new config) calls = some g →
      ∀ (query : V) (k ef : ℕ) (allow : Finset Id), 0 < k →
        g.dim = some (VectorStore.dimOf σ query) →
        ∃ found, g.searchFiltered query k ef allow = some found ∧ Found g query k found ∧
          (∀ row ∈ found, row.1 ∈ allow) ∧
          (allow.card ≤ g.ids.length →
            min (max (max ef config.efSearch) k) g.ids.length ≤
              AnnGraph.filteredWidth (max (max ef config.efSearch) k) allow.card g.ids.length ∧
            (AtMost (max (max ef config.efSearch) k)
                (fun id => Findable g query id ∧ id ∈ allow) →
              ∃ all, AllNearest g query (fun id => Findable g query id ∧ id ∈ allow) all ∧
                found = all.take k)) := by
  refine ⟨exists_run_new config hdim hroom, fun g hrun query k ef allow hk hquery => ?_⟩
  have h := ran_new config hdim hroom hrun
  have hnodes : g.ids.length < 2 ^ 53 := by
    rw [h.ids, show (AnnGraph.new config : AnnGraph σ).ids = [] from rfl, List.nil_append]
    omega
  have hsearch : g.config = config := h.config
  rw [← hsearch]
  obtain ⟨found, hfound, hsound, hallowed, hexact⟩ :=
    searchFiltered_nearest h.sound query hk hquery allow hnodes
  exact ⟨found, hfound, hsound, hallowed, fun hcard => ⟨le_filteredWidth hcard hnodes, hexact hcard⟩⟩

end Recall

/-- The distance of two points on a line. -/
def gap (a b : ℕ) : Fin 64 := Fin.ofNat 64 (a - b + (b - a))

/-- A store of points on a line. -/
abbrev lineStore : VectorStore (List ℕ) ℕ (Fin 64) where
  empty _ := []
  push points v := some (points ++ [v])
  dimOf _ := 1
  distTo points node query := gap (points.getD node 0) query
  distNodes points a b := gap (points.getD a 0) (points.getD b 0)
  materialize points node := points.getD node 0
  size := List.length
  dim := 1
  size_empty _ := rfl
  size_push h _ := by
    cases h
    exact List.length_append
  isSome_pushes _ vs _ _ := by
    suffices h : ∀ points : List ℕ, (vs.foldlM (fun points v => some (points ++ [v])) points).isSome
      from h []
    induction vs with
    | nil => exact fun _ => rfl
    | cons v vs ih =>
      intro points
      rw [List.foldlM_cons]
      exact ih (fun _ _ => rfl) (points ++ [v])

/-- Some calls: five points on a line, of which one is overwritten and one removed. -/
def fewCalls : List (GraphCall ℕ) :=
  [.insert "a" 10 2, .insert "b" 20 0, .insert "a" 14 1, .insert "c" 40 0, .insert "d" 23 0,
    .remove "b"]

section Few

local instance : VectorStore (List ℕ) ℕ (Fin 64) := lineStore

local instance : Heap (Scored.dist : Scored (Fin 64) → Fin 64) := selectHeap _

/-- What the calls leave: five nodes of dimension one, and at most so many ids. -/
theorem fewCalls_run : ∃ g : AnnGraph (List ℕ),
    runCalls (AnnGraph.new ⟨2, 4, 4, .none⟩) fewCalls = some g ∧ g.dim = some 1 ∧
      g.ids.length = 5 ∧ ∀ p : Id → Prop, (∀ id, p id → IsLive g id) → AtMost 5 p := by
  have hgraph : (runCalls (AnnGraph.new ⟨2, 4, 4, .none⟩ : AnnGraph (List ℕ)) fewCalls).map
      (fun g => (g.dim, g.ids.length)) = some (some 1, 5) := by decide +kernel
  obtain ⟨g, hrun, hg⟩ := Option.map_eq_some_iff.mp hgraph
  obtain ⟨hdim, hlength⟩ := Prod.mk.inj hg
  have h := ran_new _ (fun _ _ _ _ => rfl : OfDimension (List ℕ) fewCalls) (by decide) hrun
  exact ⟨g, hrun, hdim, hlength, fun p hp => hlength ▸ atMost_length h.sound hp⟩

/-- The two nearest of three, at different distances. -/
theorem search_exact_few : ∃ (g : AnnGraph (List ℕ)) (all : List (Id × Fin 64)),
    runCalls (AnnGraph.new ⟨2, 4, 4, .none⟩) fewCalls = some g ∧
      AllNearest g 21 (Findable g 21) all ∧ g.search 21 2 5 = some (all.take 2) ∧
      all.take 2 = [("d", 2), ("a", 7)] := by
  obtain ⟨g, hrun, hdim, -, hmost⟩ := fewCalls_run
  obtain ⟨all, hall, hfound, -⟩ := (search_exact (σ := List ℕ) ⟨2, 4, 4, .none⟩ fewCalls
    (fun _ _ _ _ => rfl) (by decide)).2 g hrun 21 2 5 (by decide) hdim
    (hmost _ fun id hid => hid.live)
  have hrows : (runCalls (AnnGraph.new ⟨2, 4, 4, .none⟩ : AnnGraph (List ℕ)) fewCalls).bind
      (fun g => g.search 21 2 5) = some [("d", 2), ("a", 7)] := by decide +kernel
  rw [hrun, Option.bind_some, hfound, Option.some.injEq] at hrows
  exact ⟨g, all, hrun, hall, hfound, hrows⟩

/-- The one nearest of the two allowed that are live. -/
theorem search_filtered_exact_few : ∃ (g : AnnGraph (List ℕ)) (all : List (Id × Fin 64)),
    runCalls (AnnGraph.new ⟨2, 4, 4, .none⟩) fewCalls = some g ∧
      AllNearest g 21 (fun id => Findable g 21 id ∧ id ∈ ({"a", "b", "c"} : Finset Id)) all ∧
      g.searchFiltered 21 1 5 {"a", "b", "c"} = some (all.take 1) ∧ all.take 1 = [("a", 7)] := by
  obtain ⟨g, hrun, hdim, hlength, hmost⟩ := fewCalls_run
  obtain ⟨found, hfound, -, -, hexact⟩ := (search_filtered_exact (σ := List ℕ) ⟨2, 4, 4, .none⟩
    fewCalls (fun _ _ _ _ => rfl) (by decide)).2 g hrun 21 1 5 {"a", "b", "c"} (by decide) hdim
  have hcard : ({"a", "b", "c"} : Finset Id).card ≤ g.ids.length := by
    rw [hlength]
    decide
  obtain ⟨all, hall, rfl⟩ := (hexact hcard).2 (hmost _ fun id hid => hid.1.live)
  have hrows : (runCalls (AnnGraph.new ⟨2, 4, 4, .none⟩ : AnnGraph (List ℕ)) fewCalls).bind
      (fun g => g.searchFiltered 21 1 5 {"a", "b", "c"}) = some [("a", 7)] := by decide +kernel
  rw [hrun, Option.bind_some, hfound, Option.some.injEq] at hrows
  exact ⟨g, all, hrun, hall, hfound, hrows⟩

end Few

end Rro.Analysis
