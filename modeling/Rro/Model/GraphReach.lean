import Mathlib.Logic.Relation
import Rro.Model.GraphInsertion

/-!
# What a beam reaches

A beam that is wide enough for the nodes it may return finds all of them that its start leads
to. Every node visited is a candidate or has had its neighbours visited, until the results are
as many as the width: then there are no others (`Covers`). Only then is a node cut off.
-/

set_option autoImplicit false

namespace Rro.Model

open Rro.Library Rro.Program

section Reach

variable {σ V δ : Type}

/-- A neighbour at the layer. -/
def Linked (g : AnnGraph σ) (layer n nb : ℕ) : Prop :=
  ∃ l, g.neighbours n layer = some l ∧ nb ∈ l

/-- A node leads to another through the layer. -/
def Leads (g : AnnGraph σ) (layer : ℕ) : ℕ → ℕ → Prop := Relation.ReflTransGen (Linked g layer)

/-- There are no more than so many. -/
def AtMost {α : Type} (width : ℕ) (p : α → Prop) : Prop :=
  ∀ l : List α, l.Nodup → (∀ x ∈ l, p x) → l.length ≤ width

variable [VectorStore σ V δ] {g : AnnGraph σ} {layer start : ℕ} {P : ℕ → Prop}

/-- What a node of a territory leads to is a territory. -/
theorem Territory.within (hT : Territory g layer P) (start : ℕ) :
    Territory g layer fun n => P n ∧ Leads g layer start n where
  stored hn := hT.stored hn.1
  listed hn := hT.listed hn.1
  marked hn := hT.marked hn.1
  closed hn := by
    obtain ⟨l, hl, hmem⟩ := hT.closed hn.1
    exact ⟨l, hl, fun nb hnb => ⟨hmem nb hnb, hn.2.tail ⟨l, hl, hnb⟩⟩⟩

variable [LinearOrder δ] [Heap (Scored.dist : Scored δ → δ)] {query : V} {ef : ℕ}
  {includeDeleted : Bool} {admits : ℕ → Bool} {b : AnnGraph.Beam δ}

/-- Every node that may be a result is one. -/
def Complete (g : AnnGraph σ) (P : ℕ → Prop) (includeDeleted : Bool) (admits : ℕ → Bool)
    (results : List (Scored δ)) : Prop :=
  ∀ n, P n → admissible g includeDeleted admits n = true → n ∈ results.map Scored.node

/-- The nodes visited are results, and all but the candidates and one other have had their
    neighbours visited. -/
structure Spread (g : AnnGraph σ) (layer : ℕ) (includeDeleted : Bool) (admits : ℕ → Bool)
    (other : Option ℕ) (b : AnnGraph.Beam δ) : Prop where
  results : ∀ n : ℕ, b.visited[n]? = some true → admissible g includeDeleted admits n = true →
    n ∈ b.results.map Scored.node
  frontier : ∀ n : ℕ, b.visited[n]? = some true → n ∈ b.candidates.map Scored.node ∨
    some n = other ∨ ∀ nb, Linked g layer n nb → b.visited[nb]? = some true

/-- **The invariant of the beam**: nothing is missing, or the walk goes on. -/
def Covers (g : AnnGraph σ) (layer : ℕ) (P : ℕ → Prop) (includeDeleted : Bool)
    (admits : ℕ → Bool) (other : Option ℕ) (b : AnnGraph.Beam δ) : Prop :=
  Complete g P includeDeleted admits b.results ∨ Spread g layer includeDeleted admits other b

omit [Heap (Scored.dist : Scored δ → δ)] [LinearOrder δ] in
/-- A node that is missing has room within the width. -/
theorem BeamInv.room (hb : BeamInv g P query includeDeleted admits b)
    (hwide : AtMost ef fun n => P n ∧ admissible g includeDeleted admits n = true) {n : ℕ}
    (hn : P n) (hok : admissible g includeDeleted admits n = true)
    (hmiss : n ∉ b.results.map Scored.node) : b.results.length < ef := by
  have hle := hwide (n :: b.results.map Scored.node) (List.nodup_cons.mpr ⟨hmiss, hb.nodup⟩) (by
    intro m hm
    rcases List.mem_cons.mp hm with rfl | hm
    · exact ⟨hn, hok⟩
    · obtain ⟨s, hs, rfl⟩ := List.mem_map.mp hm
      exact ⟨(hb.results s hs).1, (hb.results s hs).2.2.1⟩)
  rwa [List.length_cons, List.length_map] at hle

omit [Heap (Scored.dist : Scored δ → δ)] [LinearOrder δ] in
/-- As many results as the width are all there are. -/
theorem BeamInv.complete (hb : BeamInv g P query includeDeleted admits b)
    (hwide : AtMost ef fun n => P n ∧ admissible g includeDeleted admits n = true)
    (hfull : ef ≤ b.results.length) : Complete g P includeDeleted admits b.results := by
  intro n hn hok
  by_contra hmiss
  exact absurd (hb.room hwide hn hok hmiss) (Nat.not_lt.mpr hfull)

variable [OrderTop δ]

/-- **One neighbour** of the node that is expanded. -/
theorem Covers.add {other : Option ℕ} (hcov : Covers g layer P includeDeleted admits other b)
    (hb : BeamInv g P query includeDeleted admits b)
    (hwide : AtMost ef fun n => P n ∧ admissible g includeDeleted admits n = true) {nb : ℕ}
    (hnb : P nb) (hnew : b.visited[nb]? = some false) :
    Covers g layer P includeDeleted admits other
      (Beam.add g query ef includeDeleted admits b nb) := by
  unfold Beam.add
  dsimp only
  split
  · -- a candidate more, and a result more if it may be one
    have hresults : ∀ n, n ∈ b.results.map Scored.node ∨
        n = nb ∧ admissible g includeDeleted admits nb = true →
        n ∈ (if admissible g includeDeleted admits nb = true then
          AnnGraph.evict ef (⟨VectorStore.distTo g.store nb query, nb⟩ :: b.results)
          else b.results).map Scored.node := by
      intro n hn
      split
      · rename_i hok
        have hle : (⟨VectorStore.distTo g.store nb query, nb⟩ :: b.results).length ≤ ef := by
          refine hb.room hwide hnb hok fun hmem => ?_
          obtain ⟨s, hs, rfl⟩ := List.mem_map.mp hmem
          rw [(hb.results s hs).2.2.2] at hnew
          cases hnew
        rw [AnnGraph.evict, if_neg (Nat.not_lt.mpr hle), List.map_cons]
        rcases hn with hn | ⟨rfl, -⟩
        · exact List.mem_cons_of_mem _ hn
        · exact List.mem_cons_self
      · rename_i hok
        exact hn.resolve_right fun h => hok h.2
    have hstill : ∀ {n : ℕ}, b.visited[n]? = some true →
        (b.visited.set nb true)[n]? = some true := by
      intro n hn
      rw [set_visited hnew]
      split
      · rfl
      · exact hn
    rcases hcov with hcov | hcov
    · exact .inl fun n hn hok => hresults n (.inl (hcov n hn hok))
    · refine .inr ⟨?_, ?_⟩
      · intro n hn hok
        rw [set_visited hnew] at hn
        split at hn
        · rename_i heq
          exact hresults n (.inr ⟨heq, heq ▸ hok⟩)
        · exact hresults n (.inl (hcov.results n hn hok))
      · intro n hn
        rw [set_visited hnew] at hn
        split at hn
        · rename_i heq
          exact .inl (List.mem_cons.mpr (.inl heq))
        · rcases hcov.frontier n hn with hc | hother | hall
          · exact .inl (List.mem_cons_of_mem _ hc)
          · exact .inr (.inl hother)
          · exact .inr (.inr fun m hm => hstill (hall m hm))
  · -- cut off: the results are as many as the width
    rename_i hcut
    exact .inl (hb.complete hwide (Nat.le_of_not_lt fun hlt => hcut (.inr hlt)))

/-- The neighbours of the node that is expanded. -/
theorem visits_covers (hT : Territory g layer P)
    (hwide : AtMost ef fun n => P n ∧ admissible g includeDeleted admits n = true)
    {other : Option ℕ} {neigh : List ℕ} (hneigh : ∀ nb ∈ neigh, P nb)
    (hb : BeamInv g P query includeDeleted admits b)
    (hcov : Covers g layer P includeDeleted admits other b) {b' : AnnGraph.Beam δ}
    (hfold : neigh.foldlM (g.visit query ef includeDeleted admits) b = some b') :
    Covers g layer P includeDeleted admits other b' ∧
      (∀ n : ℕ, b.visited[n]? = some true → b'.visited[n]? = some true) ∧
      ∀ nb ∈ neigh, b'.visited[nb]? = some true := by
  induction neigh generalizing b with
  | nil =>
    obtain rfl : b = b' := Option.some.inj hfold
    exact ⟨hcov, fun _ hn => hn, fun nb hnb => (List.not_mem_nil hnb).elim⟩
  | cons nb neigh ih =>
    have hnb := hneigh nb List.mem_cons_self
    have hrest : ∀ n ∈ neigh, P n := fun n hn => hneigh n (List.mem_cons_of_mem _ hn)
    have hlt : nb < b.visited.length := hb.size ▸ hT.listed hnb
    rw [List.foldlM_cons] at hfold
    cases hv : b.visited.get ⟨nb, hlt⟩ with
    | true =>
      have hseen := List.getElem?_eq_some_iff.mpr ⟨hlt, hv⟩
      rw [visit_seen hseen] at hfold
      obtain ⟨hcov', hmono, hall⟩ := ih hrest hb hcov hfold
      exact ⟨hcov', hmono, List.forall_mem_cons.mpr ⟨hmono nb hseen, hall⟩⟩
    | false =>
      have hnew := List.getElem?_eq_some_iff.mpr ⟨hlt, hv⟩
      rw [visit_new hT hnb hnew] at hfold
      obtain ⟨hcov', hmono, hall⟩ := ih hrest (hb.add hnb hnew) (hcov.add hb hwide hnb hnew) hfold
      have hset : ∀ n : ℕ, (Beam.add g query ef includeDeleted admits b nb).visited[n]? =
          if n = nb then some true else b.visited[n]? := by
        intro n
        rw [← set_visited hnew]
        unfold Beam.add
        dsimp only
        split <;> rfl
      refine ⟨hcov', fun n hn => hmono n ?_, List.forall_mem_cons.mpr ⟨hmono nb ?_, hall⟩⟩
      · rw [hset]
        split
        · rfl
        · exact hn
      · rw [hset, if_pos rfl]

/-- **The walk** ends with everything its start leads to, or with nothing missing. -/
theorem beamLoop_covers (hT : Territory g layer P)
    (hwide : AtMost ef fun n => P n ∧ admissible g includeDeleted admits n = true)
    (hlead : ∀ n, P n → Leads g layer start n) {bound : ℕ}
    (hb : BeamInv g P query includeDeleted admits b)
    (hcov : Covers g layer P includeDeleted admits none b)
    (hstart : b.visited[start]? = some true) {results : List (Scored δ)}
    (hrun : g.beamLoop query layer ef includeDeleted admits bound b = some results) :
    Complete g P includeDeleted admits results := by
  induction bound generalizing b with
  | zero => cases hrun
  | succ bound ih =>
    rw [AnnGraph.beamLoop] at hrun
    cases hpop : Heap.popMin (κ := Scored.dist) b.candidates with
    | none =>
      rw [hpop] at hrun
      obtain rfl : b.results = results := Option.some.inj hrun
      refine hcov.elim id fun hspread n hn hok => hspread.results n ?_ hok
      -- no candidate is left, so the nodes visited are closed under neighbours
      have hempty := Heap.popMin_nil hpop
      have hreach := hlead n hn
      clear hn hok
      induction hreach with
      | refl => exact hstart
      | tail _ hlink ihm =>
        rcases hspread.frontier _ ihm with hc | hother | hall
        · simp [hempty] at hc
        · cases hother
        · exact hall _ hlink
    | some r =>
      obtain ⟨c, candidates⟩ := r
      have hperm := Heap.popMin_perm hpop
      rw [hpop] at hrun
      dsimp only at hrun
      split at hrun
      · rename_i hcut
        obtain rfl : b.results = results := Option.some.inj hrun
        exact hb.complete hwide hcut.2
      · have hmem : ∀ c', c' ∈ b.candidates ↔ c' = c ∨ c' ∈ candidates := by
          intro c'
          rw [hperm.mem_iff, List.mem_cons]
        obtain ⟨neigh, hneigh, hin⟩ := hT.closed (hb.candidates c ((hmem c).mpr (.inl rfl)))
        have hrest : BeamInv g P query includeDeleted admits { b with candidates } :=
          ⟨hb.size, fun c' hc' => hb.candidates c' ((hmem c').mpr (.inr hc')), hb.results, hb.nodup⟩
        have hpopped : Covers g layer P includeDeleted admits (some c.node) { b with candidates } := by
          refine hcov.imp id fun hspread => ⟨hspread.results, fun n hn => ?_⟩
          rcases hspread.frontier n hn with hc | hother | hall
          · obtain ⟨c', hc', rfl⟩ := List.mem_map.mp hc
            rcases (hmem c').mp hc' with rfl | hc'
            · exact .inr (.inl rfl)
            · exact .inl (List.mem_map_of_mem hc')
          · cases hother
          · exact .inr (.inr hall)
        obtain ⟨b', hfold, hinv, -⟩ := visits_spec hT ef hin hrest
        obtain ⟨hcov', hmono, hall⟩ := visits_covers hT hwide hin hrest hpopped hfold
        rw [hneigh] at hrun
        simp only [bind, Option.bind, hfold] at hrun
        refine ih hinv (hcov'.imp id fun hspread => ⟨hspread.results, fun n hn => ?_⟩)
          (hmono start hstart) hrun
        rcases hspread.frontier n hn with hc | hother | hopen
        · exact .inl hc
        · obtain rfl := Option.some.inj hother
          refine .inr (.inr fun nb hnb => hall nb ?_)
          obtain ⟨l, hl, hnb⟩ := hnb
          rwa [Option.some.inj (hneigh.symm.trans hl)]
        · exact .inr (.inr hopen)

/-- The beam at its start. -/
def firstBeam (g : AnnGraph σ) (query : V) (start : ℕ) (includeDeleted : Bool)
    (admits : ℕ → Bool) : AnnGraph.Beam δ :=
  let startDist := VectorStore.distTo g.store start query
  { visited := (List.replicate g.ids.length false).set start true
    candidates := [⟨startDist, start⟩]
    results := if admissible g includeDeleted admits start then [⟨startDist, start⟩] else [] }

omit [LinearOrder δ] [Heap (Scored.dist : Scored δ → δ)] [OrderTop δ] in
/-- Only the start is visited. -/
theorem firstBeam_visited (hT : Territory g layer P) (hstart : P start) (query : V)
    (includeDeleted : Bool) (admits : ℕ → Bool) (n : ℕ) :
    (firstBeam g query start includeDeleted admits : AnnGraph.Beam δ).visited[n]? = some true ↔
      n = start := by
  have hnew : (List.replicate g.ids.length false)[start]? = some false := by
    rw [List.getElem?_replicate, if_pos (hT.listed hstart)]
  unfold firstBeam
  dsimp only
  rw [set_visited hnew]
  split
  · exact ⟨fun _ => ‹_›, fun _ => rfl⟩
  · refine ⟨fun hn => ?_, fun hn => absurd hn ‹_›⟩
    rw [List.getElem?_replicate] at hn
    split at hn <;> cases hn

omit [LinearOrder δ] [Heap (Scored.dist : Scored δ → δ)] [OrderTop δ] in
/-- The beam starts with its invariant. -/
theorem firstBeam_inv (hT : Territory g layer P) (hstart : P start) :
    BeamInv g P query includeDeleted admits
      (firstBeam g query start includeDeleted admits : AnnGraph.Beam δ) where
  size := by simp [firstBeam]
  candidates c hc := by
    rw [List.mem_singleton.mp hc]
    exact hstart
  results s hs := by
    have hvisited := (firstBeam_visited hT hstart query includeDeleted admits start).mpr rfl
    unfold firstBeam at hs
    dsimp only at hs
    split at hs
    · rename_i hok
      rw [List.mem_singleton.mp hs]
      exact ⟨hstart, rfl, hok, hvisited⟩
    · cases hs
  nodup := by
    unfold firstBeam
    dsimp only
    split
    · simp
    · simp

/-- **A wide beam** finds every node its start leads to that it may return. -/
theorem beamAdmit_complete (hT : Territory g layer P) (hstart : P start)
    (hwide : AtMost ef fun n =>
      (P n ∧ Leads g layer start n) ∧ admissible g includeDeleted admits n = true)
    {found : List (Scored δ)}
    (hrun : g.beamAdmit query start layer ef includeDeleted admits = some found) :
    Complete g (fun n => P n ∧ Leads g layer start n) includeDeleted admits found := by
  obtain ⟨dead, hdead, hadmits⟩ := dead_spec hT hstart includeDeleted admits
  have hwithin := hT.within start
  have hstart' : P start ∧ Leads g layer start start := ⟨hstart, .refl⟩
  have hvisited := firstBeam_visited hT hstart query includeDeleted admits
  have hspread : Spread g layer includeDeleted admits none
      (firstBeam g query start includeDeleted admits) := by
    refine ⟨fun n hn hok => ?_, fun n hn => ?_⟩
    · obtain rfl := (hvisited n).mp hn
      simp [firstBeam, hok]
    · obtain rfl := (hvisited n).mp hn
      exact .inl List.mem_cons_self
  rw [AnnGraph.beamAdmit, if_neg (Nat.not_le.mpr (hT.listed hstart)),
    distTo_eq (hT.stored hstart), hdead] at hrun
  simp only [bind, Option.bind, hadmits] at hrun
  cases hloop : g.beamLoop query layer ef includeDeleted admits (g.ids.length + 1)
      (firstBeam g query start includeDeleted admits) with
  | none =>
    unfold firstBeam at hloop
    rw [hloop] at hrun
    cases hrun
  | some results =>
    have hall := beamLoop_covers hwithin hwide (fun n hn => hn.2) (firstBeam_inv hwithin hstart')
      (.inr hspread) ((hvisited start).mpr rfl) hloop
    unfold firstBeam at hloop
    rw [hloop] at hrun
    obtain rfl := Option.some.inj hrun
    intro n hn hok
    have hsort := Heap.intoSorted_perm (κ := Scored.dist) results
    exact (hsort.map Scored.node).mem_iff.mpr (hall n hn hok)

end Reach

end Rro.Model
