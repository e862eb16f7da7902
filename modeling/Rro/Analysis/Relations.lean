import Mathlib.Data.List.Infix
import Rro.Model.EmptyEstate
import Rro.Model.Relations

/-!
# Relations refine a set of triples

After any calls of `relate` and `unrelate` over texts without separators, the two views list
the edges related last, each once (`relations_refine`). A traversal walks the edges of the
rows breadth first; the limit ends the walk but does not cut the list of starts, so the
result keeps the limit exactly when the distinct starts do (`traverse_iff`).
-/

set_option autoImplicit false

namespace Rro.Analysis

open Rro.Library Rro.Program Rro.Model

/-- One call that changes the relations. -/
inductive RelCall where
  | relate (r : Relation)
  | unrelate (r : Relation)
deriving DecidableEq

/-- The edge of a call. -/
def RelCall.edge : RelCall → Relation
  | .relate r => r
  | .unrelate r => r

/-- One call on the estate. -/
def RelCall.apply (c : Catalog) : RelCall → Catalog
  | .relate r => c.relate r.from_ r.verb r.to_
  | .unrelate r => c.unrelate r.from_ r.verb r.to_

/-- One call on a set of triples. -/
def RelCall.record (edges : Finset Relation) : RelCall → Finset Relation
  | .relate r => insert r edges
  | .unrelate r => edges.erase r

/-- The triples related by a sequence of calls. -/
def related (calls : List RelCall) : Finset Relation := calls.foldl RelCall.record ∅

/-- The estate after a sequence of calls. -/
def runRelCalls (c : Catalog) (calls : List RelCall) : Catalog := calls.foldl RelCall.apply c

/-- An estate without relations. -/
def unrelated (estate : Estate) (aliases : Table String String) : Catalog := ⟨estate, ∅, aliases⟩

/-! ## Runs -/

/-- Every call keeps the catalog's edges those recorded. -/
theorem holds_call {c : Catalog} {edges : Finset Relation} (h : Holds c edges) {call : RelCall}
    (hclean : CleanRelation call.edge) : Holds (call.apply c) (call.record edges) := by
  cases call with
  | relate r => exact h.relate hclean
  | unrelate r => exact h.unrelate hclean

/-- So does every sequence of calls. -/
theorem holds_run {c : Catalog} {edges : Finset Relation} (h : Holds c edges)
    {calls : List RelCall} (hclean : ∀ call ∈ calls, CleanRelation call.edge) :
    Holds (runRelCalls c calls) (calls.foldl RelCall.record edges) := by
  induction calls generalizing c edges with
  | nil => exact h
  | cons call calls ih =>
    exact ih (holds_call h (hclean call List.mem_cons_self))
      fun call' h' => hclean call' (List.mem_cons_of_mem _ h')

/-- Every sequence of calls leaves only edges in the rows. -/
theorem edgeRows_run {c : Catalog} (h : EdgeRows c) (calls : List RelCall) :
    EdgeRows (runRelCalls c calls) := by
  induction calls generalizing c with
  | nil => exact h
  | cons call calls ih =>
    apply ih
    cases call with
    | relate r => exact h.relate r
    | unrelate r => exact h.unrelate r

/-- A catalog without rows has no edges. -/
theorem holds_unrelated (estate : Estate) (aliases : Table String String) :
    Holds (unrelated estate aliases) ∅ where
  clean := by simp
  rows := by simp [unrelated]

/-! ## The two views -/

/-- **The views refine the set of triples.** -/
theorem relations_refine (estate : Estate) (aliases : Table String String)
    {calls : List RelCall} (hclean : ∀ call ∈ calls, CleanRelation call.edge) (x : Id)
    (v : Option String) :
    let c := runRelCalls (unrelated estate aliases) calls
    (c.relationsOut x v).Nodup ∧ (c.relationsIn x v).Nodup ∧
      (∀ r, r ∈ c.relationsOut x v ↔ r ∈ related calls ∧ r.from_ = x ∧ ∀ w ∈ v, r.verb = w) ∧
      (∀ r, r ∈ c.relationsIn x v ↔ r ∈ related calls ∧ r.to_ = x ∧ ∀ w ∈ v, r.verb = w) ∧
      ∀ r, r ∈ c.relationsOut r.from_ none ↔ r ∈ c.relationsIn r.to_ none := by
  intro c
  have h : Holds c (related calls) := holds_run (holds_unrelated estate aliases) hclean
  have hout : ∀ (x : Id) (v : Option String) (r : Relation), r ∈ c.relationsOut x v ↔
      r ∈ related calls ∧ r.from_ = x ∧ ∀ w ∈ v, r.verb = w := by
    intro x v r
    unfold Catalog.relationsOut
    rw [h.mem_scan]
    constructor
    · rintro ⟨s, hk, hv, rfl⟩
      exact ⟨h.out_iff.mp hk, rfl, hv⟩
    · rintro ⟨hr, rfl, hv⟩
      exact ⟨(r.verb, r.to_), h.out_iff.mpr hr, hv, rfl⟩
  have hin : ∀ (x : Id) (v : Option String) (r : Relation), r ∈ c.relationsIn x v ↔
      r ∈ related calls ∧ r.to_ = x ∧ ∀ w ∈ v, r.verb = w := by
    intro x v r
    unfold Catalog.relationsIn
    rw [h.mem_scan]
    constructor
    · rintro ⟨s, hk, hv, rfl⟩
      exact ⟨h.in_iff.mp hk, rfl, hv⟩
    · rintro ⟨hr, rfl, hv⟩
      exact ⟨(r.verb, r.from_), h.in_iff.mpr hr, hv, rfl⟩
  refine ⟨scanRels_nodup h.edgeRows v, scanRels_nodup h.edgeRows v, hout x v, hin x v, ?_⟩
  intro r
  rw [hout, hin]
  simp

/-- Of two edges of one source the one related last is gone. -/
theorem relations_refine_unrelated :
    let calls : List RelCall := [.relate ⟨"a", "has", "d"⟩, .relate ⟨"a", "has", "c"⟩,
      .unrelate ⟨"a", "has", "c"⟩]
    let c := runRelCalls (unrelated ⟨emptyDb newRegistry [], []⟩ ∅) calls
    (⟨"a", "has", "d"⟩ : Relation) ∈ c.relationsOut "a" (some "has") ∧
      (⟨"a", "has", "c"⟩ : Relation) ∉ c.relationsOut "a" (some "has") := by
  intro calls c
  have hclean : ∀ call ∈ calls, CleanRelation call.edge := by
    simp only [calls, List.forall_mem_cons, CleanRelation, RelCall.edge]
    decide
  have hout := (relations_refine ⟨emptyDb newRegistry [], []⟩ ∅ hclean "a" (some "has")).2.2.1
  constructor
  · exact (hout _).mpr ⟨by decide, rfl, fun _ hw => Option.some.inj hw⟩
  · intro hin
    exact absurd ((hout _).mp hin).1 (by decide)

/-! ## Traversal -/

/-- The edges of the rows that a traversal may walk. -/
def Walkable (c : Catalog) (spec : TraversalSpec) (x y : Id) : Prop :=
  ∃ verb, Catalog.verbOk spec verb = true ∧ sep ∉ utf8 verb ∧
    (spec.outbound = true ∧ relKey relOut x verb y ∈ c.rels ∨
      spec.inbound = true ∧ relKey relIn x verb y ∈ c.rels)

/-- A traversal ends with distinct ids, nearest first; below the limit they are all ids within
    the depth, and they never exceed it. -/
def TraversesNearest (c : Catalog) (start : List Id) (spec : TraversalSpec) : Prop :=
  ∃ order, c.traverse start spec = some order ∧
    NearestFirst (Walkable c spec) start spec.depth order ∧
    (order.length < spec.limit →
      ∀ x, x ∈ order ↔ ∃ n ≤ spec.depth, Hops (Walkable c spec) start n x) ∧
    order.length ≤ spec.limit

/-- A neighbour is a name that can be walked to. -/
theorem mem_neighbours {c : Catalog} (hrows : EdgeRows c) (spec : TraversalSpec) (x y : Id) :
    y ∈ c.neighbours spec x ↔ Walkable c spec x y := by
  unfold Catalog.neighbours Walkable
  rw [List.mem_append]
  constructor
  · rintro (h | h)
    · split at h
      · rename_i hout
        obtain ⟨r, hr, rfl⟩ := List.mem_map.mp h
        obtain ⟨hr, hverb⟩ := List.mem_filter.mp hr
        obtain ⟨-, hclean, hk⟩ := (mem_relationsOut hrows).mp hr
        exact ⟨r.verb, hverb, hclean, .inl ⟨hout, hk⟩⟩
      · cases h
    · split at h
      · rename_i hin
        obtain ⟨r, hr, rfl⟩ := List.mem_map.mp h
        obtain ⟨hr, hverb⟩ := List.mem_filter.mp hr
        obtain ⟨-, hclean, hk⟩ := (mem_relationsIn hrows).mp hr
        exact ⟨r.verb, hverb, hclean, .inr ⟨hin, hk⟩⟩
      · cases h
  · rintro ⟨verb, hverb, hclean, ⟨hout, hk⟩ | ⟨hin, hk⟩⟩
    · rw [if_pos hout]
      refine .inl (List.mem_map.mpr ⟨⟨x, verb, y⟩, List.mem_filter.mpr ⟨?_, hverb⟩, rfl⟩)
      exact (mem_relationsOut hrows).mpr ⟨rfl, hclean, hk⟩
    · rw [if_pos hin]
      refine .inr (List.mem_map.mpr ⟨⟨y, verb, x⟩, List.mem_filter.mpr ⟨?_, hverb⟩, rfl⟩)
      exact (mem_relationsIn hrows).mpr ⟨rfl, hclean, hk⟩

/-- The ids a traversal can meet: the starts and the suffixes of the keys. -/
def withinReach (c : Catalog) (start : List Id) : Finset Id :=
  (start ++ c.rels.toList.flatMap fun row => row.1.tails.map fromUtf8Lossy).toFinset

/-- Fewer names than the bound of a traversal are within reach. -/
theorem card_withinReach (c : Catalog) (start : List Id) :
    (withinReach c start).card < c.traverseBound start := by
  refine Nat.lt_succ_of_le ((List.toFinset_card_le _).trans ?_)
  rw [List.length_append, List.length_flatMap]
  simp

/-- The end of an edge is within reach. -/
theorem mem_withinReach {c : Catalog} {dir : UInt8} {x verb y : String}
    (hk : relKey dir x verb y ∈ c.rels) (start : List Id) : y ∈ withinReach c start := by
  have hrow : (relKey dir x verb y, ()) ∈ c.rels.toList := by
    obtain ⟨u, hu⟩ := Option.isSome_iff_exists.mp (Std.ExtTreeMap.mem_iff_isSome_getElem?.mp hk)
    exact (Table.mem_toList).mpr hu
  refine List.mem_toFinset.mpr (List.mem_append_right _ (List.mem_flatMap.mpr ⟨_, hrow, ?_⟩))
  refine List.mem_map.mpr ⟨utf8 y, (List.mem_tails _ _).mpr ?_, fromUtf8Lossy_utf8 y⟩
  exact ⟨dir :: utf8 x ++ sep :: utf8 verb ++ [sep], by simp [relKey]⟩

/-- **A traversal walks breadth first** and keeps its limit exactly when the starts do. -/
theorem traverse_iff (estate : Estate) (aliases : Table String String) (calls : List RelCall)
    (start : List Id) (spec : TraversalSpec) :
    let c := runRelCalls (unrelated estate aliases) calls
    (TraversesNearest c start spec ↔ start.dedup.length ≤ spec.limit) ∧
      ((∀ call ∈ calls, CleanRelation call.edge) → ∀ x y,
        Walkable c spec x y ↔ ∃ r ∈ related calls,
          Catalog.verbOk spec r.verb = true ∧ (spec.outbound = true ∧ r.from_ = x ∧ r.to_ = y ∨
            spec.inbound = true ∧ r.to_ = x ∧ r.from_ = y)) := by
  intro c
  have hrows : EdgeRows c := edgeRows_run (holds_unrelated estate aliases).edgeRows calls
  constructor
  · obtain ⟨order, hrun, hnear, hall, hseeds, hlen⟩ := search_spec (mem_neighbours hrows spec) start
      spec.depth spec.limit (U := withinReach c start)
      (fun x hx => List.mem_toFinset.mpr (List.mem_append_left _ hx))
      (fun x y hxy => by
        obtain ⟨verb, -, -, ⟨-, hk⟩ | ⟨-, hk⟩⟩ := hxy
        · exact mem_withinReach hk start
        · exact mem_withinReach hk start) (card_withinReach c start)
    constructor
    · rintro ⟨order', hrun', -, -, hlimit⟩
      rw [Catalog.traverse, hrun, Option.some.injEq] at hrun'
      subst hrun'
      omega
    · intro hlimit
      exact ⟨order, hrun, hnear, hall, by omega⟩
  · intro hclean x y
    have h : Holds c (related calls) := holds_run (holds_unrelated estate aliases) hclean
    constructor
    · rintro ⟨verb, hverb, -, ⟨hout, hk⟩ | ⟨hin, hk⟩⟩
      · exact ⟨_, h.out_iff.mp hk, hverb, .inl ⟨hout, rfl, rfl⟩⟩
      · exact ⟨_, h.in_iff.mp hk, hverb, .inr ⟨hin, rfl, rfl⟩⟩
    · rintro ⟨r, hr, hverb, ⟨hout, rfl, rfl⟩ | ⟨hin, rfl, rfl⟩⟩
      · exact ⟨r.verb, hverb, (h.clean r hr).2.1, .inl ⟨hout, h.out_iff.mpr hr⟩⟩
      · exact ⟨r.verb, hverb, (h.clean r hr).2.1, .inr ⟨hin, h.in_iff.mpr hr⟩⟩

/-- Two starts are returned under the limit 1. -/
theorem starts_exceed_the_limit :
    ¬ TraversesNearest (runRelCalls (unrelated ⟨emptyDb newRegistry [], []⟩ ∅) []) ["a", "b"]
      { TraversalSpec.default with limit := 1 } := by
  rintro ⟨order, hrun, -, -, hlimit⟩
  have hboth : (runRelCalls (unrelated ⟨emptyDb newRegistry [], []⟩ ∅) []).traverse ["a", "b"]
      { TraversalSpec.default with limit := 1 } = some ["a", "b"] := by decide
  rw [hboth, Option.some.injEq] at hrun
  subst hrun
  exact absurd hlimit (by decide)

end Rro.Analysis
