import Rro.Model.HandoffInvariant
import Rro.Model.VectorRows

/-!
# The invariant of the upkeep

The graph follows the store through the pushes still owed. A document some task
owes a push for is loose: what the handoff shows of it is settled only by the
last of these pushes, which carries the vector the store holds. Every other
document is shown by the handoff as the store holds it.

A step keeps the invariant when it is `Harmless`: pushes are made in the order
of the commits behind them, a second removal of a dropped member does not follow
a commit that found nothing to remove but left a vector, and a compaction does
not swap in a graph that misses a vector the applier will not bring again.
-/

set_option autoImplicit false

namespace Rro.Model

open Rro.Library Rro.Program

/-! ## Owed pushes -/

/-- Some task owes a push for the document. -/
def Owes (owed : List (ℕ × GraphOp)) (id : Id) : Prop := ∃ e ∈ owed, e.2.id = id

/-- The last push owed for every document carries its vector. -/
def OwedLast (owed : List (ℕ × GraphOp)) (target : Id → Option Embedding) : Prop :=
  ∀ id op, lastGraphOp (owed.map Prod.snd) id = some op → op.vector = target id

/-- Nothing is owed for a document exactly when no owed operation is its last one. -/
theorem not_owes_iff {owed : List (ℕ × GraphOp)} {id : Id} :
    ¬ Owes owed id ↔ lastGraphOp (owed.map Prod.snd) id = none := by
  simp only [lastGraphOp_eq_none, Owes, not_exists, not_and, List.mem_map]
  constructor
  · rintro h op ⟨e, he, rfl⟩
    exact h e he
  · intro h e he
    exact h e.2 ⟨e, he, rfl⟩

/-- The pushes a commit adds come after those owed before. -/
theorem OwedLast.commit {owed : List (ℕ × GraphOp)} {target target' : Id → Option Embedding}
    (h : OwedLast owed target) (i : ℕ) {ops : List GraphOp}
    (htarget : ∀ id, target' id = afterOps ops target id) : OwedLast (owed ++ ops.map fun op => (i, op)) target' := by
  intro id op hop
  have hops : (ops.map fun op => (i, op)).map Prod.snd = ops := by simp [Function.comp_def]
  rw [List.map_append, lastGraphOp_append, hops] at hop
  rw [htarget id, afterOps]
  cases hlast : lastGraphOp ops id with
  | some op' =>
    rw [hlast] at hop
    obtain rfl : op' = op := by simpa using hop
    rfl
  | none =>
    rw [hlast, Option.none_or] at hop
    exact h id op hop

/-- The documents a commit leaves alone keep their targets. -/
theorem target_of_not_owes {owed : List (ℕ × GraphOp)} {target target' : Id → Option Embedding}
    {i : ℕ} {ops : List GraphOp}
    (htarget : ∀ id, target' id = afterOps ops target id) {id : Id} (hid : ¬ Owes (owed ++ ops.map fun op => (i, op)) id) :
    target' id = target id := by
  have hnone : lastGraphOp ops id = none := by
    rw [lastGraphOp_eq_none]
    intro op hop hop'
    exact hid ⟨(i, op), by simp [hop], hop'⟩
  rw [htarget id, afterOps, hnone]
  rfl

/-- **A push in order.** The push made is the first one owed for its document; if it is also
    the last, it carries the document's vector. -/
theorem OwedLast.push {owed : List (ℕ × GraphOp)} {target : Id → Option Embedding}
    (h : OwedLast owed target) {i : ℕ} {op : GraphOp}
    (hfirst : (owed.find? fun e => e.2.id = op.id) = some (i, op)) :
    OwedLast (owed.erase (i, op)) target ∧
      (∀ id, id ≠ op.id → (Owes owed id ↔ Owes (owed.erase (i, op)) id)) ∧
      (¬ Owes (owed.erase (i, op)) op.id → op.vector = target op.id) := by
  obtain ⟨-, before, after, rfl, hbefore⟩ := List.find?_eq_some_iff_append.mp hfirst
  have hnot : ∀ e ∈ before, e.2.id ≠ op.id := by
    intro e he
    simpa using hbefore e he
  have herase : (before ++ (i, op) :: after).erase (i, op) = before ++ after := by
    rw [List.erase_append_right _ (fun hmem => hnot _ hmem rfl), List.erase_cons_head]
  rw [herase]
  have hsnd : (before ++ (i, op) :: after).map Prod.snd =
      before.map Prod.snd ++ op :: after.map Prod.snd := by simp
  have hlast : ∀ id, id ≠ op.id → lastGraphOp ((before ++ (i, op) :: after).map Prod.snd) id =
      lastGraphOp ((before ++ after).map Prod.snd) id := by
    intro id hid
    rw [hsnd, List.map_append, lastGraphOp_append, lastGraphOp_append, lastGraphOp_cons,
      if_neg (Ne.symm hid), Option.or_none]
  have hnone : lastGraphOp (before.map Prod.snd) op.id = none := by
    rw [lastGraphOp_eq_none]
    intro op' hop'
    obtain ⟨e, he, rfl⟩ := List.mem_map.mp hop'
    exact hnot e he
  refine ⟨?_, ?_, ?_⟩
  · intro id op' hop'
    refine h id op' ?_
    by_cases hid : id = op.id
    · subst hid
      rw [List.map_append, lastGraphOp_append, hnone, Option.or_none] at hop'
      rw [hsnd, lastGraphOp_append, lastGraphOp_cons, hop']
      rfl
    · rw [hlast id hid]
      exact hop'
  · intro id hid
    have hnot_iff : ¬ Owes (before ++ (i, op) :: after) id ↔ ¬ Owes (before ++ after) id := by
      rw [not_owes_iff, not_owes_iff, hlast id hid]
    exact not_iff_not.mp hnot_iff
  · intro hno
    refine h op.id op ?_
    rw [not_owes_iff, List.map_append, lastGraphOp_append, hnone, Option.or_none] at hno
    rw [hsnd, lastGraphOp_append, lastGraphOp_cons, hno, if_pos rfl]
    rfl

/-! ## Harmless steps -/

/-- The next push of a task is the first one owed for its document: an operation that
    committed earlier on the document has made its pushes. -/
def InOrder (s : Upkeep) (i : ℕ) : Prop :=
  ∀ op, s.owedBy i = some op → (s.owed.find? fun e => e.2.id = op.id) = some (i, op)

/-- The scanned rows miss no vector but those whose pushes are owed or upcoming. -/
def SwapSafe (s : Upkeep) (scanned : Table Bytes Bytes) : Prop :=
  ∀ id, vecsIn scanned id ≠ vecOf s.db id → Owes s.owed id ∨ Upcoming s.handoff id

/-- The steps of a task that keep the graph following the store. -/
def HarmlessTask (s : Upkeep) (i : ℕ) : Task → Prop
  | .pushing _ => InOrder s i
  | .retracting _ _ => InOrder s i
  | .removing _ id tx _ => tx.graphOps = [] → (s.db.rows .vecs)[utf8 id]? = none
  | .compacting _ (.swap scanned) => SwapSafe s scanned
  | _ => True

/-- The steps that keep the graph following the store. -/
def Harmless (s : Upkeep) : UpkeepStep → Prop
  | .advance i => ∀ task, s.tasks[i]? = some task → HarmlessTask s i task
  | _ => True

/-! ## The invariant -/

/-- The rows a compaction has scanned. -/
def scannedBy : CompactPhase → Option (Table Bytes Bytes)
  | .requiesce _ scanned => some scanned
  | .checkBacklog _ scanned => some scanned
  | .checkSeq _ scanned => some scanned
  | .swap scanned => some scanned
  | _ => none

/-- What a task holds is what the source built it from. -/
def Task.Sound : Task → Prop
  | .staging _ tx _ => TxVecs tx
  | .removing _ id tx _ => TxVecs tx ∧ (tx.graphOps = [] ∨ tx.graphOps = [.remove id])
  | .compacting _ phase => ∀ scanned, scannedBy phase = some scanned → VecTable scanned
  | _ => True

/-- The task is between its write and the last of its pushes. -/
def Task.pushes : Task → Bool
  | .pushing _ => true
  | .retracting _ _ => true
  | _ => false

/-- **The invariant of the upkeep.** -/
structure UpkeepInv (s : Upkeep) : Prop where
  rows : VecTable (s.db.rows .vecs)
  sound : ∀ (i : ℕ) task, s.tasks[i]? = some task → Task.Sound task
  debtors : ∀ e ∈ s.owed, ∃ task, s.tasks[e.1]? = some task ∧ Task.pushes task = true
  last : OwedLast s.owed (vecOf s.db)
  handoff : HandoffInv (Owes s.owed) (vecOf s.db) s.handoff

/-- A newly opened estate, over a graph of its vectors. -/
theorem UpkeepInv.opened {db : Db} {graph : AnnIndex} (hrows : VecTable (db.rows .vecs))
    (hgraph : ∀ id, graph.live id = vecOf db id) : UpkeepInv (Upkeep.opened db graph) where
  rows := hrows
  sound := by simp [Upkeep.opened]
  debtors := by simp [Upkeep.opened]
  last := by simp [Upkeep.opened, OwedLast, lastGraphOp]
  handoff := by
    have hlive : vecOf db = graph.live := funext fun id => (hgraph id).symm
    show HandoffInv _ (vecOf db) (Handoff.new graph)
    rw [hlive]
    exact HandoffInv.new _ graph

section Steps

variable {s t : Upkeep}

/-- A task that is not pushing owes nothing. -/
theorem UpkeepInv.owes_nothing (h : UpkeepInv s) {i : ℕ}
    (hi : ∀ task, s.tasks[i]? = some task → Task.pushes task = false) :
    ∀ e ∈ s.owed, e.1 ≠ i := by
  rintro e he rfl
  obtain ⟨task, htask, hpushes⟩ := h.debtors e he
  rw [hi task htask] at hpushes
  simp at hpushes

/-- A task moves on, if it stays between its write and its pushes while it owes any. -/
theorem UpkeepInv.move (h : UpkeepInv s) {i : ℕ} {task : Task} (hsound : Task.Sound task)
    (hpays : Task.pushes task = true ∨ ∀ e ∈ s.owed, e.1 ≠ i) : UpkeepInv (s.move i task) where
  rows := h.rows
  sound := by
    intro j task' htask'
    rw [Upkeep.move, Table.get_insert] at htask'
    by_cases hj : j = i
    · rw [if_pos hj, Option.some.injEq] at htask'
      rw [← htask']
      exact hsound
    · rw [if_neg hj] at htask'
      exact h.sound j task' htask'
  debtors := by
    intro e he
    obtain ⟨task', htask', hpushes'⟩ := h.debtors e he
    show ∃ u, (s.tasks.insert i task)[e.1]? = some u ∧ Task.pushes u = true
    by_cases hj : e.1 = i
    · rcases hpays with hpushes | hnone
      · exact ⟨task, by rw [Table.get_insert, if_pos hj], hpushes⟩
      · exact absurd hj (hnone e he)
    · exact ⟨task', by rw [Table.get_insert, if_neg hj, htask'], hpushes'⟩
  last := h.last
  handoff := h.handoff

/-- A task that owes nothing returns. -/
theorem UpkeepInv.done (h : UpkeepInv s) {i : ℕ} (hpaid : ∀ e ∈ s.owed, e.1 ≠ i) :
    UpkeepInv (s.done i) where
  rows := h.rows
  sound := by
    intro j task htask
    rw [Upkeep.done, Table.get_erase] at htask
    by_cases hj : j = i
    · simp [hj] at htask
    · rw [if_neg hj] at htask
      exact h.sound j task htask
  debtors := by
    intro e he
    obtain ⟨task, htask, hpushes⟩ := h.debtors e he
    exact ⟨task, by rw [Upkeep.done, Table.get_erase, if_neg (hpaid e he), htask], hpushes⟩
  last := h.last
  handoff := h.handoff

/-- Declarations are not part of it. -/
theorem UpkeepInv.registry (h : UpkeepInv s) (registry : Registry) :
    UpkeepInv { s with db := { s.db with registry } } :=
  ⟨h.rows, h.sound, h.debtors, h.last, h.handoff⟩

/-- **A durable write** leaves the documents it changes loose until its pushes are made. -/
theorem UpkeepInv.write (h : UpkeepInv s) {i : ℕ} {tx : Transaction} (htx : TxVecs tx)
    {ops : List GraphOp} {task : Task} (hpushes : Task.pushes task = true)
    (hsound : Task.Sound task)
    (htarget : ∀ id, vecOf (s.db.write tx.finalBatch) id = afterOps ops (vecOf s.db) id) : UpkeepInv ((s.write i tx.finalBatch ops).move i task) := by
  have hwritten : ∀ e ∈ (s.write i tx.finalBatch ops).owed, e.1 = i ∨
      ∃ task, s.tasks[e.1]? = some task ∧ Task.pushes task = true := by
    intro e he
    rcases List.mem_append.mp he with he | he
    · exact .inr (h.debtors e he)
    · obtain ⟨op, -, rfl⟩ := List.mem_map.mp he
      exact .inl rfl
  exact
    { rows := VecTable.write htx h.rows
      sound := (h.move hsound (.inl hpushes)).sound
      debtors := by
        intro e he
        show ∃ u, (s.tasks.insert i task)[e.1]? = some u ∧ Task.pushes u = true
        rcases hwritten e he with hi | ⟨task', htask', hpushes'⟩
        · exact ⟨task, by rw [Table.get_insert, if_pos hi], hpushes⟩
        · by_cases hi : e.1 = i
          · exact ⟨task, by rw [Table.get_insert, if_pos hi], hpushes⟩
          · exact ⟨task', by rw [Table.get_insert, if_neg hi, htask'], hpushes'⟩
      last := h.last.commit i htarget
      handoff := h.handoff.weaken
        (fun id ⟨e, he, hid⟩ => ⟨e, List.mem_append_left _ he, hid⟩)
        (fun id hid => target_of_not_owes htarget hid) }

/-- **A push made in order** settles its document, or leaves it to a later one. -/
theorem UpkeepInv.push (h : UpkeepInv s) {i : ℕ} {op : GraphOp} (hop : s.owedBy i = some op)
    (horder : InOrder s i) (hnext : s.push i op = some t) : UpkeepInv t := by
  obtain ⟨handoff, hpush, rfl⟩ := Option.map_eq_some_iff.mp hnext
  obtain ⟨hlast, howes, hsettled⟩ := h.last.push (horder op hop)
  simp only [Handoff.next] at hpush
  split at hpush
  · obtain rfl := Option.some.inj hpush
    refine ⟨h.rows, h.sound, ?_, hlast, ?_⟩
    · intro e he
      exact h.debtors e (List.mem_of_mem_erase he)
    · refine h.handoff.push op (fun id hid hl => (howes id hid).mp hl) ?_
      intro id hid
      by_cases heq : id = op.id
      · subst heq
        rw [if_pos rfl, hsettled hid]
      · rw [if_neg heq]
  · simp at hpush

/-- A pass of a compaction that lost a race. -/
theorem UpkeepInv.retry (h : UpkeepInv s) {i attempts : ℕ} (hpaid : ∀ e ∈ s.owed, e.1 ≠ i) :
    UpkeepInv (s.retry i attempts) := by
  unfold Upkeep.retry
  split
  · exact h.move (by simp [Task.Sound, scannedBy]) (.inr hpaid)
  · exact h.done hpaid

/-- The steps of a compaction. -/
theorem UpkeepInv.compact (h : UpkeepInv s) {i attempts : ℕ} {phase : CompactPhase}
    (htask : s.tasks[i]? = some (.compacting attempts phase))
    (hok : HarmlessTask s i (.compacting attempts phase))
    (hnext : s.compact i attempts phase = some t) : UpkeepInv t := by
  have hsound : ∀ scanned, scannedBy phase = some scanned → VecTable scanned := h.sound i _ htask
  have hpaid : ∀ e ∈ s.owed, e.1 ≠ i := by
    refine h.owes_nothing ?_
    intro task htask'
    rw [htask, Option.some.injEq] at htask'
    rw [← htask']
    rfl
  cases phase with
  | quiesce =>
    simp only [Upkeep.compact] at hnext
    split at hnext
    · obtain rfl := Option.some.inj hnext
      exact h.move (by simp [Task.Sound, scannedBy]) (.inr hpaid)
    · simp at hnext
  | readSeq =>
    obtain rfl := Option.some.inj hnext
    exact h.move (by simp [Task.Sound, scannedBy]) (.inr hpaid)
  | scan seq =>
    obtain rfl := Option.some.inj hnext
    refine h.move ?_ (.inr hpaid)
    intro scanned hscanned
    obtain rfl := Option.some.inj hscanned
    exact h.rows
  | requiesce seq scanned =>
    simp only [Upkeep.compact] at hnext
    split at hnext
    · obtain rfl := Option.some.inj hnext
      exact h.move hsound (.inr hpaid)
    · simp at hnext
  | checkBacklog seq scanned =>
    simp only [Upkeep.compact] at hnext
    split at hnext
    · obtain rfl := Option.some.inj hnext
      exact h.move hsound (.inr hpaid)
    · obtain rfl := Option.some.inj hnext
      exact h.retry hpaid
  | checkSeq seq scanned =>
    simp only [Upkeep.compact] at hnext
    split at hnext
    · obtain rfl := Option.some.inj hnext
      exact h.move hsound (.inr hpaid)
    · obtain rfl := Option.some.inj hnext
      exact h.retry hpaid
  | swap scanned =>
    simp only [Upkeep.compact] at hnext
    split at hnext
    · simp at hnext
    · rename_i hfree
      obtain rfl := Option.some.inj hnext
      rw [Bool.or_eq_true, not_or, Bool.not_eq_true, Bool.not_eq_true', Bool.not_eq_false] at hfree
      have hgraph : ∀ id, ¬ Owes s.owed id → ¬ Upcoming s.handoff id →
          (rebuildAnnFromVecs scanned).live id = vecOf s.db id := by
        intro id howes hup
        rw [live_rebuild (hsound scanned rfl)]
        by_contra hne
        exact (hok id hne).elim howes hup
      have hswapped : UpkeepInv
          { s with handoff := { s.handoff with graph := rebuildAnnFromVecs scanned } } :=
        ⟨h.rows, h.sound, h.debtors, h.last,
          h.handoff.swap hfree.1 (Std.ExtTreeMap.isEmpty_iff.mp hfree.2) hgraph⟩
      exact hswapped.done hpaid

end Steps

section System

variable [SerdeJson] {handle : ConnXRecall} {s t : Upkeep}

/-- The steps of a task. -/
theorem UpkeepInv.advance (h : UpkeepInv s) {i : ℕ} {task : Task} (htask : s.tasks[i]? = some task)
    (hok : HarmlessTask s i task) (hnext : s.advance handle i task = some t) : UpkeepInv t := by
  have hpaid : Task.pushes task = false → ∀ e ∈ s.owed, e.1 ≠ i := by
    intro hpushes
    refine h.owes_nothing ?_
    intro task' htask'
    rw [htask, Option.some.injEq] at htask'
    rw [← htask', hpushes]
  have hnothing : s.owedBy i = none → ∀ e ∈ s.owed, e.1 ≠ i := by
    intro hnone e he hi
    rw [Upkeep.owedBy, Option.map_eq_none_iff, List.find?_eq_none] at hnone
    exact hnone e he (by simpa using hi)
  have hsound := h.sound i task htask
  cases task with
  | staging mutex tx rest =>
    cases rest with
    | nil =>
      obtain rfl := Option.some.inj hnext
      exact h.write hsound rfl trivial (vecOf_write hsound s.db)
    | cons op rest =>
      obtain ⟨registry, hdb⟩ := applyOps_db handle s.db [op] s.db.registry tx
      have hself : withRegistry s.db s.db.registry = s.db := rfl
      rw [hself] at hdb
      simp only [Upkeep.advance] at hnext
      rcases happ : applyOps handle s.db tx [op] with ⟨db, err | tx'⟩
      · simp only [happ, Option.some.injEq] at hnext hdb
        subst hnext hdb
        exact (h.registry registry).done (hpaid rfl)
      · simp only [happ, Option.some.injEq] at hnext hdb
        subst hnext hdb
        refine (h.registry registry).move ?_ (.inr (hpaid rfl))
        exact applyOps_vecs hsound happ
  | pushing mutex =>
    simp only [Upkeep.advance] at hnext
    cases hop : s.owedBy i with
    | some op =>
      rw [hop] at hnext
      exact h.push hop hok hnext
    | none =>
      rw [hop] at hnext
      obtain rfl := Option.some.inj hnext
      exact h.done (hnothing hop)
  | dropping name members =>
    cases members with
    | nil =>
      obtain rfl := Option.some.inj hnext
      exact (h.registry _).done (hpaid rfl)
    | cons id members =>
      obtain rfl := Option.some.inj hnext
      refine h.move ⟨TxVecs.remove s.db id rfl, graphOps_removeInto s.db id⟩ (.inr (hpaid rfl))
  | removing name id tx members =>
    obtain ⟨htx, hops⟩ := hsound
    obtain rfl := Option.some.inj hnext
    refine h.write htx rfl trivial ?_
    intro id'
    rw [vecOf_write htx, afterOps, afterOps, lastGraphOp_concat]
    by_cases hid : id = id'
    · subst hid
      rw [show (GraphOp.remove id).id = id from rfl, if_pos rfl]
      rcases hops with hops | hops
      · -- nothing was found to remove, and there is no vector
        rw [hops]
        show vecOf s.db id = none
        rw [vecOf, vecsIn, hok hops]
        rfl
      · rw [hops]
        simp [lastGraphOp, GraphOp.id, GraphOp.vector]
    · rw [show (GraphOp.remove id).id = id from rfl, if_neg hid]
  | retracting name members =>
    simp only [Upkeep.advance] at hnext
    cases hop : s.owedBy i with
    | some op =>
      rw [hop] at hnext
      exact h.push hop hok hnext
    | none =>
      rw [hop] at hnext
      obtain rfl := Option.some.inj hnext
      exact h.move trivial (.inr (hnothing hop))
  | compacting attempts phase => exact h.compact htask hok hnext

/-- **Every harmless step keeps the invariant.** -/
theorem UpkeepInv.step (h : UpkeepInv s) {a : UpkeepStep} (hok : Harmless s a)
    (hnext : s.next handle a = some t) : UpkeepInv t := by
  have hnew : ∀ i : ℕ, ¬ s.tasks.contains i = true → ∀ e ∈ s.owed, e.1 ≠ i := by
    intro i hfree
    refine h.owes_nothing ?_
    intro task htask
    rw [Std.ExtTreeMap.contains_eq_isSome_getElem?, htask] at hfree
    exact absurd rfl hfree
  cases a with
  | handoff a =>
    have hpush : ∀ op, a ≠ .push op := by
      rintro op rfl
      simp [Upkeep.next] at hnext
    obtain ⟨u, hu, rfl⟩ : ∃ u, s.handoff.next a = some u ∧ ({ s with handoff := u } : Upkeep) = t := by
      cases a with
      | push op => exact absurd rfl (hpush op)
      | _ => exact Option.map_eq_some_iff.mp hnext
    exact ⟨h.rows, h.sound, h.debtors, h.last, h.handoff.step hpush hu⟩
  | transaction i mutex ops =>
    simp only [Upkeep.next] at hnext
    split at hnext
    · simp at hnext
    · rename_i hfree
      obtain rfl := Option.some.inj hnext
      rw [Bool.or_eq_true, not_or, Bool.or_eq_true, not_or] at hfree
      exact h.move (by simp [Task.Sound, TxVecs, Transaction.begin, rowWrites])
        (.inr (hnew i hfree.1.1))
  | dropCollection i name =>
    simp only [Upkeep.next] at hnext
    split at hnext
    · simp at hnext
    · rename_i hfree
      obtain rfl := Option.some.inj hnext
      exact h.move trivial (.inr (hnew i hfree))
  | compactGraph i =>
    simp only [Upkeep.next] at hnext
    split at hnext
    · simp at hnext
    · rename_i hfree
      obtain rfl := Option.some.inj hnext
      exact h.move (by simp [Task.Sound, scannedBy]) (.inr (hnew i hfree))
  | advance i =>
    simp only [Upkeep.next] at hnext
    cases htask : s.tasks[i]? with
    | none => simp [htask] at hnext
    | some task =>
      rw [htask] at hnext
      exact h.advance htask (hok task htask) hnext
  | refuse i =>
    simp only [Upkeep.next] at hnext
    have hreturned : ∀ task, s.tasks[i]? = some task → Task.pushes task = false →
        UpkeepInv (s.done i) := by
      intro task htask hpushes
      refine h.done (h.owes_nothing ?_)
      intro task' htask'
      rw [htask, Option.some.injEq] at htask'
      rw [← htask', hpushes]
    split at hnext
    · rename_i htask
      obtain rfl := Option.some.inj hnext
      exact hreturned _ htask rfl
    · rename_i htask
      obtain rfl := Option.some.inj hnext
      exact hreturned _ htask rfl
    · simp at hnext

end System

end Rro.Model
