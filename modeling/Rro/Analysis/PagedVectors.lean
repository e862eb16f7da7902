import Rro.Model.PagedVectors

/-!
# Paged vectors behave as a flat array

The flat array of a session is the list of its blocks. A session over a file emits what the
flat array emits and keeps the page cache within its capacity, unless it reads a vector of no
elements over a file: the count of the base is then a division by zero, while the same vector
in memory is read.
-/

set_option autoImplicit false

namespace Rro.Analysis

open Rro.Library Rro.Program Rro.Model

variable {T : Type} [Pod T] {unit : ℕ}

/-- The number of vectors after a call. -/
def countAfter (n : ℕ) : VecOp T → ℕ
  | .push _ => n + 1
  | _ => n

/-- A read is of a node that exists, and a block has `unit` elements. -/
def OpFits (unit n : ℕ) : VecOp T → Prop
  | .read node => node < n
  | .push block => block.length = unit
  | _ => True

/-- The calls fit `n` vectors of `unit` elements. -/
def Fits (unit : ℕ) : ℕ → List (VecOp T) → Prop
  | _, [] => True
  | n, op :: ops => OpFits unit n op ∧ Fits unit (countAfter n op) ops

/-- One call on the flat array. -/
def flatStep (nodes : List (List T)) : VecOp T → Emitted T × List (List T)
  | .read node => (.vector (nodes[node]?.getD []), nodes)
  | .push block => (.done, nodes ++ [block])
  | .writeAll => (.bytes (castSlice nodes.flatten), nodes)
  | .streamTo => (.bytes (castSlice nodes.flatten), nodes)
  | .reopen _ _ => (.done, nodes)

/-- What the flat array emits over a session. -/
def flatRun : List (List T) → List (VecOp T) → List (Emitted T)
  | _, [] => []
  | nodes, op :: ops => (flatStep nodes op).1 :: flatRun (flatStep nodes op).2 ops

/-- Whether the storage sits over a file after a call; with no vector it stays in memory. -/
def overAfter (overFile : Bool) (n : ℕ) : VecOp T → Bool
  | .reopen _ _ => n ≠ 0
  | _ => overFile

/-- The call reads a vector over a file. -/
def OpReadsFile (overFile : Bool) : VecOp T → Prop
  | .read _ => overFile = true
  | _ => False

/-- Some call of the session reads a vector over a file. -/
def ReadsFile : Bool → ℕ → List (VecOp T) → Prop
  | _, _, [] => False
  | overFile, n, op :: ops =>
    OpReadsFile overFile op ∨ ReadsFile (overAfter overFile n op) (countAfter n op) ops

/-- The page cache holds at most its capacity of pages. -/
def WithinCapacity (s : Vectors T) : Prop :=
  ∀ base, s.vec.base = some base → base.cache.map.size ≤ base.cache.cap

/-- The storage holds the blocks of the flat array. -/
structure Represents (unit : ℕ) (s : Vectors T) (nodes : List (List T)) : Prop where
  vec : Stores unit s.vec nodes
  count : s.count = nodes.length

/-- Vectors that are represented are within capacity. -/
theorem Represents.withinCapacity {s : Vectors T} {nodes : List (List T)}
    (h : Represents unit s nodes) : WithinCapacity s := by
  intro base hbase
  obtain ⟨stored, fresh, -, -, hsplit⟩ := h.vec.split
  rw [hbase] at hsplit
  exact hsplit.2.1.cache.bounded

omit [Pod T] in
/-- An operation that reads the file is a read over a file. -/
theorem OpReadsFile.elim {overFile : Bool} {op : VecOp T} (h : OpReadsFile overFile op) :
    ∃ node, op = .read node ∧ overFile = true := by
  cases op with
  | read node => exact ⟨node, rfl, h⟩
  | push block => exact absurd h id
  | writeAll => exact absurd h id
  | streamTo => exact absurd h id
  | reopen pageBytes budget => exact absurd h id

/-- The number of vectors after an operation. -/
theorem length_flatStep (nodes : List (List T)) (op : VecOp T) :
    (flatStep nodes op).2.length = countAfter nodes.length op := by
  cases op with
  | push block => exact List.length_append
  | read node => rfl
  | writeAll => rfl
  | streamTo => rfl
  | reopen pageBytes budget => rfl

/-! ## One call and a session -/

/-- Reading a vector of no elements over a file panics. -/
theorem step_read_none {s : Vectors T} {op : VecOp T} (h : OpReadsFile s.vec.base.isSome op) :
    s.step 0 op = none := by
  obtain ⟨node, rfl, hover⟩ := h.elim
  obtain ⟨base, hbase⟩ := Option.isSome_iff_exists.mp hover
  simp [Vectors.step, MappedVec.with_, hbase]

/-- Any other call emits what the flat array emits. -/
theorem step_represents {s : Vectors T} {nodes : List (List T)} (h : Represents unit s nodes)
    {op : VecOp T} (hfits : OpFits unit nodes.length op)
    (hread : unit = 0 → ¬ OpReadsFile s.vec.base.isSome op) :
    ∃ s', s.step unit op = some ((flatStep nodes op).1, s') ∧
      Represents unit s' (flatStep nodes op).2 ∧
      s'.vec.base.isSome = overAfter s.vec.base.isSome nodes.length op := by
  cases op with
  | read node =>
    have hpos : s.vec.base.isSome → 0 < unit := fun hover =>
      Nat.pos_of_ne_zero fun hzero => hread hzero hover
    obtain ⟨vec, hwith, hvec, hbase⟩ := stores_with h.vec hfits hpos
    have hnode : nodes[node]? = some nodes[node] := List.getElem?_eq_getElem hfits
    refine ⟨{ s with vec }, ?_, ⟨hvec, h.count⟩, hbase⟩
    simp [Vectors.step, flatStep, hwith, hnode]
  | push block =>
    refine ⟨_, rfl, ⟨stores_push h.vec hfits, ?_⟩, rfl⟩
    rw [length_flatStep, h.count]
    rfl
  | writeAll =>
    refine ⟨s, ?_, h, rfl⟩
    simp [Vectors.step, flatStep, stores_writeAll h.vec]
  | streamTo =>
    refine ⟨s, ?_, h, rfl⟩
    simp [Vectors.step, flatStep, stores_streamTo h.vec]
  | reopen pageBytes budget =>
    obtain ⟨vec, hopen, hvec, hbase⟩ := stores_openPaged pageBytes unit budget h.vec.blocks
    refine ⟨{ s with vec }, ?_, ⟨hvec, h.count⟩, hbase⟩
    simp [Vectors.step, flatStep, stores_streamTo h.vec, h.count, hopen]

/-- A session emits what the flat array emits exactly when it does not read a vector of no
    elements over a file. -/
theorem run_iff (ops : List (VecOp T)) (s : Vectors T) (nodes : List (List T))
    (h : Represents unit s nodes) (hfits : Fits unit nodes.length ops) :
    (∃ s', s.run unit ops = some (flatRun nodes ops, s') ∧ WithinCapacity s') ↔
      (unit = 0 → ¬ ReadsFile s.vec.base.isSome nodes.length ops) := by
  induction ops generalizing s nodes with
  | nil => exact ⟨fun _ _ hr => hr, fun _ => ⟨s, rfl, h.withinCapacity⟩⟩
  | cons op ops ih =>
    by_cases hnow : unit = 0 ∧ OpReadsFile s.vec.base.isSome op
    · obtain ⟨rfl, hr⟩ := hnow
      have hnone : s.run 0 (op :: ops) = none := by simp [Vectors.run, step_read_none hr]
      constructor
      · rintro ⟨s', hrun, -⟩
        rw [hnone] at hrun
        cases hrun
      · intro hnot
        exact absurd (Or.inl hr) (hnot rfl)
    · obtain ⟨s', hstep, h', hover⟩ :=
        step_represents h hfits.1 fun hzero hr => hnow ⟨hzero, hr⟩
      have hrest := ih s' _ h' (by rw [length_flatStep]; exact hfits.2)
      rw [length_flatStep, hover] at hrest
      have hlater : (unit = 0 → ¬ ReadsFile s.vec.base.isSome nodes.length (op :: ops)) ↔
          (unit = 0 → ¬ ReadsFile (overAfter s.vec.base.isSome nodes.length op)
            (countAfter nodes.length op) ops) := by
        refine forall_congr' fun hzero => not_congr ?_
        exact or_iff_right fun hr => hnow ⟨hzero, hr⟩
      rw [hlater, ← hrest]
      cases hrun : s'.run unit ops with
      | none => simp [Vectors.run, hstep, hrun]
      | some out => simp [Vectors.run, hstep, hrun, flatRun, Prod.ext_iff]

/-! ## Sessions over a file -/

/-- A session over a file of `n` vectors emits what the flat array of these vectors emits, and
    keeps the page cache within its capacity, exactly when the vectors have elements or none is
    read over a file. -/
theorem paged_refines_flat_iff (pageBytes budget unit n : ℕ) (file : Bytes)
    (ops : List (VecOp T)) (hfile : file.length = n * unit * Pod.size T)
    (hops : Fits unit n ops) :
    (∃ s, sessionOver pageBytes budget unit n file ops =
        some (flatRun (vectorsOf T unit n file) ops, s) ∧ WithinCapacity s) ↔
      0 < unit ∨ ¬ ReadsFile (n ≠ 0) n ops := by
  obtain ⟨vec, hopen, hvec, hbase⟩ :=
    stores_openPaged pageBytes unit budget (equalBlocks_vectorsOf (T := T) unit n file)
  rw [castSlice_vectorsOf unit n file hfile, length_vectorsOf] at hopen
  rw [length_vectorsOf] at hbase
  have hrun := run_iff ops ⟨vec, n⟩ (vectorsOf T unit n file)
    ⟨hvec, (length_vectorsOf unit n file).symm⟩ (by rw [length_vectorsOf]; exact hops)
  rw [length_vectorsOf, hbase] at hrun
  have hcond : (unit = 0 → ¬ ReadsFile (n ≠ 0) n ops) ↔ 0 < unit ∨ ¬ ReadsFile (n ≠ 0) n ops := by
    rw [imp_iff_not_or, Nat.pos_iff_ne_zero]
  rw [← hcond, ← hrun]
  simp [sessionOver, hopen]

/-- Two stored vectors, a third in the tail, read across the boundary and after a reopening. -/
theorem paged_boundary_read :
    ∃ s : Vectors UInt8, sessionOver 2 0 2 2 [1, 2, 3, 4]
        [.read 1, .push [5, 6], .read 2, .reopen 2 0, .read 2, .streamTo] =
      some ([.vector [3, 4], .done, .vector [5, 6], .done, .vector [5, 6],
        .bytes [1, 2, 3, 4, 5, 6]], s) ∧ WithinCapacity s :=
  (paged_refines_flat_iff 2 0 2 2 [1, 2, 3, 4]
    [.read 1, .push [5, 6], .read 2, .reopen 2 0, .read 2, .streamTo] rfl
    ⟨Nat.one_lt_two, rfl, Nat.lt_succ_self 2, trivial, Nat.lt_succ_self 2, trivial, trivial⟩).mpr
    (Or.inl Nat.two_pos)

/-- A graph of one empty vector, written and opened again, panics when the vector is read. -/
theorem empty_vector_read_panics :
    ¬ ∀ (pageBytes budget unit n : ℕ) (file : Bytes) (ops : List (VecOp UInt8)),
      file.length = n * unit * Pod.size UInt8 → Fits unit n ops →
        ∃ s, sessionOver pageBytes budget unit n file ops =
          some (flatRun (vectorsOf UInt8 unit n file) ops, s) ∧ WithinCapacity s := by
  intro h
  obtain ⟨s, hs, -⟩ := h PAGE_BYTES 0 0 1 [] [.read 0] rfl ⟨Nat.one_pos, trivial⟩
  cases hs

end Rro.Analysis
