import Rro.Program.PagedVectors

/-!
# What the vectors of a graph hold

`Serves` says that a base serves the blocks of its file, and `Stores` that a
base and a tail hold the blocks of one list in order. Each operation keeps them and emits what
the flat array of the blocks emits.
-/

set_option autoImplicit false

namespace Rro.Model

open Rro.Library Rro.Program

variable {T : Type} [Pod T]

/-! ## Values and bytes -/

/-- Cast values take up their size each. -/
theorem length_castSlice (xs : List T) : (castSlice xs).length = xs.length * Pod.size T :=
  length_flatMap_fixed Pod.length_bytes xs

/-- No values are no bytes. -/
@[simp] theorem castSlice_nil : castSlice ([] : List T) = [] := rfl

/-- The bytes of joined values. -/
theorem castSlice_append (xs ys : List T) : castSlice (xs ++ ys) = castSlice xs ++ castSlice ys :=
  List.flatMap_append

/-- Values are read back as they were cast. -/
theorem castBytes_castSlice (xs : List T) : castBytes T xs.length (castSlice xs) = xs := by
  induction xs with
  | nil => rfl
  | cons x xs ih =>
    have hsize : (Pod.bytes x).length = Pod.size T := Pod.length_bytes x
    have hcons : castSlice (x :: xs) = Pod.bytes x ++ castSlice xs := List.flatMap_cons
    rw [hcons, List.length_cons, castBytes, ← hsize, List.take_left, List.drop_left,
      Pod.ofBytes_bytes, ih]

/-- Any bytes of the right length are the bytes of values. -/
theorem castSlice_castBytes (n : ℕ) (buf : Bytes) (h : buf.length = n * Pod.size T) :
    castSlice (castBytes T n buf) = buf := by
  induction n generalizing buf with
  | zero =>
    rw [Nat.zero_mul, List.length_eq_zero_iff] at h
    rw [h]
    rfl
  | succ n ih =>
    rw [Nat.succ_mul] at h
    have htake : (buf.take (Pod.size T)).length = Pod.size T := by
      rw [List.length_take]
      omega
    have hdrop : (buf.drop (Pod.size T)).length = n * Pod.size T := by
      rw [List.length_drop]
      omega
    have hcons : castSlice (castBytes T (n + 1) buf) =
        Pod.bytes (Pod.ofBytes (buf.take (Pod.size T)) : T) ++
          castSlice (castBytes T n (buf.drop (Pod.size T))) := List.flatMap_cons
    rw [hcons, Pod.bytes_ofBytes _ htake, ih _ hdrop, List.take_append_drop]

/-- As many values are read as were asked for. -/
theorem length_castBytes (n : ℕ) (buf : Bytes) : (castBytes T n buf).length = n := by
  induction n generalizing buf with
  | zero => rfl
  | succ n ih => rw [castBytes, List.length_cons, ih]

/-- The `n` vectors of a file. -/
def vectorsOf (T : Type) [Pod T] (unit : ℕ) : ℕ → Bytes → List (List T)
  | 0, _ => []
  | n + 1, file =>
    castBytes T unit (file.take (unit * Pod.size T)) ::
      vectorsOf T unit n (file.drop (unit * Pod.size T))

/-- The vectors of a file are equal blocks. -/
theorem equalBlocks_vectorsOf (unit n : ℕ) (file : Bytes) :
    EqualBlocks unit (vectorsOf T unit n file) := by
  induction n generalizing file with
  | zero => exact fun _ hb => absurd hb List.not_mem_nil
  | succ n ih =>
    intro b hb
    cases List.mem_cons.mp hb with
    | inl hb => rw [hb, length_castBytes]
    | inr hb => exact ih _ b hb

/-- A file has as many vectors as nodes. -/
theorem length_vectorsOf (unit n : ℕ) (file : Bytes) : (vectorsOf T unit n file).length = n := by
  induction n generalizing file with
  | zero => rfl
  | succ n ih => rw [vectorsOf, List.length_cons, ih]

/-- A file of the right length is the concatenation of its vectors. -/
theorem castSlice_vectorsOf (unit n : ℕ) (file : Bytes)
    (h : file.length = n * unit * Pod.size T) :
    castSlice (vectorsOf T unit n file).flatten = file := by
  induction n generalizing file with
  | zero =>
    rw [Nat.zero_mul, Nat.zero_mul, List.length_eq_zero_iff] at h
    rw [h]
    rfl
  | succ n ih =>
    rw [Nat.succ_mul, Nat.add_mul] at h
    rw [vectorsOf, List.flatten_cons, castSlice_append,
      castSlice_castBytes _ _ (by rw [List.length_take]; omega),
      ih _ (by rw [List.length_drop]; omega), List.take_append_drop]

/-- The bytes of `n` values from the value `i` on, in a file of values. -/
theorem readExactAt_castSlice (xs : List T) (i n : ℕ) (h : i + n ≤ xs.length) :
    readExactAt (castSlice xs) (n * Pod.size T) (i * Pod.size T) =
      some (castSlice ((xs.drop i).take n)) := by
  have hroom : i * Pod.size T + n * Pod.size T ≤ (castSlice xs).length := by
    rw [length_castSlice, ← Nat.add_mul]
    exact Nat.mul_le_mul_right _ h
  unfold readExactAt
  rw [if_pos (Or.inr hroom)]
  exact congrArg some (flatMap_between Pod.length_bytes xs i n)

/-! ## The base -/

/-- The base serves the blocks `nodes` of its file. -/
structure Serves (b : PagedBase T) (nodes : List (List T)) : Prop where
  blocks : EqualBlocks b.unit nodes
  file : b.file = castSlice nodes.flatten
  total : b.total = nodes.length
  perPage : 0 < b.perPage
  cache : b.cache.Sound b.readPage

/-- A page holds the blocks of its nodes; the last one may be short. -/
theorem readPage_eq {b : PagedBase T} {nodes : List (List T)} (h : Serves b nodes) {idx : ℕ}
    (hidx : idx * b.perPage ≤ nodes.length) :
    b.readPage idx = some ((nodes.drop (idx * b.perPage)).take b.perPage).flatten := by
  have htake : (nodes.drop (idx * b.perPage)).take (min (b.total - idx * b.perPage) b.perPage) =
      (nodes.drop (idx * b.perPage)).take b.perPage := by
    rw [h.total, List.take_eq_take_iff, List.length_drop]
    omega
  have hblocks := blocks_between h.blocks (idx * b.perPage)
    (min (b.total - idx * b.perPage) b.perPage)
  rw [htake] at hblocks
  have hroom : idx * b.perPage * b.unit +
      min (b.total - idx * b.perPage) b.perPage * b.unit ≤ nodes.flatten.length := by
    rw [length_flatten_blocks h.blocks, ← Nat.add_mul, h.total]
    exact Nat.mul_le_mul_right _ (by omega)
  have hread := readExactAt_castSlice nodes.flatten _ _ hroom
  rw [hblocks] at hread
  have hlen : ((nodes.drop (idx * b.perPage)).take b.perPage).flatten.length =
      min (b.total - idx * b.perPage) b.perPage * b.unit := by
    have hcount : ((nodes.drop (idx * b.perPage)).take b.perPage).length =
        min (b.total - idx * b.perPage) b.perPage := by
      rw [List.length_take, List.length_drop, h.total]
      exact Nat.min_comm _ _
    rw [length_flatten_blocks ((h.blocks.drop _).take _), hcount]
  unfold PagedBase.readPage
  rw [if_neg (by rw [h.total]; omega)]
  dsimp only
  rw [h.file, hread, Option.map_some, ← hlen, castBytes_castSlice]

/-- The base hands over the block of a node, and goes on serving the same blocks. -/
theorem serves_with {b : PagedBase T} {nodes : List (List T)} (h : Serves b nodes) {node : ℕ}
    (hnode : node < nodes.length) :
    ∃ b', b.with_ node = some (nodes[node], b') ∧ Serves b' nodes ∧ b'.unit = b.unit := by
  have hstart : node / b.perPage * b.perPage ≤ node := Nat.div_mul_le_self node b.perPage
  obtain ⟨cache, hread, hsound, -⟩ :=
    RecentCache.readThrough_sound h.cache (readPage_eq h (hstart.trans hnode.le))
  have hwithin : node % b.perPage < b.perPage := Nat.mod_lt node h.perPage
  have hsum : node / b.perPage * b.perPage + node % b.perPage = node := Nat.div_add_mod' node _
  have hin : node % b.perPage <
      ((nodes.drop (node / b.perPage * b.perPage)).take b.perPage).length := by
    rw [List.length_take, List.length_drop]
    omega
  have hwindow := window_flatten ((h.blocks.drop (node / b.perPage * b.perPage)).take b.perPage)
    (node % b.perPage) hin
  have hblock : ((nodes.drop (node / b.perPage * b.perPage)).take b.perPage)[node % b.perPage] =
      nodes[node] := by
    rw [List.getElem_take, List.getElem_drop]
    simp only [hsum]
  refine ⟨{ b with cache }, ?_, ⟨h.blocks, h.file, h.total, h.perPage, hsound⟩, rfl⟩
  unfold PagedBase.with_ PagedBase.page
  dsimp only
  rw [hread]
  dsimp only [Option.map_some, Option.bind_eq_bind, Option.bind_some]
  rw [hwindow, hblock]
  rfl

/-- A base that serves some vectors appends their bytes. -/
theorem serves_appendBytes {b : PagedBase T} {nodes : List (List T)} (h : Serves b nodes)
    (out : Bytes) : b.appendBytes out = some (out ++ castSlice nodes.flatten) := by
  have hlen : b.total * b.unit = nodes.flatten.length := by
    rw [length_flatten_blocks h.blocks, h.total]
  have hread := readExactAt_castSlice nodes.flatten 0 nodes.flatten.length (by omega)
  rw [Nat.zero_mul, List.drop_zero, List.take_length] at hread
  unfold PagedBase.appendBytes
  dsimp only
  rw [hlen, h.file, hread, Option.map_some]

/-- The chunks from `off` on are the rest of the file. -/
theorem streamFrom_eq (file w : Bytes) (off : ℕ) (h : off ≤ file.length) :
    streamFrom file file.length off w = some (w ++ file.drop off) := by
  induction hrest : file.length - off using Nat.strong_induction_on generalizing off w with
  | _ rest ih =>
    rw [streamFrom]
    split
    · rename_i hlt
      have hchunk : 0 < min CHUNK (file.length - off) :=
        lt_min CHUNK_pos (Nat.sub_pos_of_lt hlt)
      have hread : readExactAt file (min CHUNK (file.length - off)) off =
          some ((file.drop off).take (min CHUNK (file.length - off))) :=
        if_pos (Or.inr (by omega))
      dsimp only
      rw [hread]
      dsimp only
      rw [ih _ (by omega) _ (off + min CHUNK (file.length - off)) (by omega) rfl, List.append_assoc,
        ← List.drop_drop, List.take_append_drop]
    · rename_i hge
      rw [List.drop_eq_nil_of_le (not_lt.mp hge), List.append_nil]

/-- A base that serves some vectors streams their bytes. -/
theorem serves_streamTo {b : PagedBase T} {nodes : List (List T)} (h : Serves b nodes)
    (w : Bytes) : b.streamTo w = some (w ++ castSlice nodes.flatten) := by
  have hlen : b.total * b.unit * Pod.size T = b.file.length := by
    rw [h.file, length_castSlice, length_flatten_blocks h.blocks, h.total]
  unfold PagedBase.streamTo
  rw [hlen, streamFrom_eq b.file w 0 (Nat.zero_le _), List.drop_zero, h.file]

/-- A base opened over the bytes of its blocks serves them. -/
theorem serves_new (pageBytes unit budget : ℕ) {nodes : List (List T)}
    (h : EqualBlocks unit nodes) :
    Serves (PagedBase.new pageBytes (castSlice nodes.flatten) unit nodes.length budget) nodes where
  blocks := h
  file := rfl
  total := rfl
  perPage := Nat.lt_of_lt_of_le Nat.one_pos (Nat.le_max_right _ _)
  cache := RecentCache.sound_new (Nat.lt_of_lt_of_le Nat.one_pos (Nat.le_max_right _ _))

/-! ## Base and tail -/

/-- The base and the tail hold the blocks `nodes`, in order. -/
structure Stores (unit : ℕ) (m : MappedVec T) (nodes : List (List T)) : Prop where
  blocks : EqualBlocks unit nodes
  split : ∃ stored fresh, nodes = stored ++ fresh ∧ m.tail = fresh.flatten ∧
    match m.base with
    | none => stored = [] ∧ m.baseLen = 0
    | some b => b.unit = unit ∧ Serves b stored ∧ m.baseLen = stored.length * unit

/-- A vector in memory starts empty. -/
theorem stores_inRam (unit : ℕ) : Stores unit (MappedVec.inRam : MappedVec T) [] where
  blocks _ hb := absurd hb List.not_mem_nil
  split := ⟨[], [], rfl, rfl, rfl, rfl⟩

/-- A pushed block is stored at the end. -/
theorem stores_push {unit : ℕ} {m : MappedVec T} {nodes : List (List T)} (h : Stores unit m nodes)
    {block : List T} (hb : block.length = unit) : Stores unit (m.push block) (nodes ++ [block]) := by
  obtain ⟨stored, fresh, hnodes, htail, hbase⟩ := h.split
  refine ⟨h.blocks.append fun b hmem => ?_, stored, fresh ++ [block], ?_, ?_, hbase⟩
  · rw [List.mem_singleton.mp hmem, hb]
  · rw [hnodes, List.append_assoc]
  · simp [MappedVec.push, htail]

/-- The block of a node, unless a vector of no elements is read over a file. -/
theorem stores_with {unit : ℕ} {m : MappedVec T} {nodes : List (List T)} (h : Stores unit m nodes)
    {node : ℕ} (hnode : node < nodes.length) (hread : m.base.isSome → 0 < unit) :
    ∃ m', m.with_ node unit = some (nodes[node], m') ∧ Stores unit m' nodes ∧
      m'.base.isSome = m.base.isSome := by
  obtain ⟨base, baseLen, tail⟩ := m
  obtain ⟨stored, fresh, rfl, rfl, hbase⟩ := h.split
  have hblocks : EqualBlocks unit fresh := fun b hb => h.blocks b (List.mem_append_right _ hb)
  rw [List.length_append] at hnode
  cases base with
  | none =>
    obtain ⟨rfl, -⟩ := hbase
    refine ⟨_, ?_, h, rfl⟩
    have hwindow := window_flatten hblocks node (by simpa using hnode)
    simp [MappedVec.with_, hwindow]
  | some b =>
    obtain ⟨hunit, hserves, rfl⟩ := hbase
    have hpos : 0 < unit := hread rfl
    have hcount : stored.length * unit / unit = stored.length := Nat.mul_div_cancel _ hpos
    by_cases hlt : node < stored.length
    · obtain ⟨b', hwith, hserves', hunit'⟩ := serves_with hserves hlt
      refine ⟨⟨some b', stored.length * unit, fresh.flatten⟩, ?_,
        ⟨h.blocks, stored, fresh, rfl, rfl, hunit'.trans hunit, hserves', rfl⟩, rfl⟩
      simp [MappedVec.with_, hpos.ne', hcount, hlt, hwith, List.getElem_append_left hlt]
    · have hle : stored.length ≤ node := not_lt.mp hlt
      have hwindow := window_flatten hblocks (node - stored.length) (by omega)
      refine ⟨_, ?_, h, rfl⟩
      simp [MappedVec.with_, hpos.ne', hcount, hlt, hwindow, List.getElem_append_right hle]

/-- What is stored is written as it is. -/
theorem stores_writeAll {unit : ℕ} {m : MappedVec T} {nodes : List (List T)}
    (h : Stores unit m nodes) (out : Bytes) :
    m.writeAll out = some (out ++ castSlice nodes.flatten) := by
  obtain ⟨base, baseLen, tail⟩ := m
  obtain ⟨stored, fresh, rfl, rfl, hbase⟩ := h.split
  cases base with
  | none =>
    obtain ⟨rfl, -⟩ := hbase
    rfl
  | some b =>
    simp [MappedVec.writeAll, serves_appendBytes hbase.2.1, castSlice_append]

/-- What is stored is streamed as it is. -/
theorem stores_streamTo {unit : ℕ} {m : MappedVec T} {nodes : List (List T)}
    (h : Stores unit m nodes) (w : Bytes) :
    m.streamTo w = some (w ++ castSlice nodes.flatten) := by
  obtain ⟨base, baseLen, tail⟩ := m
  obtain ⟨stored, fresh, rfl, rfl, hbase⟩ := h.split
  cases base with
  | none =>
    obtain ⟨rfl, -⟩ := hbase
    rfl
  | some b =>
    simp [MappedVec.streamTo, serves_streamTo hbase.2.1, castSlice_append]

/-- A base over the bytes of the blocks holds them. -/
theorem stores_paged (pageBytes unit budget : ℕ) {nodes : List (List T)}
    (h : EqualBlocks unit nodes) :
    Stores unit (.paged (.new pageBytes (castSlice nodes.flatten) unit nodes.length budget)
      (nodes.length * unit)) nodes :=
  ⟨h, nodes, [], (List.append_nil _).symm, rfl, rfl, serves_new pageBytes unit budget h, rfl⟩

/-- The bytes of the blocks, opened as a file, hold the blocks. -/
theorem stores_openPaged (pageBytes unit budget : ℕ) {nodes : List (List T)}
    (h : EqualBlocks unit nodes) :
    ∃ m, openPaged pageBytes (castSlice nodes.flatten) unit nodes.length budget = some m ∧
      Stores unit m nodes ∧ m.base.isSome = decide (nodes.length ≠ 0) := by
  unfold openPaged
  by_cases hn : nodes.length = 0
  · rw [if_pos hn, List.length_eq_zero_iff.mp hn]
    exact ⟨_, rfl, stores_inRam unit, rfl⟩
  · have hlen : (castSlice nodes.flatten).length = nodes.length * unit * Pod.size T := by
      rw [length_castSlice, length_flatten_blocks h]
    rw [if_neg hn, if_neg (not_not.mpr hlen)]
    refine ⟨_, rfl, stores_paged pageBytes unit budget h, ?_⟩
    simp [MappedVec.paged, hn]

end Rro.Model
