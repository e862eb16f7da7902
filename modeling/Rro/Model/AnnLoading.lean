import Rro.Model.AnnCodec

/-!
# What the readers of a graph accept

Each reader of the format is self-delimiting: what it took decides its result, and cut short it
refuses. What it returns fits the fields it was read from, so that the writers can write it
again.
-/

set_option autoImplicit false

namespace Rro.Model

open Rro.Library Rro.Program

/-! ## Ends -/

/-- A reader of the format that refuses what is cut short. -/
abbrev Delimited {α : Type} (r : ByteReader α) : Prop := SelfDelimiting LoadEnd.refused r

/-- Taking some bytes succeeds exactly when there are as many. -/
theorem take_eq_ok {n : ℕ} {b s rest : Bytes} :
    ByteReader.take n b = .ok (s, rest) ↔ s.length = n ∧ b = s ++ rest := by
  unfold ByteReader.take
  constructor
  · intro h
    split at h
    · rename_i hle
      obtain ⟨rfl, rfl⟩ := Prod.mk.inj (Except.ok.inj h)
      exact ⟨List.length_take_of_le hle, (List.take_append_drop n b).symm⟩
    · cases h
  · rintro ⟨rfl, rfl⟩
    rw [if_pos (by simp), List.take_left, List.drop_left]

/-- Taking some bytes is delimited: the rest does not matter. -/
theorem delimited_take (n : ℕ) : Delimited (ByteReader.take n) := by
  intro b s rest h
  obtain ⟨hlen, rfl⟩ := take_eq_ok.mp h
  refine ⟨s, rfl, ?_, fun p hp hne => ?_⟩
  · intro t
    exact take_eq_ok.mpr ⟨hlen, rfl⟩
  · have hshort : p.length < s.length := by
      apply lt_of_le_of_ne hp.length_le
      exact fun heq => hne (hp.eq_of_length heq)
    unfold ByteReader.take
    rw [if_neg (by omega)]

/-- Reading a byte is delimited. -/
theorem delimited_u8 : Delimited ByteReader.u8 := (delimited_take 1).result _

/-- Reading a word is delimited. -/
theorem delimited_u32 : Delimited ByteReader.u32 := by
  refine (delimited_take 4).bind fun s => ?_
  split
  · exact selfDelimiting_pure _
  · exact selfDelimiting_throw _

/-- Reading a count is delimited. -/
theorem delimited_count : Delimited ByteReader.count := delimited_u32.result _

/-- Reading a double word is delimited. -/
theorem delimited_u64 : Delimited ByteReader.u64 := (delimited_take 8).result _

/-- Reading a float is delimited. -/
theorem delimited_f32 : Delimited ByteReader.f32 := delimited_u32.result _

/-- Reading an id is delimited. -/
theorem delimited_id : Delimited readId := by
  refine delimited_count.bind fun len => (delimited_take len).bind fun s => ?_
  split
  · exact selfDelimiting_pure _
  · exact selfDelimiting_throw _

/-- Reading the entry is delimited. -/
theorem delimited_entry : Delimited readEntry := by
  refine delimited_u8.bind fun flag => ?_
  split
  · exact delimited_count.bind fun node => delimited_count.result _
  · exact selfDelimiting_pure none

/-- Reading the layers of a node is delimited. -/
theorem delimited_nodeLinks : Delimited readNodeLinks :=
  delimited_count.bind fun nlayers =>
    SelfDelimiting.times (delimited_count.bind fun count => delimited_count.times count) nlayers

/-- Reading the head is delimited. -/
theorem delimited_head : Delimited Head.read := by
  refine delimited_count.bind fun dimRaw => delimited_u64.bind fun rng => delimited_u64.bind
    fun live => delimited_entry.bind fun entry => delimited_count.bind fun n => ?_
  exact (delimited_id.times n).bind fun ids => (delimited_u8.times n).bind fun deleted =>
    (delimited_nodeLinks.times n).result _

/-- Reading the parameters of quantized vectors is delimited. -/
theorem delimited_params : Delimited readParams :=
  delimited_count.bind fun np => SelfDelimiting.times (delimited_f32.bind fun _ =>
    delimited_f32.bind fun _ => delimited_f32.result _) np

/-- A check of a product reads nothing. -/
theorem delimited_checkedMul (a b : ℕ) : Delimited (checkedMul a b) := by
  unfold checkedMul
  split
  · exact selfDelimiting_pure _
  · exact selfDelimiting_throw _

/-- A reservation reads nothing. -/
theorem delimited_reserve (n : ℕ) : Delimited (reserveF32 n) := by
  unfold reserveF32
  split
  · exact selfDelimiting_pure _
  · exact selfDelimiting_throw _

/-- Reading a product quantizer is delimited. -/
theorem delimited_pq : Delimited readPq := by
  refine delimited_count.bind fun m => delimited_u8.bind fun flag => ?_
  split
  · exact selfDelimiting_pure _
  · split
    · exact delimited_count.bind fun k => delimited_count.bind fun subDim =>
        (delimited_checkedMul m k).bind fun mk => (delimited_checkedMul mk subDim).bind fun n =>
          (delimited_reserve n).bind fun _ => (delimited_f32.times n).result _
    · exact selfDelimiting_throw _

/-- Reading full vectors is delimited. -/
theorem delimited_full : Delimited readFull :=
  delimited_u64.bind fun len => (delimited_reserve len.toNat).bind fun _ =>
    (delimited_f32.times _).result _

/-- Reading codes is delimited. -/
theorem delimited_codes : Delimited readCodes :=
  delimited_u64.bind fun _ => (delimited_take _).result _

/-- Reading a store is delimited, whichever the quantizer. -/
theorem delimited_store (n : ℕ) : Delimited (readStore n) := by
  refine delimited_u8.bind fun tag => ?_
  split
  · exact delimited_full
  · split
    · exact delimited_codes.bind fun codes => delimited_params.result _
    · split
      · exact delimited_codes.result _
      · split
        · refine delimited_pq.bind fun r => delimited_codes.bind fun codes => ?_
          split
          · exact selfDelimiting_throw _
          · exact selfDelimiting_pure _
        · exact selfDelimiting_throw _

/-- Reading a magic is delimited. -/
theorem delimited_magic (magic : Bytes) : Delimited (expectMagic magic) := by
  refine (delimited_take 4).bind fun name => ?_
  split
  · exact selfDelimiting_throw _
  · refine delimited_u8.bind fun version => ?_
    split
    · exact selfDelimiting_throw _
    · exact selfDelimiting_pure _

/-- **A blob has an end of its own.** -/
theorem delimited_graph : Delimited readGraph :=
  (delimited_magic _).bind fun _ => delimited_head.bind fun head =>
    (delimited_store head.ids.length).result _

/-- **A structure has an end of its own.** -/
theorem delimited_structure : Delimited readStructure := by
  refine (delimited_magic _).bind fun _ => delimited_head.bind fun head =>
    SelfDelimiting.result ?_ _
  refine delimited_u8.bind fun tag => ?_
  split
  · exact selfDelimiting_pure _
  · split
    · exact delimited_params.result _
    · split
      · exact selfDelimiting_pure _
      · split
        · exact delimited_pq.result _
        · exact selfDelimiting_throw _

/-! ## What is returned -/

/-- A count that was read fits four bytes. -/
theorem yields_count : Yields ByteReader.count fun n => n < 2 ^ 32 := by
  have hword : Yields ByteReader.u32 fun _ => True := fun _ _ _ _ => trivial
  exact hword.bind fun w _ => yields_pure w.toNat_lt

/-- As many bytes are read as were asked for. -/
theorem yields_take (n : ℕ) : Yields (ByteReader.take n) fun s => s.length = n :=
  fun _ _ _ h => (take_eq_ok.mp h).1

/-- A text that was accepted is written as it was read. -/
theorem utf8_of_fromUtf8 {s : Bytes} {id : String} (h : fromUtf8 s = some id) : utf8 id = s := by
  unfold fromUtf8 String.fromUTF8? at h
  split at h
  · rw [← Option.some.inj h]
    simp [utf8, String.fromUTF8]
  · cases h

/-- An id that was read has a length that fits four bytes. -/
theorem yields_id : Yields readId fun id => (utf8 id).length < 2 ^ 32 := by
  refine yields_count.bind fun len hlen => (yields_take len).bind fun s hs => ?_
  split
  · rename_i id hid
    apply yields_pure
    rw [utf8_of_fromUtf8 hid, hs]
    exact hlen
  · exact yields_throw _

/-- The entry that was read fits its fields. -/
theorem yields_entry : Yields readEntry fun entry =>
    ∀ node layer, entry = some (node, layer) → node < 2 ^ 32 ∧ layer < 2 ^ 32 := by
  have hflag : Yields ByteReader.u8 fun _ => True := fun _ _ _ _ => trivial
  refine hflag.bind fun flag _ => ?_
  split
  · refine yields_count.bind fun node hnode => yields_count.bind fun layer hlayer => yields_pure ?_
    intro node' layer' heq
    obtain ⟨rfl, rfl⟩ := Prod.mk.inj (Option.some.inj heq)
    exact ⟨hnode, hlayer⟩
  · exact yields_pure fun node layer heq => nomatch heq

/-- The neighbours that were read fit their fields. -/
theorem yields_layer : Yields readLayer fun layer =>
    layer.length < 2 ^ 32 ∧ ∀ nb ∈ layer, nb < 2 ^ 32 := by
  refine yields_count.bind fun count hcount b layer rest h => ?_
  obtain ⟨hlen, hnb⟩ := yields_count.times count b layer rest h
  exact ⟨hlen ▸ hcount, hnb⟩

/-- The layers that were read fit their fields. -/
theorem yields_nodeLinks : Yields readNodeLinks fun layers => layers.length < 2 ^ 32 ∧
    ∀ layer ∈ layers, layer.length < 2 ^ 32 ∧ ∀ nb ∈ layer, nb < 2 ^ 32 := by
  refine yields_count.bind fun nlayers hlayers b layers rest h => ?_
  obtain ⟨hlen, hlayer⟩ := yields_layer.times nlayers b layers rest h
  exact ⟨hlen ▸ hlayers, hlayer⟩

/-- **The head that was read can be written**, whatever store it gets. -/
theorem yields_head : Yields Head.read fun head =>
    ∀ config store, HeadFits (head.intoIndex config store).graph := by
  have hword : Yields ByteReader.u64 fun _ => True := fun _ _ _ _ => trivial
  have hflag : Yields ByteReader.u8 fun _ => True := fun _ _ _ _ => trivial
  refine yields_count.bind fun dimRaw hdim => hword.bind fun rng _ => hword.bind fun live _ =>
    yields_entry.bind fun entry hentry => yields_count.bind fun n hn => ?_
  refine (yields_id.times n).bind fun ids hids => (hflag.times n).bind fun deleted hdeleted =>
    (yields_nodeLinks.times n).bind fun links hlinks => yields_pure fun config store => ?_
  refine ⟨?_, live.toNat_lt, hentry, hids.1 ▸ hn, hids.2, rfl, ?_, ?_, hlinks.2⟩
  · intro d hd
    simp only [Head.intoIndex] at hd
    split at hd
    · cases hd
    · rename_i hne
      obtain rfl := Option.some.inj hd
      exact ⟨Nat.pos_of_ne_zero hne, hdim⟩
  · exact (List.length_map _).trans (hdeleted.1.trans hids.1.symm)
  · exact hlinks.1.trans hids.1.symm

/-- A vector store without a file. -/
def InMemory {T : Type} (v : MappedVec T) : Prop := v.base = none ∧ v.baseLen = 0

/-- A store as `from_bytes` makes it, for a graph of `n` nodes. -/
def LoadedStore (n : ℕ) : Store → Prop
  | .full v => InMemory v ∧ 4 * v.tail.length < 2 ^ 63
  | .sq8 codes params =>
    InMemory codes ∧ codes.tail.length < 2 ^ 64 ∧ params.length < 2 ^ 32
  | .bq bits => InMemory bits ∧ bits.tail.length < 2 ^ 64
  | .pq codebook warmup codes m => m < 2 ^ 32 ∧ (∀ cb, codebook = some cb → CodebookFits m cb) ∧
    warmup = [] ∧ InMemory codes ∧ codes.tail.length < 2 ^ 64 ∧
      ¬(n ≠ 0 ∧ (codebook.isNone ∨ codes.len ≠ n * m))

/-- The number of parameters that were read fits four bytes. -/
theorem yields_params : Yields readParams fun params => params.length < 2 ^ 32 := by
  have hparam : Yields readParam fun _ => True := fun _ _ _ _ => trivial
  refine yields_count.bind fun np hnp b params rest h => ?_
  exact (hparam.times np b params rest h).1 ▸ hnp

/-- A product that passes the check does not overflow. -/
theorem yields_checkedMul (a b : ℕ) : Yields (checkedMul a b) fun n => n = a * b ∧ n < 2 ^ 64 := by
  unfold checkedMul
  split
  · rename_i hlt
    exact yields_pure ⟨rfl, hlt⟩
  · exact yields_throw _

/-- A reservation that succeeds is within the bytes of a vector. -/
theorem yields_reserve (n : ℕ) : Yields (reserveF32 n) fun _ => 4 * n < 2 ^ 63 := by
  unfold reserveF32
  split
  · rename_i hlt
    exact yields_pure hlt
  · exact yields_throw _

/-- A codebook that was read fits its fields. -/
theorem yields_pq : Yields readPq fun r => r.1 < 2 ^ 32 ∧
    ∀ cb, r.2 = some cb → CodebookFits r.1 cb := by
  have hflag : Yields ByteReader.u8 fun _ => True := fun _ _ _ _ => trivial
  have hfloat : Yields ByteReader.f32 fun _ => True := fun _ _ _ _ => trivial
  refine yields_count.bind fun m hm => hflag.bind fun flag _ => ?_
  split
  · exact yields_pure ⟨hm, fun cb h => nomatch h⟩
  · split
    · refine yields_count.bind fun k hk => yields_count.bind fun subDim hsub =>
        (yields_checkedMul m k).bind fun mk hmk => (yields_checkedMul mk subDim).bind fun n hn =>
          (yields_reserve n).bind fun _ hroom =>
            (hfloat.times n).bind fun centroids hlen => yields_pure ⟨hm, fun cb hcb => ?_⟩
      obtain rfl := Option.some.inj hcb
      obtain ⟨rfl, htable⟩ := hmk
      obtain ⟨rfl, -⟩ := hn
      exact ⟨rfl, hk, hsub, htable, hroom, hlen.1⟩
    · exact yields_throw _

/-- Codes that were read are in memory. -/
theorem yields_codes : Yields readCodes fun codes =>
    InMemory codes ∧ codes.tail.length < 2 ^ 64 := by
  have hword : Yields ByteReader.u64 fun _ => True := fun _ _ _ _ => trivial
  refine hword.bind fun len _ => (yields_take len.toNat).bind fun tail htail => yields_pure ?_
  exact ⟨⟨rfl, rfl⟩, htail ▸ len.toNat_lt⟩

/-- **The store that was read.** -/
theorem yields_store (n : ℕ) : Yields (readStore n) (LoadedStore n) := by
  have hflag : Yields ByteReader.u8 fun _ => True := fun _ _ _ _ => trivial
  have hword : Yields ByteReader.u64 fun _ => True := fun _ _ _ _ => trivial
  have hfloat : Yields ByteReader.f32 fun _ => True := fun _ _ _ _ => trivial
  refine hflag.bind fun tag _ => ?_
  split
  · refine hword.bind fun len _ => ?_
    refine (yields_reserve len.toNat).bind fun _ hlt =>
      (hfloat.times _).bind fun tail htail => yields_pure ?_
    exact ⟨⟨rfl, rfl⟩, htail.1 ▸ hlt⟩
  · split
    · refine yields_codes.bind fun codes hcodes => yields_params.bind fun params hparams => ?_
      exact yields_pure ⟨hcodes.1, hcodes.2, hparams⟩
    · split
      · exact yields_codes.bind fun bits hbits => yields_pure hbits
      · split
        · refine yields_pq.bind fun r hr => yields_codes.bind fun codes hcodes => ?_
          split
          · exact yields_throw _
          · rename_i hsize
            exact yields_pure ⟨hr.1, hr.2, rfl, hcodes.1, hcodes.2, hsize⟩
        · exact yields_throw _

/-! ## Writing it again -/

/-- A vector in memory is written as its values. -/
theorem writeAll_inMemory {T : Type} [Pod T] {v : MappedVec T} (h : InMemory v) :
    v.writeAll [] = some (castSlice v.tail) := by
  obtain ⟨base, baseLen, tail⟩ := v
  obtain ⟨rfl, rfl⟩ := h
  rfl

/-- A vector in memory has as many values as it holds. -/
theorem len_inMemory {T : Type} {v : MappedVec T} (h : InMemory v) : v.len = v.tail.length := by
  rw [MappedVec.len, h.2, Nat.zero_add]

/-- A vector in memory is its values. -/
theorem eq_inMemory {T : Type} {v : MappedVec T} (h : InMemory v) :
    ({ MappedVec.inRam with tail := v.tail } : MappedVec T) = v := by
  obtain ⟨base, baseLen, tail⟩ := v
  obtain ⟨rfl, rfl⟩ := h
  rfl

/-- Codes in memory are read back. -/
theorem reads_codes_inMemory {codes : MappedVec UInt8} (h : InMemory codes)
    (hfit : codes.tail.length < 2 ^ 64) :
    ReadsBack readCodes (le64 codes.len ++ codes.tail) codes := by
  obtain ⟨w, hw, hval⟩ := reads_len (n := codes.len) (by rwa [len_inMemory h])
  have hread := (reads_take codes.tail).result fun tail =>
    ({ MappedVec.inRam with tail } : MappedVec UInt8)
  rw [eq_inMemory h, ← len_inMemory h, ← hval] at hread
  exact hw.bind hread

/-- **The store that was read is written and read again.** -/
theorem reads_loaded {n : ℕ} {store : Store} (h : LoadedStore n store) :
    ∃ b, store.toBytes = some b ∧ ReadsBack (readStore n) b store := by
  cases store with
  | full v =>
    obtain ⟨hmem, hroom⟩ := h
    refine ⟨_, by rw [Store.toBytes, writeAll_inMemory hmem]; rfl, ?_⟩
    obtain ⟨w, hw, hval⟩ := reads_len (n := v.len) (by rw [len_inMemory hmem]; omega)
    have hreserve : ReadsBack (reserveF32 w.toNat) [] () := by
      rw [hval, len_inMemory hmem]
      exact reads_reserve hroom
    refine ReadsBack.bind (b := [0]) (reads_u8 0) (hw.bind (hreserve.bind ?_))
    rw [hval, len_inMemory hmem]
    have htail : ReadsBack (StreamReader.times ByteReader.f32 v.tail.length)
        (v.tail.flatMap fun f => leBytes32 f.bits) v.tail :=
      reads_times fun f _ => reads_f32 f
    have hread := htail.result fun tail => Store.full { MappedVec.inRam with tail }
    rw [eq_inMemory hmem] at hread
    exact hread
  | sq8 codes params =>
    obtain ⟨hmem, hcodes, hparams⟩ := h
    refine ⟨_, by rw [Store.toBytes, writeAll_inMemory hmem]; rfl, ?_⟩
    rw [castSlice_u8]
    dsimp only
    rw [← List.append_assoc (le64 codes.len)]
    exact ReadsBack.bind (b := [1]) (reads_u8 1) ((reads_codes_inMemory hmem hcodes).bind
      ((reads_params hparams).result _))
  | bq bits =>
    obtain ⟨hmem, hbits⟩ := h
    refine ⟨_, by rw [Store.toBytes, writeAll_inMemory hmem]; rfl, ?_⟩
    rw [castSlice_u8]
    exact ReadsBack.bind (b := [2]) (reads_u8 2) ((reads_codes_inMemory hmem hbits).result _)
  | pq codebook warmup codes m =>
    obtain ⟨hm, hcodebook, rfl, hmem, hcodes, hsize⟩ := h
    refine ⟨_, by rw [Store.toBytes, writeAll_inMemory hmem]; rfl, ?_⟩
    rw [castSlice_u8]
    refine ReadsBack.bind (b := [3]) (reads_u8 3) ((reads_pq hm codebook hcodebook).bind ?_)
    refine (reads_codes_inMemory hmem hcodes).finish ?_
    rw [if_neg hsize]
    exact reads_pure _

end Rro.Model
