import Rro.Model.UpkeepMoves

/-!
# The invariant of the vault

Every state of the store a crash can recover holds a blob whose tag says when its
structure is of use: while the feed number is the tag, the structure with its own
vectors is a graph of the vector rows. The sidecar is the one of the newest blob
put since the last rename.

The steps are `Careful` when the upkeep's are harmless and move the feed number
with every write, when `persist_graph` reads the feed number with nothing owed or
pending, and when a crash does not recover a blob older than the sidecar that the
opening would still take.
-/

set_option autoImplicit false

namespace Rro.Model

open Rro.Library Rro.Program

/-! ## Careful steps -/

/-- Nothing committed is on its way to the graph. -/
def CaughtUp (s : Upkeep) : Prop := s.owed = [] ∧ s.handoff.pending.backlog = 0

/-- The recovered blob was put after the last rename of a sidecar, or the opening refuses it:
    its tag is not the feed number, or the sidecar is missing or of another length. -/
def SidecarMatches (s : Vault) (stored : Stored) : Prop :=
  ∀ blob file, stored.blob = some blob → blob.seq = stored.db.counters.feedSeq →
    s.sidecar = some file → file.length = blob.rows.length → blob.rows ≠ [] →
    blob.renames = s.renames

/-- The steps that keep a later opening exact. -/
def Careful (s : Vault) : VaultStep → Prop
  | .upkeep a => Harmless s.upkeep a ∧ FeedMoves s.upkeep a
  | .persistGraph => True
  | .advance => ∀ graph, s.persist = some (.readSeq graph) → CaughtUp s.upkeep
  | .crash lost => ∀ stored past, s.states.drop lost = stored :: past → SidecarMatches s stored

/-! ## The invariant -/

/-- The graph was right at a feed number, and is while that is the store's. -/
def Captured (db : Db) (graph : AnnIndex) (seq : ℕ) : Prop :=
  seq ≤ db.counters.feedSeq ∧
    (seq = db.counters.feedSeq → ∀ id, graph.live id = vecOf db id)

/-- A blob is the structure of a captured graph. -/
structure BlobOk (renames : ℕ) (sidecar : Option (List Embedding)) (db : Db) (blob : Blob) :
    Prop where
  graph : ∃ g : AnnIndex, blob.rows = g.structureRows ∧ blob.vectors = g.vectors ∧
    Captured db g blob.seq
  renamed : blob.renames ≤ renames
  current : blob.renames = renames → sidecar = some blob.vectors

/-- A state of the store that a crash may recover. -/
structure StoredOk (renames : ℕ) (sidecar : Option (List Embedding)) (stored : Stored) : Prop where
  rows : VecTable (stored.db.rows .vecs)
  blob : ∀ blob, stored.blob = some blob → BlobOk renames sidecar stored.db blob

/-- The locked graph is the current one and nobody is writing it. -/
def LockedGraph (s : Vault) (graph : AnnIndex) : Prop :=
  s.upkeep.handoff.graph = graph ∧ s.upkeep.handoff.applier.holdsLock = false

/-- What a `persist_graph` under way knows. -/
def PhaseOk (s : Vault) : PersistPhase → Prop
  | .quiesce => True
  | .lock => True
  | .checkBacklog graph => LockedGraph s graph
  | .readSeq graph => LockedGraph s graph
  | .rename graph seq => LockedGraph s graph ∧ Captured s.upkeep.db graph seq
  | .recheck graph seq => Captured s.upkeep.db graph seq ∧ s.sidecar = some graph.vectors
  | .put graph seq => Captured s.upkeep.db graph seq ∧ s.sidecar = some graph.vectors

/-- **The invariant of the vault.** -/
structure VaultInv (s : Vault) : Prop where
  upkeep : UpkeepInv s.upkeep
  stored : ∀ stored ∈ s.states, StoredOk s.renames s.sidecar stored
  paged : PagedOk s.upkeep.handoff.graph s.sidecar
  persist : ∀ phase, s.persist = some phase → PhaseOk s phase

/-! ## Openings -/

/-- A caught-up graph is the graph of the store. -/
theorem live_of_caughtUp {s : Upkeep} (h : UpkeepInv s) (hup : CaughtUp s) (id : Id) :
    s.handoff.graph.live id = vecOf s.db id := by
  obtain ⟨howed, hbacklog⟩ := hup
  unfold Pending.backlog at hbacklog
  have hqueue : s.handoff.pending.queue = [] := List.length_eq_zero_iff.mp (by omega)
  have happlying : s.handoff.pending.applying = false := by
    cases hap : s.handoff.pending.applying with
    | false => rfl
    | true => simp [hap] at hbacklog
  have hinflight : s.handoff.pending.inflight = ∅ := by
    have hl := h.handoff.landing
    cases happlier : s.handoff.applier with
    | idle =>
      rw [happlier] at hl
      exact hl.1
    | collected batch =>
      rw [happlier] at hl
      exact absurd hl.1 (by simp [happlying])
    | applying rest =>
      rw [happlier] at hl
      exact absurd hl.1 (by simp [happlying])
    | applied =>
      rw [happlier] at hl
      exact absurd hl.1 (by simp [happlying])
  exact h.handoff.drained hqueue hinflight (by simp [Owes, howed])

/-- **An opening is exact**: a graph that is loaded has the blob's own vectors, and every
    graph an estate is opened with has the vectors of the store. -/
theorem openedGraph_spec {s : Vault} {stored : Stored} (h : StoredOk s.renames s.sidecar stored)
    (hmatch : SidecarMatches s stored) :
    (∀ id, (openedGraph stored s.sidecar).live id = vecOf stored.db id) ∧
      PagedOk (openedGraph stored s.sidecar) s.sidecar ∧
      ∀ blob, stored.blob = some blob → loadPersistedGraph stored s.sidecar ≠ none →
        blob.rows ≠ [] → s.sidecar = some blob.vectors := by
  have hrebuilt : ∀ id, (rebuildAnnFromVecs (stored.db.rows .vecs)).live id = vecOf stored.db id :=
    live_rebuild h.rows
  have hunpaged : PagedOk (rebuildAnnFromVecs (stored.db.rows .vecs)) s.sidecar := by
    intro n hn
    rw [paged_rebuild] at hn
    simp at hn
  unfold openedGraph
  cases hload : loadPersistedGraph stored s.sidecar with
  | none =>
    exact ⟨hrebuilt, hunpaged, fun _ _ hne => absurd rfl hne⟩
  | some g =>
    unfold loadPersistedGraph at hload
    cases hblob : stored.blob with
    | none => simp [hblob] at hload
    | some blob =>
      simp only [hblob] at hload
      split at hload
      · simp at hload
      · rename_i hseq
        have hseq : blob.seq = stored.db.counters.feedSeq := not_not.mp hseq
        cases hfile : s.sidecar with
        | none => simp [hfile] at hload
        | some file =>
          simp only [hfile, AnnIndex.fromPaged] at hload
          obtain ⟨g₀, hrows, hvectors, hcaptured⟩ := (h.blob blob hblob).graph
          have hlive := hcaptured.2 hseq
          rw [Option.getD_some]
          split at hload
          · -- an empty structure takes no vectors
            rename_i hempty
            obtain rfl := Option.some.inj hload
            have hnil : blob.rows = [] := List.isEmpty_iff.mp hempty
            refine ⟨?_, ?_, ?_⟩
            · intro id
              rw [AnnIndex.live_new, ← hlive id, live_of_structureRows_nil (hrows ▸ hnil)]
            · intro n hn
              simp [AnnIndex.new] at hn
            · intro blob' hblob' _ hne
              obtain rfl := Option.some.inj hblob'
              exact absurd hnil hne
          · rename_i hempty
            split at hload
            · rename_i hlen
              obtain rfl := Option.some.inj hload
              have hne : blob.rows ≠ [] := fun hnil => hempty (by simp [hnil])
              have hcurrent := (h.blob blob hblob).current
                (hmatch blob file hblob hseq hfile hlen hne)
              rw [hfile, Option.some.injEq] at hcurrent
              refine ⟨?_, ?_, ?_⟩
              · intro id
                rw [hcurrent, hrows, hvectors, live_ofRows, hlive id]
              · intro n hn
                obtain rfl : blob.rows.length = n := Option.some.inj hn
                rw [length_ofRows hlen, vectors_ofRows hlen]
                exact ⟨le_refl _, fun _ => rfl⟩
              · intro blob' hblob' _ _
                obtain rfl := Option.some.inj hblob'
                rw [hcurrent]
            · simp at hload

/-! ## Steps -/

/-- A vault is created with its invariant. -/
theorem VaultInv.created {db : Db} (hrows : VecTable (db.rows .vecs)) :
    VaultInv (Vault.created db) where
  upkeep := UpkeepInv.opened hrows (live_rebuild hrows)
  stored := by
    intro stored hmem
    obtain rfl : stored = ⟨db, none⟩ := by
      simpa [Vault.created, Vault.states, Vault.stored, Upkeep.opened] using hmem
    exact ⟨hrows, by simp⟩
  paged := by
    intro n hn
    have hnone : some n = none := hn.symm.trans (paged_rebuild _)
    simp at hnone
  persist := by simp [Vault.created]

/-- What was captured stays so when the store moves. -/
theorem Captured.moves {db db' : Db} {graph : AnnIndex} {seq : ℕ} (h : Captured db graph seq)
    (hmoves : DbMoves db db') : Captured db' graph seq := by
  obtain ⟨hle, hlive⟩ := h
  rcases hmoves with hlt | ⟨hseq, hvecs⟩
  · exact ⟨by omega, fun heq => absurd heq (by omega)⟩
  · refine ⟨by omega, ?_⟩
    intro heq id
    rw [vecOf, hvecs]
    exact hlive (by omega) id

variable {s t : Vault}

/-- **A step of the upkeep keeps the invariant.** -/
theorem VaultInv.upkeepStep [SerdeJson] {handle : ConnXRecall} (h : VaultInv s) {a : UpkeepStep}
    (hharmless : Harmless s.upkeep a) (hfeed : FeedMoves s.upkeep a)
    (hnext : s.next handle (.upkeep a) = some t) : VaultInv t := by
  simp only [Vault.next] at hnext
  split at hnext
  · simp at hnext
  · rename_i hfree
    obtain ⟨upkeep, hup, rfl⟩ := Option.map_eq_some_iff.mp hnext
    have hinv := h.upkeep.step hharmless hup
    obtain ⟨hmoves, hkept⟩ := upkeep_moves hfeed hup
    have hnow := h.stored s.stored List.mem_cons_self
    refine ⟨hinv, ?_, hkept.paged _ h.paged, ?_⟩
    · intro stored hmem
      rcases List.mem_cons.mp hmem with rfl | hmem
      · refine ⟨hinv.rows, ?_⟩
        intro blob hblob
        have hok := hnow.blob blob hblob
        obtain ⟨g, hrows, hvectors, hcaptured⟩ := hok.graph
        exact ⟨⟨g, hrows, hvectors, hcaptured.moves hmoves⟩, hok.renamed, hok.current⟩
      · exact h.stored stored hmem
    · intro phase hphase
      have hok := h.persist phase hphase
      have hlocked : ∀ graph, phase.guards = true → LockedGraph s graph →
          LockedGraph { s with upkeep, past := s.states } graph := by
        rintro graph hguards ⟨hgraph, hlock⟩
        have hguarded : s.guarded = true := by
          rw [Vault.guarded, hphase]
          exact hguards
        rw [hguarded, Bool.true_and, Bool.not_eq_true] at hfree
        obtain ⟨hsame, hlock'⟩ := hkept.same hfree hlock
        exact ⟨hsame.trans hgraph, hlock'⟩
      cases phase with
      | quiesce => trivial
      | lock => trivial
      | checkBacklog graph => exact hlocked graph rfl hok
      | readSeq graph => exact hlocked graph rfl hok
      | rename graph seq => exact ⟨hlocked graph rfl hok.1, hok.2.moves hmoves⟩
      | recheck graph seq => exact ⟨hok.1.moves hmoves, hok.2⟩
      | put graph seq => exact ⟨hok.1.moves hmoves, hok.2⟩

/-- A `persist_graph` that touches neither the store nor the sidecar. -/
theorem VaultInv.withPhase (h : VaultInv s) {persist : Option PersistPhase}
    (hphase : ∀ phase, persist = some phase → PhaseOk s phase) :
    VaultInv { s with persist } where
  upkeep := h.upkeep
  stored := h.stored
  paged := h.paged
  persist := by
    intro phase heq
    have hok := hphase phase heq
    cases phase <;> exact hok

/-- **A step of `persist_graph` keeps the invariant.** -/
theorem VaultInv.advance (h : VaultInv s) {phase : PersistPhase} (hphase : s.persist = some phase)
    (hup : ∀ graph, s.persist = some (.readSeq graph) → CaughtUp s.upkeep)
    (hnext : s.advancePersist phase = some t) : VaultInv t := by
  have hok := h.persist phase hphase
  have hmove : ∀ phase' : PersistPhase, PhaseOk s phase' →
      some { s with persist := some phase' } = some t → VaultInv t := by
    intro phase' hok' heq
    obtain rfl := Option.some.inj heq
    refine h.withPhase ?_
    intro phase'' heq'
    obtain rfl := Option.some.inj heq'
    exact hok'
  have hstop : some { s with persist := none } = some t → VaultInv t := by
    intro heq
    obtain rfl := Option.some.inj heq
    exact h.withPhase (by simp)
  cases phase with
  | quiesce =>
    simp only [Vault.advancePersist] at hnext
    split at hnext
    · exact hmove .lock trivial hnext
    · simp at hnext
  | lock =>
    simp only [Vault.advancePersist] at hnext
    split at hnext
    · simp at hnext
    · rename_i hlock
      exact hmove (.checkBacklog s.upkeep.handoff.graph) ⟨rfl, by simpa using hlock⟩ hnext
  | checkBacklog graph =>
    simp only [Vault.advancePersist] at hnext
    split at hnext
    · exact hmove (.readSeq graph) hok hnext
    · exact hstop hnext
  | readSeq graph =>
    refine hmove (.rename graph s.upkeep.db.counters.feedSeq) ⟨hok, le_refl _, ?_⟩ hnext
    intro _ id
    rw [← hok.1]
    exact live_of_caughtUp h.upkeep (hup graph hphase) id
  | rename graph seq =>
    obtain ⟨⟨hgraph, hlock⟩, hcaptured⟩ := hok
    simp only [Vault.advancePersist] at hnext
    split at hnext
    · obtain rfl := Option.some.inj hnext
      refine ⟨h.upkeep, ?_, ?_, ?_⟩
      · -- the blobs put so far all belong to earlier sidecars
        intro stored hmem
        have hold := h.stored stored hmem
        refine ⟨hold.rows, ?_⟩
        intro blob hblob
        have hb := hold.blob blob hblob
        have hlt : blob.renames < s.renames + 1 := Nat.lt_succ_of_le hb.renamed
        exact ⟨hb.graph, hlt.le, fun heq => absurd heq hlt.ne⟩
      · intro n hn
        obtain ⟨hle, -⟩ := h.paged n hn
        exact ⟨hle, fun _ => by rw [hgraph]⟩
      · intro phase heq
        obtain rfl := Option.some.inj heq
        exact ⟨hcaptured, rfl⟩
    · rename_i hflush
      refine hmove (.recheck graph seq) ⟨hcaptured, ?_⟩ hnext
      -- all vectors are paged, from the sidecar that is there
      unfold AnnIndex.needsVectorFlush at hflush
      cases hpaged : graph.paged with
      | none => simp [hpaged] at hflush
      | some n =>
        rw [← hgraph] at hpaged hflush ⊢
        obtain ⟨hle, hfile⟩ := h.paged n hpaged
        simp only [hpaged, decide_eq_true_eq, not_lt] at hflush
        exact hfile (by omega)
  | recheck graph seq =>
    simp only [Vault.advancePersist] at hnext
    split at hnext
    · exact hmove (.put graph seq) hok hnext
    · exact hstop hnext
  | put graph seq =>
    obtain ⟨hcaptured, hsidecar⟩ := hok
    obtain rfl := Option.some.inj hnext
    refine ⟨h.upkeep, ?_, h.paged, by simp⟩
    intro stored hmem
    rcases List.mem_cons.mp hmem with rfl | hmem
    · refine ⟨h.upkeep.rows, ?_⟩
      intro blob hblob
      obtain rfl := Option.some.inj hblob
      exact ⟨⟨graph, rfl, rfl, hcaptured⟩, le_refl _, fun _ => hsidecar⟩
    · exact h.stored stored hmem

/-- **Every careful step keeps the invariant.** -/
theorem VaultInv.step [SerdeJson] {handle : ConnXRecall} (h : VaultInv s) {a : VaultStep}
    (hok : Careful s a) (hnext : s.next handle a = some t) : VaultInv t := by
  cases a with
  | upkeep a => exact h.upkeepStep hok.1 hok.2 hnext
  | persistGraph =>
    simp only [Vault.next] at hnext
    split at hnext
    · obtain rfl := Option.some.inj hnext
      refine h.withPhase ?_
      intro phase heq
      obtain rfl := Option.some.inj heq
      trivial
    · simp at hnext
  | advance =>
    simp only [Vault.next] at hnext
    split at hnext
    · rename_i phase hphase
      exact h.advance hphase hok hnext
    · simp at hnext
  | crash lost =>
    simp only [Vault.next] at hnext
    split at hnext
    · rename_i stored past hdrop
      obtain rfl := Option.some.inj hnext
      have hmem : ∀ st ∈ stored :: past, StoredOk s.renames s.sidecar st := by
        intro st hst
        exact h.stored st (List.mem_of_mem_drop (hdrop ▸ hst))
      have hstored := hmem stored List.mem_cons_self
      obtain ⟨hlive, hpaged, -⟩ := openedGraph_spec hstored (hok stored past hdrop)
      exact ⟨UpkeepInv.opened hstored.rows hlive, hmem, hpaged, by simp [Vault.reopened]⟩
    · simp at hnext

end Rro.Model
