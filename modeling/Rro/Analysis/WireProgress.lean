import Rro.Analysis.Wire

/-!
# Connections do not get stuck

While both sides hold their ends there is always a way on: the frames in the channel are forwarded,
the bytes under way arrive, the node reads one message after the other and the client its answers,
until nothing is under way (`connection_drains`). No step of it waits for the client to write more.
-/

set_option autoImplicit false

namespace Rro.Analysis

open Rro.Library Rro.Program Rro.Program.Net Rro.Model

section General

variable [SerdeMessage]

/-- The message in the hands of the handler. -/
def askedOf : ServePhase → List Net.Message
  | .answering msg => [msg]
  | _ => []

/-- The messages the handler has yet to answer: the one it has and those it has not seen. -/
def unanswered (c : Connection) : List Net.Message :=
  askedOf c.phase ++ c.sent.drop c.handled.length

/-- A later state of a connection in which both sides hold their ends and the handler has answered
    some more messages by `respond`. -/
structure Onward (respond : Net.Message → Option Net.Message) (c d : Connection) : Prop where
  run : Run Connection.next Serialized c d
  present : d.present = c.present
  sent : d.sent = c.sent
  running : d.phase ≠ .ended
  answers : d.answers ++ (unanswered d).filterMap respond =
    c.answers ++ (unanswered c).filterMap respond

variable {respond : Net.Message → Option Net.Message} {c d e : Connection}

/-- A connection goes on from itself. -/
theorem Onward.refl (hrun : c.phase ≠ .ended) : Onward respond c c :=
  ⟨.start, rfl, rfl, hrun, rfl⟩

/-- One run onward after another. -/
theorem Onward.trans (h : Onward respond c d) (h' : Onward respond d e) : Onward respond c e where
  run := h.run.trans h'.run
  present := h'.present.trans h.present
  sent := h'.sent.trans h.sent
  running := h'.running
  answers := h'.answers.trans h.answers

/-- One step on. -/
theorem Onward.step (step : WireStep) (hstep : Serialized c step) (hnext : c.next step = some d)
    (hpresent : d.present = c.present) (hsent : d.sent = c.sent) (hrun : d.phase ≠ .ended)
    (hanswers : d.answers ++ (unanswered d).filterMap respond =
      c.answers ++ (unanswered c).filterMap respond) : Onward respond c d :=
  ⟨.step step .start hstep hnext, hpresent, hsent, hrun, hanswers⟩

/-- A run onward keeps a connection in order. -/
theorem Onward.wired (h : Onward respond c d) (hc : Wired c) : Wired d :=
  h.run.invariant hc fun _ _ _ hs hstep hd => hs.next hstep hd

/-- A step that sends no message is serialized. -/
theorem serialized_of_none {step : WireStep} (h : messageOf step = none) : Serialized c step := by
  intro m hm
  rw [h] at hm
  cases hm

/-! ## Back to the top of the loop -/

/-- The channel empties. -/
theorem onward_queue (respond : Net.Message → Option Net.Message) (msg : Net.Message)
    (frames queue : List Net.Message)
    (hphase : c.phase = .streaming msg frames queue false) :
    ∃ d, Onward respond c d ∧ d.phase = .reading := by
  induction queue generalizing c with
  | nil =>
    have hnext : c.next .forward =
        some { c with phase := .reading, log := c.log ++ [⟨msg, true, frames⟩] } := by
      simp only [Connection.next, hphase]
    refine ⟨_, .step .forward (serialized_of_none rfl) hnext rfl rfl (by simp) ?_, rfl⟩
    simp [unanswered, askedOf, Connection.answers, Connection.handled, Connection.exchanges,
      ServePhase.exchange, hphase]
  | cons frame queue ih =>
    have hnext : c.next .forward = some { c with
        phase := .streaming msg frames queue false
        toClient := c.toClient.write (lineOf frame ++ [newline]) } := by
      simp only [Connection.next, hphase]
    obtain ⟨d, hd, hreading⟩ := ih (c := { c with
      phase := .streaming msg frames queue false
      toClient := c.toClient.write (lineOf frame ++ [newline]) }) rfl
    refine ⟨d, Onward.trans ?_ hd, hreading⟩
    refine .step .forward (serialized_of_none rfl) hnext rfl rfl (by simp) ?_
    simp [unanswered, askedOf, Connection.answers, Connection.handled, Connection.exchanges,
      ServePhase.exchange, hphase]

/-- The handler answers. -/
theorem onward_answer (hrespond : ∀ m r, respond m = some r → Framable r) {msg : Net.Message}
    (hphase : c.phase = .answering msg) :
    Onward respond c (c.answer msg (.reply (respond msg))) := by
  have hnext : c.next (.answer (.reply (respond msg))) =
      some (c.answer msg (.reply (respond msg))) := by
    simp only [Connection.next, hphase]
  have hstep : Serialized c (.answer (.reply (respond msg))) := fun r hr => hrespond msg r hr
  cases hr : respond msg with
  | none =>
    rw [hr] at hnext hstep
    refine .step _ hstep hnext rfl rfl (by simp [Connection.answer]) ?_
    simp [Connection.answer, unanswered, askedOf, Connection.answers, Connection.handled,
      Connection.exchanges, ServePhase.exchange, hphase, hr]
  | some r =>
    rw [hr] at hnext hstep
    refine .step _ hstep hnext rfl rfl (by simp [Connection.answer]) ?_
    simp [Connection.answer, unanswered, askedOf, Connection.answers, Connection.handled,
      Connection.exchanges, ServePhase.exchange, hphase, hr]

/-- After a reply the loop is back at its next line. -/
theorem answer_reading (msg : Net.Message) (r : Option Net.Message)
    (hphase : c.phase = .answering msg) :
    (c.answer msg (.reply r)).phase = .reading ∧ (c.answer msg (.reply r)).toNode = c.toNode ∧
      (c.answer msg (.reply r)).handled = c.handled := by
  cases r with
  | none =>
    simp [Connection.answer, Connection.handled, Connection.exchanges, ServePhase.exchange, hphase]
  | some r =>
    simp [Connection.answer, Connection.handled, Connection.exchanges, ServePhase.exchange, hphase]

/-- **The loop comes back** to its next line. -/
theorem onward_reading (hrespond : ∀ m r, respond m = some r → Framable r)
    (hrun : c.phase ≠ .ended) : ∃ d, Onward respond c d ∧ d.phase = .reading := by
  cases hphase : c.phase with
  | reading => exact ⟨c, .refl hrun, hphase⟩
  | answering msg => exact ⟨_, onward_answer hrespond hphase, (answer_reading msg _ hphase).1⟩
  | ended => exact absurd hphase hrun
  | streaming msg frames queue sender =>
    cases sender with
    | false => exact onward_queue respond msg frames queue hphase
    | true =>
      have hnext : c.next .finish =
          some { c with phase := .streaming msg frames queue false } := by
        simp only [Connection.next, hphase]
      obtain ⟨d, hd, hreading⟩ := onward_queue respond
        (c := { c with phase := .streaming msg frames queue false }) msg frames queue rfl
      refine ⟨d, Onward.trans ?_ hd, hreading⟩
      refine .step .finish (serialized_of_none rfl) hnext rfl rfl (by simp) ?_
      simp [unanswered, askedOf, Connection.answers, Connection.handled, Connection.exchanges,
        ServePhase.exchange, hphase]

/-! ## The messages of the client -/

/-- Bytes may arrive at the node. -/
theorem onward_arriveAtNode (hrun : c.phase ≠ .ended) (n : ℕ) :
    Onward respond c { c with toNode := c.toNode.deliver n } :=
  .step (.arriveAtNode n) (serialized_of_none rfl) rfl rfl rfl hrun rfl

/-- Bytes may arrive at the client. -/
theorem onward_arriveAtClient (hrun : c.phase ≠ .ended) (n : ℕ) :
    Onward respond c { c with toClient := c.toClient.deliver n } :=
  .step (.arriveAtClient n) (serialized_of_none rfl) rfl rfl rfl hrun rfl

/-- The next message that has arrived goes to the handler. -/
theorem onward_serve (respond : Net.Message → Option Net.Message) (h : Wired c)
    (hpresent : c.present = true) (hphase : c.phase = .reading)
    (hflight : c.toNode.flight = []) (hne : c.handled ≠ c.sent) :
    ∃ m d, Onward respond c d ∧ d.phase = .answering m ∧ d.toNode.flight = [] ∧
      d.handled = c.handled ++ [m] := by
  obtain ⟨m, q, hm, hline, ⟨pending, hpending, -⟩, hqflight⟩ := h.requests.nextLine_arrived
    (fun m hm => oneLine_lineOf (h.sent m hm)) (h.openRequests hpresent) hflight hne
  have hread := readLine_whole (h.sent m hm)
  have hnext : c.next .serve = some { c with toNode := q, phase := .answering m } := by
    simp only [Connection.next, Connection.serve, hphase, hline, hread]
  have hhandled : Connection.handled { c with toNode := q, phase := .answering m } =
      c.handled ++ [m] := by
    simp [Connection.handled, Connection.exchanges, ServePhase.exchange, hphase]
  refine ⟨m, _, .step .serve (serialized_of_none rfl) hnext rfl rfl (by simp) ?_, rfl, hqflight,
    hhandled⟩
  have hanswers : Connection.answers { c with toNode := q, phase := .answering m } =
      c.answers := by
    simp [Connection.answers, Connection.exchanges, ServePhase.exchange, hphase]
  have hdrop : c.sent.drop c.handled.length = m :: pending := by
    rw [hpending, List.append_assoc, List.drop_left]
    rfl
  have hrest : c.sent.drop (c.handled ++ [m]).length = pending := by
    rw [hpending, List.drop_left]
  simp only [hanswers, unanswered, hhandled, hdrop, hrest, hphase, askedOf]
  rfl

/-- **The node reads every message that has arrived.** -/
theorem onward_serves (hrespond : ∀ m r, respond m = some r → Framable r) (n : ℕ) (h : Wired c)
    (hpresent : c.present = true) (hphase : c.phase = .reading) (hflight : c.toNode.flight = [])
    (hn : c.sent.length - c.handled.length = n) :
    ∃ d, Onward respond c d ∧ d.phase = .reading ∧ d.toNode.flight = [] ∧ d.handled = d.sent := by
  induction n generalizing c with
  | zero =>
    have hrun : c.phase ≠ .ended := by simp [hphase]
    refine ⟨c, .refl hrun, hphase, hflight, ?_⟩
    exact h.requests.isPrefix.eq_of_length_le (Nat.le_of_sub_eq_zero hn)
  | succ n ih =>
    have hne : c.handled ≠ c.sent := by
      intro heq
      rw [heq, Nat.sub_self] at hn
      cases hn
    obtain ⟨m, d, hd, hasked, hdflight, hhandled⟩ :=
      onward_serve respond h hpresent hphase hflight hne
    obtain ⟨hreading, hpipe, hsame⟩ := answer_reading m (respond m) hasked
    have he : Onward respond c (d.answer m (.reply (respond m))) :=
      hd.trans (onward_answer hrespond hasked)
    have hcount : (d.answer m (.reply (respond m))).sent.length -
        (d.answer m (.reply (respond m))).handled.length = n := by
      rw [he.sent, hsame, hhandled, List.length_append, List.length_singleton, Nat.sub_succ, hn]
      rfl
    obtain ⟨f, hf, hrest⟩ := ih (he.wired h) (he.present.trans hpresent) hreading
      (hpipe ▸ hdflight) hcount
    exact ⟨f, he.trans hf, hrest⟩

/-! ## The answers of the node -/

/-- The next answer that has arrived is read. -/
theorem onward_receive (respond : Net.Message → Option Net.Message) (h : Wired c)
    (hpresent : c.present = true) (hphase : c.phase = .reading)
    (hflight : c.toClient.flight = []) (hne : c.received ≠ c.answers) :
    ∃ m q, Onward respond c { c with toClient := q, received := c.received ++ [m] } ∧
      q.flight = [] ∧ c.received ++ [m] <+: c.answers := by
  have hrun : c.phase ≠ .ended := by simp [hphase]
  obtain ⟨written, hsplit, hdel⟩ := h.written hrun
  rw [hphase, ServePhase.queue, List.append_nil] at hsplit
  · rw [← hsplit] at hdel
    obtain ⟨m, q, hm, hline, hq, hqflight⟩ := hdel.nextLine_arrived
      (fun m hm => oneLine_lineOf (h.answers m hm)) ((h.openReplies hpresent).resolve_left hrun)
      hflight hne
    have hread := readLine_whole (h.answers m hm)
    have hnext : c.next .receive =
        some { c with toClient := q, received := c.received ++ [m] } := by
      simp [Connection.next, Connection.receive, hpresent, hline, hread]
    exact ⟨m, q, .step .receive (serialized_of_none rfl) hnext rfl rfl hrun rfl, hqflight,
      hq.isPrefix⟩
  all_goals simp

/-- **The client reads every answer that has arrived.** -/
theorem onward_receives (respond : Net.Message → Option Net.Message) (n : ℕ) (h : Wired c)
    (hpresent : c.present = true) (hphase : c.phase = .reading)
    (hflight : c.toClient.flight = []) (hn : c.answers.length - c.received.length = n) :
    ∃ d, Onward respond c d ∧ d.phase = .reading ∧ d.toNode = c.toNode ∧
      d.handled = c.handled ∧ d.toClient.flight = [] ∧ d.received = d.answers := by
  have hrun : c.phase ≠ .ended := by simp [hphase]
  induction n generalizing c with
  | zero =>
    refine ⟨c, .refl hrun, hphase, rfl, rfl, hflight, ?_⟩
    exact h.received_prefix.eq_of_length_le (Nat.le_of_sub_eq_zero hn)
  | succ n ih =>
    have hne : c.received ≠ c.answers := by
      intro heq
      rw [heq, Nat.sub_self] at hn
      cases hn
    obtain ⟨m, q, hd, hqflight, -⟩ := onward_receive respond h hpresent hphase hflight hne
    have hcount : c.answers.length - (c.received ++ [m]).length = n := by
      rw [List.length_append, List.length_singleton, Nat.sub_succ, hn]
      rfl
    obtain ⟨e, he, hreading, hrest⟩ := ih (hd.wired h) hpresent hphase hqflight hcount hrun
    exact ⟨e, hd.trans he, hreading, hrest⟩

/-- **Connections drain.** From every state in which both sides hold their ends, and whatever the
    handler replies, some steps lead to one where nothing is under way: the handler has seen every
    message, and the client has read all answers, the new ones after those that there were. -/
theorem connection_drains (hrun : Run Connection.next Serialized .accepted c)
    (hpresent : c.present = true) (hlive : c.phase ≠ .ended)
    (hrespond : ∀ m r, respond m = some r → Framable r) :
    ∃ d, Run Connection.next Serialized c d ∧ d.phase = .reading ∧ d.toNode.Empty ∧
      d.toClient.Empty ∧ d.handled = c.sent ∧
      d.received = c.answers ++ (unanswered c).filterMap respond := by
  have h := wired_of_run hrun
  obtain ⟨d₁, h₁, hreading₁⟩ := onward_reading hrespond hlive
  have h₂ := h₁.trans (onward_arriveAtNode h₁.running d₁.toNode.flight.length)
  obtain ⟨d₃, h₃, hreading₃, hflight₃, hall₃⟩ := onward_serves hrespond _ (h₂.wired h)
    (h₂.present.trans hpresent) hreading₁ (Pipe.deliver_all d₁.toNode) rfl
  have h₄ := (h₂.trans h₃).trans (onward_arriveAtClient h₃.running d₃.toClient.flight.length)
  obtain ⟨d, h₅, hreading, hpipe, hhandled, hflight, hall⟩ := onward_receives respond _
    (h₄.wired h) (h₄.present.trans hpresent) hreading₃ (Pipe.deliver_all d₃.toClient) rfl
  have hd := h₄.trans h₅
  have hw := hd.wired h
  have hseen : d.handled = d.sent := by
    rw [hhandled, h₅.sent]
    exact hall₃
  obtain ⟨written, hsplit, hdel⟩ := hw.written hd.running
  simp only [hreading, ServePhase.queue, List.append_nil] at hsplit
  rw [← hsplit] at hdel
  have hnode : d.toNode.flight = [] := by
    rw [hpipe]
    exact hflight₃
  have hanswers : d.answers = c.answers ++ (unanswered c).filterMap respond := by
    have hnone : unanswered d = [] := by simp [unanswered, hreading, askedOf, hseen]
    rw [← hd.answers, hnone, List.filterMap_nil, List.append_nil]
  exact ⟨d, hd.run, hreading, hw.requests.empty hnode hseen, hdel.empty hflight hall,
    hseen.trans hd.sent, hall.trans hanswers⟩

end General

section Sample

/-- A ping that was just written is answered. -/
theorem connection_drains_ping : ∃ d : Connection, d.phase = .reading ∧ d.handled = [ping] ∧
    d.received = [pong] := by
  let : SerdeMessage := pingJson
  have hsent : Run Connection.next Serialized .accepted
      { Connection.accepted with
        toNode := Pipe.fresh.write (lineOf ping ++ [newline]), sent := [ping] } := by
    apply Run.step (.send ping) .start _ rfl
    rintro m ⟨⟩
    exact framable_ping
  have hpong : ∀ m r : Net.Message, (fun _ : Net.Message => some pong) m = some r →
      Framable r := by
    rintro m r ⟨⟩
    exact framable_pong
  obtain ⟨d, -, hreading, -, -, hhandled, hreceived⟩ := connection_drains hsent rfl nofun hpong
  exact ⟨d, hreading, hhandled, hreceived⟩

end Sample

end Rro.Analysis
