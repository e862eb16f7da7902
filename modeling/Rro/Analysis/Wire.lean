import Rro.Library.Transitions
import Rro.Model.AnnLoading
import Rro.Model.CompoundKeys
import Rro.Program.Wire

/-!
# Messages over TCP

A connection carries messages both ways as lines of JSON, in pieces of any size, and either side
may go away in the middle of one. The node hands its handler the messages the client wrote, whole,
in order and each once, and the client reads the replies and frames of the handler in the same
way (`connection_faithful`), as long as `serde_json` reads back what it wrote and refuses what was
cut short.
-/

set_option autoImplicit false

namespace Rro.Analysis

open Rro.Library Rro.Program Rro.Program.Net Rro.Model

section General

variable [SerdeMessage]

/-- What `serde_json` documents of the text of a message: it is read back, it is an object on one
    line, and no beginning of it is a document. -/
structure Framable (m : Net.Message) : Prop where
  parsed : SerdeMessage.fromStr (SerdeMessage.toString m) = .ok m
  object : ∃ inner, (SerdeMessage.toString m).toList = '\x7b' :: (inner ++ ['\x7d'])
  oneLine : '\n' ∉ (SerdeMessage.toString m).toList
  cutShort : ∀ s : String, s.toList <+: (SerdeMessage.toString m).toList →
    s ≠ SerdeMessage.toString m → ∃ e, SerdeMessage.fromStr s = .error e

/-- The message a step puts on the wire or into the channel. -/
def messageOf : WireStep → Option Net.Message
  | .send msg => some msg
  | .answer (.reply r) => r
  | .produce frame => some frame
  | _ => none

/-- The condition on a step: `serde_json` treats its message as documented. -/
def Serialized (_ : Connection) (step : WireStep) : Prop := ∀ m ∈ messageOf step, Framable m

/-- **A faithful connection.** The handler has seen the first messages of the client, the client
    has read the first answers of the handler, and of both all when nothing is under way and no
    side has gone. A message that is not claimed has one answer at most, and the first reply to a
    client that wrote one message is the first answer to it. -/
structure FaithfulConnection (c : Connection) : Prop where
  handled : c.handled <+: c.sent
  received : c.received <+: c.answers
  single : ∀ x ∈ c.exchanges, x.claimed = false → x.answers.length ≤ 1
  request : ∀ m r rest, c.sent = [m] → c.received = r :: rest →
    ∃ x, c.exchanges = [x] ∧ x.msg = m ∧ x.answers.head? = some r
  bounded : c.phase.queue.length ≤ channelCapacity
  settled : c.present = true → c.phase = .reading → c.toNode.Empty → c.toClient.Empty →
    c.handled = c.sent ∧ c.received = c.answers

/-! ## Lines -/

/-- The line of a framable message is one line. -/
theorem oneLine_lineOf {m : Net.Message} (h : Framable m) : OneLine (lineOf m) := by
  constructor
  · intro hmem
    obtain ⟨x, y, hsplit⟩ := List.append_of_mem hmem
    rw [lineOf, utf8_eq_encode] at hsplit
    obtain ⟨a, b, htext, -⟩ := encode_split (c := '\n') (by decide) hsplit
    apply h.oneLine
    rw [htext]
    exact List.mem_append_right a List.mem_cons_self
  · obtain ⟨inner, hinner⟩ := h.object
    have hlast : encode ['\x7d'] = [125] := by decide
    rw [lineOf, utf8_eq_encode, hinner, ← List.cons_append, encode_append, hlast,
      List.getLast?_append, List.getLast?_singleton, Option.some_or]
    decide

omit [SerdeMessage] in
/-- A beginning of the bytes of a text that is itself a text. -/
theorem text_of_part {line : Bytes} {s t : String} (hs : fromUtf8 line = some s)
    (hpre : line <+: utf8 t) : s.toList <+: t.toList := by
  obtain ⟨q, hq⟩ := hpre
  rw [← utf8_of_fromUtf8 hs] at hq
  apply List.isPrefix_of_utf8Encode_append_eq_utf8Encode ⟨q.toArray⟩
  rw [String.utf8Encode_toList, String.utf8Encode_toList]
  apply ByteArray.ext
  apply Array.toList_inj.mp
  rw [ByteArray.data_append, Array.toList_append]
  exact hq

omit [SerdeMessage] in
/-- A beginning of an object is not blank. -/
theorem not_blank {s : String} {rest : List Char} (hne : s ≠ "")
    (hpre : s.toList <+: '\x7b' :: rest) : Connectors.blank s = false := by
  cases hs : s.toList with
  | nil => exact absurd (String.toList_eq_nil_iff.mp hs) hne
  | cons c cs =>
    rw [hs, List.cons_prefix_cons] at hpre
    have hc : Toon.isWhitespace c = false := by
      rw [hpre.1]
      decide
    rw [Connectors.blank, hs, Toon.trim, List.dropWhile_cons_of_neg (by simp [hc]),
      List.isEmpty_reverse, List.isEmpty_eq_false_iff]
    intro hnil
    have hall := List.dropWhile_eq_nil_iff.mp hnil c (by simp)
    rw [hc] at hall
    cases hall

/-- **A whole line** holds the message. -/
theorem readLine_whole {m : Net.Message} (h : Framable m) : readLine (lineOf m) = .message m := by
  obtain ⟨inner, hinner⟩ := h.object
  have hblank : Connectors.blank (SerdeMessage.toString m) = false := by
    apply not_blank
    · intro hempty
      simp [hempty] at hinner
    · rw [hinner]
  simp [readLine, lineOf, fromUtf8_utf8, hblank, h.parsed]

/-- **A line that was cut** holds the message when only its newline is lost, and else nothing. -/
theorem readLine_part {m : Net.Message} (h : Framable m) {line : Bytes} (hne : line ≠ [])
    (hpre : line <+: lineOf m) : readLine line = .message m ∨ readLine line = .failed := by
  by_cases hwhole : line = lineOf m
  · rw [hwhole]
    exact .inl (readLine_whole h)
  refine .inr ?_
  unfold readLine
  cases hs : fromUtf8 line with
  | none => rfl
  | some s =>
    have hline := utf8_of_fromUtf8 hs
    have htext := text_of_part hs hpre
    obtain ⟨inner, hinner⟩ := h.object
    have hblank : Connectors.blank s = false := by
      apply not_blank
      · rintro rfl
        exact hne hline.symm
      · rw [← hinner]
        exact htext
    obtain ⟨e, he⟩ := h.cutShort s htext (fun heq => hwhole (by rw [← hline, heq, lineOf]))
    simp [hblank, he]

/-- **The next line** holds the next message, unless it was cut and nothing follows it. -/
theorem readLine_next {p q : Pipe} {written taken : List Net.Message}
    (h : p.Delivers lineOf written taken) (hframable : ∀ m ∈ written, Framable m) {line : Bytes}
    (hline : p.nextLine = some (some line, q)) :
    (∃ m, readLine line = .message m ∧ q.Delivers lineOf written (taken ++ [m])) ∨
      readLine line = .failed ∧ q.Delivers lineOf written taken := by
  obtain ⟨m, hm, hnext, hcase⟩ :=
    h.nextLine (fun m hm => oneLine_lineOf (hframable m hm)) hline
  have hfm := hframable m hm
  cases hcase with
  | inl hwhole => exact .inl ⟨m, by rw [hwhole, readLine_whole hfm], hnext⟩
  | inr hpart =>
    obtain ⟨hpre, hne, hsame⟩ := hpart
    exact (readLine_part hfm hne hpre).imp (fun hmessage => ⟨m, hmessage, hnext⟩)
      fun hfailed => ⟨hfailed, hsame⟩

/-! ## The invariant -/

/-- What has been written to the client and what was lost in the channel make up the answers, and
    both directions deliver what was written. -/
structure Wired (c : Connection) : Prop where
  sent : ∀ m ∈ c.sent, Framable m
  answers : ∀ m ∈ c.answers, Framable m
  requests : c.toNode.Delivers lineOf c.sent c.handled
  replies : ∃ written left, c.answers = written ++ left ∧
    (c.phase = .ended ∨ left = c.phase.queue) ∧ c.toClient.Delivers lineOf written c.received
  single : ∀ x ∈ c.exchanges, x.claimed = false → x.answers.length ≤ 1
  bounded : c.phase.queue.length ≤ channelCapacity
  openRequests : c.present = true → c.toNode.ended = false
  openReplies : c.present = true → c.phase = .ended ∨ c.toClient.ended = false

variable {c d : Connection}

/-- A connection that was just accepted is in order. -/
theorem wired_accepted : Wired .accepted where
  sent := by simp [Connection.accepted]
  answers := by simp [Connection.accepted, Connection.answers, Connection.exchanges,
    ServePhase.exchange]
  requests := Pipe.delivers_fresh
  replies := ⟨[], [], rfl, .inr rfl, Pipe.delivers_fresh⟩
  single := by simp [Connection.accepted, Connection.exchanges, ServePhase.exchange]
  bounded := Nat.zero_le _
  openRequests := fun _ => rfl
  openReplies := fun _ => .inr rfl

/-- What the client has received is the start of the answers. -/
theorem Wired.received_prefix (h : Wired c) : c.received <+: c.answers := by
  obtain ⟨written, left, hsplit, -, hdel⟩ := h.replies
  rw [hsplit]
  exact hdel.isPrefix.trans (List.prefix_append written left)

omit [SerdeMessage] in
/-- Closing a connection keeps its exchanges. -/
@[simp] theorem exchanges_close (c : Connection) : c.close.exchanges = c.exchanges := by
  simp [Connection.close, Connection.exchanges, ServePhase.exchange]

/-- The node's side ends. -/
theorem Wired.close (h : Wired c) : Wired c.close where
  sent := h.sent
  answers := by
    rw [Connection.answers, exchanges_close]
    exact h.answers
  requests := by
    rw [Connection.handled, exchanges_close]
    exact h.requests
  replies := by
    obtain ⟨written, left, hsplit, -, hdel⟩ := h.replies
    refine ⟨written, left, ?_, .inl rfl, hdel.close⟩
    rw [Connection.answers, exchanges_close]
    exact hsplit
  single := by
    rw [exchanges_close]
    exact h.single
  bounded := Nat.zero_le _
  openRequests := h.openRequests
  openReplies := fun _ => .inl rfl

/-- The client's side ends. -/
theorem Wired.leave (h : Wired c) (n : ℕ) : Wired (c.leave n) where
  sent := h.sent
  answers := h.answers
  requests := h.requests.cut n
  replies := by
    obtain ⟨written, left, hsplit, hleft, hdel⟩ := h.replies
    exact ⟨written, left, hsplit, hleft,
      Pipe.delivers_of_empty ⟨rfl, rfl⟩ rfl hdel.isPrefix⟩
  single := h.single
  bounded := h.bounded
  openRequests := by
    intro hpresent
    cases hpresent
  openReplies := by
    intro hpresent
    cases hpresent

/-- The node's reader has moved on. -/
theorem Wired.readRequest (h : Wired c) {p : Pipe} (hp : p.Delivers lineOf c.sent c.handled)
    (hended : p.ended = c.toNode.ended) : Wired { c with toNode := p } :=
  { h with
    requests := hp
    openRequests := fun hpresent => hended.trans (h.openRequests hpresent) }

/-- The client's reader has moved on. -/
theorem Wired.readReply (h : Wired c) {written left received : List Net.Message}
    (hsplit : c.answers = written ++ left) (hleft : c.phase = .ended ∨ left = c.phase.queue)
    {p : Pipe} (hp : p.Delivers lineOf written received) (hended : p.ended = c.toClient.ended) :
    Wired { c with toClient := p, received } :=
  { h with
    replies := ⟨written, left, hsplit, hleft, hp⟩
    openReplies := fun hpresent => (h.openReplies hpresent).imp_right hended.trans }

/-- One turn of the loop that keeps it running: the answers of the exchanges are written or in
    the channel. -/
theorem Wired.turn (h : Wired c) (hrun : c.phase ≠ .ended) (written : List Net.Message)
    {p q : Pipe} {phase : ServePhase} {log xs : List Exchange} (hxs : log ++ phase.exchange = xs)
    (hanswers : xs.flatMap Exchange.answers = written ++ phase.queue)
    (hframable : ∀ m ∈ written ++ phase.queue, m ∈ c.answers ∨ Framable m)
    (hp : p.Delivers lineOf c.sent (xs.map Exchange.msg))
    (hq : q.Delivers lineOf written c.received)
    (hsingle : ∀ x ∈ xs, x ∈ c.exchanges ∨ (x.claimed = false → x.answers.length ≤ 1))
    (hbounded : phase.queue.length ≤ channelCapacity)
    (hpended : p.ended = c.toNode.ended) (hqended : q.ended = c.toClient.ended) :
    Wired { c with toNode := p, toClient := q, phase, log } := by
  subst hxs
  exact {
    sent := h.sent
    answers := by
      intro m hm
      have hm' : m ∈ (log ++ phase.exchange).flatMap Exchange.answers := hm
      rw [hanswers] at hm'
      exact (hframable m hm').elim (h.answers m) id
    requests := hp
    replies := ⟨written, phase.queue, hanswers, .inr rfl, hq⟩
    single := fun x hx => (hsingle x hx).elim (h.single x) id
    bounded := hbounded
    openRequests := fun hpresent => hpended.trans (h.openRequests hpresent)
    openReplies := fun hpresent =>
      .inr (hqended.trans ((h.openReplies hpresent).resolve_left hrun)) }

/-- What is written while the loop runs. -/
theorem Wired.written (h : Wired c) (hrun : c.phase ≠ .ended) :
    ∃ written, c.answers = written ++ c.phase.queue ∧
      c.toClient.Delivers lineOf written c.received := by
  obtain ⟨written, left, hsplit, hleft, hdel⟩ := h.replies
  obtain rfl := hleft.resolve_left hrun
  exact ⟨written, hsplit, hdel⟩

omit [SerdeMessage] in
/-- An exchange after one was added to those that are over. -/
theorem old_or_new {x new : Exchange} (hx : x ∈ c.log ++ [new])
    (hnew : new.claimed = false → new.answers.length ≤ 1) :
    x ∈ c.exchanges ∨ (x.claimed = false → x.answers.length ≤ 1) := by
  cases List.mem_append.mp hx with
  | inl hold => exact .inl (List.mem_append_left _ hold)
  | inr heq =>
    rw [List.mem_singleton.mp heq]
    exact .inr hnew

/-- A message reaches the handler. -/
theorem Wired.begin (h : Wired c) (hphase : c.phase = .reading) {p : Pipe} {m : Net.Message}
    (hp : p.Delivers lineOf c.sent (c.handled ++ [m])) (hended : p.ended = c.toNode.ended) :
    Wired { c with toNode := p, phase := .answering m } := by
  have hrun : c.phase ≠ .ended := by simp [hphase]
  obtain ⟨written, hsplit, hdel⟩ := h.written hrun
  refine h.turn hrun written rfl ?_ ?_ ?_ hdel ?_ (Nat.zero_le _) hended rfl
  · simpa [Connection.answers, Connection.exchanges, ServePhase.exchange, ServePhase.queue,
      hphase] using hsplit
  · intro r hr
    rw [hsplit, hphase]
    exact .inl hr
  · simpa [Connection.handled, Connection.exchanges, ServePhase.exchange, hphase] using hp
  · intro x hx
    exact old_or_new hx fun _ => Nat.zero_le 1

/-- The handler has answered. -/
theorem Wired.answer (h : Wired c) {m : Net.Message} (hphase : c.phase = .answering m)
    {verdict : Verdict} (hframable : ∀ r ∈ messageOf (.answer verdict), Framable r) :
    Wired (c.answer m verdict) := by
  have hrun : c.phase ≠ .ended := by simp [hphase]
  obtain ⟨written, hsplit, hdel⟩ := h.written hrun
  have hold : ∀ r ∈ written ++ [], r ∈ c.answers ∨ Framable r := by
    intro r hr
    rw [hsplit, hphase]
    exact .inl hr
  have hreq := h.requests
  simp only [Connection.handled, Connection.exchanges, ServePhase.exchange, hphase,
    List.map_append, List.map_singleton] at hreq
  simp only [Connection.answers, Connection.exchanges, ServePhase.exchange, ServePhase.queue,
    hphase, List.append_nil, List.flatMap_append, List.flatMap_singleton] at hsplit
  cases verdict with
  | stream =>
    refine h.turn hrun written rfl ?_ hold ?_ hdel ?_ (Nat.zero_le _) rfl rfl
    · simpa [ServePhase.exchange, ServePhase.queue] using hsplit
    · simpa [ServePhase.exchange] using hreq
    · intro x hx
      apply old_or_new hx
      intro hclaimed
      cases hclaimed
  | reply r =>
    cases r with
    | none =>
      refine h.turn hrun written (List.append_nil _) ?_ hold ?_ hdel ?_
        (Nat.zero_le _) rfl rfl
      · simpa [ServePhase.queue] using hsplit
      · simpa using hreq
      · intro x hx
        exact old_or_new hx fun _ => Nat.zero_le 1
    | some r =>
      refine h.turn hrun (written ++ [r]) (List.append_nil _) ?_ ?_ ?_ (hdel.write r)
        ?_ (Nat.zero_le _) rfl (Pipe.write_ended _ _)
      · simp [ServePhase.queue, hsplit]
      · intro x hx
        simp only [ServePhase.queue, List.append_nil, List.mem_append,
          List.mem_singleton] at hx
        cases hx with
        | inl hx => exact hold x (by simpa using hx)
        | inr hx =>
          rw [hx]
          exact .inr (hframable r rfl)
      · simpa using hreq
      · intro x hx
        exact old_or_new hx fun _ => le_rfl
  | error e => exact h.close

/-- A frame or the end of the channel is forwarded. -/
theorem Wired.forward (h : Wired c) (hd : c.next .forward = some d) : Wired d := by
  unfold Connection.next at hd
  dsimp only at hd
  split at hd
  · rename_i msg frames frame queue sender hphase
    cases hd
    have hrun : c.phase ≠ .ended := by simp [hphase]
    have hxs : c.exchanges = c.log ++ [⟨msg, true, frames⟩] := by
      rw [Connection.exchanges, hphase, ServePhase.exchange]
    obtain ⟨written, hsplit, hdel⟩ := h.written hrun
    have hbounded := h.bounded
    simp only [hphase, ServePhase.queue] at hsplit hbounded
    have hmoved : written ++ frame :: queue = written ++ [frame] ++ queue := by simp
    refine h.turn hrun (written ++ [frame]) hxs.symm (hsplit.trans hmoved) ?_ h.requests
      (hdel.write frame) (fun x hx => .inl hx) ?_ rfl (Pipe.write_ended _ _)
    · intro r hr
      rw [hsplit, hmoved]
      exact .inl hr
    · exact (Nat.le_succ _).trans hbounded
  · rename_i msg frames hphase
    cases hd
    have hrun : c.phase ≠ .ended := by simp [hphase]
    have hxs : c.exchanges = c.log ++ [⟨msg, true, frames⟩] ++ [] := by
      rw [Connection.exchanges, hphase, ServePhase.exchange, List.append_nil]
    obtain ⟨written, hsplit, hdel⟩ := h.written hrun
    simp only [hphase, ServePhase.queue] at hsplit
    refine h.turn hrun written hxs.symm hsplit ?_ h.requests hdel
      (fun x hx => .inl hx) (Nat.zero_le _) rfl rfl
    intro r hr
    rw [hsplit]
    exact .inl hr
  · cases hd

/-- A producer sends a frame. -/
theorem Wired.produce (h : Wired c) {frame : Net.Message} (hframe : Framable frame)
    (hd : c.next (.produce frame) = some d) : Wired d := by
  unfold Connection.next at hd
  dsimp only at hd
  split at hd
  · rename_i msg frames queue hphase
    split at hd
    · rename_i hroom
      cases hd
      have hrun : c.phase ≠ .ended := by simp [hphase]
      obtain ⟨written, hsplit, hdel⟩ := h.written hrun
      have hreq := h.requests
      simp only [Connection.handled, Connection.exchanges, ServePhase.exchange, hphase,
        List.map_append, List.map_singleton] at hreq
      refine h.turn hrun written rfl ?_ ?_ ?_ hdel ?_ ?_ rfl rfl
      · simp only [Connection.answers, Connection.exchanges, ServePhase.exchange,
          ServePhase.queue, hphase, List.flatMap_append, List.flatMap_singleton] at hsplit ⊢
        rw [← List.append_assoc, hsplit, List.append_assoc]
      · intro r hr
        simp only [ServePhase.queue, ← List.append_assoc] at hr
        rw [hsplit, hphase]
        cases List.mem_append.mp hr with
        | inl hold => exact .inl hold
        | inr hnew =>
          rw [List.mem_singleton.mp hnew]
          exact .inr hframe
      · simpa [ServePhase.exchange] using hreq
      · intro x hx
        apply old_or_new hx
        intro hclaimed
        cases hclaimed
      · simpa [ServePhase.queue, Nat.succ_le_iff] using hroom
    · cases hd
  · cases hd

/-- The last sender is gone. -/
theorem Wired.finish (h : Wired c) (hd : c.next .finish = some d) : Wired d := by
  unfold Connection.next at hd
  dsimp only at hd
  split at hd
  · rename_i msg frames queue hphase
    cases hd
    have hrun : c.phase ≠ .ended := by simp [hphase]
    have hxs : c.exchanges = c.log ++ [⟨msg, true, frames⟩] := by
      rw [Connection.exchanges, hphase, ServePhase.exchange]
    obtain ⟨written, hsplit, hdel⟩ := h.written hrun
    have hbounded := h.bounded
    simp only [hphase, ServePhase.queue] at hsplit hbounded
    refine h.turn hrun written hxs.symm hsplit ?_ h.requests hdel
      (fun x hx => .inl hx) hbounded rfl rfl
    intro r hr
    rw [hsplit]
    exact .inl hr
  · cases hd

/-- **The node reads a line.** -/
theorem Wired.serve (h : Wired c) (hd : c.serve = some d) : Wired d := by
  unfold Connection.serve at hd
  split at hd
  · rename_i hphase
    split at hd
    · cases hd
    · rename_i p hline
      cases hd
      exact (h.readRequest (h.requests.nextLine_end hline) (Pipe.nextLine_ended hline)).close
    · rename_i line p hline
      have hended := Pipe.nextLine_ended hline
      cases readLine_next h.requests h.sent hline with
      | inl hmessage =>
        obtain ⟨m, hread, hnext⟩ := hmessage
        simp only [hread, Option.some.injEq] at hd
        subst hd
        exact h.begin hphase hnext hended
      | inr hfailed =>
        obtain ⟨hread, hsame⟩ := hfailed
        simp only [hread, Option.some.injEq] at hd
        subst hd
        exact (h.readRequest hsame hended).close
  · cases hd

/-- **The client reads a line.** -/
theorem Wired.receive (h : Wired c) (hd : c.receive = some d) : Wired d := by
  obtain ⟨written, left, hsplit, hleft, hdel⟩ := h.replies
  have hframable : ∀ m ∈ written, Framable m := by
    intro m hm
    apply h.answers
    rw [hsplit]
    exact List.mem_append_left left hm
  unfold Connection.receive at hd
  split at hd
  · cases hd
  split at hd
  · cases hd
  · rename_i p hline
    cases hd
    exact (h.readReply hsplit hleft (hdel.nextLine_end hline) (Pipe.nextLine_ended hline)).leave _
  · rename_i line p hline
    have hended := Pipe.nextLine_ended hline
    cases readLine_next hdel hframable hline with
    | inl hmessage =>
      obtain ⟨m, hread, hnext⟩ := hmessage
      simp only [hread, Option.some.injEq] at hd
      subst hd
      exact h.readReply hsplit hleft hnext hended
    | inr hfailed =>
      obtain ⟨hread, hsame⟩ := hfailed
      simp only [hread, Option.some.injEq] at hd
      subst hd
      exact (h.readReply hsplit hleft hsame hended).leave _

/-- **A step.** -/
theorem Wired.next (h : Wired c) {step : WireStep} (hstep : Serialized c step)
    (hd : c.next step = some d) : Wired d := by
  cases step with
  | send msg =>
    unfold Connection.next at hd
    dsimp only at hd
    split at hd
    · cases hd
      exact {
        h with
        sent := by
          intro m hm
          cases List.mem_append.mp hm with
          | inl hold => exact h.sent m hold
          | inr hnew =>
            rw [List.mem_singleton.mp hnew]
            exact hstep msg rfl
        requests := h.requests.write msg
        openRequests := fun hpresent => by
          rw [Pipe.write_ended]
          exact h.openRequests hpresent }
    · cases hd
  | receive => exact h.receive hd
  | hangUp n =>
    unfold Connection.next at hd
    dsimp only at hd
    split at hd
    · cases hd
      exact h.leave n
    · cases hd
  | arriveAtNode n =>
    cases hd
    exact h.readRequest (h.requests.deliver n) rfl
  | arriveAtClient n =>
    cases hd
    obtain ⟨written, left, hsplit, hleft, hdel⟩ := h.replies
    exact h.readReply hsplit hleft (hdel.deliver n) rfl
  | serve => exact h.serve hd
  | answer verdict =>
    unfold Connection.next at hd
    dsimp only at hd
    split at hd
    · rename_i msg hphase
      cases hd
      exact h.answer hphase hstep
    · cases hd
  | forward => exact h.forward hd
  | produce frame => exact h.produce (hstep frame rfl) hd
  | finish => exact h.finish hd
  | fail n =>
    cases hd
    obtain ⟨written, left, hsplit, -, hdel⟩ := h.replies
    have hclose : c.close.answers = written ++ left := by
      rw [Connection.answers, exchanges_close]
      exact hsplit
    exact h.close.readReply hclose (.inl rfl) (hdel.cut n) rfl

/-- **Every run.** -/
theorem wired_of_run (hrun : Run Connection.next Serialized .accepted c) : Wired c :=
  hrun.invariant wired_accepted fun _ _ _ h hstep hd => h.next hstep hd

/-- The reply to a client that wrote one message. -/
theorem Wired.request (h : Wired c) {m r : Net.Message} {rest : List Net.Message}
    (hsent : c.sent = [m]) (hreceived : c.received = r :: rest) :
    ∃ x, c.exchanges = [x] ∧ x.msg = m ∧ x.answers.head? = some r := by
  have hhandled := h.requests.isPrefix
  have hprefix := h.received_prefix
  rw [hsent, Connection.handled] at hhandled
  rw [hreceived, Connection.answers] at hprefix
  cases hexchanges : c.exchanges with
  | nil =>
    rw [hexchanges] at hprefix
    cases List.prefix_nil.mp hprefix
  | cons x xs =>
    rw [hexchanges, List.map_cons, List.cons_prefix_cons, List.prefix_nil,
      List.map_eq_nil_iff] at hhandled
    obtain ⟨hmsg, rfl⟩ := hhandled
    rw [hexchanges, List.flatMap_singleton] at hprefix
    refine ⟨x, rfl, hmsg, ?_⟩
    obtain ⟨more, hmore⟩ := hprefix
    rw [← hmore]
    rfl

/-- With nothing under way, everything has arrived. -/
theorem Wired.settled (h : Wired c) (hpresent : c.present = true) (hphase : c.phase = .reading)
    (hnode : c.toNode.Empty) (hclient : c.toClient.Empty) :
    c.handled = c.sent ∧ c.received = c.answers := by
  have hrun : c.phase ≠ .ended := by simp [hphase]
  obtain ⟨written, hsplit, hdel⟩ := h.written hrun
  refine ⟨h.requests.drained (h.openRequests hpresent) hnode, ?_⟩
  rw [hdel.drained ((h.openReplies hpresent).resolve_left hrun) hclient, hsplit, hphase]
  exact (List.append_nil written).symm

/-- **Connections are faithful.** However the bytes are cut into pieces, whatever the handler does
    and wherever either side goes away, the handler sees the messages of the client and the client
    the answers of the handler, whole, in order and each once. -/
theorem connection_faithful (hrun : Run Connection.next Serialized .accepted c) :
    FaithfulConnection c := by
  have h := wired_of_run hrun
  exact {
    handled := h.requests.isPrefix
    received := h.received_prefix
    single := h.single
    request := fun m r rest hsent hreceived => h.request hsent hreceived
    bounded := h.bounded
    settled := h.settled }

end General

section Sample

/-- The message of `tcp_ping_pong`. -/
def ping : Net.Message where
  verb := "ping"
  body := .object []
  token := none
  id := "m-0000000000000001"
  sender := "client"
  recipient := "server"

/-- The reply of `PingHandler`. -/
def pong : Net.Message :=
  ping.reply (.object [("node", .string "server"), ("pong", .bool true)])

/-- A request. -/
def pingText : String :=
  "\x7b\"id\":\"m-0000000000000001\",\"from\":\"client\",\"to\":\"server\",\"verb\":\"ping\"," ++
    "\"body\":\x7b\x7d\x7d"

/-- Its reply. -/
def pongText : String :=
  "\x7b\"id\":\"m-0000000000000001\",\"from\":\"server\",\"to\":\"client\"," ++
    "\"verb\":\"ping.reply\",\"body\":\x7b\"node\":\"server\",\"pong\":true\x7d\x7d"

/-- `serde_json` on the two messages. -/
local instance pingJson : SerdeMessage where
  toString m := if m.verb = "ping" then pingText else pongText
  fromStr s :=
    if s = pingText then .ok ping
    else if s = pongText then .ok pong
    else .error (.msg "not one of the two texts")

/-- The request is framable. -/
theorem framable_ping : Framable ping where
  parsed := rfl
  object := ⟨pingText.toList.tail.dropLast, by decide⟩
  oneLine := by decide
  cutShort := by
    intro s hpre hne
    have hpong : s ≠ pongText := by
      rintro rfl
      exact absurd hpre (by decide +kernel)
    exact ⟨_, (if_neg hne).trans (if_neg hpong)⟩

/-- So is the reply. -/
theorem framable_pong : Framable pong where
  parsed := rfl
  object := ⟨pongText.toList.tail.dropLast, by decide +kernel⟩
  oneLine := by decide +kernel
  cutShort := by
    intro s hpre hne
    have hping : s ≠ pingText := by
      rintro rfl
      exact absurd hpre (by decide +kernel)
    exact ⟨_, (if_neg hping).trans (if_neg hne)⟩

/-- The ping arrives in two pieces, and the reply is read. -/
def pingRun : List WireStep :=
  [.send ping, .arriveAtNode 40, .arriveAtNode 1000, .serve,
    .answer (.reply (pingHandler "server" ping)), .arriveAtClient 1000, .receive]

/-- Every step of the sample run is serialized. -/
theorem serialized_pingRun : ∀ step ∈ pingRun, ∀ c, Serialized c step := by
  intro step hstep c m hm
  have hmessages : pingRun.filterMap messageOf = [ping, pong] := rfl
  have hmem : m ∈ pingRun.filterMap messageOf := List.mem_filterMap.mpr ⟨step, hstep, hm⟩
  rw [hmessages] at hmem
  cases List.mem_cons.mp hmem with
  | inl hping =>
    rw [hping]
    exact framable_ping
  | inr hpong =>
    rw [List.mem_singleton.mp hpong]
    exact framable_pong

/-- The sample run ends with the reply received. -/
theorem connection_faithful_ping : ∃ c : Connection, FaithfulConnection c ∧
    c.received.map (fun m => (m.id, m.verb)) = [("m-0000000000000001", "ping.reply")] := by
  have hread : ∃ c, Run Connection.next Serialized .accepted c ∧
      decide (c.received.map (fun m => (m.id, m.verb)) =
        [("m-0000000000000001", "ping.reply")]) = true :=
    exists_run_of_actions serialized_pingRun _ (by decide +kernel)
  obtain ⟨c, hrun, hreply⟩ := hread
  exact ⟨c, connection_faithful hrun, of_decide_eq_true hreply⟩

end Sample

end Rro.Analysis
