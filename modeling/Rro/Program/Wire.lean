import Rro.Library.LineFraming
import Rro.Program.AnnCodec
import Rro.Program.Connectors
import Rro.Program.Handler

/-!
# Messages over TCP

A client writes messages to a node, one a line, and reads its replies and frames from the same
connection. The node takes one line after the other: the handler may claim the message and feed
frames through a channel, which the loop forwards until the last sender is gone, or it answers
with at most one reply. What the handler does is a choice of each step, as are the sizes of the
pieces in which bytes arrive and the moment a side goes away.

SOURCE: crates/rro-net/src/tcp.rs:53-116, message.rs:28-88, handler.rs:8-52 and
crates/rro-client/src/lib.rs:172-227. A line is read as the `lines` of a buffered reader reads it.
`log`, `sent` and `received` are not in the source: they record what has happened.
-/

set_option autoImplicit false

namespace Rro.Program.Net

open Rro.Library

/-- `Message`: the part the handler looks at, the correlation id, and `from` and `to`. -/
structure Message extends Program.Message where
  id : String
  sender : String
  recipient : String

/-- `Message::reply`. -/
def Message.reply (msg : Message) (body : Value) : Message where
  id := msg.id
  sender := msg.recipient
  recipient := msg.sender
  verb := msg.verb ++ ".reply"
  token := none
  body

/-- `PingHandler::handle`. -/
def pingHandler (me : String) (msg : Message) : Option Message :=
  if msg.verb = "ping" then
    some (msg.reply (.object [("node", .string me), ("pong", .bool true)]))
  else none

/-- `serde_json` on messages. -/
class SerdeMessage where
  toString : Message → String
  fromStr : String → Except RroError Message

/-- What the handler does with a message: `handle_stream` claims it, or `handle` replies or keeps
    silent, or one of them fails. -/
inductive Verdict where
  | stream
  | reply (r : Option Message)
  | error (e : RroError)

/-- One handled message, whether it was claimed, and the reply or the frames for it. -/
structure Exchange where
  msg : Message
  claimed : Bool
  answers : List Message

/-- Where `serve_conn` stands: before `next_line`, in the handler, in the loop that forwards
    frames from the channel, with or without a sender left, or past its end. Of all frames for a
    message, those in the channel are the last. -/
inductive ServePhase where
  | reading
  | answering (msg : Message)
  | streaming (msg : Message) (frames queue : List Message) (sender : Bool)
  | ended

/-- The frames in the channel. -/
def ServePhase.queue : ServePhase → List Message
  | .streaming _ _ queue _ => queue
  | _ => []

/-- The exchange under way. -/
def ServePhase.exchange : ServePhase → List Exchange
  | .answering msg => [⟨msg, false, []⟩]
  | .streaming msg frames _ _ => [⟨msg, true, frames⟩]
  | _ => []

/-- The capacity of the channel. -/
def channelCapacity : ℕ := 64

/-- A connection: its two directions, the loop of the node, whether the client holds its end, and
    what has been written, handled and read so far. -/
structure Connection where
  toNode : Pipe
  toClient : Pipe
  phase : ServePhase
  present : Bool
  sent : List Message
  log : List Exchange
  received : List Message

/-- A connection that was just accepted. -/
def Connection.accepted : Connection :=
  ⟨.fresh, .fresh, .reading, true, [], [], []⟩

/-- The steps: the client writes, reads or goes away, with so many of its bytes still to arrive;
    bytes arrive; the node reads a line, hears from the handler or forwards a frame; a producer
    sends a frame or is done; the node's side fails, with so many of its bytes still to arrive. -/
inductive WireStep where
  | send (msg : Message)
  | receive
  | hangUp (n : ℕ)
  | arriveAtNode (n : ℕ)
  | arriveAtClient (n : ℕ)
  | serve
  | answer (verdict : Verdict)
  | forward
  | produce (frame : Message)
  | finish
  | fail (n : ℕ)

/-- What a line holds. -/
inductive LineRead where
  | failed
  | blank
  | message (msg : Message)

/-- The bytes of a message. -/
def lineOf [SerdeMessage] (msg : Message) : Bytes := utf8 (SerdeMessage.toString msg)

/-- The checks both loops make of a line: `next_line` fails unless it is UTF-8, a blank line is
    skipped, and any other one is parsed. -/
def readLine [SerdeMessage] (line : Bytes) : LineRead :=
  match fromUtf8 line with
  | none => .failed
  | some text =>
    if Connectors.blank text then .blank
    else
      match SerdeMessage.fromStr text with
      | .error _ => .failed
      | .ok msg => .message msg

namespace Connection

/-- All exchanges, the one under way last. -/
def exchanges (c : Connection) : List Exchange := c.log ++ c.phase.exchange

/-- The messages that reached the handler. -/
def handled (c : Connection) : List Message := c.exchanges.map Exchange.msg

/-- The replies and frames the handler gave. -/
def answers (c : Connection) : List Message := c.exchanges.flatMap Exchange.answers

/-- The end of `serve_conn`: both halves are dropped. -/
def close (c : Connection) : Connection :=
  { c with log := c.exchanges, phase := .ended, toClient := c.toClient.close }

/-- The client drops its end. -/
def leave (c : Connection) (n : ℕ) : Connection :=
  { c with present := false, toNode := c.toNode.cut n, toClient := ⟨[], [], true⟩ }

variable [SerdeMessage]

/-- One turn of the loop of `serve_conn`, up to the handler. -/
def serve (c : Connection) : Option Connection :=
  match c.phase with
  | .reading =>
    match c.toNode.nextLine with
    | none => none
    | some (none, p) => some { c with toNode := p }.close
    | some (some line, p) =>
      let c := { c with toNode := p }
      match readLine line with
      | .failed => some c.close
      | .blank => some c
      | .message msg => some { c with phase := .answering msg }
  | _ => none

/-- What the handler's answer leads to. -/
def answer (c : Connection) (msg : Message) : Verdict → Connection
  | .stream => { c with phase := .streaming msg [] [] true }
  | .reply none => { c with phase := .reading, log := c.log ++ [⟨msg, false, []⟩] }
  | .reply (some r) =>
    { c with
      phase := .reading
      log := c.log ++ [⟨msg, false, [r]⟩]
      toClient := c.toClient.write (lineOf r ++ [newline]) }
  | .error _ => c.close

/-- The loop that reads on the client's side: `stream_verb`, of which `request` is one turn. -/
def receive (c : Connection) : Option Connection :=
  if !c.present then none
  else
    match c.toClient.nextLine with
    | none => none
    | some (none, p) => some ({ c with toClient := p }.leave c.toNode.flight.length)
    | some (some line, p) =>
      let c := { c with toClient := p }
      match readLine line with
      | .failed => some (c.leave c.toNode.flight.length)
      | .blank => some c
      | .message msg => some { c with received := c.received ++ [msg] }

/-- One step, when it is enabled. -/
def next (c : Connection) : WireStep → Option Connection
  | .send msg =>
    if c.present then
      some { c with
        toNode := c.toNode.write (lineOf msg ++ [newline]), sent := c.sent ++ [msg] }
    else none
  | .receive => c.receive
  | .hangUp n => if c.present then some (c.leave n) else none
  | .arriveAtNode n => some { c with toNode := c.toNode.deliver n }
  | .arriveAtClient n => some { c with toClient := c.toClient.deliver n }
  | .serve => c.serve
  | .answer verdict =>
    match c.phase with
    | .answering msg => some (c.answer msg verdict)
    | _ => none
  | .forward =>
    match c.phase with
    | .streaming msg frames (frame :: queue) sender =>
      some { c with
        phase := .streaming msg frames queue sender
        toClient := c.toClient.write (lineOf frame ++ [newline]) }
    | .streaming msg frames [] false =>
      some { c with phase := .reading, log := c.log ++ [⟨msg, true, frames⟩] }
    | _ => none
  | .produce frame =>
    match c.phase with
    | .streaming msg frames queue true =>
      -- a full channel makes the producer wait
      if queue.length < channelCapacity then
        some { c with phase := .streaming msg (frames ++ [frame]) (queue ++ [frame]) true }
      else none
    | _ => none
  | .finish =>
    match c.phase with
    | .streaming msg frames queue true =>
      some { c with phase := .streaming msg frames queue false }
    | _ => none
  | .fail n => some { c.close with toClient := c.toClient.cut n }

end Connection

end Rro.Program.Net
