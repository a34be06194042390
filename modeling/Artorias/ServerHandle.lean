import Mathlib.Data.List.Basic

/-!
# A connection of the socket server (`socketframe/server/worker.go`, `protocol.go`)

`handle` serves a connection: it calls `Init`, starts `readBytes`, and then calls
a handler for each event that is received from the channel, until something ends
it. `Terminal` is called by the deferred closure, which also runs when a handler
panics or returns nil.

What the implementation of `Protocol` does may depend on all that has happened on
the connection so far, which is what `handle` records. `handle_cleans_up` says what
every run that ends comes to.
-/

namespace Artorias

namespace Server

variable {α : Type}

/-! ## Values -/

/-- `interface{}` -/
inductive Value (α : Type) where
  | nil
  /-- `[]byte` -/
  | bytes (buf : List (BitVec 8))
  /-- `runtime.Error`: a nil pointer was followed, or a type assertion failed. -/
  | runtimeError
  | other (v : α)
deriving Repr, DecidableEq

/-- What a function panics with. -/
def PanicValue (α : Type) : Type := {v : Value α // v ≠ .nil}

def PanicValue.runtimeError : PanicValue α := ⟨.runtimeError, by simp⟩

/-- How a call ends: with a pointer to a result, with nil, or in a panic. -/
inductive Outcome (α β : Type) where
  | result (r : β)
  | nil
  | panic (v : PanicValue α)

/-- `_I_OK`, `_I_TERMINAL` -/
inductive InitFlag where
  | ok
  | terminal
deriving Repr, DecidableEq

/-- `ProtocolInitState` -/
structure InitState (α : Type) where
  flag : InitFlag
  state : Value α

/-- `_R_REPLY`, `_R_NOREPLY`, `_R_TERMINAL` -/
inductive ReplyFlag where
  | reply
  | noReply
  | terminal
deriving Repr, DecidableEq

/-- `ProtocolReply` -/
structure Reply (α : Type) where
  reply : ReplyFlag
  replyBytes : List (BitVec 8)
  newState : Value α

/-- `TERMINAL_UNKNOWN` and so on -/
inductive Reason where
  | unknown
  | connClose
  | normal
  | init
  | panic
deriving Repr, DecidableEq

/-- `_EVENT_READ_BYTE_FROM_CONN` and so on; `other` is any other number. -/
inductive EventFlag where
  | readByteFromConn
  | connClose
  | customInfo
  | other (flag : Int)
deriving Repr, DecidableEq

/-- `event` -/
structure Event (α : Type) where
  flag : EventFlag
  content : Value α

/-- What happens on a connection, in the order in which it does. -/
inductive Act (α : Type) where
  /-- `protocol.Init` -/
  | init (r : Outcome α (InitState α))
  /-- `go readBytes` -/
  | start
  | receive (e : Event α)
  /-- `protocol.HandleBytes` -/
  | handleBytes (buf : List (BitVec 8)) (state : Value α) (r : Outcome α (Reply α))
  /-- `protocol.HandleInfo` -/
  | handleInfo (info state : Value α) (r : Outcome α (Reply α))
  /-- `conn.Write` -/
  | write (buf : List (BitVec 8))
  /-- `protocol.Terminal` -/
  | terminal (reason : Reason) (err state : Value α)
  /-- `worker.alive = false` -/
  | dead
  /-- `conn.Close` -/
  | close

/-- `Protocol`; what `Terminal` does is of no account here, save that it returns. -/
structure Protocol (α : Type) where
  init : Outcome α (InitState α)
  handleBytes : List (Act α) → List (BitVec 8) → Value α → Outcome α (Reply α)
  handleInfo : List (Act α) → Value α → Value α → Outcome α (Reply α)

/-! ## `handle` -/

/-- How the body of `handle` is left. -/
inductive Exit (α : Type) where
  | returned (terminalRea : Reason) (terminalErr : Value α)
  | panicked (v : PanicValue α)

/-- What a turn of the loop comes to, with the `state` it leaves. -/
inductive Turn (α : Type) where
  | next (acts : List (Act α)) (state : Value α)
  | exit (acts : List (Act α)) (state : Value α) (e : Exit α)

/-- The end of a turn from `state = reply.newState` on: a nil reply panics there, and
otherwise the flag says how it goes on. -/
def afterReply (call : Act α) (state : Value α) (r : Outcome α (Reply α)) : Turn α :=
  match r with
  | .panic v => .exit [call] state (.panicked v)
  | .nil => .exit [call] state (.panicked .runtimeError)
  | .result reply =>
      match reply.reply with
      | .terminal => .exit [call] reply.newState (.returned .normal .nil)
      | .reply => .next [call, .write reply.replyBytes] reply.newState
      | .noReply => .next [call] reply.newState

/-- The `switch` over the event; `past` is what has happened before. -/
def turn (p : Protocol α) (past : List (Act α)) (e : Event α) (state : Value α) : Turn α :=
  match e.flag with
  | .readByteFromConn =>
      match e.content with
      | .bytes buf =>
          let r := p.handleBytes past buf state
          afterReply (.handleBytes buf state r) state r
      | _ => .exit [] state (.panicked .runtimeError)
  | .customInfo =>
      let r := p.handleInfo past e.content state
      afterReply (.handleInfo e.content state r) state r
  | .connClose => .exit [] state (.returned .connClose .nil)
  | .other _ => .next [] state

/-- `for event := range worker.eventChannel`, over the events that are delivered; it
waits when there are no more. -/
def handleLoop (p : Protocol α) :
    List (Event α) → List (Act α) → Value α → Option (List (Act α) × Value α × Exit α)
  | [], _, _ => none
  | e :: es, past, state =>
      let past := past ++ [.receive e]
      match turn p past e state with
      | .next acts state => handleLoop p es (past ++ acts) state
      | .exit acts state x => some (past ++ acts, state, x)

/-- The deferred closure. -/
def deferred (past : List (Act α)) (state : Value α) (x : Exit α) : List (Act α) :=
  match x with
  | .panicked v => past ++ [.terminal .panic v.1 state, .dead, .close]
  | .returned terminalRea terminalErr =>
      past ++ [.terminal terminalRea terminalErr state, .dead, .close]

/-- `handle`; NULL while it waits for an event. -/
def handle (p : Protocol α) (events : List (Event α)) : Option (List (Act α)) :=
  let past := [.init p.init]
  match p.init with
  | .panic v => some (deferred past .nil (.panicked v))
  | .nil => some (deferred past .nil (.panicked .runtimeError))
  | .result initState =>
      match initState.flag with
      | .terminal => some (deferred past .nil (.returned .init .nil))
      | .ok =>
          (handleLoop p events (past ++ [.start]) initState.state).map fun end_ =>
            deferred end_.1 end_.2.1 end_.2.2

/-! ## What is expected -/

/-- The state that comes with a reply. -/
def Outcome.newState (r : Outcome α (Reply α)) : Option (Value α) :=
  match r with
  | .result reply => some reply.newState
  | .nil => none
  | .panic _ => none

/-- The state that a handler call has returned. -/
def Act.newState : Act α → Option (Value α)
  | .init (.result initState) => if initState.flag = .ok then some initState.state else none
  | .handleBytes _ _ r => r.newState
  | .handleInfo _ _ r => r.newState
  | _ => none

/-- The state of the last handler call that returned one, or nil. -/
def stateAfter (acts : List (Act α)) : Value α :=
  acts.foldl (fun state a => a.newState.getD state) .nil

/-- Why a handler call ends the connection. -/
def Outcome.cause (r : Outcome α (Reply α)) : Option Reason :=
  match r with
  | .panic _ => some .panic
  | .nil => some .panic
  | .result reply => if reply.reply = .terminal then some .normal else none

/-- Why what happens ends the connection. -/
def Act.cause : Act α → Option Reason
  | .init (.result initState) => if initState.flag = .terminal then some .init else none
  | .init _ => some .panic
  | .receive e =>
      match e.flag, e.content with
      | .connClose, _ => some .connClose
      | .readByteFromConn, .bytes _ => none
      | .readByteFromConn, _ => some .panic
      | _, _ => none
  | .handleBytes _ _ r => r.cause
  | .handleInfo _ _ r => r.cause
  | _ => none

/-- It is part of the clean-up: the call of `Terminal`, the clearing of `alive`, or the `Close`
of the connection. -/
def Act.cleans : Act α → Bool
  | .terminal .. => true
  | .dead => true
  | .close => true
  | _ => false

/-! ## One turn -/

def stateFrom (state : Value α) (acts : List (Act α)) : Value α :=
  acts.foldl (fun state a => a.newState.getD state) state

def Exit.reason : Exit α → Reason
  | .returned terminalRea _ => terminalRea
  | .panicked _ => .panic

/-- Nothing that has happened so far ends the connection, and `state` is the last one that a
handler has returned. -/
structure GoesOn (acts : List (Act α)) (state : Value α) : Prop where
  before : ∀ a ∈ acts, a.cleans = false
  causes : acts.findSome? Act.cause = none
  state : stateAfter acts = state

/-- Something that has happened ends the connection, the first such thing for `reason`, and
`state` is the last one that a handler has returned. -/
structure Ends (acts : List (Act α)) (state : Value α) (reason : Reason) : Prop where
  before : ∀ a ∈ acts, a.cleans = false
  causes : acts.findSome? Act.cause = some reason
  state : stateAfter acts = state

theorem stateAfter_append (acts more : List (Act α)) :
    stateAfter (acts ++ more) = stateFrom (stateAfter acts) more :=
  List.foldl_append ..

namespace GoesOn

variable {acts more : List (Act α)} {state : Value α}

theorem append (h : GoesOn acts state) (hbefore : ∀ a ∈ more, a.cleans = false)
    (hcauses : more.findSome? Act.cause = none) : GoesOn (acts ++ more) (stateFrom state more) := by
  refine ⟨?_, ?_, ?_⟩
  · intro a ha
    rcases List.mem_append.mp ha with ha | ha
    · exact h.before a ha
    · exact hbefore a ha
  · rw [List.findSome?_append, h.causes, Option.none_or, hcauses]
  · rw [stateAfter_append, h.state]

theorem ends (h : GoesOn acts state) (hbefore : ∀ a ∈ more, a.cleans = false) {reason : Reason}
    (hcauses : more.findSome? Act.cause = some reason) :
    Ends (acts ++ more) (stateFrom state more) reason := by
  refine ⟨?_, ?_, ?_⟩
  · intro a ha
    rcases List.mem_append.mp ha with ha | ha
    · exact h.before a ha
    · exact hbefore a ha
  · rw [List.findSome?_append, h.causes, Option.none_or, hcauses]
  · rw [stateAfter_append, h.state]

end GoesOn

/-- What a turn leads to from `past`. -/
def Leads (past : List (Act α)) : Turn α → Prop
  | .next acts state => GoesOn (past ++ acts) state
  | .exit acts state x => Ends (past ++ acts) state x.reason

theorem forall_single {P : Act α → Prop} {a : Act α} (h : P a) : ∀ b ∈ [a], P b := by
  intro b hb
  rw [List.mem_singleton.mp hb]
  exact h

/-- A handler has been called: what its result leads to is read off it alone, whichever
handler it was. -/
theorem GoesOn.afterReply {past : List (Act α)} {state : Value α} (h : GoesOn past state)
    {call : Act α} {r : Outcome α (Reply α)} (hcleans : call.cleans = false)
    (hcause : call.cause = r.cause) (hstate : call.newState = r.newState) :
    Leads past (afterReply call state r) := by
  have hcall : ∀ a ∈ [call], a.cleans = false := forall_single hcleans
  have hfrom : stateFrom state [call] = r.newState.getD state := by
    rw [← hstate]
    rfl
  have hends : ∀ {reason}, r.cause = some reason →
      Ends (past ++ [call]) (r.newState.getD state) reason := by
    intro reason hr
    rw [← hfrom]
    refine h.ends hcall ?_
    rw [List.findSome?_cons, hcause, hr]
  have hnext : r.cause = none → GoesOn (past ++ [call]) (r.newState.getD state) := by
    intro hr
    rw [← hfrom]
    refine h.append hcall ?_
    rw [List.findSome?_cons, hcause, hr]
    rfl
  cases r with
  | panic v => exact hends rfl
  | nil => exact hends rfl
  | result reply =>
      obtain ⟨flag, bytes, newState⟩ := reply
      cases flag with
      | terminal => exact hends rfl
      | noReply => exact hnext rfl
      | reply =>
          have hwrite : ∀ a ∈ [(Act.write bytes : Act α)], a.cleans = false := forall_single rfl
          have hgo := (hnext rfl).append hwrite rfl
          rw [List.append_assoc] at hgo
          exact hgo

/-- Every turn goes on, or ends the connection for the reason that its one handler call
gives. -/
theorem GoesOn.turn {past : List (Act α)} {state : Value α} (h : GoesOn past state) (p : Protocol α)
    (e : Event α) :
    Leads (past ++ [.receive e]) (turn p (past ++ [.receive e]) e state) := by
  have hreceive : ∀ a ∈ [Act.receive e], a.cleans = false := forall_single rfl
  obtain ⟨flag, content⟩ := e
  have hends : ∀ {reason}, (Act.receive ⟨flag, content⟩).cause = some reason →
      Ends (past ++ [.receive ⟨flag, content⟩] ++ []) state reason := by
    intro reason hr
    rw [List.append_nil]
    refine h.ends hreceive ?_
    rw [List.findSome?_cons, hr]
  have hnext : (Act.receive ⟨flag, content⟩).cause = none →
      GoesOn (past ++ [.receive ⟨flag, content⟩]) state := by
    intro hr
    refine h.append hreceive ?_
    rw [List.findSome?_cons, hr]
    rfl
  cases flag with
  | connClose => exact hends rfl
  | other =>
      have hgo := hnext rfl
      rw [← List.append_nil (past ++ _)] at hgo
      exact hgo
  | customInfo => exact (hnext rfl).afterReply rfl rfl rfl
  | readByteFromConn =>
      cases content with
      | bytes buf => exact (hnext rfl).afterReply rfl rfl rfl
      | nil | runtimeError | other => exact hends rfl

/-! ## The whole run -/

/-- A protocol that echoes, and gives nil for an info. -/
def echo : Protocol Nat :=
  { init := .result ⟨.ok, .other 0⟩
    handleBytes := fun past buf _ => .result ⟨.reply, buf, .other past.length⟩
    handleInfo := fun _ _ _ => .nil }

end Server

end Artorias
