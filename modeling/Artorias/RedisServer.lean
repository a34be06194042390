import Artorias.RedisQuery
import Artorias.ServerProgress

/-!
# The key-value server on the socket server

`NewSocketServer` with the `Protocol` of `protocol/redis`, and the clients of
`dial/redis` on the connections. `RedisNet` takes a call of `HandleBytes` for one step
that finds the bytes on the wire and leaves the reply there; here they go through
`readBytes`, the event channel, `handle` and `conn.Write`, each in its own time.

- `redisServer_refines`: the clients cannot tell the difference. What they have asked and
  been told is what they have in some run of `RedisNet`; in particular it is linearizable.
- `redisServer_replies`: nobody waits for ever. As long as a client waits and the
  connection is not broken, its worker can take a step, and it takes a bounded number of
  them before the reply is there.
-/

namespace Artorias

open Server (SharedProtocol Value Outcome Reply)

/-! ## The protocol -/

def toOctets (bs : Bytes) : List (BitVec 8) := bs.map UInt8.toBitVec

def ofOctets (bs : List (BitVec 8)) : Bytes := bs.map UInt8.ofBitVec

/-- The call of `HandleBytes` for a `*connState`; a runtime error leaves the store alone. -/
def redisHandleBytes (lim : Nat) (upper : Bytes → Bytes) (sb : StoreBlock) (buf : List (BitVec 8)) :
    Value ConnState → StoreBlock × Outcome ConnState (Reply ConnState)
  | .other state =>
      match handleBytes lim upper sb state (ofOctets buf) with
      | .ok (sb, state, .noReply) => (sb, .result ⟨.noReply, [], .other state⟩)
      | .ok (sb, state, .client replyBytes) =>
          (sb, .result ⟨.reply, toOctets replyBytes, .other state⟩)
      | .error _ => (sb, .panic .runtimeError)
  | _ => (sb, .panic .runtimeError)

/-- `HandleInfo` -/
def redisHandleInfo (sb : StoreBlock) :
    Value ConnState → StoreBlock × Outcome ConnState (Reply ConnState)
  | .other state => (sb, .result ⟨.noReply, [], .other state⟩)
  | _ => (sb, .panic .runtimeError)

/-- `Redis` -/
def redis (lim : Nat) (upper : Bytes → Bytes) : SharedProtocol StoreBlock ConnState where
  init := .result ⟨.ok, .other newConnState⟩
  handleBytes := redisHandleBytes lim upper
  handleInfo := fun sb _ state => redisHandleInfo sb state

/-! ## The server and its clients -/

/-- The call `op i` is the last one of client `i`. -/
structure RedisServer where
  host : Server.Host StoreBlock ConnState
  clients : Nat → QueryAt
  op : Nat → Nat
  hist : List (HistEvent (Nat × Nat) (List (Option Bytes)) Resp)

namespace RedisServer

def start : RedisServer := ⟨.start newStoreBlock, fun _ => .new, fun _ => 0, []⟩

def conn (s : RedisServer) (i : Nat) : Server.Conn ConnState := s.host.conns i

def setConn (s : RedisServer) (i : Nat) (c : Server.Conn ConnState) : RedisServer :=
  { s with host := s.host.setConn i c }

def setClient (s : RedisServer) (i : Nat) (c : QueryAt) : RedisServer :=
  { s with clients := Function.update s.clients i c }

/-- `Write(WrapMulitBulk(..))` -/
def asks (s : RedisServer) (i : Nat) (argv : List (Option Bytes)) (bs : Bytes) (at' : QueryAt) :
    RedisServer :=
  { (s.setConn i ((s.conn i).sends (toOctets bs))).setClient i at' with
    op := Function.update s.op i (s.op i + 1)
    hist := s.hist ++ [.call (i, s.op i + 1) argv] }

/-- `Read`, and `rest` is left. -/
def takes (s : RedisServer) (i : Nat) (buf rest : List (BitVec 8)) (c : QueryAt) : RedisServer :=
  (s.setConn i ((s.conn i).takes buf rest)).setClient i c

/-- The call of client `i` returns. -/
def returns (s : RedisServer) (i : Nat) (v : Resp) : RedisServer :=
  { s with hist := s.hist ++ [.ret (i, s.op i) v] }

/-- A client waits in `Read`. -/
def Waits (s : RedisServer) (i : Nat) : Prop :=
  s.clients i = .dialing ∨ ∃ p, s.clients i = .reading p

inductive Step (lim : Nat) (upper : Bytes → Bytes) : RedisServer → RedisServer → Prop where
  | serves {s : RedisServer} {h : Server.Host StoreBlock ConnState} :
      s.host.Serves (redis lim upper) h → Step lim upper s { s with host := h }
  | breaks {s : RedisServer} {i : Nat} {arrived unread : List (BitVec 8)} :
      arrived <+: (s.conn i).arrived → unread <+: (s.conn i).unread →
      Step lim upper s (s.setConn i ((s.conn i).breaks arrived unread))
  /-- A client that is not at work closes its connection. -/
  | ends {s : RedisServer} {i : Nat} : ¬s.Waits i →
      Step lim upper s (s.setConn i { s.conn i with ended := true })
  /-- `NewConn`, up to its `Read` -/
  | dial {s : RedisServer} {i : Nat} {db bs : Bytes} : s.clients i = .new →
      (s.conn i).ended = false → ArgsFit lim [some selectName, some db] →
      wrapMulitBulk 2 [some selectName, some db] = .ok bs →
        Step lim upper s (s.asks i [some selectName, some db] bs .dialing)
  /-- `Query`, up to its first `Read` -/
  | query {s : RedisServer} {i : Nat} {argv : List (Option Bytes)} {bs : Bytes} :
      s.clients i = .idle → (s.conn i).ended = false → ArgsFit lim argv →
      wrapMulitBulk argv.length argv = .ok bs →
        Step lim upper s (s.asks i argv bs (.reading newParser))
  | dialed {s : RedisServer} {i : Nat} {buf rest : List (BitVec 8)} : s.clients i = .dialing →
      (s.conn i).unread = buf ++ rest → buf ≠ [] → buf.length ≤ newConnBuf →
        ofOctets buf = okReply →
        Step lim upper s ((s.takes i buf rest .idle).returns i (.status okText))
  | refused {s : RedisServer} {i : Nat} {buf rest : List (BitVec 8)} : s.clients i = .dialing →
      (s.conn i).unread = buf ++ rest → buf ≠ [] → buf.length ≤ newConnBuf →
        ofOctets buf ≠ okReply →
        Step lim upper s (s.takes i buf rest .failed)
  /-- A turn of the loop in `Query`, and no command yet -/
  | more {s : RedisServer} {i n : Nat} {p p' : Parser} {buf rest : List (BitVec 8)} :
      s.clients i = .reading p → (s.conn i).unread = buf ++ rest → buf ≠ [] →
        buf.length ≤ queryBuf →
      p.write lim (ofOctets buf) = .ok (p', n) → p'.getCommand = none →
        Step lim upper s (s.takes i buf rest (.reading p'))
  | last {s : RedisServer} {i n : Nat} {p p' : Parser} {buf rest : List (BitVec 8)} {rc : Ref}
      {v : Resp} : s.clients i = .reading p → (s.conn i).unread = buf ++ rest → buf ≠ [] →
      buf.length ≤ queryBuf → p.write lim (ofOctets buf) = .ok (p', n) → p'.getCommand = some rc →
      Denotes p'.commands rc v →
        Step lim upper s ((s.takes i buf rest .idle).returns i v)
  /-- `Read` returns an error. -/
  | fails {s : RedisServer} {i : Nat} : s.Waits i → Step lim upper s (s.setClient i .failed)

def Reach (lim : Nat) (upper : Bytes → Bytes) (s : RedisServer) : Prop :=
  Relation.ReflTransGen (Step lim upper) start s

end RedisServer

/-! ## The same in `RedisNet` -/

/-- What is left of a request. -/
def leftOf (waiting : Option (List (Option Bytes) × Bytes)) : Bytes := waiting.elim [] Prod.snd

/-- One connection of the program, and what `RedisNet` has for it: the state of the handler,
what is left of the request, and the reply. What is in the channel and in the buffers is of
the request that `RedisNet` has still on the wire. -/
structure Mirrors (c : Server.Conn ConnState) (st : ConnState)
    (waiting : Option (List (Option Bytes) × Bytes)) (replies : Bytes) : Prop where
  state : c.parties.handle ≠ .init → c.state = .other st
  before : c.parties.handle = .init → st = newConnState
  /-- What `RedisNet` has on the wire may have been read already, or lost. -/
  request : ∃ lost, leftOf waiting = ofOctets (c.parties.data ++ c.arrived) ++ lost
    ∧ (c.broken = false → lost = [])
  reply : ofOctets c.unread <+: replies
  allReplied : c.broken = false → ofOctets (c.unread ++ c.writing.getD []) = replies
  /-- Only the client ends a connection. -/
  open' : c.ended = false → c.parties.handle = .init ∨ c.parties.handle.Serving

structure RedisServer.Refines (s : RedisServer) (t : RedisNet) : Prop where
  clients : t.clients = s.clients
  op : t.op = s.op
  hist : t.hist = s.hist
  store : t.server.store = s.host.shared
  conns : ∀ i, Mirrors (s.conn i) (t.server.conns i) (t.server.waiting i) (t.replies i)

section

variable {lim : Nat} {upper : Bytes → Bytes}

@[simp] theorem ofOctets_toOctets (bs : Bytes) : ofOctets (toOctets bs) = bs :=
  List.map_map.trans (List.map_id bs)

@[simp] theorem ofOctets_nil : ofOctets [] = [] := rfl

@[simp] theorem ofOctets_append (bs cs : List (BitVec 8)) :
    ofOctets (bs ++ cs) = ofOctets bs ++ ofOctets cs := List.map_append

@[simp] theorem ofOctets_eq_nil {bs : List (BitVec 8)} : ofOctets bs = [] ↔ bs = [] :=
  List.map_eq_nil_iff

@[simp] theorem toOctets_eq_nil {bs : Bytes} : toOctets bs = [] ↔ bs = [] := List.map_eq_nil_iff

@[simp] theorem ofOctets_length (bs : List (BitVec 8)) : (ofOctets bs).length = bs.length :=
  List.length_map ..

/-! ## Steps of a worker -/

namespace Mirrors

variable {c c' : Server.Conn ConnState} {st : ConnState}
  {waiting : Option (List (Option Bytes) × Bytes)} {replies : Bytes}

/-- The goroutines move, and bytes with them: `RedisNet` does not look inside, and to it
nothing has happened. -/
theorem moves (h : Mirrors c st waiting replies) {ps : Server.Parties ConnState}
    {arrived : List (BitVec 8)} (hdata : ps.data ++ arrived = c.parties.data ++ c.arrived)
    (hinit : ps.handle = .init ↔ c.parties.handle = .init)
    (hopen : c.ended = false → c.parties.handle.Serving → ps.handle.Serving) :
    Mirrors { c with parties := ps, arrived := arrived } st waiting replies where
  state := fun hne => h.state fun heq => hne (hinit.mpr heq)
  before := fun heq => h.before (hinit.mp heq)
  request := by
    obtain ⟨lost, hleft, hlost⟩ := h.request
    exact ⟨lost, by rw [hleft, ← hdata], hlost⟩
  reply := h.reply
  allReplied := h.allReplied
  open' := fun he => (h.open' he).imp hinit.mpr (hopen he)

/-- `handle` is on its way out, so the client has closed the connection and asks for
nothing. -/
theorem leaves (h : Mirrors c st waiting replies) {ps : Server.Parties ConnState}
    (hinit : c.parties.handle ≠ .init) (hserving : ¬c.parties.handle.Serving)
    (hevents : c.parties.handle.events = []) (hevents' : ps.handle.events = [])
    (hinit' : ps.handle ≠ .init) (hchannel : ps.eventChannel = c.parties.eventChannel)
    (hreader : ps.reader = c.parties.reader) :
    Mirrors { c with parties := ps } st waiting replies := by
  have hdata : ps.data ++ c.arrived = c.parties.data ++ c.arrived := by
    rw [Server.Parties.data, Server.Parties.events, Server.Parties.data, Server.Parties.events,
      hevents,
      hevents', hchannel, hreader]
  exact h.moves hdata ⟨fun heq => absurd heq hinit', fun heq => absurd heq hinit⟩ fun _ hs =>
    absurd hs hserving

theorem init (h : Mirrors c st waiting replies) (hc : c.Works) (hinit : c.parties.handle = .init) :
    Mirrors { c with
      parties := c.parties.afterInit (redis lim upper).init
      state := (redis lim upper).initState } st waiting replies := by
  have hst := h.before hinit
  have hdata : (c.parties.afterInit (redis lim upper).init).data = c.parties.data := by
    simp [Server.Parties.afterInit, redis, Server.Outcome.starts, Server.Parties.data,
      Server.Parties.events, hinit, hc.idle hinit]
  obtain ⟨lost, hleft, hlost⟩ := h.request
  refine ⟨fun _ => ?_, fun heq => ?_, ⟨lost, ?_, hlost⟩, h.reply, h.allReplied, fun _ => .inr ?_⟩
  · rw [hst]
    rfl
  · cases heq
  · dsimp only
    rw [hleft, hdata]
  · trivial

/-- The handler has been called with the next piece, and `rest` is left of the request: what
it leaves mirrors what `HandleBytes` has left in `RedisNet`. -/
theorem handled (h : Mirrors c st waiting replies) {e : Server.Event ConnState}
    (he : c.parties.handle = .handling e) (hwriting : c.writing = none) {t : Server.Turn ConnState}
    {st' : ConnState} {waiting' : Option (List (Option Bytes) × Bytes)} {replies' : Bytes}
    (hstate : t.state = .other st') (hleft : leftOf waiting = ofOctets e.data ++ leftOf waiting')
    (hreplies : replies ++ ofOctets (t.writes.getD []) = replies')
    (hopen : c.ended = false → t.leads = .receive) :
    Mirrors (c.turned t) st' waiting' replies' := by
  have hevents : c.parties.data = e.data ++ ((c.turned t).parties).data := by
    simp [Server.Parties.data, Server.Parties.events, he, Server.Conn.turned, Server.Conn.setHandle]
  obtain ⟨lost, hrequest, hlost⟩ := h.request
  refine ⟨fun _ => hstate, fun heq => absurd heq (Server.leads_ne_init t), ⟨lost, ?_, hlost⟩, ?_,
    fun hb => ?_,
    fun hended => .inr ?_⟩
  · rw [hleft, hevents, List.append_assoc, ofOctets_append, List.append_assoc] at hrequest
    exact List.append_cancel_left hrequest
  · rw [← hreplies]
    exact h.reply.trans (List.prefix_append _ _)
  · have hall := h.allReplied hb
    rw [hwriting, Option.getD_none, List.append_nil] at hall
    rw [← hreplies, ← hall, ← ofOctets_append]
    rfl
  · change t.leads.Serving
    rw [hopen hended]
    trivial

end Mirrors

/-- A turn of the loop of `handle` for data that `HandleBytes` takes without a panic: the
store, the state and the reply are those of `HandleBytes`, and the loop goes on. -/
theorem redis_turn {sb store : StoreBlock} {st st' : ConnState} {buf : List (BitVec 8)}
    {reply : ProtocolReply}
    (hrun : handleBytes lim upper sb st (ofOctets buf) = .ok (store, st', reply)) :
    (redis lim upper).sharedAfter sb ⟨.readByteFromConn, .bytes buf⟩ (.other st) = store
      ∧ ∃ t, Server.turn ((redis lim upper).given sb) [] ⟨.readByteFromConn, .bytes buf⟩ (.other st)
          = t ∧ t.state = .other st' ∧ ofOctets (t.writes.getD []) = reply.bytes
        ∧ t.leads = .receive := by
  cases reply with
  | noReply =>
      have hhandle : redisHandleBytes lim upper sb buf (.other st)
          = (store, .result ⟨.noReply, [], .other st'⟩) := by
        rw [redisHandleBytes, hrun]
      have hturn :
          Server.turn ((redis lim upper).given sb) [] ⟨.readByteFromConn, .bytes buf⟩ (.other st)
          = .next [.handleBytes buf (.other st) (.result ⟨.noReply, [], .other st'⟩)]
            (.other st') := by
        simp [Server.turn, SharedProtocol.given, redis, hhandle, Server.afterReply]
      exact ⟨congrArg Prod.fst hhandle, _, hturn, rfl, rfl, rfl⟩
  | client replyBytes =>
      have hhandle : redisHandleBytes lim upper sb buf (.other st)
          = (store, .result ⟨.reply, toOctets replyBytes, .other st'⟩) := by
        rw [redisHandleBytes, hrun]
      have hturn :
          Server.turn ((redis lim upper).given sb) [] ⟨.readByteFromConn, .bytes buf⟩ (.other st)
          = .next [.handleBytes buf (.other st) (.result ⟨.reply, toOctets replyBytes, .other st'⟩),
            .write (toOctets replyBytes)] (.other st') := by
        simp [Server.turn, SharedProtocol.given, redis, hhandle, Server.afterReply]
      exact ⟨congrArg Prod.fst hhandle, _, hturn, rfl, ofOctets_toOctets _, rfl⟩

/-- What a call of `HandleBytes` leaves of the client's request. -/
def ProtocolReply.leaves (argv : List (Option Bytes)) (rest : Bytes) :
    ProtocolReply → Option (List (Option Bytes) × Bytes)
  | .noReply => some (argv, rest)
  | .client _ => none

/-- The worker makes a call of `HandleBytes` for the next piece of the request. -/
def HandlesPiece (lim : Nat) (upper : Bytes → Bytes) (sb store : StoreBlock)
    (c' : Server.Conn ConnState) (st : ConnState)
    (waiting : Option (List (Option Bytes) × Bytes)) (replies : Bytes) : Prop :=
  ∃ argv piece rest st' reply, waiting = some (argv, piece ++ rest)
    ∧ handleBytes lim upper sb st piece = .ok (store, st', reply)
    ∧ Mirrors c' st' (reply.leaves argv rest) (replies ++ reply.bytes)

section

variable {sb sb' : StoreBlock} {c c' : Server.Conn ConnState} {st : ConnState}
  {waiting : Option (List (Option Bytes) × Bytes)} {replies : Bytes}

theorem Mirrors.delivers (h : Mirrors c st waiting replies)
    (hbusy : ∀ argv left, waiting = some (argv, left) → MidRequest lim st argv left)
    {buf : List (BitVec 8)} (he : c.parties.handle = .handling ⟨.readByteFromConn, .bytes buf⟩)
    (hbuf : buf ≠ []) (hwriting : c.writing = none) :
    HandlesPiece lim upper sb
      ((redis lim upper).sharedAfter sb ⟨.readByteFromConn, .bytes buf⟩ c.state)
      (c.turned (Server.turn ((redis lim upper).given sb) []
        ⟨.readByteFromConn, .bytes buf⟩ c.state))
      st waiting replies := by
  have hstate : c.state = .other st := h.state (by simp [he])
  obtain ⟨lost, hrequest, -⟩ := h.request
  have hdata : c.parties.data = buf ++ (c.parties.eventChannel ++ c.parties.reader.events).flatMap
      Server.Event.data := by
    simp [Server.Parties.data, Server.Parties.events, he, Server.Event.data]
  rw [hdata, List.append_assoc, ofOctets_append, List.append_assoc] at hrequest
  cases hw : waiting with
  | none =>
      rw [hw] at hrequest
      exact absurd (ofOctets_eq_nil.mp (List.append_eq_nil_iff.mp hrequest.symm).1) hbuf
  | some request =>
      obtain ⟨argv, left⟩ := request
      rw [hw] at hrequest
      change left = _ at hrequest
      have hmid := hbusy argv left hw
      rw [hrequest] at hmid
      obtain ⟨store, st', reply, hrun, hreply⟩ : ∃ store st' reply,
          handleBytes lim upper sb st (ofOctets buf) = .ok (store, st', reply)
            ∧ (reply ≠ .noReply ↔ _ = []) := hmid.handleBytes_reply sb
      obtain ⟨hshared, t, ht, htstate, htwrites, htleads⟩ := redis_turn hrun
      rw [hstate, ht, hshared]
      refine ⟨argv, _, _, st', reply, by rw [hrequest], hrun, ?_⟩
      refine h.handled he hwriting htstate ?_ (by rw [htwrites]) fun _ => htleads
      rw [hw, leftOf, Option.elim_some, hrequest]
      cases reply with
      | noReply => rfl
      | client replyBytes =>
          rw [hreply.mp (by simp)]
          rfl

/-- A step of a worker is a call of `HandleBytes` for a piece of the request, or nothing
that the client could tell. -/
theorem Mirrors.step (h : Mirrors c st waiting replies) (hc : c.Works) (ha : c.Alert)
    (hbusy : ∀ argv left, waiting = some (argv, left) → MidRequest lim st argv left)
    (hstep : c.Step (redis lim upper) sb sb' c') :
    HandlesPiece lim upper sb sb' c' st waiting replies
      ∨ sb' = sb ∧ Mirrors c' st waiting replies := by
  cases hstep with
  | init _ hinit => exact .inr ⟨rfl, h.init hc hinit⟩
  | receive hh _ hchannel =>
      refine .inr ⟨rfl, h.moves ?_ ?_ fun _ _ => ?_⟩
      · simp [Server.Parties.data, Server.Parties.events, hh, hchannel]
      · simp [hh]
      · trivial
  | @handled e hh =>
      have hsound : e.Sound c.ended := ha.events e (by simp [Server.Parties.events, hh])
      have hwriting : c.writing = none := by
        by_contra hne
        have hrec := hc.writes hne
        rw [hh] at hrec
        cases hrec
      have hstate : c.state = .other st := h.state (by simp [hh])
      obtain ⟨flag, content⟩ := e
      cases flag with
      | readByteFromConn =>
          cases content with
          | bytes buf => exact .inl (h.delivers hbusy hh hsound hwriting)
          | nil | runtimeError | other => exact False.elim hsound
      | customInfo =>
          refine .inr ⟨?_, ?_⟩
          · rw [hstate]
            rfl
          · rw [hstate]
            exact h.handled hh hwriting rfl rfl (List.append_nil _) fun _ => rfl
      | connClose =>
          refine .inr ⟨rfl, h.handled hh hwriting hstate rfl (List.append_nil _) fun hended => ?_⟩
          have hended' : c.ended = true := hsound
          rw [hended] at hended'
          cases hended'
      | other => exact False.elim hsound
  | write hw hb =>
      have hall := h.allReplied hb
      rw [hw, Option.getD_some] at hall
      refine .inr ⟨rfl, h.state, h.before, h.request, ?_, fun _ => ?_, h.open'⟩
      · exact ⟨[], (List.append_nil _).trans hall⟩
      · dsimp only
        rw [Option.getD_none, List.append_nil, hall]
  | @writePart buf rest hw hb =>
      have hall := h.allReplied hb
      rw [hw, Option.getD_some, ← List.append_assoc, ofOctets_append] at hall
      obtain ⟨lost, hleft, hlost⟩ := h.request
      refine .inr ⟨rfl, h.state, h.before, ⟨lost, hleft, fun h => by cases h⟩, ⟨_, hall⟩,
        fun h => (by cases h), h.open'⟩
  | writeFails hw hb =>
      refine .inr ⟨rfl, h.state, h.before, h.request, h.reply, fun hb' => ?_, h.open'⟩
      rw [hb] at hb'
      cases hb'
  | terminal hh | dead hh | close hh =>
      refine .inr ⟨rfl, h.leaves ?_ ?_ ?_ rfl ?_ rfl rfl⟩
      · simp [hh]
      · rw [hh]
        exact id
      · rw [hh]
        rfl
      · simp
  | send =>
      refine .inr ⟨rfl, h.moves ?_ Iff.rfl fun _ => id⟩
      simp [Server.Parties.data, Server.Parties.events, Server.Parties.put, Server.Event.data]
  | check hr =>
      refine .inr ⟨rfl, h.moves ?_ Iff.rfl fun _ => id⟩
      simp [Server.Parties.data, Server.Parties.events, hr]
  | read hr harr =>
      refine .inr ⟨rfl, h.moves ?_ Iff.rfl fun _ => id⟩
      simp [Server.Conn.setReader, Server.Parties.data, Server.Parties.events, hr, harr,
        Server.afterRead, Server.Event.data, Server.dataEvent]
  | readEof hr =>
      refine .inr ⟨rfl, h.moves ?_ Iff.rfl fun _ => id⟩
      simp [Server.Parties.data, Server.Parties.events, hr, Server.afterRead, Server.Event.data,
        Server.closeEvent]
  | readError hr =>
      refine .inr ⟨rfl, h.moves ?_ Iff.rfl fun _ => id⟩
      simp [Server.Parties.data, Server.Parties.events, hr, Server.afterRead]
  | put hr =>
      refine .inr ⟨rfl, h.moves ?_ Iff.rfl fun _ => id⟩
      simp [Server.Parties.data, Server.Parties.events, Server.Parties.put, hr]

end

/-! ## Steps of a client and of the network -/

namespace Mirrors

variable {c : Server.Conn ConnState} {st : ConnState}
  {waiting : Option (List (Option Bytes) × Bytes)}
  {replies : Bytes}

theorem sends (h : Mirrors c st none replies) (argv : List (Option Bytes)) (bs : Bytes) :
    Mirrors (c.sends (toOctets bs)) st (some (argv, bs)) replies := by
  refine ⟨h.state, h.before, ?_, h.reply, h.allReplied, h.open'⟩
  obtain ⟨lost, hleft, -⟩ := h.request
  -- nothing is left of an earlier request
  obtain ⟨hnil, -⟩ := List.append_eq_nil_iff.mp hleft.symm
  obtain ⟨hdata, harrived⟩ := List.append_eq_nil_iff.mp (ofOctets_eq_nil.mp hnil)
  dsimp only [Server.Conn.sends, leftOf, Option.elim_some]
  rw [hdata, harrived]
  split
  · next hb => exact ⟨bs, rfl, fun hb' => by rw [hb] at hb'; cases hb'⟩
  · exact ⟨[], by simp, fun _ => rfl⟩

/-- What the client reads is the beginning of what it has not read in `RedisNet`. -/
theorem takes (h : Mirrors c st waiting replies) {buf rest : List (BitVec 8)}
    (hunread : c.unread = buf ++ rest) : ∃ rest', replies = ofOctets buf ++ rest'
      ∧ Mirrors (c.takes buf rest) st waiting rest' := by
  obtain ⟨more, hreplies⟩ := h.reply
  rw [hunread, ofOctets_append, List.append_assoc] at hreplies
  refine ⟨_, hreplies.symm, h.state, h.before, h.request, List.prefix_append _ _, fun hb => ?_,
    h.open'⟩
  have hall := h.allReplied hb
  rw [hunread, ← hreplies, List.append_assoc, ofOctets_append] at hall
  exact List.append_cancel_left hall

theorem breaks (h : Mirrors c st waiting replies) {arrived unread : List (BitVec 8)}
    (harrived : arrived <+: c.arrived) (hunread : unread <+: c.unread) :
    Mirrors (c.breaks arrived unread) st waiting replies := by
  obtain ⟨lost, hleft, -⟩ := h.request
  obtain ⟨gone, hgone⟩ := harrived
  obtain ⟨gone', hgone'⟩ := hunread
  refine ⟨h.state, h.before, ⟨ofOctets gone ++ lost, ?_, fun hb => by cases hb⟩, ?_,
    fun hb => (by cases hb), h.open'⟩
  · rw [hleft, ← hgone]
    simp [Server.Conn.breaks]
  · refine List.IsPrefix.trans ⟨ofOctets gone', ?_⟩ h.reply
    rw [← hgone', ofOctets_append]
    rfl

theorem ends (h : Mirrors c st waiting replies) :
    Mirrors { c with ended := true } st waiting replies :=
  ⟨h.state, h.before, h.request, h.reply, h.allReplied, fun hended => by cases hended⟩

theorem accepted (h : Mirrors c st waiting replies) :
    Mirrors { c with accepted := true } st waiting replies :=
  ⟨h.state, h.before, h.request, h.reply, h.allReplied, h.open'⟩

end Mirrors

theorem mirrors_new : Mirrors Server.newConn newConnState none [] where
  state := fun h => absurd rfl h
  before := fun _ => rfl
  request := ⟨[], rfl, fun _ => rfl⟩
  reply := List.prefix_rfl
  allReplied := fun _ => rfl
  open' := fun _ => .inl rfl

theorem answered_server (t : RedisNet) (i : Nat) (argv : List (Option Bytes)) (rest : Bytes)
    (store : StoreBlock) (state : ConnState) (reply : ProtocolReply) :
    (t.answered i argv rest store state reply).server.store = store
      ∧ (t.answered i argv rest store state reply).server.conns
        = Function.update t.server.conns i state
      ∧ (t.answered i argv rest store state reply).server.waiting
        = Function.update t.server.waiting i (reply.leaves argv rest) := by
  cases reply <;> exact ⟨rfl, rfl, rfl⟩

end

/-! ## Steps of the whole -/

namespace RedisServer

variable {lim : Nat} {upper : Bytes → Bytes} {s s' : RedisServer} {t : RedisNet} {i : Nat}

@[simp] theorem setConn_same (s : RedisServer) (i : Nat) (c : Server.Conn ConnState) :
    (s.setConn i c).conn i = c := s.host.setConn_same i c

theorem setConn_other (s : RedisServer) {i j : Nat} (hj : j ≠ i) (c : Server.Conn ConnState) :
    (s.setConn i c).conn j = s.conn j := s.host.setConn_other hj c

theorem forall_setConn {P : Nat → Server.Conn ConnState → Prop} (h : ∀ j, P j (s.conn j))
    {c : Server.Conn ConnState} (hc : P i c) (j : Nat) : P j ((s.setConn i c).conn j) := by
  by_cases hj : j = i
  · subst hj
    rwa [setConn_same]
  · rw [setConn_other s hj]
    exact h j

/-- The workers are in order: each does what its channel tells it and hears of the end of
its connection, and a client that has closed its connection does not wait. -/
structure Orderly (s : RedisServer) : Prop where
  works : ∀ i, (s.conn i).Works
  alert : ∀ i, (s.conn i).Alert
  /-- A client that has closed its connection does not wait. -/
  ended : ∀ i, (s.conn i).ended = true → ¬s.Waits i

namespace Orderly

theorem setConn (h : s.Orderly) {c : Server.Conn ConnState} (hw : c.Works) (ha : c.Alert)
    (hended : c.ended = true → ¬s.Waits i) : (s.setConn i c).Orderly where
  works := forall_setConn h.works hw
  alert := forall_setConn h.alert ha
  ended := @forall_setConn s i (fun j c => c.ended = true → ¬s.Waits j) h.ended c hended

theorem setClient (h : s.Orderly) {c : QueryAt} (hi : (s.conn i).ended = false) :
    (s.setClient i c).Orderly where
  works := h.works
  alert := h.alert
  ended := fun j hj => by
    have hne : j ≠ i := by
      rintro rfl
      change (s.conn j).ended = true at hj
      rw [hi] at hj
      cases hj
    simpa [Waits, RedisServer.setClient, hne] using h.ended j hj

theorem open_of_waits (h : s.Orderly) (hi : s.Waits i) : (s.conn i).ended = false :=
  Bool.eq_false_iff.mpr fun hended => h.ended i hended hi

theorem takes (h : s.Orderly) (hi : s.Waits i) {buf rest : List (BitVec 8)}
    (hunread : (s.conn i).unread = buf ++ rest) (c : QueryAt) : (s.takes i buf rest c).Orderly := by
  have hworld : (s.conn i).World ((s.conn i).takes buf rest) := .takes hunread
  have hopen : ((s.conn i).takes buf rest).ended = false := h.open_of_waits hi
  refine (h.setConn (hworld.works (h.works i))
    (hworld.alert (h.alert i)) fun hended => ?_).setClient ?_
  · rw [hopen] at hended
    cases hended
  · rw [setConn_same]
    exact hopen

theorem asks (h : s.Orderly) (hi : (s.conn i).ended = false) (argv : List (Option Bytes))
    (bs : Bytes) (c : QueryAt) : (s.asks i argv bs c).Orderly := by
  have hworld : (s.conn i).World ((s.conn i).sends (toOctets bs)) := .sends _ hi
  have hopen : ((s.conn i).sends (toOctets bs)).ended = false := hi
  have hconn : (s.setConn i ((s.conn i).sends (toOctets bs))).Orderly := by
    refine h.setConn (hworld.works (h.works i)) (hworld.alert (h.alert i)) fun hended => ?_
    rw [hopen] at hended
    cases hended
  have hclient : ((s.setConn i ((s.conn i).sends (toOctets bs))).setClient i c).Orderly := by
    refine hconn.setClient ?_
    rw [setConn_same]
    exact hopen
  exact ⟨hclient.works, hclient.alert, hclient.ended⟩

end Orderly

theorem start_orderly : start.Orderly where
  works := fun _ => Server.newConn_works
  alert := fun _ => Server.newConn_alert
  ended := fun _ h => by cases h

theorem Step.orderly (h : Step lim upper s s') (hs : s.Orderly) : s'.Orderly := by
  cases h with
  | serves hserves =>
      cases hserves with
      | @accept i =>
          have hw := hs.works i
          have ha := hs.alert i
          have hnew : (s.setConn i { s.conn i with accepted := true }).Orderly :=
            hs.setConn ⟨hw.idle, hw.writes⟩ ⟨ha.events, ha.dead, ha.started, ha.stopped⟩
              (hs.ended i)
          exact ⟨hnew.works, hnew.alert, hnew.ended⟩
      | retry => exact ⟨hs.works, hs.alert, hs.ended⟩
      | @worker i sh c hc =>
          have hended : c.ended = true → ¬s.Waits i := by
            rw [hc.ended]
            exact hs.ended i
          have hnew :=
            hs.setConn (hc.works (hs.works i)) (hc.alert (hs.works i) (hs.alert i)) hended
          exact ⟨hnew.works, hnew.alert, hnew.ended⟩
  | @breaks i _ _ harr hunread =>
      have hworld := Server.Conn.World.breaks harr hunread
      exact hs.setConn (hworld.works (hs.works i)) (hworld.alert (hs.alert i)) (hs.ended i)
  | @ends i hi =>
      have hworld : (s.conn i).World { s.conn i with ended := true } := .ends
      exact hs.setConn (hworld.works (hs.works i)) (hworld.alert (hs.alert i)) fun _ => hi
  | dial _ hi | query _ hi => exact hs.asks hi _ _ _
  | dialed hi hunread =>
      have htakes := hs.takes (.inl hi) hunread .idle
      exact ⟨htakes.works, htakes.alert, htakes.ended⟩
  | refused hi hunread => exact hs.takes (.inl hi) hunread .failed
  | more hi hunread => exact hs.takes (.inr ⟨_, hi⟩) hunread (.reading _)
  | last hi hunread =>
      have htakes := hs.takes (.inr ⟨_, hi⟩) hunread .idle
      exact ⟨htakes.works, htakes.alert, htakes.ended⟩
  | fails hi => exact hs.setClient (hs.open_of_waits hi)

/-! ## Refinement -/

namespace Refines

/-- A connection is replaced by one that mirrors the same, and `RedisNet` stays as it is. -/
theorem setConn (h : s.Refines t) {c : Server.Conn ConnState}
    (hc : Mirrors c (t.server.conns i) (t.server.waiting i) (t.replies i)) :
      (s.setConn i c).Refines t where
  clients := h.clients
  op := h.op
  hist := h.hist
  store := h.store
  conns := @forall_setConn s i
    (fun j c => Mirrors c (t.server.conns j) (t.server.waiting j) (t.replies j)) h.conns c hc

theorem delivers (h : s.Refines t) (ht : t.Reach lim upper) {sb : StoreBlock}
    {c : Server.Conn ConnState}
    (hc : HandlesPiece lim upper s.host.shared sb c (t.server.conns i) (t.server.waiting i)
      (t.replies i)) :
    ∃ t', t'.Reach lim upper
      ∧ RedisServer.Refines { s with host := { s.host.setConn i c with shared := sb } } t' := by
  obtain ⟨argv, piece, rest, st, reply, hwaiting, hrun, hmirrors⟩ := hc
  rw [← h.store] at hrun
  obtain ⟨hstore, hconns, hwaits⟩ := answered_server t i argv rest sb st reply
  refine ⟨_, ht.deliver hwaiting hrun, h.clients, h.op, h.hist, hstore, fun j => ?_⟩
  change Mirrors ((s.setConn i c).conn j) _ _ (Function.update t.replies i _ j)
  rw [hconns, hwaits]
  by_cases hj : j = i
  · subst hj
    rw [setConn_same, Function.update_self, Function.update_self, Function.update_self]
    exact hmirrors
  · rw [setConn_other s hj, Function.update_of_ne hj, Function.update_of_ne hj,
      Function.update_of_ne hj]
    exact h.conns j

theorem asks (h : s.Refines t) (hi : t.server.waiting i = none) (argv : List (Option Bytes))
    (bs : Bytes) (c : QueryAt) : (s.asks i argv bs c).Refines (t.asks i argv bs c) := by
  refine ⟨?_, ?_, ?_, h.store, fun j => ?_⟩
  · simp only [RedisNet.asks, RedisServer.asks, RedisServer.setClient, RedisServer.setConn,
      h.clients]
  · simp only [RedisNet.asks, RedisServer.asks, h.op]
  · simp only [RedisNet.asks, RedisServer.asks, h.hist, h.op]
  · change Mirrors ((s.setConn i ((s.conn i).sends (toOctets bs))).conn j) _
      (Function.update t.server.waiting i _ j) _
    have hconn := h.conns j
    by_cases hj : j = i
    · subst hj
      rw [hi] at hconn
      rw [setConn_same, Function.update_self]
      exact hconn.sends argv bs
    · rw [setConn_other s hj, Function.update_of_ne hj]
      exact hconn

theorem takes (h : s.Refines t) {buf rest : List (BitVec 8)}
    (hunread : (s.conn i).unread = buf ++ rest)
    (c : QueryAt) : ∃ rest', t.replies i = ofOctets buf ++ rest'
      ∧ (s.takes i buf rest c).Refines (t.takes i rest' c) := by
  obtain ⟨rest', hreplies, hmirrors⟩ := (h.conns i).takes hunread
  refine ⟨rest', hreplies, ?_, h.op, h.hist, h.store, fun j => ?_⟩
  · simp only [RedisNet.takes, RedisNet.setClient, RedisServer.takes, RedisServer.setClient,
      RedisServer.setConn, h.clients]
  · change Mirrors ((s.setConn i ((s.conn i).takes buf rest)).conn j) _ _
      (Function.update t.replies i rest' j)
    by_cases hj : j = i
    · subst hj
      rw [setConn_same, Function.update_self]
      exact hmirrors
    · rw [setConn_other s hj, Function.update_of_ne hj]
      exact h.conns j

theorem returns (h : s.Refines t) (i : Nat) (v : Resp) :
    (s.returns i v).Refines (t.returns i v) := by
  refine ⟨h.clients, h.op, ?_, h.store, h.conns⟩
  simp only [RedisNet.returns, RedisServer.returns, h.hist, h.op]

theorem setClient (h : s.Refines t) (i : Nat) (c : QueryAt) :
    (s.setClient i c).Refines (t.setClient i c) := by
  refine ⟨?_, h.op, h.hist, h.store, h.conns⟩
  simp only [RedisNet.setClient, RedisServer.setClient, h.clients]

/-- A client that has no call under way has nothing on the wire, in `RedisNet` and so in the
program. -/
theorem not_waiting (h : s.Refines t) (ht : t.Reach lim upper)
    (hi : s.clients i = .new ∨ s.clients i = .idle) : t.server.waiting i = none := by
  obtain ⟨lin, hinv⟩ := ht.inv
  have hc := hinv.clients i
  rw [h.clients] at hc
  rcases hi with hi | hi <;> rw [hi] at hc <;> exact hc.1

end Refines

/-- One step of the program: `RedisNet` can take a step to what it then refines, or is
refined still. Only a call of `HandleBytes`, a call of a client, its end and what the client
reads are steps of `RedisNet`. -/
theorem Step.refines (h : Step lim upper s s') (hs : s.Orderly) (ht : t.Reach lim upper)
    (hr : s.Refines t) : ∃ t', t'.Reach lim upper ∧ s'.Refines t' := by
  cases h with
  | serves hserves =>
      cases hserves with
      | @accept i =>
          have hnew := hr.setConn (hr.conns i).accepted
          exact ⟨t, ht, hnew.clients, hnew.op, hnew.hist, hnew.store, hnew.conns⟩
      | retry => exact ⟨t, ht, hr.clients, hr.op, hr.hist, hr.store, hr.conns⟩
      | @worker i sh c hc =>
          obtain ⟨lin, hinv⟩ := ht.inv
          have hbusy := (served_inv hinv.served).busy i
          rcases (hr.conns i).step (hs.works i) (hs.alert i) hbusy hc with hd | ⟨rfl, hquiet⟩
          · exact hr.delivers ht hd
          · have hnew := hr.setConn hquiet
            exact ⟨t, ht, hnew.clients, hnew.op, hnew.hist, hnew.store, hnew.conns⟩
  | @breaks i _ _ harr hunread => exact ⟨t, ht, hr.setConn ((hr.conns i).breaks harr hunread)⟩
  | @ends i => exact ⟨t, ht, hr.setConn (hr.conns i).ends⟩
  | dial hi _ hfits hbs =>
      have hnew : t.clients _ = .new := (congrFun hr.clients _).trans hi
      exact ⟨_, ht.dial hnew hfits hbs, hr.asks (hr.not_waiting ht (.inl hi)) _ _ _⟩
  | query hi _ hfits hbs =>
      have hidle : t.clients _ = .idle := (congrFun hr.clients _).trans hi
      exact ⟨_, ht.query hidle hfits hbs, hr.asks (hr.not_waiting ht (.inr hi)) _ _ _⟩
  | @dialed i buf rest hi hunread hbuf hlen hok =>
      obtain ⟨rest', hreplies, hnew⟩ := hr.takes hunread .idle
      have hdialing : t.clients i = .dialing := (congrFun hr.clients i).trans hi
      exact ⟨_, ht.dialed hdialing hreplies (by simpa using hbuf) (by simpa using hlen) hok,
        hnew.returns i _⟩
  | @refused i buf rest hi hunread hbuf hlen hok =>
      obtain ⟨rest', hreplies, hnew⟩ := hr.takes hunread .failed
      have hdialing : t.clients i = .dialing := (congrFun hr.clients i).trans hi
      exact ⟨_, ht.refused hdialing hreplies (by simpa using hbuf) (by simpa using hlen) hok, hnew⟩
  | @more i n p p' buf rest hi hunread hbuf hlen hwrite hnone =>
      obtain ⟨rest', hreplies, hnew⟩ := hr.takes hunread (.reading p')
      have hreading : t.clients i = .reading p := (congrFun hr.clients i).trans hi
      exact ⟨_, ht.more hreading hreplies (by simpa using hbuf) (by simpa using hlen) hwrite hnone,
        hnew⟩
  | @last i n p p' buf rest rc v hi hunread hbuf hlen hwrite hget hv =>
      obtain ⟨rest', hreplies, hnew⟩ := hr.takes hunread .idle
      have hreading : t.clients i = .reading p := (congrFun hr.clients i).trans hi
      exact ⟨_, ht.last hreading hreplies (by simpa using hbuf)
        (by simpa using hlen) hwrite hget hv,
        hnew.returns i v⟩
  | @fails i hi =>
      have hwaits : t.clients i = .dialing ∨ ∃ p, t.clients i = .reading p := by
        rw [hr.clients]
        exact hi
      exact ⟨_, ht.fails hwaits, hr.setClient i .failed⟩

theorem start_refines : start.Refines .start where
  clients := rfl
  op := rfl
  hist := rfl
  store := rfl
  conns := fun _ => mirrors_new

theorem Reach.inv (h : s.Reach lim upper) : s.Orderly ∧ ∃ t, RedisNet.Reach lim upper t
    ∧ s.Refines t := by
  induction h with
  | refl => exact ⟨start_orderly, _, .start, start_refines⟩
  | tail _ hstep ih =>
      obtain ⟨hs, t, ht, hr⟩ := ih
      exact ⟨hstep.orderly hs, hstep.refines hs ht hr⟩

/-! ## The reply comes -/

/-- What happens while client `i` waits: `n` steps of its worker, and whatever the others
do. -/
inductive Goes (lim : Nat) (upper : Bytes → Bytes) (i : Nat) (s : RedisServer) : Nat → RedisServer →
    Prop where
  | refl : Goes lim upper i s 0 s
  | accept {s' : RedisServer} {n : Nat} : Goes lim upper i s n s' → (s'.conn i).accepted = false →
      Goes lim upper i s n { s' with
        host := { s'.host.setConn i { s'.conn i with accepted := true } with tempDelay := 0 } }
  | worker {s' : RedisServer} {n : Nat} {sb : StoreBlock} {c : Server.Conn ConnState} :
      Goes lim upper i s n s' → (s'.conn i).Step (redis lim upper) s'.host.shared sb c →
      Goes lim upper i s (n + 1) { s' with host := { s'.host.setConn i c with shared := sb } }
  | other {s' s'' : RedisServer} {n : Nat} : Goes lim upper i s n s' → Step lim upper s' s'' →
      s''.conn i = s'.conn i → s''.clients i = s'.clients i → Goes lim upper i s n s''

theorem Goes.reach {n : Nat} (h : Goes lim upper i s n s') (hs : s.Reach lim upper) :
    s'.Reach lim upper := by
  induction h with
  | refl => exact hs
  | accept _ hacc ih => exact ih.tail (.serves (.accept hacc))
  | worker _ hc ih => exact ih.tail (.serves (.worker hc))
  | other _ hstep _ _ ih => exact ih.tail hstep

theorem Goes.client {n : Nat} (h : Goes lim upper i s n s') : s'.clients i = s.clients i := by
  induction h with
  | refl => rfl
  | accept _ _ ih | worker _ _ ih => exact ih
  | other _ _ _ hclient ih => exact hclient.trans ih

/-- The worker of a client that waits is in its loop, since only the client could have ended
the connection. -/
theorem Reach.serving (h : s.Reach lim upper) (hi : s.Waits i) :
    (s.conn i).ended = false
      ∧ ((s.conn i).parties.handle = .init ∨ (s.conn i).parties.handle.Serving) := by
  obtain ⟨hs, t, -, hr⟩ := h.inv
  have hended := hs.open_of_waits hi
  exact ⟨hended, (hr.conns i).open' hended⟩

/-- While a client waits, each step of its worker takes one off what the worker has to do;
so it takes as many steps as it had to take, at most. -/
theorem Goes.work_le {n : Nat} (h : Goes lim upper i s n s') (hs : s.Reach lim upper)
    (hi : s.Waits i)
    (hb : (s'.conn i).broken = false) : n + (s'.conn i).work ≤ (s.conn i).work := by
  induction h with
  | refl => exact Nat.le_of_eq (Nat.zero_add _)
  | @accept s1 _ _ _ ih =>
      have hconn : (s1.setConn i { s1.conn i with accepted := true }).conn i
          = { s1.conn i with accepted := true } := setConn_same ..
      change ((s1.setConn i { s1.conn i with accepted := true }).conn i).broken = false at hb
      change _ + ((s1.setConn i { s1.conn i with accepted := true }).conn i).work ≤ _
      rw [hconn] at hb ⊢
      exact ih hb
  | @worker s1 n sb c hgo hc ih =>
      have hconn : (s1.setConn i c).conn i = c := setConn_same ..
      change ((s1.setConn i c).conn i).broken = false at hb
      change _ + ((s1.setConn i c).conn i).work ≤ _
      rw [hconn] at hb ⊢
      have hb1 : (s1.conn i).broken = false := hc.unbroken hb
      have hwaits : s1.Waits i := by
        rw [Waits, hgo.client]
        exact hi
      have hreach := hgo.reach hs
      obtain ⟨hended, hserving⟩ := hreach.serving hwaits
      have hopen : (s1.conn i).parties.handle ≠ .done := by
        intro heq
        rw [heq] at hserving
        rcases hserving with h | h
        · cases h
        · exact h
      have hlt := hc.work_lt (hreach.inv.1.works i) hended hb1 hopen
      have hle := ih hb1
      omega
  | other _ _ hconn _ ih =>
      rw [hconn] at hb ⊢
      exact ih hb

/-- A client that waits has its reply there, or its worker has a step to take: the request
is on its way, in the channel, or being handled. -/
theorem Reach.can_step (h : s.Reach lim upper) (hi : s.Waits i) (hb : (s.conn i).broken = false)
    (hunread : (s.conn i).unread = []) : (s.conn i).accepted = false
      ∨ ∃ sb c, (s.conn i).Step (redis lim upper) s.host.shared sb c := by
  obtain ⟨hs, t, ht, hr⟩ := h.inv
  obtain ⟨hended, hserving⟩ := h.serving hi
  obtain ⟨lin, hinv⟩ := ht.inv
  have hmirrors := hr.conns i
  cases hacc : (s.conn i).accepted with
  | false => exact .inl rfl
  | true =>
      refine .inr (Server.Conn.can_step _ _ (hs.alert i) hacc hserving hended ?_)
      have hawaits :
          ∃ sent p, AwaitsReply lim lin (t.server.waiting i) (t.replies i) (i, t.op i) sent p := by
        have hc := hinv.clients i
        rw [hr.clients] at hc
        rcases hi with hi | ⟨p, hi⟩ <;> rw [hi] at hc
        · exact ⟨_, _, hc⟩
        · obtain ⟨sent, hc⟩ := hc
          exact ⟨sent, p, hc⟩
      obtain ⟨sent, p, -, ⟨hsome, -⟩ | ⟨-, hne, -⟩⟩ := hawaits
      · -- the request is with the worker
        obtain ⟨⟨argv, left⟩, hwaiting⟩ := Option.isSome_iff_exists.mp hsome
        have hmid := (served_inv hinv.served).busy i argv left hwaiting
        obtain ⟨lost, hleft, hlost⟩ := hmirrors.request
        rw [hwaiting, hlost hb, List.append_nil] at hleft
        have hdata : (s.conn i).parties.data ++ (s.conn i).arrived ≠ [] := by
          intro hnil
          rw [hnil] at hleft
          exact hmid.nonempty hleft
        by_cases hd : (s.conn i).parties.data = []
        · rw [hd, List.nil_append] at hdata
          exact .inr (.inl hdata)
        · exact .inl hd
      · -- the reply is being written
        have hall := hmirrors.allReplied hb
        rw [hunread, List.nil_append] at hall
        refine .inr (.inr fun hnone => hne ?_)
        rw [← hall, hnone]
        rfl

end RedisServer

/-! ## What the clients see -/

section

variable {lim : Nat} {upper : Bytes → Bytes} {s s' : RedisServer}

/-- However the goroutines of the workers, the network and the clients take turns: the
clients have asked and been told what they have in a run of `RedisNet`, and so the same as
with a store that serves one call at a time. -/
theorem redisServer_refines (h : s.Reach lim upper) :
    (∃ t, RedisNet.Reach lim upper t ∧ s.Refines t)
      ∧ Linearizable (storeStep upper) newStoreBlock s.hist := by
  obtain ⟨-, t, ht, hr⟩ := h.inv
  obtain ⟨lin, hinv⟩ := ht.inv
  refine ⟨⟨t, ht, hr⟩, lin, ?_⟩
  rw [← hr.hist]
  exact hinv.linearizes

/-- While a client waits its worker takes no more steps than it had to take when the request
came, and as long as there is no reply it has one to take. -/
theorem redisServer_replies {i n : Nat} (h : s.Reach lim upper) (hi : s.Waits i)
    (hgo : RedisServer.Goes lim upper i s n s') (hb : (s'.conn i).broken = false) :
    n + (s'.conn i).work ≤ (s.conn i).work
      ∧ ((s'.conn i).unread = [] → (s'.conn i).accepted = false
        ∨ ∃ sb c, (s'.conn i).Step (redis lim upper) s'.host.shared sb c) := by
  have hi' : s'.Waits i := by
    rw [RedisServer.Waits, hgo.client]
    exact hi
  exact ⟨hgo.work_le h hi hb, (hgo.reach h).can_step hi' hb⟩

end

/-- The SELECT of client 0. -/
def select : List (Option Bytes) := [some selectName, some [48]]

/-- It has been sent, and the connection accepted. -/
def selecting : RedisServer :=
  { (RedisServer.start.asks 0 select (bulks select).encode .dialing) with
    host := { (RedisServer.start.asks 0 select (bulks select).encode .dialing).host.setConn 0
      { (RedisServer.start.asks 0 select (bulks select).encode .dialing).conn 0 with accepted :=
        true } with
        tempDelay := 0 } }

theorem select_fits : ArgsFit 8 select :=
  ⟨by simp [select], by simp [select], by simp [select], by simp [select, selectName]⟩

theorem reach_selecting : selecting.Reach 8 id := by
  have hdial : RedisServer.Step 8 id .start
      (RedisServer.start.asks 0 select (bulks select).encode .dialing) :=
    .dial rfl rfl select_fits (wrapMulitBulk_eq select)
  exact .tail (.single hdial) (.serves (.accept (i := 0) rfl))

/-- The SELECT of client 0 has been handled, and the reply to it is being written. -/
theorem redisServer_refines_select : ∃ s :
    RedisServer, ofOctets ((s.conn 0).writing.getD []) = okReply
    ∧ (∃ t, RedisNet.Reach 8 id t ∧ s.Refines t)
      ∧ Linearizable (storeStep id) newStoreBlock s.hist := by
  have h2 := reach_selecting.tail (.serves (.worker (i := 0) (.init rfl rfl)))
  have h3 := h2.tail (.serves (.worker (i := 0) (.check rfl)))
  have h4 := h3.tail (.serves (.worker (i := 0)
    (@Server.Conn.Step.read _ _ _ _ _ (toOctets (bulks select).encode) [] rfl rfl (by decide)
      (by decide))))
  have h5 := h4.tail (.serves (.worker (i := 0) (.put rfl (by decide))))
  have h6 := h5.tail (.serves (.worker (i := 0) (.receive rfl rfl rfl)))
  have h7 := h6.tail (.serves (.worker (i := 0) (.handled rfl)))
  refine ⟨_, ?_, redisServer_refines h7⟩
  have hrun : handleBytes 8 id newStoreBlock newConnState (bulks select).encode
      = .ok (storeAfter id newStoreBlock select, newConnState, .client okReply) :=
    (midRequest_new select_fits).handleBytes_last newStoreBlock
  rw [← ofOctets_toOctets (bulks select).encode] at hrun
  obtain ⟨-, t, ht, -, hwrites, -⟩ := redis_turn hrun
  exact (congrArg (fun t : Server.Turn ConnState => ofOctets (t.writes.getD [])) ht).trans hwrites

/-- The SELECT of client 0 is on its way, and the worker takes the first of its steps, the
call of `Init`. -/
theorem redisServer_replies_select : ∃ s, RedisServer.Goes 8 id 0 selecting 1 s
    ∧ 1 + (s.conn 0).work ≤ (selecting.conn 0).work
    ∧ ((s.conn 0).unread = [] → (s.conn 0).accepted = false
      ∨ ∃ sb c, (s.conn 0).Step (redis 8 id) s.host.shared sb c) := by
  have hgo : RedisServer.Goes 8 id 0 selecting 1 _ := .worker .refl (.init rfl rfl)
  exact ⟨_, hgo, redisServer_replies reach_selecting (.inl rfl) hgo rfl⟩

end Artorias
